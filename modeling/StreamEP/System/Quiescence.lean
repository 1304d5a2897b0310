import StreamEP.System.Passage

/-!
# Nothing is left behind

No call of a thread that has something to do fails, and a system in which no thread has anything to
do has finished every request: none is lost on its way, and the copies of a token never wait for
each other in different gathering pools.

## Why two results

A system at rest has nothing queued, but a thread that has raised is at rest too. `calls_succeed`
excludes that. It leaves one place where tokens could stay without any thread at work: a gathering
pool that waits for copies that never come. The fork and join invariant counts the copies of a
request, so when none is under way all of them are in pools, and of one layer.

## Main results

* `System.calls_succeed`
* `System.finished_of_quiescent`
-/

namespace StreamEP

open Relation Finset LayerScheduler

variable {W V : Type}

/-! ### Copies in gathering pools -/

def Device.held (dev : Device W V) : Multiset (ℕ × Copy V) :=
  gathered TokenTopKInfo.held dev.pool.topkPools

theorem mem_held {l : ℕ} {ts : List (TokenTopKInfo V)} {x : ℕ × Copy V}
    (hx : x ∈ (ts.map (TokenTopKInfo.held l)).sum) :
    ∃ t ∈ ts, t.seqId = x.1 ∧ x.2.layer = l ∧ x.2.attnDpRank = t.attnDpRank := by
  replace hx : x ∈ (↑ts : Multiset _).bind (TokenTopKInfo.held l) := hx
  obtain ⟨t, ht, hx⟩ := Multiset.mem_bind.mp hx
  obtain ⟨c, hc, rfl⟩ := Multiset.mem_map.mp hx
  obtain ⟨v, -, rfl⟩ := List.mem_map.mp (Multiset.mem_coe.mp hc)
  exact ⟨t, ht, rfl, rfl, rfl⟩

theorem Gathering.countP_copies_lt {k d : ℕ} {tp : TokenTopKPool V} (h : Gathering k d tp)
    (hk : 0 < k) (l r : ℕ) : (tp.copies l).countP (·.1 = r) < k := by
  have hother : ∀ ts : List (TokenTopKInfo V), (∀ t ∈ ts, t.seqId ≠ r) →
      (ts.map (TokenTopKInfo.held l)).sum.countP (·.1 = r) = 0 := by
    intro ts hts
    refine Multiset.countP_eq_zero.mpr fun x hx hid => ?_
    obtain ⟨t, ht, hx, -⟩ := mem_held hx
    exact hts t ht (hx.trans hid)
  by_cases hr : ∃ t ∈ tp.pool, t.seqId = r
  · obtain ⟨t, ht, rfl⟩ := hr
    have hperm := TokenTopKPool.perm_cons_filter h.nodup ht
    rw [TokenTopKPool.copies, (hperm.map _).sum_eq, List.map_cons, List.sum_cons,
      Multiset.countP_add, hother _ fun u hu => by simpa using (List.mem_filter.mp hu).2, add_zero]
    refine (Multiset.countP_le_card _ _).trans_lt ?_
    rw [TokenTopKInfo.held, Multiset.card_map, t.card_copies, ← h.topK]
    exact h.count_lt t ht
  · rw [TokenTopKPool.copies, hother _ fun t ht hid => hr ⟨t, ht, hid⟩]
    exact hk

theorem countP_gathered_lt {k d : ℕ} {pools : List (TokenTopKPool V)} (hk : 0 < k)
    (hpools : ∀ (l : ℕ) tp, pools[l]? = some tp → Gathering k d tp) {r l : ℕ}
    (hlayer : ∀ x ∈ gathered TokenTopKInfo.held pools, x.1 = r → x.2.layer = l) :
    (gathered TokenTopKInfo.held pools).countP (·.1 = r) < k := by
  have hzero : ∀ j ∈ range pools.length, j ≠ l → Multiset.countPAddMonoidHom (·.1 = r)
      ((pools.getD j (.create 0)).pool.map (TokenTopKInfo.held j)).sum = 0 := by
    refine fun j hj hne => Multiset.countP_eq_zero.mpr fun x hx hid => hne ?_
    obtain ⟨t, -, -, hj', -⟩ := mem_held hx
    exact hj'.symm.trans (hlayer x (Multiset.mem_sum.mpr ⟨j, hj, hx⟩) hid)
  rw [gathered, ← Multiset.coe_countPAddMonoidHom, map_sum]
  rcases lt_or_ge l pools.length with hl | hl
  · rw [sum_eq_single_of_mem l (mem_range.mpr hl) hzero, List.getD_eq_getElem _ _ hl]
    exact (hpools l _ (List.getElem?_eq_getElem hl)).countP_copies_lt hk l r
  · rw [sum_eq_zero fun j hj => hzero j hj (by have := mem_range.mp hj; omega)]
    exact hk

namespace System

variable [Inhabited W] [TensorRow V] {M : Setup W V} {s : System W V M.numDevices}

/-! ### Calls -/

/-- **No call fails.** In every run, whatever is received can be processed, a layer that was picked
has a batch, the experts can work on what they are given, and every piece to be sent has a peer. -/
theorem calls_succeed (hk : 0 < M.topK) (hs : Reachable M s) (d : Fin M.numDevices) :
    (∀ b ∈ (s.device d).pending, ∃ p, (s.device d).pool.processBatch b = .ok p) ∧
    (∀ l, (s.device d).picked = some l → ∃ p b,
      (s.device d).pool.getBatchFromLayer M.sort M.kernels.gatherSum l = (p, .ok (some b))) ∧
    (∀ b ∈ (s.device d).running, b.metadata.isExpert →
      ∃ b', executeBatchExpert M.sort M.kernels true b = .ok b') ∧
    ∀ x ∈ (s.device d).sending, ∃ e : Fin M.numDevices, M.deploy.peer d x.1 = some ↑e := by
  obtain ⟨ty, attn, expert, hattn, hexpert, hrun⟩ := hs
  have hdev := (Inv.of_steps hk (.init hattn hexpert fun _ _ h => by cases h) hrun).device d
  refine ⟨fun b hb => ?_, fun l hl => ?_, fun b hb hexp => ?_, fun x hx => ?_⟩
  · rcases hdev.pending b hb with ⟨l, hl, hmsg⟩ | ⟨l, hpos, hl, hmsg⟩
    · exact (hdev.pool.process_expertMsg hl hmsg).imp' _ fun _ h => h.1
    · by_cases hone : M.topK ≤ 1
      · exact (hdev.pool.process_replyMsg_one hone hl hmsg).imp' _ fun _ h => h.1
      · obtain ⟨_, _, _, -, -, heq, -⟩ :=
          hdev.pool.process_replyMsg (not_le.mp hone) hpos hl hmsg
        exact ⟨_, heq⟩
  · obtain ⟨i, hi, rfl, hpos⟩ := hdev.picked l hl
    rw [hdev.pool.sched.numLayers_eq] at hi
    by_cases hi' : i ≤ M.numLayers
    · obtain ⟨_, b, heq, -⟩ := hdev.pool.get_attn M.sort M.kernels.gatherSum hi' hpos
      exact ⟨_, b, heq⟩
    · obtain ⟨l, rfl⟩ : ∃ l, i = M.numLayers + 1 + l := ⟨i - (M.numLayers + 1), by omega⟩
      obtain ⟨_, b, heq, -⟩ := hdev.pool.get_expert M.sort M.kernels.gatherSum
        Setup.OkRow.expId_lt (by omega) hpos
      exact ⟨_, b, heq⟩
  · obtain ⟨before, after, hmem⟩ := List.append_of_mem hb
    obtain ⟨l, -, hwork⟩ := hdev.expertWork_of_mem hmem hexp
    obtain ⟨b', heq, -⟩ := executeBatchExpert_spec (K := M.kernels) M.sort hwork.toFull
      fun r hr => (hwork.rows r hr).len
    exact ⟨b', heq⟩
  · obtain ⟨e, he, hpeer, -⟩ := hdev.sending x hx
    exact ⟨⟨e, he⟩, hpeer⟩

open Setup in
/-- Three requests of the pair: the copies of the first are with the experts, those of the second
are received or still to be sent, and the layer of the third is picked. -/
theorem calls_succeed_pair : ∃ s : System ℕ ℕ pair.numDevices,
    (s.device fst).picked = some 0 ∧
    (∃ b ∈ (s.device fst).pending, ∃ p, (s.device fst).pool.processBatch b = .ok p) ∧
    (∃ p b, (s.device fst).pool.getBatchFromLayer pair.sort pair.kernels.gatherSum 0 =
      (p, .ok (some b))) ∧
    (∃ b ∈ (s.device fst).running, ∃ b', executeBatchExpert pair.sort pair.kernels true b =
      .ok b') ∧
    ∃ x ∈ (s.device fst).sending,
      ∃ e : Fin pair.numDevices, pair.deploy.peer fst x.1 = some ↑e := by
  have hrequest := @Step.admitRequest ℕ ℕ _ _ .pair (init .pair (fun _ => .flfs) (fun _ => 1)
    (fun _ => 2) fun _ => []) fst 3 5 7 _ (by decide) (by decide) rfl
  have hrun := ReflTransGen.single hrequest
  have hrun := hrun.tail (Step.schedule (d := fst) rfl)
  have hrun := hrun.tail (Step.take (d := fst) rfl rfl)
  have hrun := hrun.tail (@Step.attend ℕ ℕ _ _ .pair _ fst [] [] _ _ [9] [0, 0] [2, 3] rfl rfl
    (by decide) rfl rfl rfl (fun _ _ => trivial) (by decide) rfl)
  have hrun := hrun.tail (Step.dispatch (d := fst) rfl rfl)
  have hrun := hrun.tail (Step.send (d := fst) (e := fst) rfl rfl)
  have hrun := hrun.tail (Step.receive (d := fst) (e := fst) rfl)
  have hrun := hrun.tail (@Step.complete ℕ ℕ _ _ .pair _ fst [] [] _ _ rfl rfl)
  have hrun := hrun.tail (Step.schedule (d := fst) rfl)
  have hrun := hrun.tail (Step.take (d := fst) rfl rfl)
  -- the second request: one copy for each device
  have hrun := hrun.tail (@Step.admitRequest ℕ ℕ _ _ .pair _ fst 4 5 7 _ (by decide) (by decide)
    rfl)
  have hrun := hrun.tail (Step.schedule (d := fst) rfl)
  have hrun := hrun.tail (Step.take (d := fst) rfl rfl)
  have hrun := hrun.tail (@Step.attend ℕ ℕ _ _ .pair _ fst [_] [] _ _ [9] [0, 1] [2, 3] rfl rfl
    (by decide) rfl rfl rfl (fun _ _ => trivial) (by decide) rfl)
  have hrun := hrun.tail (Step.dispatch (d := fst) rfl rfl)
  have hrun := hrun.tail (Step.send (d := fst) (e := fst) rfl rfl)
  have hrun := hrun.tail (Step.receive (d := fst) (e := fst) rfl)
  -- the third request
  have hrun := hrun.tail (@Step.admitRequest ℕ ℕ _ _ .pair _ fst 5 5 7 _ (by decide) (by decide)
    rfl)
  have hrun := hrun.tail (Step.schedule (d := fst) rfl)
  have hs : Reachable .pair _ := ⟨_, _, _, by decide, by decide, hrun⟩
  obtain ⟨hpending, hpicked, hrunning, hsending⟩ := calls_succeed (by decide) hs fst
  exact ⟨_, rfl, ⟨_, List.mem_cons_self, hpending _ List.mem_cons_self⟩, hpicked 0 rfl,
    ⟨_, List.mem_cons_self, hrunning _ List.mem_cons_self rfl⟩,
    ⟨_, List.mem_cons_self, hsending _ List.mem_cons_self⟩⟩

/-! ### A system at rest -/

omit [Inhabited W] in
theorem Quiescent.queued (hq : s.Quiescent) (hs : s.Inv M) (d : Fin M.numDevices) {i : ℕ}
    (hi : i < (s.device d).pool.layerScheduler.numLayers) :
    ((s.device d).pool.layerScheduler.layerAt i).queued = [] := by
  have hnum := ((hs.device d).pool.sched.layers i hi).numTokens
  rw [hq.numTokens d i hi] at hnum
  exact List.length_eq_zero_iff.mp (by omega)

omit [Inhabited W] in
theorem Quiescent.whole_eq (hq : s.Quiescent) (hs : s.Inv M) : s.whole = 0 := by
  refine sum_eq_zero fun d _ => ?_
  rw [Device.whole, hq.running, attnIds, sum_eq_zero fun l hl => ?_]
  · rfl
  · rw [UnifiedLayer.ids, hq.queued hs d (Nat.lt_add_right _ (mem_range.mp hl))]
    rfl

theorem Quiescent.copies_eq (hq : s.Quiescent) (hs : s.Inv M) :
    s.copies M.kernels = ∑ d, (s.device d).held := by
  have hwork : ∀ d, (s.device d).pool.layerScheduler.expertWork (Row.out M.kernels) = 0 := by
    refine fun d => sum_eq_zero fun l hl => ?_
    have hnil := hq.queued hs d (Nat.add_lt_add_left (mem_range.mp hl) _)
    rw [UnifiedLayer.queued, List.append_eq_nil_iff, List.map_eq_nil_iff] at hnil
    rw [UnifiedLayer.batchRows, hnil.1]
    rfl
  simp [copies, Device.copies, Device.held, hwork, hq.running, hq.sendQueue, hq.sending,
    hq.pending, hq.net]

omit [Inhabited W] in
theorem attnDpRank_of_held (hs : s.Inv M) {d : Fin M.numDevices} {x : ℕ × Copy V}
    (hx : x ∈ (s.device d).held) : x.2.attnDpRank = d := by
  rw [Device.held, gathered] at hx
  obtain ⟨l, hl, hx⟩ := Multiset.mem_sum.mp hx
  rw [List.getD_eq_getElem _ _ (mem_range.mp hl)] at hx
  obtain ⟨t, ht, -, -, heq⟩ := mem_held hx
  have hpool := (hs.device d).pool.pools l _ (List.getElem?_eq_getElem (mem_range.mp hl))
  exact heq.trans (hpool.1.entries t ht).2

/-- **A system at rest has finished everything.** In every run that starts empty, a request that is
not finished leaves some thread with something to do. -/
theorem finished_of_quiescent (hk : 1 < M.topK) (hs : Reachable M s) (hq : s.Quiescent) :
    ∀ r ∈ s.admitted, r ∈ s.finished := by
  obtain ⟨hs, hσ⟩ := inv_of_reachable hk hs
  intro r hr
  by_contra hfin
  rcases (hσ r).live hr hfin with ⟨hone, -⟩ | ⟨-, hjob, hcard, halike⟩
  · replace hone : s.whole.count r = 1 := hone
    simp [hq.whole_eq hs] at hone
  · -- the copies are alike, so the pools of one device hold them all
    have hmem : ∀ d, ∀ x ∈ (s.device d).held, x.1 = r → x.2 ∈ (abs M s).job r := by
      rintro d x hx rfl
      rw [← hjob]
      refine ForkJoin.mem_valuesOf.mpr ?_
      show _ ∈ s.copies M.kernels
      rw [hq.copies_eq hs]
      exact Multiset.mem_sum.mpr ⟨d, mem_univ d, hx⟩
    have hcount : ∑ d, (s.device d).held.countP (·.1 = r) = M.topK := by
      rw [← hcard, ← hjob]
      show _ = (ForkJoin.valuesOf r (s.copies M.kernels)).card
      rw [ForkJoin.valuesOf, Multiset.card_map, ← Multiset.countP_eq_card_filter, hq.copies_eq hs,
        ← Multiset.coe_countPAddMonoidHom, map_sum]
    obtain ⟨d, -, hd⟩ := exists_ne_zero_of_sum_ne_zero (hcount.trans_ne (by omega))
    obtain ⟨x, hx, hid⟩ := Multiset.countP_pos.mp (Nat.pos_of_ne_zero hd)
    rw [sum_eq_single_of_mem d (mem_univ d) fun e _ hne => ?_] at hcount
    · refine (countP_gathered_lt (by omega) (fun l tp htp => ((hs.device d).pool.pools l tp htp).1)
        (l := x.2.layer) fun y hy hy' => ?_).ne hcount
      exact (halike _ (hmem d y hy hy') _ (hmem d x hx hid)).1
    · refine Multiset.countP_eq_zero.mpr fun y hy hy' => hne (Fin.ext ?_)
      rw [← attnDpRank_of_held hs hy, ← attnDpRank_of_held hs hx]
      exact (halike _ (hmem e y hy hy') _ (hmem d x hx hid)).2.2

/-- The pair comes to rest when its request is finished. -/
theorem finished_of_quiescent_pair : ∃ s : System ℕ ℕ Setup.pair.numDevices,
    s.Quiescent ∧ s.admitted = [3] ∧ ∀ r ∈ s.admitted, r ∈ s.finished := by
  obtain ⟨s, hs, -, hadmitted, -, hq⟩ := exists_finished_pair
  exact ⟨s, hq, hadmitted, finished_of_quiescent (by decide) hs hq⟩

end System

end StreamEP

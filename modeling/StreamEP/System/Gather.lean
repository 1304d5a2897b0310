import StreamEP.System.Copies

/-!
# Gathering is joining

`TokenTopKPool` finds the entry of a row by its request alone and keeps the prefill length and the
rank of the first row. While the fork and join invariant holds, all copies of a request that are
under way come from one fork, so they agree with the entry, and a complete entry holds exactly what
was forked.
-/

namespace StreamEP

open Relation

variable {W V : Type} {k l : ℕ} {σ : ForkJoin.State ℕ (Copy V)} {tp : TokenTopKPool V}
  {rest : Multiset (ℕ × Copy V)}

/-- The copies a gathering pool of layer `l` holds. -/
def TokenTopKPool.copies (l : ℕ) (tp : TokenTopKPool V) : Multiset (ℕ × Copy V) :=
  (tp.pool.map (TokenTopKInfo.held l)).sum

@[simp] theorem TokenTopKInfo.card_copies (t : TokenTopKInfo V) :
    (t.copies l).card = t.count := by
  simp [copies, count]

theorem TokenTopKInfo.copies_appendTensor (t : TokenTopKInfo V) (x : V) :
    (t.appendTensor x).copies l = ⟨l, x, t.initPrefillLen, t.attnDpRank⟩ ::ₘ t.copies l := by
  rw [copies, appendTensor, List.map_append, ← Multiset.coe_add, add_comm]
  rfl

theorem TokenTopKPool.held_le {t : TokenTopKInfo V} (ht : t ∈ tp.pool) :
    t.held l ≤ tp.copies l :=
  List.single_le_sum (fun _ _ => zero_le) _ (List.mem_map_of_mem ht)

theorem agree_of_inv (hσ : ForkJoin.Inv k Alike σ) (hp : tp.Ok) {r : Row W V}
    (hcopies : σ.copies = r.reply l ::ₘ (tp.copies l + rest)) {t : TokenTopKInfo V}
    (ht : t ∈ tp.pool) (hid : t.seqId = r.reqId) :
    t.initPrefillLen = r.initPrefillLen ∧ t.attnDpRank = r.attnDpRank.getD 0 := by
  -- some copy of the entry and the row itself are copies of one fork
  have hrow : r.reply l ∈ σ.copies := by simp [hcopies]
  obtain ⟨-, -, -, hjob, -, halike⟩ := hσ.forked_of_mem hrow
  have hmem : ∀ c, (r.reqId, c) ∈ σ.copies → c ∈ σ.job r.reqId :=
    fun c hc => hjob ▸ (ForkJoin.mem_valuesOf.mpr hc : c ∈ σ.copiesOf r.reqId)
  obtain ⟨c, hc⟩ : ∃ c, c ∈ t.copies l := by
    rw [← Multiset.card_pos_iff_exists_mem, t.card_copies]
    exact hp.count_pos t ht
  have hheld : (r.reqId, c) ∈ σ.copies := by
    rw [hcopies, ← hid]
    refine Multiset.mem_cons_of_mem (Multiset.mem_add.mpr (.inl ?_))
    exact Multiset.mem_of_le (TokenTopKPool.held_le ht) (Multiset.mem_map_of_mem _ hc)
  have hagree := halike c (hmem c hheld) _ (hmem _ hrow)
  obtain ⟨v, -, rfl⟩ := List.mem_map.mp (Multiset.mem_coe.mp hc)
  exact ⟨hagree.2.1, hagree.2.2⟩

/-- **A row extends the entry of its request, or completes it.** -/
theorem put_cases (hσ : ForkJoin.Inv k Alike σ) (hp : tp.Ok) (htop : tp.topK = k) {r : Row W V}
    (hcopies : σ.copies = r.reply l ::ₘ (tp.copies l + rest)) :
    ((tp.put r).readyTokens = tp.readyTokens ∧
      (tp.put r).copies l = r.reply l ::ₘ tp.copies l) ∨
    ∃ t, (tp.put r).readyTokens = tp.readyTokens ++ [t] ∧ (t.copies l).card = k ∧
      r.reply l ::ₘ tp.copies l = t.held l + (tp.put r).copies l := by
  rcases hp.putRow_cases r.reqId r.initPrefillLen (r.attnDpRank.getD 0) r.data with
    ⟨-, heq⟩ | ⟨t, ht, hid, hperm, hcase⟩
  · refine .inl ⟨by rw [TokenTopKPool.put, heq], ?_⟩
    rw [TokenTopKPool.put, heq, ← Multiset.singleton_add]
    rfl
  · obtain ⟨hlen, hrank⟩ := agree_of_inv hσ hp hcopies ht hid
    have hheld : (t.appendTensor r.data).held l = r.reply l ::ₘ t.held l := by
      rw [TokenTopKInfo.held, TokenTopKInfo.copies_appendTensor, Multiset.map_cons, hlen, hrank]
      show (t.seqId, _) ::ₘ _ = (r.reqId, _) ::ₘ _
      rw [hid]
      rfl
    have hsplit : tp.copies l = t.held l +
        ((tp.pool.filter (·.seqId ≠ r.reqId)).map (TokenTopKInfo.held l)).sum := by
      rw [TokenTopKPool.copies, (hperm.map _).sum_eq, List.map_cons, List.sum_cons]
    rcases hcase with ⟨-, heq⟩ | ⟨hfull, heq⟩
    · refine .inl ⟨by rw [TokenTopKPool.put, heq], ?_⟩
      rw [TokenTopKPool.put, heq, hsplit, ← Multiset.cons_add, ← hheld]
      rfl
    · refine .inr ⟨t.appendTensor r.data, by rw [TokenTopKPool.put, heq], ?_, ?_⟩
      · rw [TokenTopKInfo.card_copies, TokenTopKInfo.count_appendTensor, hfull, htop]
      · rw [TokenTopKPool.put, heq, hsplit, ← Multiset.cons_add, ← hheld]
        rfl

/-- **Putting the rows of a batch** joins the tokens it completes, and each of them holds exactly
the copies of its fork. -/
theorem steps_gather (hk : 1 < k) {rows : List (Row W V)} (hσ : ForkJoin.Inv k Alike σ)
    (hp : tp.Ok) (htop : tp.topK = k)
    (hcopies : σ.copies = ↑(rows.map (Row.reply l)) + (tp.copies l + rest)) :
    ∃ news, (rows.foldl TokenTopKPool.put tp).readyTokens = tp.readyTokens ++ news ∧
      (∀ t ∈ news, σ.job t.seqId = t.copies l ∧ (t.copies l).card = k) ∧
      ReflTransGen (ForkJoin.Step k Alike) σ { σ with
        whole := ↑(news.map (·.seqId)) + σ.whole
        copies := (rows.foldl TokenTopKPool.put tp).copies l + rest
        job := fun r => if r ∈ news.map (·.seqId) then 0 else σ.job r } := by
  induction rows generalizing σ tp with
  | nil =>
    have hcopies : σ.copies = tp.copies l + rest := by simpa using hcopies
    refine ⟨[], by simp, by simp, ?_⟩
    simp only [List.foldl_nil, ← hcopies, List.map_nil, Multiset.coe_nil, zero_add,
      List.not_mem_nil, if_false]
    exact .refl
  | cons r rows ih =>
    have hp' : (tp.put r).Ok := hp.putRow (htop ▸ hk) ..
    have htop' : (tp.put r).topK = k := by rw [TokenTopKPool.put, TokenTopKPool.putRow_topK, htop]
    have hfirst : σ.copies = r.reply l ::ₘ (tp.copies l + (↑(rows.map (Row.reply l)) + rest)) := by
      rw [hcopies, List.map_cons, ← Multiset.cons_coe, Multiset.cons_add, add_left_comm]
    rw [List.foldl_cons]
    rcases put_cases hσ hp htop hfirst with ⟨hready, hput⟩ | ⟨t, hready, hcard, hput⟩
    · -- the row waits in its entry
      have hnext : σ.copies = ↑(rows.map (Row.reply l)) + ((tp.put r).copies l + rest) := by
        rw [hfirst, hput, Multiset.cons_add, Multiset.add_cons, add_left_comm]
      obtain ⟨news, hnews, hjob, hsteps⟩ := ih hσ hp' htop' hnext
      exact ⟨news, by rw [hnews, hready], hjob, hsteps⟩
    · -- the row completes its entry: one join
      have hjoin : σ.copies = (t.copies l).map (Prod.mk t.seqId) +
          (↑(rows.map (Row.reply l)) + ((tp.put r).copies l + rest)) := by
        rw [hfirst, ← Multiset.cons_add, hput, TokenTopKInfo.held, add_assoc,
          add_left_comm _ _ rest]
      have hstep : ForkJoin.Step k Alike σ _ := .join hjoin hcard
      obtain ⟨news, hnews, hjob, hsteps⟩ := ih (hσ.step (by omega) hstep) hp' htop' rfl
      replace hjob : ∀ u ∈ news, Function.update σ.job t.seqId 0 u.seqId = u.copies l ∧
          (u.copies l).card = k := hjob
      have hfork := (hσ.eq_job (by omega) hjoin hcard).1
      -- a token of the same request cannot be completed again: its fork is gone
      have hne : ∀ u ∈ news, u.seqId ≠ t.seqId := by
        intro u hu hid
        obtain ⟨hu, hcard'⟩ := hjob u hu
        rw [hid, Function.update_self] at hu
        rw [← hu, Multiset.card_zero] at hcard'
        omega
      refine ⟨t :: news, by rw [hnews, hready, List.append_assoc]; rfl, ?_, ?_⟩
      · rintro u hu
        rcases List.mem_cons.mp hu with rfl | hu
        · exact ⟨hfork.symm, hcard⟩
        · obtain ⟨hu', hcard'⟩ := hjob u hu
          rw [Function.update_of_ne (hne u hu)] at hu'
          exact ⟨hu', hcard'⟩
      · refine .head hstep ?_
        convert hsteps using 2
        · rw [List.map_cons, ← Multiset.cons_coe, Multiset.cons_add, Multiset.add_cons]
        · funext q
          by_cases hq : q = t.seqId
          · simp [hq]
          · simp [hq]

end StreamEP

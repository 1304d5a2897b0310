import StreamEP.System.Conservation
import Mathlib.Data.Nat.ModEq
import Mathlib.Tactic.Abel

/-!
# Layers in order

A token that waits for attention or is in an attention batch is at a layer. The fork and join
machine forgets which one; here it is kept. An operation of a pool changes one layer only, so the
layer follows from what the fork and join machine knows.

For every request the outputs of the expert layers are gathered in the order of the layers, and
after the last one the request is sampled before it starts over.

## Main results

* `System.passes_in_order`
-/

namespace StreamEP

open Relation Finset LayerScheduler

variable {W V : Type}

/-! ### Operations change one layer -/

namespace LayerScheduler

variable {s : LayerScheduler W V}

variable [TensorRow V]

/-- The requests waiting for attention, with their layers. -/
def attnTokens (s : LayerScheduler W V) : Multiset (ℕ × ℕ) :=
  ∑ l ∈ range s.numAttnLayers, (s.layerAt l).ids.map (Prod.mk l)

/-- When one layer changes, its requests change by as much as all. -/
theorem attnTokens_of_frame {s' : LayerScheduler W V} {i : ℕ} (hi : i < s.numAttnLayers)
    (hframe : ∃ g, s' = s.modifyLayer i g) {x y : Multiset ℕ}
    (h : s'.attnIds + x = s.attnIds + y) :
    s'.attnTokens + x.map (Prod.mk i) = s.attnTokens + y.map (Prod.mk i) := by
  obtain ⟨g, rfl⟩ := hframe
  have hother : ∀ j ∈ range s.numAttnLayers, j ≠ i →
      (s.modifyLayer i g).layerAt j = s.layerAt j :=
    fun j _ hj => layerAt_modifyLayer_of_ne s hj g
  have hlocal : ((s.modifyLayer i g).layerAt i).ids + x = (s.layerAt i).ids + y := by
    have hmem : i ∈ range s.numAttnLayers := mem_range.mpr hi
    have hsame : ∑ j ∈ (range s.numAttnLayers).erase i, ((s.modifyLayer i g).layerAt j).ids =
        ∑ j ∈ (range s.numAttnLayers).erase i, (s.layerAt j).ids :=
      sum_congr rfl fun j hj => by rw [hother j (mem_of_mem_erase hj) (ne_of_mem_erase hj)]
    replace h : ∑ j ∈ range s.numAttnLayers, ((s.modifyLayer i g).layerAt j).ids + x =
      ∑ j ∈ range s.numAttnLayers, (s.layerAt j).ids + y := h
    rw [← add_sum_erase _ _ hmem, ← add_sum_erase _ (fun j => (s.layerAt j).ids) hmem, hsame,
      add_right_comm, add_right_comm (s.layerAt i).ids] at h
    exact add_right_cancel h
  refine sum_local_change (mem_range.mpr hi) (fun j hj hji => ?_) ?_
  · rw [hother j hj hji]
  · rw [← Multiset.map_add, hlocal, Multiset.map_add]

theorem attnTokens_modifyLayer_of_le {i : ℕ} (hi : s.numAttnLayers ≤ i)
    (g : UnifiedLayer W V → UnifiedLayer W V) :
    (s.modifyLayer i g).attnTokens = s.attnTokens := by
  refine sum_congr rfl fun j hj => ?_
  have hj' : j < s.numAttnLayers := mem_range.mp hj
  rw [layerAt_modifyLayer_of_ne s (by omega)]

theorem map_snd_attnTokens (s : LayerScheduler W V) : s.attnTokens.map Prod.snd = s.attnIds := by
  rw [attnTokens, attnIds, ← Multiset.coe_mapAddMonoidHom, map_sum]
  refine sum_congr rfl fun l _ => ?_
  rw [Multiset.coe_mapAddMonoidHom, Multiset.map_map]
  exact Multiset.map_id _

theorem getBatchFromLayerRestricted_frame [Inhabited W] {S : StdSort} {gatherSum : List V → V}
    {i : ℕ} {t : ℤ} {s' : LayerScheduler W V} {b : TokenBatch W V}
    (h : s.getBatchFromLayerRestricted S gatherSum i t = (s', .ok (some b))) :
    ∃ g, s' = s.modifyLayer i g := by
  rw [getBatchFromLayerRestricted] at h
  split_ifs at h
  · cases h
  · obtain ⟨rfl, -⟩ := Prod.mk.inj h
    exact ⟨_, rfl⟩
  · dsimp only at h
    split at h
    · cases h
    · obtain ⟨rfl, -⟩ := Prod.mk.inj h
      exact ⟨_, rfl⟩

end LayerScheduler

namespace UnifiedPool

variable [TensorRow V] {p p' : UnifiedPool W V} {b : TokenBatch W V}

def layerOf (p : UnifiedPool W V) (b : TokenBatch W V) : ℕ :=
  if b.metadata.batchTag = .attention then p.layerScheduler.numAttnLayers + b.metadata.layerId
  else b.metadata.layerId

omit [TensorRow V] in
theorem processAttnBatch_frame (h : p.processAttnBatch b = .ok p') :
    ∃ g, p'.layerScheduler = p.layerScheduler.modifyLayer b.metadata.layerId g := by
  obtain ⟨s', hadd, h⟩ := bind_eq_ok.mp h
  obtain rfl := Except.ok.inj h
  rw [addBatch] at hadd
  split_ifs at hadd with htag
  · exact ⟨_, (Except.ok.inj hadd).symm⟩
  all_goals simp [attnMetadata, BatchMetadata.isAttention] at htag

theorem processAttnBatchTopk_frame (h : p.processAttnBatchTopk b = .ok p') :
    ∃ g, p'.layerScheduler = p.layerScheduler.modifyLayer b.metadata.layerId g := by
  rw [processAttnBatchTopk] at h
  split at h
  · cases h
  · obtain ⟨tp, -, h⟩ := bind_eq_ok.mp h
    dsimp only at h
    split_ifs at h
    · obtain rfl := Except.ok.inj h
      exact ⟨id, by rw [modifyLayer, List.modify_id]⟩
    · obtain ⟨s', hadd, h⟩ := bind_eq_ok.mp h
      obtain rfl := Except.ok.inj h
      rw [attnAddTokens] at hadd
      split_ifs at hadd
      exact ⟨_, (Except.ok.inj hadd).symm⟩

/-- **Processing a batch** changes the layer it goes to. -/
theorem processBatch_frame (h : p.processBatch b = .ok p') :
    ∃ g, p'.layerScheduler = p.layerScheduler.modifyLayer (p.layerOf b) g := by
  rw [processBatch] at h
  cases htag : b.metadata.batchTag with
  | tokenizer =>
    simp only [htag] at h
    simpa [layerOf, htag] using processAttnBatch_frame h
  | expert =>
    simp only [htag] at h
    simp only [layerOf, htag, reduceCtorEq, if_false]
    split_ifs at h
    · exact processAttnBatchTopk_frame h
    · exact processAttnBatch_frame h
  | attention =>
    simp only [htag] at h
    simp only [layerOf, htag, if_true]
    obtain ⟨-, -, h⟩ := bind_eq_ok.mp h
    obtain ⟨s', hadd, h⟩ := bind_eq_ok.mp h
    obtain rfl := Except.ok.inj h
    rw [addBatch] at hadd
    split_ifs at hadd with hattn
    · simp [BatchMetadata.isAttention] at hattn
    · exact ⟨_, (Except.ok.inj hadd).symm⟩

/-- **Taking a batch** changes the layer it is taken from. -/
theorem getBatchFromLayer_frame [Inhabited W] {S : StdSort} {gatherSum : List V → V} {i : ℕ}
    (h : p.getBatchFromLayer S gatherSum i = (p', .ok (some b))) :
    ∃ g, p'.layerScheduler = p.layerScheduler.modifyLayer i g := by
  obtain ⟨rfl, hresult⟩ := Prod.mk.inj h
  exact getBatchFromLayerRestricted_frame (Prod.ext rfl hresult)

end UnifiedPool

/-! ### Whole tokens with their layers -/

section Places

variable [TensorRow V]

/-- The whole tokens in a batch attention works on, with their layer. -/
def TokenBatch.runTokens (b : TokenBatch W V) : Multiset (ℕ × ℕ) :=
  b.runIds.map (Prod.mk b.metadata.layerId)

def Device.tokens (dev : Device W V) : Multiset (ℕ × ℕ) :=
  dev.pool.layerScheduler.attnTokens + (dev.running.map TokenBatch.runTokens).sum

theorem Device.map_snd_tokens (dev : Device W V) : dev.tokens.map Prod.snd = dev.whole := by
  have hrun : ((dev.running.map TokenBatch.runTokens).sum).map Prod.snd =
      (dev.running.map TokenBatch.runIds).sum := by
    rw [← Multiset.coe_mapAddMonoidHom, map_list_sum, List.map_map]
    refine congrArg List.sum (List.map_congr_left fun b _ => ?_)
    show (b.runIds.map _).map _ = _
    rw [Multiset.map_map]
    exact Multiset.map_id _
  rw [tokens, Multiset.map_add, map_snd_attnTokens, hrun, whole]

namespace System

variable {D : ℕ}

def tokens (s : System W V D) : Multiset (ℕ × ℕ) := ∑ d, (s.device d).tokens

theorem map_snd_tokens (s : System W V D) : s.tokens.map Prod.snd = s.whole := by
  rw [tokens, whole, ← Multiset.coe_mapAddMonoidHom, map_sum]
  exact sum_congr rfl fun d _ => (s.device d).map_snd_tokens

theorem tokens_setDevice {s : System W V D} {d : Fin D} {dev : Device W V}
    {taken added : Multiset (ℕ × ℕ)} (h : dev.tokens + taken = (s.device d).tokens + added) :
    (s.setDevice d dev).tokens + taken = s.tokens + added :=
  sum_update_change (fun _ dev => Device.tokens dev) s.device d dev h

end System

end Places

/-! ### What a step does to the whole tokens -/

namespace System

variable [Inhabited W] [TensorRow V] {M : Setup W V} {s s' : System W V M.numDevices}
  {d : Fin M.numDevices} {p : UnifiedPool W V} {b : TokenBatch W V}
  {before after : List (TokenBatch W V)}

omit [Inhabited W] in
theorem tokens_eq_of_device {dev : Device W V}
    (h : dev.tokens = (s.device d).tokens) : (s.setDevice d dev).tokens = s.tokens := by
  have htokens : (s.setDevice d dev).tokens + 0 = s.tokens + 0 :=
    tokens_setDevice (by rw [h])
  rwa [add_zero, add_zero] at htokens

omit [Inhabited W] in
theorem runTokens_le (hrun : (s.device d).running = before ++ b :: after) :
    b.runTokens ≤ s.tokens := by
  have hdevice : b.runTokens ≤ (s.device d).tokens := by
    rw [Device.tokens, hrun, List.map_append, List.map_cons, List.sum_append, List.sum_cons]
    exact le_add_left (le_add_left (Multiset.le_add_right _ _))
  exact hdevice.trans (single_le_sum (f := fun d => (s.device d).tokens) (fun _ _ => zero_le)
    (mem_univ d))

omit [Inhabited W] in
theorem attnTokens_put {dev : Device W V} (hdev : dev.Inv M d) (hlayer : b.metadata.layerId = 0)
    (hput : dev.pool.putBatch b = .ok p) {ids : Multiset ℕ}
    (hadded : dev.pool.layerScheduler.Added p.layerScheduler ids 0) :
    p.layerScheduler.attnTokens = dev.pool.layerScheduler.attnTokens + ids.map (Prod.mk 0) := by
  have hframe := UnifiedPool.processBatch_frame hput
  rw [UnifiedPool.layerOf, if_neg (by simp)] at hframe
  replace hframe : ∃ g, p.layerScheduler = dev.pool.layerScheduler.modifyLayer 0 g :=
    hlayer ▸ hframe
  have hzero : 0 < dev.pool.layerScheduler.numAttnLayers := by
    rw [hdev.pool.sched.numAttn]
    exact Nat.succ_pos _
  have h := attnTokens_of_frame hzero hframe (x := 0) (y := ids)
    (by rw [add_zero, hadded.attnIds])
  rwa [Multiset.map_zero, add_zero] at h

/-- **Taking a batch** keeps its tokens at their layer. -/
theorem tokens_take {l : ℤ} (hs : s.Inv M) (hp : (s.device d).picked = some l)
    (hget : (s.device d).pool.getBatchFromLayer M.sort M.kernels.gatherSum l =
      (p, .ok (some b))) :
    Device.tokens { s.device d with
      pool := p
      picked := none
      running := (s.device d).running ++ [b] } = (s.device d).tokens := by
  have hdev := hs.device d
  obtain ⟨i, hi, rfl, hpos⟩ := hdev.picked l hp
  have hframe := UnifiedPool.getBatchFromLayer_frame hget
  have hna := hdev.pool.sched.numAttn
  simp only [Device.tokens, List.map_append, List.map_cons, List.map_nil, List.sum_append,
    List.sum_cons, List.sum_nil, add_zero, TokenBatch.runTokens]
  by_cases hattn : i ≤ M.numLayers
  · obtain ⟨s', c, heq, hwork, -, -, hids, -⟩ :=
      hdev.pool.get_attn M.sort M.kernels.gatherSum hattn hpos
    obtain ⟨rfl, hc⟩ := Prod.mk.inj (heq.symm.trans hget)
    obtain rfl := Option.some.inj (Except.ok.inj hc)
    have h := attnTokens_of_frame (by omega) hframe (y := 0) (hids.trans (add_zero _).symm)
    rw [Multiset.map_zero, add_zero] at h
    rw [← h, TokenBatch.runIds, if_pos (by simp [BatchMetadata.isAttention, hwork.tag]),
      hwork.layerId]
    abel
  · obtain ⟨l, rfl⟩ : ∃ l, i = M.numLayers + 1 + l := ⟨i - (M.numLayers + 1), by omega⟩
    have hl : l < M.numLayers := by
      rw [hdev.pool.sched.numLayers_eq] at hi
      omega
    obtain ⟨s', c, heq, hwork, -⟩ :=
      hdev.pool.get_expert M.sort M.kernels.gatherSum Setup.OkRow.expId_lt hl hpos
    obtain ⟨rfl, hc⟩ := Prod.mk.inj (heq.symm.trans hget)
    obtain rfl := Option.some.inj (Except.ok.inj hc)
    obtain ⟨g, hg⟩ := hframe
    rw [hg, attnTokens_modifyLayer_of_le (by omega), TokenBatch.runIds,
      if_neg (by simp [BatchMetadata.isAttention, hwork.tag]), Multiset.map_zero, add_zero]

omit [Inhabited W] in
/-- **A completed receive** adds the tokens it completes at their layer. -/
theorem tokens_complete (hk : 1 < M.topK) (hs : s.Inv M)
    (hpending : (s.device d).pending = before ++ b :: after)
    (hprocess : (s.device d).pool.processBatch b = .ok p) :
    p.layerScheduler.attnTokens = (s.device d).pool.layerScheduler.attnTokens +
      ↑(((s.device d).pool.emits b).map fun t => (b.metadata.layerId, t.seqId)) := by
  have hpool := (hs.device d).pool
  have hna := hpool.sched.numAttn
  have hframe := UnifiedPool.processBatch_frame hprocess
  rcases (hs.device d).pending b (by simp [hpending]) with ⟨l, hl, hmsg⟩ | ⟨l, hpos, hl, hmsg⟩
  · obtain ⟨g, hg⟩ := hframe
    rw [UnifiedPool.layerOf, if_pos hmsg.tag] at hg
    rw [hg, attnTokens_modifyLayer_of_le (Nat.le_add_right _ _), emits_expertMsg hmsg,
      List.map_nil, Multiset.coe_nil, add_zero]
  · obtain ⟨tp, tp', s', htp, htp', heq, -, hadded⟩ := hpool.process_replyMsg hk hpos hl hmsg
    obtain rfl := Except.ok.inj (heq.symm.trans hprocess)
    rw [UnifiedPool.layerOf, if_neg (by simp [hmsg.tag])] at hframe
    have h := attnTokens_of_frame (by rw [hmsg.layerId]; omega) hframe (x := 0)
      (by rw [add_zero]; exact hadded.attnIds)
    rw [Multiset.map_zero, add_zero, Multiset.map_coe, List.map_map] at h
    rw [h, emits_replyMsg (hpool.topK ▸ hk) hpos hmsg htp, htp']
    rfl

/-! ### The order of layers -/

/-- The layers request `r` was gathered for, in order. -/
def passed {D : ℕ} (s : System W V D) (r : ℕ) : List ℕ :=
  (s.emitted.filter (·.token.seqId = r)).map (·.layer)

/-- Request `r` may be at layer `l` of `N`: it has been gathered for the layers before `l`, after
whole passes through all of them. -/
def At {D : ℕ} (N : ℕ) (s : System W V D) (r l : ℕ) : Prop :=
  l ≤ N ∧ l ≤ (s.passed r).length ∧ l ≡ (s.passed r).length [MOD N]

/-- Every request passes the layers in order. -/
structure Ordered (M : Setup W V) (s : System W V M.numDevices) : Prop where
  passed : ∀ r, s.passed r = (List.range (s.passed r).length).map (· % M.numLayers + 1)
  /-- Whole tokens are at the layer they have reached. -/
  tokens : ∀ x ∈ s.tokens, At M.numLayers s x.2 x.1
  /-- Work was sent out by the layer that was reached. -/
  jobs : ∀ r j, s.job r = some j → j.layer < M.numLayers ∧ At M.numLayers s r j.layer
  finished : ∀ r ∈ s.finished, At M.numLayers s r M.numLayers
  admitted : ∀ x ∈ s.emitted, x.token.seqId ∈ s.admitted

omit [Inhabited W] in
theorem recordJobs_cases {jobs : ℕ → Job W V} {job : ℕ → Option (Job W V)} {r : ℕ}
    {j : Job W V} (h : recordJobs b jobs job r = some j) :
    (∃ i < b.metadata.numTokens, r = (b.rowAt i).reqId ∧ j = jobs i) ∨ job r = some j := by
  have hall : ∀ i ∈ List.range b.metadata.numTokens, i < b.metadata.numTokens :=
    fun i hi => List.mem_range.mp hi
  rw [recordJobs] at h
  generalize List.range b.metadata.numTokens = places at h hall
  induction places generalizing job with
  | nil => exact .inr h
  | cons i places ih =>
    obtain ⟨hi, hplaces⟩ := List.forall_mem_cons.mp hall
    rcases ih h hplaces with hnew | hold
    · exact .inl hnew
    · dsimp only at hold
      rw [Function.update_apply] at hold
      split_ifs at hold with hr
      · exact .inl ⟨i, hi, hr, (Option.some.inj hold).symm⟩
      · exact .inr hold

omit [Inhabited W] in
theorem Ordered.of_emitted (hs : Ordered M s) (hemitted : s'.emitted = s.emitted)
    (hadmitted : s.admitted ⊆ s'.admitted) (htokens : ∀ x ∈ s'.tokens, At M.numLayers s x.2 x.1)
    (hjobs : ∀ r j, s'.job r = some j → j.layer < M.numLayers ∧ At M.numLayers s r j.layer)
    (hfinished : ∀ r ∈ s'.finished, At M.numLayers s r M.numLayers) : Ordered M s' := by
  have hpassed : s'.passed = s.passed := by
    funext r
    rw [System.passed, System.passed, hemitted]
  have hat : At M.numLayers s' = At M.numLayers s := by
    funext r l
    rw [At, At, hpassed]
  exact ⟨hpassed ▸ hs.passed, hat ▸ htokens, hat ▸ hjobs, hat ▸ hfinished,
    fun x hx => hadmitted (hs.admitted x (hemitted ▸ hx))⟩

/-- A gathering adds its layer for the requests it completes and nothing for the others. -/
theorem passed_of_joins {d l : ℕ} {ts : List (TokenTopKInfo V)}
    (hσ : ForkJoin.Inv M.topK Alike (abs M s'))
    (htokens : s'.tokens = s.tokens + ↑(ts.map fun t => (l, t.seqId)))
    (hemitted : s'.emitted = s.emitted ++ ts.map fun t => ⟨d, l, t, s.job t.seqId⟩) (r : ℕ) :
    (r ∉ ts.map (·.seqId) ∧ s'.passed r = s.passed r) ∨
      r ∈ ts.map (·.seqId) ∧ s'.passed r = s.passed r ++ [l] ∧ s.whole.count r = 0 ∧
        r ∈ s'.admitted ∧ r ∉ s'.finished := by
  have hpassed : s'.passed r = s.passed r ++ (ts.filter (·.seqId = r)).map fun _ => l := by
    rw [System.passed, System.passed, hemitted, List.filter_append, List.map_append,
      List.filter_map, List.map_map]
    rfl
  have hwhole : s'.whole = s.whole + ↑(ts.map (·.seqId)) := by
    rw [← map_snd_tokens, htokens, Multiset.map_add, map_snd_tokens, Multiset.map_coe,
      List.map_map]
    rfl
  by_cases hr : r ∈ ts.map (·.seqId)
  · have hmem : r ∈ s'.whole := hwhole ▸ Multiset.mem_add.mpr (.inr hr)
    obtain ⟨hseen, hdone, hone, -⟩ := hσ.live_of_mem_whole hmem
    replace hone : s'.whole.count r = 1 := hone
    rw [hwhole, Multiset.count_add, Multiset.coe_count] at hone
    have hpos := List.count_pos_iff.mpr hr
    have hlength : (ts.filter (·.seqId = r)).length = (ts.map (·.seqId)).count r := by
      rw [List.count, List.countP_map, List.countP_eq_length_filter]
      rfl
    obtain ⟨t, ht⟩ := List.length_eq_one_iff.mp (show (ts.filter (·.seqId = r)).length = 1 by omega)
    rw [ht] at hpassed
    exact .inr ⟨hr, hpassed, by omega, hseen, hdone⟩
  · have hnone : ts.filter (·.seqId = r) = [] := by
      refine List.filter_eq_nil_iff.mpr fun t ht hid => hr ?_
      exact List.mem_map.mpr ⟨t, ht, of_decide_eq_true hid⟩
    rw [hnone, List.map_nil, List.append_nil] at hpassed
    exact .inl ⟨hr, hpassed⟩

/-- **Gathered tokens** wait at the layer after the one that sent them out. -/
theorem Ordered.gather (hs : Ordered M s) (hσ : ForkJoin.Inv M.topK Alike (abs M s')) {d l : ℕ}
    {ts : List (TokenTopKInfo V)}
    (htokens : s'.tokens = s.tokens + ↑(ts.map fun t => (l, t.seqId)))
    (hlayer : ∀ t ∈ ts, ∃ j, s.job t.seqId = some j ∧ l = j.layer + 1)
    (hadmitted : s'.admitted = s.admitted) (hfinished : s'.finished = s.finished)
    (hjob : ∀ r, s'.job r = if r ∈ ts.map (·.seqId) then none else s.job r)
    (hemitted : s'.emitted = s.emitted ++ ts.map fun t => ⟨d, l, t, s.job t.seqId⟩) :
    Ordered M s' := by
  have hcases := passed_of_joins hσ htokens hemitted
  refine ⟨fun r => ?_, fun x hx => ?_, fun r j hj => ?_, fun r hr => ?_, fun x hx => ?_⟩
  · rcases hcases r with ⟨-, hpassed⟩ | ⟨hr, hpassed, -⟩
    · rw [hpassed]
      exact hs.passed r
    · obtain ⟨t, ht, rfl⟩ := List.mem_map.mp hr
      obtain ⟨j, hj, rfl⟩ := hlayer t ht
      obtain ⟨hlt, -, -, hmod⟩ := hs.jobs _ j hj
      rw [hpassed, List.length_append, List.length_singleton, List.range_succ, List.map_append,
        ← hs.passed, List.map_singleton, ← hmod, Nat.mod_eq_of_lt hlt]
  · rw [htokens, Multiset.mem_add] at hx
    rcases hcases x.2 with ⟨hr, hpassed⟩ | ⟨hr, hpassed, hzero, -⟩
    · rcases hx with hx | hx
      · rw [At, hpassed]
        exact hs.tokens x hx
      · obtain ⟨t, ht, rfl⟩ := List.mem_map.mp (Multiset.mem_coe.mp hx)
        exact absurd (List.mem_map_of_mem ht) hr
    · rcases hx with hx | hx
      · rw [← map_snd_tokens] at hzero
        exact absurd (Multiset.mem_map_of_mem _ hx) (Multiset.count_eq_zero.mp hzero)
      · obtain ⟨t, ht, rfl⟩ := List.mem_map.mp (Multiset.mem_coe.mp hx)
        obtain ⟨j, hj, rfl⟩ := hlayer t ht
        obtain ⟨hlt, -, hle, hmod⟩ := hs.jobs _ j hj
        rw [At, hpassed, List.length_append, List.length_singleton]
        exact ⟨hlt, Nat.succ_le_succ hle, hmod.add_right 1⟩
  · rw [hjob] at hj
    rcases hcases r with ⟨hr, hpassed⟩ | ⟨hr, -⟩
    · rw [if_neg hr] at hj
      rw [At, hpassed]
      exact hs.jobs r j hj
    · rw [if_pos hr] at hj
      exact absurd hj (by simp)
  · rcases hcases r with ⟨-, hpassed⟩ | ⟨-, -, -, -, hlive⟩
    · rw [At, hpassed]
      exact hs.finished r (hfinished ▸ hr)
    · exact absurd hr hlive
  · rw [hemitted] at hx
    rcases List.mem_append.mp hx with hx | hx
    · exact hadmitted ▸ hs.admitted x hx
    · obtain ⟨t, ht, rfl⟩ := List.mem_map.mp hx
      rcases hcases t.seqId with ⟨hr, -⟩ | ⟨-, -, -, hseen, -⟩
      · exact absurd (List.mem_map_of_mem ht) hr
      · exact hseen

theorem Ordered.step (hk : 1 < M.topK) (hs : s.Inv M) (hσ : ForkJoin.Inv M.topK Alike (abs M s))
    (hordered : Ordered M s) (hstep : Step M s s') : Ordered M s' := by
  have hσ' := hσ.steps (by omega) (abs_step hk hs hσ hstep)
  -- a step that moves work and leaves the whole tokens
  have hmoves : ∀ {t : System W V M.numDevices}, t.tokens = s.tokens → t.admitted = s.admitted →
      t.finished = s.finished → t.job = s.job → t.emitted = s.emitted → Ordered M t :=
    fun htokens hadmitted hfinished hjob hemitted => hordered.of_emitted hemitted
      (hadmitted ▸ List.Subset.refl _) (htokens ▸ hordered.tokens) (hjob ▸ hordered.jobs)
      (hfinished ▸ hordered.finished)
  cases hstep with
  | @admitRequest d r len v p hr hlen hput =>
    obtain ⟨-, -, hadded⟩ := (hs.device d).admitRequest hlen hput
    have hnew := attnTokens_put (hs.device d) rfl hput hadded
    have htokens : (s.setDevice d { s.device d with pool := p }).tokens + 0 =
        s.tokens + {(0, r)} := by
      refine tokens_setDevice ?_
      simp only [Device.tokens, hnew, Multiset.map_singleton]
      abel
    refine hordered.of_emitted rfl (List.subset_cons_self _ _) (fun x hx => ?_) hordered.jobs
      hordered.finished
    rw [add_zero] at htokens
    replace hx : x ∈ s.tokens + {(0, r)} := htokens ▸ hx
    rcases Multiset.mem_add.mp hx with hx | hx
    · exact hordered.tokens x hx
    · obtain rfl := Multiset.mem_singleton.mp hx
      have hnone : s.emitted.filter (·.token.seqId = r) = [] := by
        refine List.filter_eq_nil_iff.mpr fun y hy hid => hr ?_
        exact of_decide_eq_true hid ▸ hordered.admitted y hy
      rw [At, System.passed, hnone]
      exact ⟨Nat.zero_le _, le_rfl, rfl⟩
  | setThreshold ha he => exact hmoves (tokens_eq_of_device rfl) rfl rfl rfl rfl
  | @schedule d hp =>
    obtain ⟨windows, sums, heq⟩ := schedule_frame (s.device d).pool.layerScheduler
    refine hmoves (tokens_eq_of_device ?_) rfl rfl rfl rfl
    simp only [Device.tokens, heq]
    rfl
  | take hp hget => exact hmoves (tokens_eq_of_device (tokens_take hs hp hget)) rfl rfl rfl rfl
  | @attend d before after b b' hiddens ids weights hrun hattn hlt =>
    have htokens : (s.setDevice d { s.device d with
        running := before ++ after
        sendQueue := (s.device d).sendQueue ++ [b'] }).tokens + b.runTokens = s.tokens + 0 := by
      refine tokens_setDevice ?_
      simp only [Device.tokens, hrun, List.map_append, List.map_cons, List.sum_append,
        List.sum_cons]
      abel
    refine hordered.of_emitted rfl (List.Subset.refl _) (fun x hx => ?_) (fun r j hj => ?_)
      hordered.finished
    · rw [add_zero] at htokens
      exact hordered.tokens x (htokens ▸ Multiset.mem_add.mpr (.inl hx))
    · -- the work of a row is sent out by the layer its token was at
      rcases recordJobs_cases hj with ⟨i, hi, rfl, rfl⟩ | hj
      · refine ⟨hlt, hordered.tokens (b.metadata.layerId, (b.rowAt i).reqId) ?_⟩
        refine Multiset.mem_of_le (runTokens_le hrun) (Multiset.mem_map_of_mem _ ?_)
        rw [TokenBatch.runIds, if_pos hattn]
        exact List.mem_map_of_mem (TokenBatch.rowAt_mem hi)
      · exact hordered.jobs r j hj
  | @sample d before after b continueIds continuedData p hrun hattn hlayer hids hdata _ hput =>
    have hb := (hs.device d).attnRun_of_mem hrun hattn
    obtain ⟨-, -, hadded⟩ := (hs.device d).sample hb hids hdata hput
    have hnew := attnTokens_put (hs.device d) rfl hput hadded
    have htokens : (s.setDevice d { s.device d with
        pool := p, running := before ++ after }).tokens + b.runTokens =
        s.tokens + Multiset.map (Prod.mk 0) ↑(continueIds.map fun i => (b.rowAt i).reqId) := by
      refine tokens_setDevice ?_
      simp only [Device.tokens, hrun, hnew, List.map_append, List.map_cons, List.sum_append,
        List.sum_cons]
      abel
    have hperm := perm_finish_continue hids
    have hlast : ∀ r ∈ b.rows.map (·.reqId), At M.numLayers s r M.numLayers := by
      intro r hr
      refine hordered.tokens (M.numLayers, r) (Multiset.mem_of_le (runTokens_le hrun) ?_)
      rw [TokenBatch.runTokens, TokenBatch.runIds, if_pos hattn, hlayer]
      exact Multiset.mem_map_of_mem _ hr
    refine hordered.of_emitted rfl (List.Subset.refl _) (fun x hx => ?_) hordered.jobs
      (fun r hr => ?_)
    · have hmem := htokens ▸ Multiset.mem_add.mpr (.inl hx)
      rcases Multiset.mem_add.mp hmem with hx | hx
      · exact hordered.tokens x hx
      · obtain ⟨r, hr, rfl⟩ := Multiset.mem_map.mp hx
        obtain ⟨-, -, hmod⟩ := hlast r (hperm.mem_iff.mpr (List.mem_append_right _ hr))
        exact ⟨Nat.zero_le _, Nat.zero_le _,
          (Nat.zero_mod _).trans ((Nat.mod_self _).symm.trans hmod)⟩
    · rcases List.mem_append.mp hr with hr | hr
      · exact hlast r (hperm.mem_iff.mpr (List.mem_append_left _ hr))
      · exact hordered.finished r hr
  | @expert d before after b b' hrun hexp hexec =>
    obtain ⟨l, -, hwork⟩ := (hs.device d).expertWork_of_mem hrun hexp
    have hrunTokens : b.runTokens = 0 := by
      rw [TokenBatch.runTokens, TokenBatch.runIds,
        if_neg (by simp [BatchMetadata.isAttention, hwork.tag]), Multiset.map_zero]
    refine hmoves (tokens_eq_of_device ?_) rfl rfl rfl rfl
    simp only [Device.tokens, hrun, List.map_append, List.map_cons, List.sum_append,
      List.sum_cons, hrunTokens, zero_add]
  | dispatch hqueue hidle => exact hmoves (tokens_eq_of_device rfl) rfl rfl rfl rfl
  | @send d e c b rest hsending hpeer =>
    have htokens : (s.setDevice d { s.device d with sending := rest }).tokens = s.tokens :=
      tokens_eq_of_device rfl
    exact hmoves htokens rfl rfl rfl rfl
  | @receive d e b rest hnet =>
    have htokens : (s.setDevice d { s.device d with
        pending := (s.device d).pending ++ [b] }).tokens = s.tokens := tokens_eq_of_device rfl
    exact hmoves htokens rfl rfl rfl rfl
  | @complete d before after b p hpending hprocess =>
    have hemits := (abs_complete hk hs hσ hpending hprocess).1
    have htokens : (s.setDevice d { s.device d with
        pool := p, pending := before ++ after }).tokens + 0 = s.tokens +
        ↑(((s.device d).pool.emits b).map fun t => (b.metadata.layerId, t.seqId)) := by
      refine tokens_setDevice ?_
      simp only [Device.tokens, tokens_complete hk hs hpending hprocess]
      abel
    rw [add_zero] at htokens
    refine hordered.gather hσ' htokens (fun t ht => ?_) rfl rfl (fun _ => rfl) rfl
    obtain ⟨hrank, hcount, hjob⟩ := hemits t ht
    obtain ⟨j, hj⟩ := Emission.Correct.of_copies (by omega) hrank hcount hjob
    exact ⟨j, hj.job, hj.layer⟩

/-- The states of runs that start with empty queues and thresholds of at least one. -/
def Reachable (M : Setup W V) (s : System W V M.numDevices) : Prop :=
  ∃ ty attn expert, (∀ d, 1 ≤ attn d) ∧ (∀ d, 1 ≤ expert d) ∧
    ReflTransGen (Step M) (init M ty attn expert fun _ => []) s

theorem inv_of_reachable (hk : 1 < M.topK) (hs : Reachable M s) :
    s.Inv M ∧ ForkJoin.Inv M.topK Alike (abs M s) := by
  obtain ⟨ty, attn, expert, hattn, hexpert, hrun⟩ := hs
  have hin : InFlightOk M fun _ => [] := fun _ _ h => by cases h
  have hnone : (init M ty attn expert fun _ => []).admitted = [] :=
    List.flatMap_eq_nil_iff.mpr fun _ _ => rfl
  exact forkJoinInv_of_steps hk (.init hattn hexpert hin)
    (inv_abs_init hin (hnone ▸ List.nodup_nil)) hrun

theorem Ordered.of_reachable (hk : 1 < M.topK) (hs : Reachable M s) : Ordered M s := by
  obtain ⟨ty, attn, expert, hattn, hexpert, hrun⟩ := hs
  induction hrun with
  | refl =>
    refine ⟨fun _ => rfl, fun x hx => ?_, fun r j hj => ?_, fun r hr => ?_, fun x hx => ?_⟩
    · have hmem := map_snd_tokens (init M ty attn expert fun _ => []) ▸ Multiset.mem_map_of_mem _ hx
      obtain ⟨-, hσ⟩ := inv_of_reachable hk ⟨ty, attn, expert, hattn, hexpert, .refl⟩
      have hseen := (hσ.live_of_mem_whole hmem).1
      simp [abs, init] at hseen
    · cases hj
    · cases hr
    · cases hx
  | tail hsteps hstep ih =>
    obtain ⟨hs, hσ⟩ := inv_of_reachable hk ⟨ty, attn, expert, hattn, hexpert, hsteps⟩
    exact .step hk hs hσ ih hstep

open Setup in
/-- A run of the pair in which a request passes both layers and finishes. The experts of the first
layer are on the first device, those of the second layer on the second. -/
theorem exists_finished_pair : ∃ s : System ℕ ℕ pair.numDevices,
    Reachable pair s ∧ s.passed 3 = [1, 2] ∧ s.admitted = [3] ∧ s.finished = [3] ∧
      s.Quiescent := by
  have hrequest := @Step.admitRequest ℕ ℕ _ _ .pair (init .pair (fun _ => .flfs) (fun _ => 1)
    (fun _ => 2) fun _ => []) fst 3 5 7 _ (by decide) (by decide) rfl
  have hrun := ReflTransGen.single hrequest
  have hrun := hrun.tail (Step.schedule (d := fst) rfl)
  have hrun := hrun.tail (Step.take (d := fst) rfl rfl)
  have hrun := hrun.tail (@Step.attend ℕ ℕ _ _ .pair _ fst [] [] _ _ [9] [0, 0] [2, 3] rfl rfl
    (by decide) rfl rfl rfl (fun _ _ => trivial) (by decide) rfl)
  have hrun := hrun.tail (Step.dispatch (d := fst) rfl rfl)
  have hrun := hrun.tail (Step.send (d := fst) (e := fst) rfl rfl)
  have hrun := hrun.tail (Step.receive (d := fst) (e := fst) rfl)
  have hrun := hrun.tail (@Step.complete ℕ ℕ _ _ .pair _ fst [] [] _ _ rfl rfl)
  have hrun := hrun.tail (Step.schedule (d := fst) rfl)
  have hrun := hrun.tail (Step.take (d := fst) rfl rfl)
  have hrun := hrun.tail (@Step.expert ℕ ℕ _ _ .pair _ fst [] [] _ _ rfl rfl rfl)
  have hrun := hrun.tail (Step.dispatch (d := fst) rfl rfl)
  have hrun := hrun.tail (Step.send (d := fst) (e := fst) rfl rfl)
  have hrun := hrun.tail (Step.receive (d := fst) (e := fst) rfl)
  have hrun := hrun.tail (@Step.complete ℕ ℕ _ _ .pair _ fst [] [] _ _ rfl rfl)
  -- the second layer
  have hrun := hrun.tail (Step.schedule (d := fst) rfl)
  have hrun := hrun.tail (Step.take (d := fst) rfl rfl)
  have hrun := hrun.tail (@Step.attend ℕ ℕ _ _ .pair _ fst [] [] _ _ [9] [1, 1] [2, 3] rfl rfl
    (by decide) rfl rfl rfl (fun _ _ => trivial) (by decide) rfl)
  have hrun := hrun.tail (Step.dispatch (d := fst) rfl rfl)
  have hrun := hrun.tail (Step.send (d := fst) (e := snd) rfl rfl)
  have hrun := hrun.tail (Step.receive (d := snd) (e := fst) rfl)
  have hrun := hrun.tail (@Step.complete ℕ ℕ _ _ .pair _ snd [] [] _ _ rfl rfl)
  have hrun := hrun.tail (Step.schedule (d := snd) rfl)
  have hrun := hrun.tail (Step.take (d := snd) rfl rfl)
  have hrun := hrun.tail (@Step.expert ℕ ℕ _ _ .pair _ snd [] [] _ _ rfl rfl rfl)
  have hrun := hrun.tail (Step.dispatch (d := snd) rfl rfl)
  have hrun := hrun.tail (Step.send (d := snd) (e := fst) rfl rfl)
  have hrun := hrun.tail (Step.receive (d := fst) (e := snd) rfl)
  have hrun := hrun.tail (@Step.complete ℕ ℕ _ _ .pair _ fst [] [] _ _ rfl rfl)
  have hrun := hrun.tail (Step.schedule (d := fst) rfl)
  have hrun := hrun.tail (Step.take (d := fst) rfl rfl)
  have hrun := hrun.tail (@Step.sample ℕ ℕ _ _ .pair _ fst [] [] _ [] [] _ rfl rfl rfl
    (by decide) rfl (by simp) rfl)
  refine ⟨_, ⟨_, _, _, by decide, by decide, hrun⟩, rfl, rfl, rfl, ?_, ?_, ?_, ?_, ?_, ?_⟩
  all_goals decide

/-- **Layers in order.** In every run that starts empty a request is gathered for the layers `1` to
`numLayers` in turn, over and over, none skipped and none twice. It finishes after one or more whole
passes, and it waits for attention, or is in a batch of attention, at the layer whose turn it is. -/
theorem passes_in_order (hk : 1 < M.topK) (hs : Reachable M s) :
    (∀ r, s.passed r = (List.range (s.passed r).length).map (· % M.numLayers + 1)) ∧
    (∀ r ∈ s.finished, M.numLayers ≤ (s.passed r).length ∧ M.numLayers ∣ (s.passed r).length) ∧
    ∀ x ∈ s.tokens, At M.numLayers s x.2 x.1 := by
  have hordered := Ordered.of_reachable hk hs
  refine ⟨hordered.passed, fun r hr => ?_, hordered.tokens⟩
  obtain ⟨-, hle, hmod⟩ := hordered.finished r hr
  exact ⟨hle, Nat.dvd_of_mod_eq_zero ((Nat.mod_self _).symm.trans hmod).symm⟩

/-- A request of the pair makes one pass, through the first device and then through the second. -/
theorem passes_in_order_pair : ∃ s : System ℕ ℕ Setup.pair.numDevices,
    s.finished = [3] ∧ s.passed 3 = [1, 2] ∧ Setup.pair.numLayers ∣ (s.passed 3).length := by
  obtain ⟨s, hs, hpassed, -, hfinished, -⟩ := exists_finished_pair
  obtain ⟨-, hpasses, -⟩ := passes_in_order (by decide) hs
  exact ⟨s, hfinished, hpassed, (hpasses 3 (by simp [hfinished])).2⟩

end System

end StreamEP

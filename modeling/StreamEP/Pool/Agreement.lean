import StreamEP.Pool.Scheduler
import Mathlib.Tactic.Positivity
import Mathlib.Tactic.Linarith

/-!
# The scheduler agrees with the queues

Pool threads add work while one scheduling thread picks a layer and then takes from it; picking
and taking are two separate critical sections. The scheduler trusts the counter of a layer and
never looks into the queues, so the core invariant is that the counter is exact. This file is about
each of these calls on its own; runs are in `StreamEP.Pool.SchedRun`.

A token is a row of a queued batch or a gathered token; `queued` lists those of a layer in order.
-/

namespace StreamEP

variable {W V : Type}

/-! ### Queued tokens -/

section Queued

variable [TensorRow V]

/-- The tokens of a layer, in the order they are served. -/
def UnifiedLayer.queued (L : UnifiedLayer W V) : List (Row W V ⊕ TokenTopKInfo V) :=
  (L.batchQueue.flatMap TokenBatch.rows).map .inl ++ L.tokenQueue.map .inr

theorem length_flatMap_rows (q : List (TokenBatch W V)) :
    (q.flatMap TokenBatch.rows).length = queuedTokens q := by
  rw [List.length_flatMap, queuedTokens]
  simp

theorem UnifiedLayer.length_queued (L : UnifiedLayer W V) :
    L.queued.length = queuedTokens L.batchQueue + L.tokenQueue.length := by
  rw [queued, List.length_append, List.length_map, List.length_map, length_flatMap_rows]

end Queued

namespace LayerScheduler

variable (s : LayerScheduler W V)

/-! ### Reading back a changed layer -/

theorem layerAt_modifyLayer_self {i : ℕ} (hi : i < s.layers.length)
    (f : UnifiedLayer W V → UnifiedLayer W V) :
    (s.modifyLayer i f).layerAt i = f (s.layerAt i) := by
  simp [layerAt, modifyLayer, hi]

theorem layerAt_modifyLayer_of_ne {i j : ℕ} (h : j ≠ i)
    (f : UnifiedLayer W V → UnifiedLayer W V) :
    (s.modifyLayer i f).layerAt j = s.layerAt j := by
  simp [layerAt, modifyLayer, Ne.symm h]

/-! ### Scores -/

section Score

variable {s}

theorem effectiveTokens_pos_iff (i : ℕ) (htop : 0 < s.topK) :
    0 < s.effectiveTokens i ↔ 0 < (s.layerAt i).numTokens := by
  rw [effectiveTokens, getEffectiveTokens]
  split_ifs with h1 h2
  · simpa using h1
  · exact Int.cast_pos
  · have : (0 : ℚ) < s.topK := by exact_mod_cast htop
    rw [div_pos_iff_of_pos_right this, Int.cast_pos]

theorem effectiveTokens_nonneg (i : ℕ) : 0 ≤ s.effectiveTokens i := by
  rw [effectiveTokens, getEffectiveTokens]
  split_ifs with h1 h2
  · exact le_rfl
  · exact_mod_cast (not_le.mp h1).le
  · have : (0 : ℚ) ≤ (s.layerAt i).numTokens := by exact_mod_cast (not_le.mp h1).le
    positivity

theorem historyScore_nonneg (cfg : DefragConfig) (i : ℕ) : 0 ≤ historyScore cfg s i := by
  rw [historyScore]
  split_ifs with h
  · have : (0 : ℚ) ≤ (s.sumHistoryTokensInLayer.getD i 0 : ℤ) := by exact_mod_cast h.2.2.2.le
    positivity
  · exact le_rfl

theorem lookahead_nonneg {cfg : DefragConfig} (hdecay : 0 ≤ cfg.weightDecay) (pos : ℕ)
    (steps : List ℕ) {acc : ℚ × ℚ} (h : 0 ≤ acc.1 ∧ 0 ≤ acc.2) :
    0 ≤ (steps.foldl (lookaheadStep cfg s pos) acc).1 ∧
      0 ≤ (steps.foldl (lookaheadStep cfg s pos) acc).2 := by
  induction steps generalizing acc with
  | nil => exact h
  | cons k steps ih =>
    refine ih ⟨?_, mul_nonneg h.2 hdecay⟩
    have heff := effectiveTokens_nonneg (s := s) (s.fromPipelinePos ((pos + k) % s.numLayers))
    have hhist := historyScore_nonneg (s := s) cfg
      (s.fromPipelinePos ((pos + k) % s.numLayers))
    exact add_nonneg h.1 (mul_nonneg (add_nonneg heff hhist) h.2)

theorem numTokens_pos_of_score {cfg : DefragConfig} (htop : 0 < s.topK) {i : ℕ}
    (h : 0 < score cfg s i) : 0 < (s.layerAt i).numTokens := by
  rw [← effectiveTokens_pos_iff i htop]
  rw [score] at h
  split_ifs at h with himm
  · exact absurd h (lt_irrefl _)
  · exact not_le.mp himm

theorem score_pos_iff {cfg : DefragConfig} (hdecay : 0 ≤ cfg.weightDecay) (htop : 0 < s.topK)
    (i : ℕ) : 0 < score cfg s i ↔ 0 < (s.layerAt i).numTokens := by
  refine ⟨numTokens_pos_of_score htop, fun h => ?_⟩
  have himm := (effectiveTokens_pos_iff i htop).mpr h
  rw [score, if_neg (not_le.mpr himm)]
  exact add_pos_of_nonneg_of_pos (lookahead_nonneg hdecay _ _ ⟨le_rfl, hdecay⟩).1 himm

/-- The selection loop keeps its start, or ends at a layer that beats it. -/
theorem foldl_selectStep (scores : ℕ → ℚ) (l : List ℕ) (acc : ℚ × ℤ) :
    (l.foldl (selectStep scores) acc = acc ∧ ∀ i ∈ l, scores i ≤ acc.1) ∨
      ∃ i ∈ l, l.foldl (selectStep scores) acc = (scores i, (i : ℤ)) ∧ acc.1 < scores i := by
  induction l generalizing acc with
  | nil => exact Or.inl ⟨rfl, by simp⟩
  | cons i l ih =>
    rw [List.foldl_cons, selectStep]
    split_ifs with h
    · rcases ih (scores i, i) with ⟨heq, -⟩ | ⟨j, hj, heq, hlt⟩
      · exact Or.inr ⟨i, by simp, heq, h⟩
      · exact Or.inr ⟨j, List.mem_cons_of_mem _ hj, heq, lt_trans h hlt⟩
    · rcases ih acc with ⟨heq, hle⟩ | ⟨j, hj, heq, hlt⟩
      · refine Or.inl ⟨heq, fun j hj => ?_⟩
        rcases List.mem_cons.mp hj with rfl | hj
        · exact not_lt.mp h
        · exact hle j hj
      · exact Or.inr ⟨j, List.mem_cons_of_mem _ hj, heq, hlt⟩

end Score

/-! ### The invariant -/

section Invariant

variable [TensorRow V]

/-- A batch that may be queued at layer `i`: parallel columns, the tag of the layer, and what
merging checks. -/
structure Queueable (numAttnLayers i : ℕ) (b : TokenBatch W V) : Prop extends b.Wf where
  /-- Attention layers hold attention batches with consistent counts. -/
  attention : i < numAttnLayers →
    b.metadata.batchTag = .attention ∧ b.metadata.attentionBatchSafeCheck = true
  /-- Expert layers hold expert batches with an expert per token. -/
  expert : numAttnLayers ≤ i →
    b.metadata.batchTag = .expert ∧ b.metadata.expIds.length = b.metadata.numTokens

/-- The counter of layer `i` is exact and only one of its queues is in use. -/
structure LayerOk (numAttnLayers : ℕ) (usesTokenQueue : Bool) (i : ℕ) (L : UnifiedLayer W V) :
    Prop where
  layerId : L.layerId = if i < numAttnLayers then i else i - numAttnLayers
  /-- `num_tokens` counts the queued tokens. -/
  numTokens : L.numTokens = L.queued.length
  /-- A layer that serves gathered tokens has no batches. -/
  batchQueue : usesTokenQueue = true → L.batchQueue = []
  /-- A layer that serves batches has no gathered tokens. -/
  tokenQueue : usesTokenQueue = false → L.tokenQueue = []
  batches : ∀ b ∈ L.batchQueue, Queueable numAttnLayers i b
  tokens : ∀ t ∈ L.tokenQueue, -1 ≤ t.initPrefillLen

structure Ok : Prop where
  numAttnLayers : s.numAttnLayers = s.numExpertLayers + 1
  /-- `top_k` is at least one. -/
  topK_pos : 0 < s.topK
  length_layers : s.layers.length = s.numLayers
  layers : ∀ i < s.numLayers, LayerOk s.numAttnLayers (s.layerUsesTokenQueue i) i (s.layerAt i)
  /-- No call has thrown while holding the mutex. -/
  unlocked : s.locked = false

variable {s}

omit [TensorRow V] in
theorem layerUsesTokenQueue_expert (s : LayerScheduler W V) (l : ℕ) :
    s.layerUsesTokenQueue (s.numAttnLayers + l : ℕ) = false := by
  simp [layerUsesTokenQueue, isAttnLayer]

theorem Ok.expertLayer (hs : s.Ok) {l : ℕ} (hl : s.numAttnLayers + l < s.numLayers) :
    LayerOk s.numAttnLayers false (s.numAttnLayers + l) (s.layerAt (s.numAttnLayers + l)) :=
  s.layerUsesTokenQueue_expert l ▸ hs.layers _ hl

theorem Ok.modifyLayer (hs : s.Ok) {i : ℕ} (hi : i < s.numLayers)
    {f : UnifiedLayer W V → UnifiedLayer W V}
    (hf : LayerOk s.numAttnLayers (s.layerUsesTokenQueue i) i (f (s.layerAt i))) :
    (s.modifyLayer i f).Ok where
  numAttnLayers := hs.numAttnLayers
  topK_pos := hs.topK_pos
  length_layers := List.length_modify .. |>.trans hs.length_layers
  layers j hj := by
    by_cases hji : j = i
    · subst hji
      rw [layerAt_modifyLayer_self s (hs.length_layers ▸ hi)]
      exact hf
    · rw [layerAt_modifyLayer_of_ne s hji]
      exact hs.layers j hj
  unlocked := hs.unlocked

/-! ### Picking a layer -/

/-- What a scheduling decision means: no layer has work, or the picked one does. -/
def Picked (s : LayerScheduler W V) (choice : ℤ) : Prop :=
  (choice = -1 ∧ ∀ i < s.numLayers, (s.layerAt i).numTokens = 0) ∨
    ∃ i < s.numLayers, choice = i ∧ 0 < (s.layerAt i).numTokens

theorem Ok.numTokens_nonneg (hs : s.Ok) {i : ℕ} (hi : i < s.numLayers) :
    0 ≤ (s.layerAt i).numTokens := by
  rw [(hs.layers i hi).numTokens]
  omega

theorem Ok.picked_scheduleFlfs (hs : s.Ok) : s.Picked s.scheduleFlfs := by
  have hnum := hs.numAttnLayers
  have hlayers : s.numLayers = s.numAttnLayers + s.numExpertLayers := rfl
  rw [scheduleFlfs]
  cases hfind : (List.range s.numAttnLayers).findSome? _ with
  | none =>
    rw [List.findSome?_eq_none_iff] at hfind
    have hempty : ∀ j < s.numAttnLayers, (s.layerAt j).numTokens ≤ 0 ∧
        (j < s.numExpertLayers → (s.layerAt (s.numAttnLayers + j)).numTokens ≤ 0) := by
      intro j hj
      have hj' := hfind j (List.mem_range.mpr hj)
      split_ifs at hj' with h1 h2
      exact ⟨not_lt.mp h1, fun hexp => not_lt.mp fun hpos => h2 ⟨hexp, hpos⟩⟩
    refine Or.inl ⟨rfl, fun i hi => le_antisymm ?_ (hs.numTokens_nonneg hi)⟩
    by_cases hattn : i < s.numAttnLayers
    · exact (hempty i hattn).1
    · have h := (hempty (i - s.numAttnLayers) (by omega)).2 (by omega)
      rwa [Nat.add_sub_cancel' (Nat.le_of_not_lt hattn)] at h
  | some l =>
    obtain ⟨i, hi, hl⟩ := List.exists_of_findSome?_eq_some hfind
    rw [List.mem_range] at hi
    split_ifs at hl with h1 h2
    · have hid := (hs.layers i (by omega)).layerId
      rw [if_pos hi] at hid
      exact Or.inr ⟨i, by omega, by rw [← Option.some.inj hl, hid]; rfl, h1⟩
    · have hid := (hs.layers (s.numAttnLayers + i) (by omega)).layerId
      rw [if_neg (by omega), Nat.add_sub_cancel_left] at hid
      refine Or.inr ⟨s.numAttnLayers + i, by omega, ?_, h2.2⟩
      rw [← Option.some.inj hl, hid, Option.getD_some]
      push_cast
      omega

theorem Ok.picked_scheduleImpl (hs : s.Ok) {cfg : DefragConfig} (hdecay : 0 ≤ cfg.weightDecay) :
    s.Picked (s.scheduleImpl cfg).1 := by
  have hscore := fun i => score_pos_iff (s := s) hdecay hs.topK_pos i
  rw [scheduleImpl]
  have hnonneg : ∀ x ∈ (List.range s.numLayers).map fun i => (s.layerAt i).numTokens, 0 ≤ x := by
    intro x hx
    obtain ⟨i, hi, rfl⟩ := List.mem_map.mp hx
    exact hs.numTokens_nonneg (List.mem_range.mp hi)
  split_ifs with hsum
  · -- no work at all: every counter is at most the sum
    refine Or.inl ⟨rfl, fun i hi => le_antisymm ?_ (hs.numTokens_nonneg hi)⟩
    rw [← hsum]
    exact List.single_le_sum hnonneg _ (List.mem_map_of_mem (List.mem_range.mpr hi))
  · rcases foldl_selectStep (score cfg s) (List.range s.numLayers) (0, -1) with
      ⟨-, hle⟩ | ⟨i, hi, heq, hlt⟩
    · -- some counter is positive, so some score beats the start value
      refine absurd (List.sum_eq_zero fun x hx => ?_) hsum
      obtain ⟨i, hi, rfl⟩ := List.mem_map.mp hx
      have hzero := (hscore i).not.mp (not_lt.mpr (hle i hi))
      exact le_antisymm (not_lt.mp hzero) (hs.numTokens_nonneg (List.mem_range.mp hi))
    · exact Or.inr ⟨i, List.mem_range.mp hi, congrArg Prod.snd heq, (hscore i).mp hlt⟩

omit [TensorRow V] in
theorem schedule_frame (s : LayerScheduler W V) : ∃ windows sums,
    s.schedule.2 =
      { s with historyTokensInLayer := windows, sumHistoryTokensInLayer := sums } := by
  rw [schedule]
  split
  · exact ⟨_, _, rfl⟩
  · simp only [scheduleImpl, stepEnd]
    split_ifs <;> exact ⟨_, _, rfl⟩

theorem Ok.schedule (hs : s.Ok) : s.schedule.2.Ok := by
  obtain ⟨windows, sums, heq⟩ := schedule_frame s
  rw [heq]
  exact ⟨hs.1, hs.2, hs.3, hs.4, hs.5⟩

/-- **Both policies pick a layer that has work**, and say `-1` only when there is none. -/
theorem Ok.picked_schedule (hs : s.Ok)
    (hdecay : ∀ cfg, s.schedulerType = .defrag cfg → 0 ≤ cfg.weightDecay) :
    s.Picked s.schedule.1 := by
  rw [LayerScheduler.schedule]
  cases hcfg : s.schedulerType with
  | flfs => exact hs.picked_scheduleFlfs
  | defrag cfg => exact hs.picked_scheduleImpl (hdecay cfg hcfg)

theorem Ok.pos_of_schedule (hs : s.Ok) (h : s.schedule.1 ≠ -1) :
    ∃ i < s.numLayers, s.schedule.1 = i ∧ 0 < (s.layerAt i).numTokens := by
  rw [LayerScheduler.schedule] at h ⊢
  cases hcfg : s.schedulerType with
  | flfs => exact hs.picked_scheduleFlfs.resolve_left fun hidle => h (by simp [hcfg, hidle.1])
  | defrag cfg =>
    simp only [hcfg, scheduleImpl] at h ⊢
    split_ifs at h ⊢ with hsum
    · exact absurd rfl h
    · rcases foldl_selectStep (score cfg s) (List.range s.numLayers) (0, -1) with
        ⟨heq, -⟩ | ⟨i, hi, heq, hlt⟩
      · exact absurd (congrArg Prod.snd heq) h
      · exact ⟨i, List.mem_range.mp hi, congrArg Prod.snd heq,
          numTokens_pos_of_score hs.topK_pos hlt⟩

/-! ### Serving a layer -/

/-- A piece of a queueable batch is queueable: attention pieces recount their tokens. -/
theorem Queueable.chunk {na i : ℕ} {b : TokenBatch W V} (hb : Queueable na i b) {off n : ℕ}
    (hn : off + n ≤ b.metadata.numTokens) : Queueable na i (b.chunk off n) where
  toWf := hb.toWf.chunk hn
  attention hi := by
    obtain ⟨htag, -⟩ := hb.attention hi
    refine ⟨by simpa using htag, ?_⟩
    simp [BatchMetadata.attentionBatchSafeCheck, BatchMetadata.chunk, BatchMetadata.isAttention,
      htag]
  expert hi := by
    obtain ⟨htag, hlen⟩ := hb.expert hi
    refine ⟨by simpa using htag, ?_⟩
    simp only [TokenBatch.chunk_metadata, BatchMetadata.chunk_expIds,
      BatchMetadata.chunk_numTokens, List.length_take, List.length_drop, hlen]
    omega

theorem exists_merge [Inhabited W] {na i : ℕ} {bs : List (TokenBatch W V)} (hne : bs ≠ [])
    (h : ∀ b ∈ bs, Queueable na i b) : ∃ m, TokenBatch.merge bs = .ok (some m) := by
  match bs, hne with
  | [b], _ => exact ⟨b, rfl⟩
  | b :: c :: bs, _ =>
    by_cases hi : i < na
    · have htag := ((h b (by simp)).attention hi).1
      have hcheck : ∀ m ∈ (b :: c :: bs).map (·.metadata),
          m.attentionBatchSafeCheck = true := by
        intro m hm
        obtain ⟨x, hx, rfl⟩ := List.mem_map.mp hm
        exact ((h x hx).attention hi).2
      rw [TokenBatch.merge, if_neg (by simp [BatchMetadata.isExpert, htag]),
        if_pos (by simp [BatchMetadata.isAttention, htag]), TokenBatch.mergeByAttention,
        BatchMetadata.mergeByAttention, ensure_of_true hcheck]
      · exact ⟨_, rfl⟩
      all_goals simp
    · have htag := ((h b (by simp)).expert (Nat.le_of_not_lt hi)).1
      have hcheck : ∀ m ∈ (b :: c :: bs).map (·.metadata), m.numTokens = m.expIds.length := by
        intro m hm
        obtain ⟨x, hx, rfl⟩ := List.mem_map.mp hm
        exact ((h x hx).expert (Nat.le_of_not_lt hi)).2.symm
      rw [TokenBatch.merge, if_pos (by simp [BatchMetadata.isExpert, htag]),
        TokenBatch.mergeByExpert, BatchMetadata.mergeByExpert, ensure_of_true hcheck]
      · exact ⟨_, rfl⟩
      all_goals simp

/-- The tokens a restricted getter takes from a layer. -/
def taken (usesTokenQueue : Bool) (L : UnifiedLayer W V) (t : ℤ) :
    List (Row W V ⊕ TokenTopKInfo V) :=
  if usesTokenQueue then (L.getTokensRestricted t).1.map .inr
  else ((takeBatches t L.batchQueue 0).result.flatMap TokenBatch.rows).map .inl

/-- What the restricted getter leaves of the layer. -/
def served (usesTokenQueue : Bool) (L : UnifiedLayer W V) (t : ℤ) : UnifiedLayer W V :=
  if usesTokenQueue then (L.getTokensRestricted t).2 else (L.getBatchesRestricted t).1

/-- **Serving a layer** takes tokens from the front, as many as allowed or all, and keeps the
counter exact. -/
theorem LayerOk.serve {na i : ℕ} {uses : Bool} {L : UnifiedLayer W V}
    (h : LayerOk na uses i L) {t : ℤ} (ht : 0 ≤ t) :
    LayerOk na uses i (served uses L t) ∧
      taken uses L t ++ (served uses L t).queued = L.queued ∧
      ((taken uses L t).length : ℤ) = min t L.queued.length := by
  cases uses with
  | true =>
    have hbq := h.batchQueue rfl
    have hqueued : L.queued = L.tokenQueue.map .inr := by simp [UnifiedLayer.queued, hbq]
    have hnum := h.numTokens
    rw [hqueued, List.length_map] at hnum
    simp only [taken, served, UnifiedLayer.getTokensRestricted, takeTokens_eq, Int.sub_zero,
      if_true]
    refine ⟨⟨h.layerId, ?_, fun _ => hbq, by simp, by simp [hbq],
      fun u hu => h.tokens u (List.mem_of_mem_drop hu)⟩, ?_, ?_⟩
    · simp only [UnifiedLayer.length_queued, hbq, queuedTokens_nil, List.length_drop,
        List.length_take]
      omega
    · rw [hqueued]
      simp [UnifiedLayer.queued, hbq]
    · rw [hqueued, List.length_map, List.length_map, List.length_take]
      omega
  | false =>
    have htq := h.tokenQueue rfl
    have hlen : L.queued.length = queuedTokens L.batchQueue := by simp [L.length_queued, htq]
    have hnum := h.numTokens
    have htokens := takeBatches_tokens (t := t) L.batchQueue 0
    have hrest := takeBatches_rest_tokens (t := t) L.batchQueue 0
    have hforall := takeBatches_forall (fun b _ _ hb hn => Queueable.chunk hb hn) t 0 h.batches
    simp only [taken, served, UnifiedLayer.getBatchesRestricted, Bool.false_eq_true, if_false]
    refine ⟨⟨h.layerId, ?_, by simp, fun _ => htq, hforall.2, h.tokens⟩, ?_, ?_⟩
    · simp only [UnifiedLayer.length_queued, htq, List.length_nil]
      rw [hnum, hlen, htokens]
      omega
    · simp only [UnifiedLayer.queued, htq, List.map_nil, List.append_nil]
      rw [← List.map_append, takeBatches_append]
    · rw [List.length_map, length_flatMap_rows, hlen]
      have htotal := takeBatches_total ht L.batchQueue
      omega

omit [TensorRow V] in
theorem rangeCheck {i : ℕ} (hi : i < s.numLayers) :
    ¬((i : ℤ) < 0 ∨ (i : ℤ) ≥ s.numLayers) := by omega

/-- The getter of a layer that gathers tokens packs the first ones. -/
theorem getRestricted_of_tokens [Inhabited W] (S : StdSort) (gatherSum : List V → V) {i : ℕ}
    (hi : i < s.numLayers) (huses : s.layerUsesTokenQueue i = true) (t : ℤ) :
    s.getBatchFromLayerRestricted S gatherSum i t =
      (s.modifyLayer i fun _ => served true (s.layerAt i) t,
        (TokenBatch.packTopkTokens S gatherSum i ((s.layerAt i).tokenQueue.take t.toNat)).map
          some) := by
  rw [getBatchFromLayerRestricted, if_neg (rangeCheck hi), Int.toNat_natCast, if_pos huses]
  simp only [served, if_true, UnifiedLayer.getTokensRestricted, takeTokens_eq, Int.sub_zero]

/-- The getter of a layer that holds batches merges the ones it takes. -/
theorem getRestricted_of_batches [Inhabited W] (S : StdSort) (gatherSum : List V → V) {i : ℕ}
    (hi : i < s.numLayers) (huses : s.layerUsesTokenQueue i = false) {t : ℤ}
    (htotal : 0 < (takeBatches t (s.layerAt i).batchQueue 0).totalTokens)
    (hne : (takeBatches t (s.layerAt i).batchQueue 0).result ≠ []) :
    s.getBatchFromLayerRestricted S gatherSum i t =
      (s.modifyLayer i fun _ => served false (s.layerAt i) t,
        TokenBatch.merge (takeBatches t (s.layerAt i).batchQueue 0).result) := by
  rw [getBatchFromLayerRestricted, if_neg (rangeCheck hi), Int.toNat_natCast,
    if_neg (by simp [huses])]
  simp only [served, Bool.false_eq_true, if_false, UnifiedLayer.getBatchesRestricted]
  rw [ensure_of_true ⟨htotal, hne⟩, ok_bind]
  rfl

/-- A layer with work that gathers tokens has a token to pack. -/
theorem LayerOk.take_tokens_ne_nil {na i : ℕ} {L : UnifiedLayer W V} (h : LayerOk na true i L)
    (hpos : 0 < L.numTokens) {t : ℤ} (ht : 1 ≤ t) : L.tokenQueue.take t.toNat ≠ [] := by
  rw [h.numTokens, UnifiedLayer.length_queued, h.batchQueue rfl, queuedTokens_nil] at hpos
  refine List.ne_nil_of_length_pos ?_
  rw [List.length_take]
  omega

/-- A layer with work that holds batches has a token to serve. -/
theorem LayerOk.take_batches_ne_nil {na i : ℕ} {L : UnifiedLayer W V} (h : LayerOk na false i L)
    (hpos : 0 < L.numTokens) {t : ℤ} (ht : 1 ≤ t) :
    0 < (takeBatches t L.batchQueue 0).totalTokens ∧
      (takeBatches t L.batchQueue 0).result ≠ [] := by
  rw [h.numTokens, UnifiedLayer.length_queued, h.tokenQueue rfl, List.length_nil] at hpos
  have htotal := takeBatches_total (show (0 : ℤ) ≤ t by omega) L.batchQueue
  have htokens := takeBatches_tokens (t := t) L.batchQueue 0
  refine ⟨by omega, fun hnil => ?_⟩
  rw [hnil, queuedTokens_nil] at htokens
  omega

/-- **Serving a picked layer succeeds**: nothing is thrown, the mutex is released and a batch is
returned. -/
theorem Ok.get_spec [Inhabited W] (S : StdSort) (gatherSum : List V → V) (hs : s.Ok) {i : ℕ}
    (hi : i < s.numLayers) (hpos : 0 < (s.layerAt i).numTokens) {t : ℤ} (ht : 1 ≤ t) :
    ∃ b, s.getBatchFromLayerRestricted S gatherSum i t =
      (s.modifyLayer i fun _ => served (s.layerUsesTokenQueue i) (s.layerAt i) t,
        .ok (some b)) := by
  have hok := hs.layers i hi
  cases huses : s.layerUsesTokenQueue i with
  | true =>
    rw [huses] at hok
    rw [getRestricted_of_tokens S gatherSum hi huses, TokenBatch.packTopkTokens]
    have hlen : ∀ u ∈ (s.layerAt i).tokenQueue.take t.toNat, -1 ≤ u.initPrefillLen :=
      fun u hu => hok.tokens u (List.mem_of_mem_take hu)
    cases hsort : S.sort TokenTopKInfo.packLess ((s.layerAt i).tokenQueue.take t.toNat) with
    | nil =>
      -- the sort only reorders, and at least one token was taken
      have hnil := hsort ▸ S.perm (strictWeakOn_packLess hlen)
      exact absurd hnil.symm.eq_nil (hok.take_tokens_ne_nil hpos ht)
    | cons u us => exact ⟨_, rfl⟩
  | false =>
    rw [huses] at hok
    obtain ⟨htotal, hne⟩ := hok.take_batches_ne_nil hpos ht
    obtain ⟨b, hb⟩ := exists_merge hne (takeBatches_forall
      (fun b _ _ hb hn => Queueable.chunk hb hn) t 0 hok.batches).1
    exact ⟨b, by rw [getRestricted_of_batches S gatherSum hi huses htotal hne, hb]⟩

theorem Ok.pos_of_get [Inhabited W] (S : StdSort) (gatherSum : List V → V) (hs : s.Ok) {i : ℕ}
    (hi : i < s.numLayers) {t : ℤ} (ht : 1 ≤ t) {s' : LayerScheduler W V} {b : TokenBatch W V}
    (hget : s.getBatchFromLayerRestricted S gatherSum i t = (s', .ok (some b))) :
    0 < (s.layerAt i).numTokens := by
  have hok := hs.layers i hi
  have hnum := hok.numTokens
  by_contra hempty
  rw [UnifiedLayer.length_queued] at hnum
  cases huses : s.layerUsesTokenQueue i with
  | true =>
    -- packing no tokens reads past the end
    have hnil : (s.layerAt i).tokenQueue = [] := List.length_eq_zero_iff.mp (by omega)
    have hsort : S.sort TokenTopKInfo.packLess ([] : List (TokenTopKInfo V)) = [] :=
      (S.perm (strictWeakOn_packLess (by simp))).eq_nil
    rw [getRestricted_of_tokens S gatherSum hi huses, hnil, List.take_nil,
      TokenBatch.packTopkTokens, hsort] at hget
    cases congrArg Prod.snd hget
  | false =>
    -- batches without tokens add up to nothing
    have htotal := takeBatches_total (show (0 : ℤ) ≤ t by omega) (s.layerAt i).batchQueue
    rw [getBatchFromLayerRestricted, if_neg (rangeCheck hi), Int.toNat_natCast,
      if_neg (by simp [huses])] at hget
    simp only [UnifiedLayer.getBatchesRestricted] at hget
    rw [ensure_of_false (by omega)] at hget
    cases congrArg Prod.snd hget

end Invariant

/-! ### Adding work -/

section Adding

variable [TensorRow V] {s : LayerScheduler W V}

/-- What the pool passes to `add_batch`: batches of an attention layer that does not gather
tokens, or of an expert layer, with consistent metadata. They may be empty. -/
structure Addable (s : LayerScheduler W V) (b : TokenBatch W V) : Prop extends b.Wf where
  /-- An attention batch for layer `0` or without gathering, or an expert batch. -/
  target : (b.metadata.batchTag = .attention ∧ b.metadata.layerId < s.numAttnLayers ∧
      (b.metadata.layerId = 0 ∨ s.attnUseTokenQueue = false) ∧
      b.metadata.attentionBatchSafeCheck = true) ∨
    (b.metadata.batchTag = .expert ∧ b.metadata.layerId < s.numExpertLayers ∧
      b.metadata.expIds.length = b.metadata.numTokens)

/-- The place in `layers` that a batch is added to. -/
def target (s : LayerScheduler W V) (b : TokenBatch W V) : ℕ :=
  if b.metadata.isAttention then b.metadata.layerId else s.numAttnLayers + b.metadata.layerId

theorem LayerOk.addBatch {na i : ℕ} {L : UnifiedLayer W V} (h : LayerOk na false i L)
    {b : TokenBatch W V} (hb : Queueable na i b) :
    LayerOk na false i (L.addBatch b) ∧
      (L.addBatch b).queued = L.queued ++ b.rows.map .inl := by
  have htq := h.tokenQueue rfl
  have hqueued : (L.addBatch b).queued = L.queued ++ b.rows.map .inl := by
    simp [UnifiedLayer.queued, UnifiedLayer.addBatch, htq]
  refine ⟨⟨h.layerId, ?_, by simp, fun _ => htq, fun c hc => ?_, h.tokens⟩, hqueued⟩
  · rw [hqueued, List.length_append, List.length_map, TokenBatch.length_rows]
    have hnum := h.numTokens
    simp only [UnifiedLayer.addBatch]
    omega
  · rcases List.mem_append.mp hc with hc | hc
    · exact h.batches c hc
    · rw [List.mem_singleton.mp hc]
      exact hb

omit [TensorRow V] in
theorem addTokens_eq (L : UnifiedLayer W V) (ts : List (TokenTopKInfo V)) :
    L.addTokens ts =
      { L with tokenQueue := L.tokenQueue ++ ts, numTokens := L.numTokens + ts.length } := by
  induction ts generalizing L with
  | nil => simp [UnifiedLayer.addTokens]
  | cons t ts ih =>
    rw [UnifiedLayer.addTokens, List.foldl_cons, ← UnifiedLayer.addTokens, ih]
    simp only [UnifiedLayer.addToken, List.append_assoc, List.singleton_append,
      List.length_cons]
    congr 1
    push_cast
    omega

theorem LayerOk.addTokens {na i : ℕ} {L : UnifiedLayer W V} (h : LayerOk na true i L)
    {ts : List (TokenTopKInfo V)} (hts : ∀ t ∈ ts, -1 ≤ t.initPrefillLen) :
    LayerOk na true i (L.addTokens ts) ∧
      (L.addTokens ts).queued = L.queued ++ ts.map .inr := by
  have hbq := h.batchQueue rfl
  have hqueued : (L.addTokens ts).queued = L.queued ++ ts.map .inr := by
    simp [addTokens_eq, UnifiedLayer.queued]
  refine ⟨⟨?_, ?_, fun _ => ?_, by simp, ?_, ?_⟩, hqueued⟩
  · simpa [addTokens_eq] using h.layerId
  · rw [hqueued, List.length_append, List.length_map, addTokens_eq]
    have hnum := h.numTokens
    push_cast
    omega
  · simpa [addTokens_eq] using hbq
  · simp [addTokens_eq, hbq]
  · simp only [addTokens_eq, List.mem_append]
    exact fun t ht => ht.elim (h.tokens t) (hts t)

/-- **Adding a batch** appends its rows to the target layer and keeps the invariant. -/
theorem Ok.addBatch_spec (hs : s.Ok) {b : TokenBatch W V} (hb : s.Addable b) :
    s.target b < s.numLayers ∧ s.addBatch b = .ok (s.modifyLayer (s.target b) (·.addBatch b)) ∧
      (s.modifyLayer (s.target b) (·.addBatch b)).Ok ∧
      ((s.layerAt (s.target b)).addBatch b).queued =
        (s.layerAt (s.target b)).queued ++ b.rows.map .inl := by
  have hlayers : s.numLayers = s.numAttnLayers + s.numExpertLayers := rfl
  rcases hb.target with ⟨htag, hlt, hzero, hcheck⟩ | ⟨htag, hlt, hlen⟩
  · have htarget : s.target b = b.metadata.layerId := by
      rw [target, if_pos (by simp [BatchMetadata.isAttention, htag])]
    have huses : s.layerUsesTokenQueue b.metadata.layerId = false := by
      rcases hzero with h | h
      · simp [layerUsesTokenQueue, h]
      · simp [layerUsesTokenQueue, h]
    have hok := hs.layers b.metadata.layerId (by omega)
    rw [huses] at hok
    have hadd := hok.addBatch (b := b) ⟨hb.toWf, fun _ => ⟨htag, hcheck⟩, fun h => by omega⟩
    rw [htarget]
    refine ⟨by omega, ?_, hs.modifyLayer (by omega) (huses ▸ hadd.1), hadd.2⟩
    rw [addBatch, if_pos (by simp [BatchMetadata.isAttention, htag]), if_pos hlt]
  · have htarget : s.target b = s.numAttnLayers + b.metadata.layerId := by
      rw [target, if_neg (by simp [BatchMetadata.isAttention, htag])]
    have huses := s.layerUsesTokenQueue_expert b.metadata.layerId
    have hok := hs.expertLayer (l := b.metadata.layerId) (by omega)
    have hadd := hok.addBatch (b := b) ⟨hb.toWf, fun h => by omega, fun _ => ⟨htag, hlen⟩⟩
    rw [htarget]
    refine ⟨by omega, ?_, hs.modifyLayer (by omega) (huses ▸ hadd.1), hadd.2⟩
    rw [addBatch, if_neg (by simp [BatchMetadata.isAttention, htag]),
      if_pos (by simp [BatchMetadata.isExpert, htag]), if_pos hlt]

/-- **Adding gathered tokens** appends them to the layer and keeps the invariant. -/
theorem Ok.attnAddTokens_spec (hs : s.Ok) {l : ℕ} (hl : 0 < l) (hlt : l < s.numAttnLayers)
    (huse : s.attnUseTokenQueue = true) {ts : List (TokenTopKInfo V)}
    (hts : ∀ t ∈ ts, -1 ≤ t.initPrefillLen) :
    s.attnAddTokens l ts = .ok (s.modifyLayer l (·.addTokens ts)) ∧
      (s.modifyLayer l (·.addTokens ts)).Ok ∧
      ((s.layerAt l).addTokens ts).queued = (s.layerAt l).queued ++ ts.map .inr := by
  have hlayers : s.numLayers = s.numAttnLayers + s.numExpertLayers := rfl
  have huses : s.layerUsesTokenQueue l = true := by
    simp [layerUsesTokenQueue, isAttnLayer, huse, hlt, hl]
  have hok := hs.layers l (by omega)
  rw [huses] at hok
  have hadd := hok.addTokens hts
  refine ⟨?_, hs.modifyLayer (by omega) (huses ▸ hadd.1), hadd.2⟩
  rw [attnAddTokens, if_pos hlt]

end Adding

/-! ### The initial state -/

theorem layerAt_create (ty : SchedulerType) (n topk : ℕ) {i : ℕ} (hi : i < n + 1 + n) :
    (create ty (n + 1) n topk : LayerScheduler W V).layerAt i =
      if i < n + 1 then UnifiedLayer.createAttentionLayer i
      else UnifiedLayer.createExpertLayer (i - (n + 1)) := by
  show ((List.range (n + 1)).map UnifiedLayer.createAttentionLayer ++
    (List.range n).map UnifiedLayer.createExpertLayer)[i]?.getD _ = _
  by_cases h : i < n + 1
  · rw [if_pos h, List.getElem?_append_left (by simpa using h), List.getElem?_map,
      List.getElem?_range h]
    rfl
  · rw [if_neg h, List.getElem?_append_right (by simpa using Nat.le_of_not_lt h),
      List.length_map, List.length_range, List.getElem?_map, List.getElem?_range (by omega)]
    rfl

theorem ok_create [TensorRow V] (ty : SchedulerType) (n topk : ℕ) :
    (create ty (n + 1) n topk : LayerScheduler W V).Ok where
  numAttnLayers := rfl
  topK_pos := by
    simp only [create]
    split_ifs with h
    · exact h
    · exact Nat.one_pos
  length_layers := by simp [create, numLayers]
  layers i hi := by
    rw [layerAt_create ty n topk hi]
    split_ifs with h
    · exact ⟨(if_pos h).symm, rfl, fun _ => rfl, fun _ => rfl, by
        simp [UnifiedLayer.createAttentionLayer, UnifiedLayer.create], by
        simp [UnifiedLayer.createAttentionLayer, UnifiedLayer.create]⟩
    · exact ⟨(if_neg h).symm, rfl, fun _ => rfl, fun _ => rfl, by
        simp [UnifiedLayer.createExpertLayer, UnifiedLayer.create], by
        simp [UnifiedLayer.createExpertLayer, UnifiedLayer.create]⟩
  unlocked := rfl

end LayerScheduler

end StreamEP

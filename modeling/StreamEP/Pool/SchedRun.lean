import StreamEP.Pool.Agreement
import Mathlib.Logic.Relation

/-!
# Runs of a scheduler with concurrent producers

The calls that reach one scheduler, in any interleaving: pool threads add batches and gathered
tokens at any time, one scheduling thread alternates between picking a layer and serving it. A
call needs the mutex, so none happens after a call has thrown with the mutex held.

Next to the scheduler the state holds the layer that was picked and not yet served, and for every
layer the tokens added and the tokens removed so far.

## Main results

* `SchedRun.agreement_of_reachable`
-/

namespace StreamEP

open LayerScheduler

variable {W V : Type}

/-- A scheduler in use, with the history of its layers. -/
structure SchedRun (W V : Type) where
  sched : LayerScheduler W V
  /-- The layer `schedule` returned, until it is served. -/
  picked : Option ℤ
  /-- The tokens added to each layer, in order. -/
  added : ℕ → List (Row W V ⊕ TokenTopKInfo V)
  /-- The tokens removed from each layer, in order. -/
  removed : ℕ → List (Row W V ⊕ TokenTopKInfo V)

namespace SchedRun

/-- A new scheduler with one attention layer more than expert layers. -/
def init (ty : SchedulerType) (numExpertLayers topk : ℕ) : SchedRun W V where
  sched := create ty (numExpertLayers + 1) numExpertLayers topk
  picked := none
  added := fun _ => []
  removed := fun _ => []

/-- Append to the history of one layer. -/
def log {α : Type} (h : ℕ → List α) (i : ℕ) (xs : List α) : ℕ → List α :=
  Function.update h i (h i ++ xs)

variable [Inhabited W] [TensorRow V] (S : StdSort) (gatherSum : List V → V)

inductive Step : SchedRun W V → SchedRun W V → Prop
  /-- A pool thread adds a batch. -/
  | addBatch {r : SchedRun W V} {b : TokenBatch W V} {s' : LayerScheduler W V}
      (hlock : r.sched.locked = false) (hb : r.sched.Addable b)
      (hs : r.sched.addBatch b = .ok s') :
      Step r { r with sched := s', added := log r.added (r.sched.target b) (b.rows.map .inl) }
  /-- A pool thread adds gathered tokens to an attention layer that gathers. -/
  | attnAddTokens {r : SchedRun W V} {l : ℕ} {ts : List (TokenTopKInfo V)}
      {s' : LayerScheduler W V} (hlock : r.sched.locked = false) (hl : 0 < l)
      (huse : r.sched.attnUseTokenQueue = true) (hts : ∀ t ∈ ts, -1 ≤ t.initPrefillLen)
      (hs : r.sched.attnAddTokens l ts = .ok s') :
      Step r { r with sched := s', added := log r.added l (ts.map .inr) }
  /-- The scheduling thread picks a layer, or finds no work and tries again later. -/
  | schedule {r : SchedRun W V} (hlock : r.sched.locked = false) (hp : r.picked = none) :
      Step r { r with
        sched := r.sched.schedule.2
        picked := if r.sched.schedule.1 = -1 then none else some r.sched.schedule.1 }
  /-- The scheduling thread serves the layer it picked. -/
  | get {r : SchedRun W V} {l t : ℤ} (hlock : r.sched.locked = false) (hp : r.picked = some l)
      (ht : 1 ≤ t) :
      Step r { r with
        sched := (r.sched.getBatchFromLayerRestricted S gatherSum l t).1
        picked := none
        removed := log r.removed l.toNat
          (taken (r.sched.layerUsesTokenQueue l) (r.sched.layerAt l.toNat) t) }

/-- What the scheduling thread and the pool threads may rely on in a state. -/
structure Agreement (r : SchedRun W V) : Prop where
  /-- `num_tokens` is the number of queued tokens. -/
  numTokens : ∀ i < r.sched.numLayers,
    (r.sched.layerAt i).numTokens = (r.sched.layerAt i).queued.length
  /-- `schedule` says `-1` exactly when nothing is queued. -/
  idle : r.sched.schedule.1 = -1 ↔ ∀ i < r.sched.numLayers, (r.sched.layerAt i).queued = []
  /-- Otherwise it names a layer with a queued token. -/
  busy : r.sched.schedule.1 ≠ -1 → ∃ i < r.sched.numLayers, r.sched.schedule.1 = i ∧
    (r.sched.layerAt i).queued ≠ []
  /-- A picked layer still has a token; serving it throws nothing, returns a batch, releases the
  mutex and removes as many tokens as allowed. -/
  serve : ∀ l, r.picked = some l → ∃ i < r.sched.numLayers, l = i ∧
    (r.sched.layerAt i).queued ≠ [] ∧ ∀ t, 1 ≤ t → ∃ s' b,
      r.sched.getBatchFromLayerRestricted S gatherSum l t = (s', .ok (some b)) ∧
      s'.locked = false ∧
      taken (r.sched.layerUsesTokenQueue l) (r.sched.layerAt i) t ++ (s'.layerAt i).queued =
        (r.sched.layerAt i).queued ∧
      ((taken (r.sched.layerUsesTokenQueue l) (r.sched.layerAt i) t).length : ℤ) =
        min t (r.sched.layerAt i).queued.length
  /-- Removed and queued tokens spell the added ones. -/
  history : ∀ i < r.sched.numLayers, r.removed i ++ (r.sched.layerAt i).queued = r.added i

structure Inv (r : SchedRun W V) : Prop where
  ok : r.sched.Ok
  decay : ∀ cfg, r.sched.schedulerType = .defrag cfg → 0 ≤ cfg.weightDecay
  /-- Only the scheduling thread removes tokens, so a picked layer keeps its work. -/
  picked : ∀ l, r.picked = some l → ∃ i < r.sched.numLayers, l = i ∧
    0 < (r.sched.layerAt i).numTokens
  /-- Removed and queued tokens spell the added ones. -/
  history : ∀ i < r.sched.numLayers, r.removed i ++ (r.sched.layerAt i).queued = r.added i

omit [Inhabited W] in
theorem Inv.init {ty : SchedulerType} (hdecay : ∀ cfg, ty = .defrag cfg → 0 ≤ cfg.weightDecay)
    (n topk : ℕ) : Inv (init ty n topk : SchedRun W V) where
  ok := ok_create ty n topk
  decay := hdecay
  picked := by simp [SchedRun.init]
  history i hi := by
    show [] ++ ((create ty (n + 1) n topk : LayerScheduler W V).layerAt i).queued = []
    rw [layerAt_create ty n topk hi]
    split_ifs <;> rfl

omit [Inhabited W] in
theorem Inv.numTokens_pos_iff {r : SchedRun W V} (h : Inv r) {i : ℕ} (hi : i < r.sched.numLayers) :
    0 < (r.sched.layerAt i).numTokens ↔ (r.sched.layerAt i).queued ≠ [] := by
  rw [(h.ok.layers i hi).numTokens, ← List.length_pos_iff]
  omega

omit [Inhabited W] in
theorem Inv.add {r : SchedRun W V} (h : Inv r) {i : ℕ} (hi : i < r.sched.numLayers)
    {f : UnifiedLayer W V → UnifiedLayer W V} {xs : List (Row W V ⊕ TokenTopKInfo V)}
    (hok : (r.sched.modifyLayer i f).Ok)
    (hq : (f (r.sched.layerAt i)).queued = (r.sched.layerAt i).queued ++ xs) :
    Inv { r with sched := r.sched.modifyLayer i f, added := log r.added i xs } := by
  have hself := layerAt_modifyLayer_self r.sched (h.ok.length_layers ▸ hi) f
  refine ⟨hok, h.decay, fun l hl => ?_, fun j hj => ?_⟩
  · obtain ⟨j, hj, rfl, hpos⟩ := h.picked l hl
    refine ⟨j, hj, rfl, ?_⟩
    by_cases hji : j = i
    · -- the layer only got more work
      subst hji
      have hne := (h.numTokens_pos_iff hj).mp hpos
      have hok' := (hok.layers j hj).numTokens
      show 0 < ((r.sched.modifyLayer j f).layerAt j).numTokens
      rw [hok', hself, hq, List.length_append]
      have := List.length_pos_iff.mpr hne
      omega
    · show 0 < ((r.sched.modifyLayer i f).layerAt j).numTokens
      rwa [layerAt_modifyLayer_of_ne r.sched hji]
  · by_cases hji : j = i
    · subst hji
      show r.removed j ++ ((r.sched.modifyLayer j f).layerAt j).queued = log r.added j xs j
      rw [hself, hq, ← List.append_assoc, h.history j hj, log, Function.update_self]
    · show r.removed j ++ ((r.sched.modifyLayer i f).layerAt j).queued = log r.added i xs j
      rw [layerAt_modifyLayer_of_ne r.sched hji, h.history j hj, log,
        Function.update_of_ne hji]

theorem Inv.step {r r' : SchedRun W V} (h : Inv r) (hstep : Step S gatherSum r r') : Inv r' := by
  cases hstep with
  | addBatch hlock hb hs =>
    obtain ⟨hi, heq, hok, hq⟩ := h.ok.addBatch_spec hb
    obtain rfl := Except.ok.inj (hs.symm.trans heq)
    exact h.add hi hok hq
  | @attnAddTokens l ts s' hlock hl huse hts hs =>
    have hlt : l < r.sched.numAttnLayers := by
      by_contra hge
      rw [attnAddTokens, if_neg hge] at hs
      cases hs
    obtain ⟨heq, hok, hq⟩ := h.ok.attnAddTokens_spec hl hlt huse hts
    obtain rfl := Except.ok.inj (hs.symm.trans heq)
    exact h.add (Nat.lt_add_right _ hlt) hok hq
  | schedule hlock hp =>
    have hok := h.ok.schedule
    have hpick := h.ok.picked_schedule h.decay
    obtain ⟨windows, sums, heq⟩ := schedule_frame r.sched
    rw [heq] at hok ⊢
    refine ⟨hok, h.decay, fun l hl => ?_, h.history⟩
    rcases hpick with ⟨hidle, -⟩ | ⟨i, hi, hchoice, hpos⟩
    · simp [hidle] at hl
    · have hl' : (i : ℤ) = l := by simpa [hchoice] using hl
      exact ⟨i, hi, hl'.symm, hpos⟩
  | @get l t hlock hp ht =>
    obtain ⟨i, hi, rfl, hpos⟩ := h.picked _ hp
    obtain ⟨b, hget⟩ := h.ok.get_spec S gatherSum hi hpos ht
    obtain ⟨hserved, hsplit, -⟩ := (h.ok.layers i hi).serve (show 0 ≤ t by omega)
    rw [hget, Int.toNat_natCast]
    refine ⟨h.ok.modifyLayer hi hserved, h.decay, by simp, fun j hj => ?_⟩
    by_cases hji : j = i
    · subst hji
      show log r.removed j _ j ++ ((r.sched.modifyLayer j _).layerAt j).queued = r.added j
      rw [layerAt_modifyLayer_self r.sched (h.ok.length_layers ▸ hi), log,
        Function.update_self, List.append_assoc, hsplit, h.history j hj]
    · show log r.removed i _ j ++ ((r.sched.modifyLayer i _).layerAt j).queued = r.added j
      rw [layerAt_modifyLayer_of_ne r.sched hji, log, Function.update_of_ne hji, h.history j hj]

theorem Inv.of_reachable {ty : SchedulerType}
    (hdecay : ∀ cfg, ty = .defrag cfg → 0 ≤ cfg.weightDecay) {n topk : ℕ} {r : SchedRun W V}
    (h : Relation.ReflTransGen (Step S gatherSum) (SchedRun.init ty n topk) r) : Inv r := by
  induction h with
  | refl => exact .init hdecay n topk
  | tail _ hstep ih => exact ih.step S gatherSum hstep

/-- **Scheduler and queues agree in every reachable state**, whatever the threads do. -/
theorem agreement_of_reachable {ty : SchedulerType}
    (hdecay : ∀ cfg, ty = .defrag cfg → 0 ≤ cfg.weightDecay) {n topk : ℕ} {r : SchedRun W V}
    (h : Relation.ReflTransGen (Step S gatherSum) (SchedRun.init ty n topk) r) :
    Agreement S gatherSum r := by
  have hinv := Inv.of_reachable S gatherSum hdecay h
  have hpick := hinv.ok.picked_schedule hinv.decay
  have hqueued : ∀ i < r.sched.numLayers,
      ((r.sched.layerAt i).numTokens = 0 ↔ (r.sched.layerAt i).queued = []) := by
    intro i hi
    rw [(hinv.ok.layers i hi).numTokens, ← List.length_eq_zero_iff]
    omega
  refine ⟨fun i hi => (hinv.ok.layers i hi).numTokens, ⟨fun hidle i hi => ?_, fun hnone => ?_⟩,
    fun hbusy => ?_, fun l hl => ?_, hinv.history⟩
  · rcases hpick with ⟨-, hempty⟩ | ⟨j, hj, hchoice, -⟩
    · exact (hqueued i hi).mp (hempty i hi)
    · omega
  · rcases hpick with ⟨hidle, -⟩ | ⟨j, hj, -, hpos⟩
    · exact hidle
    · have := (hqueued j hj).mpr (hnone j hj)
      omega
  · rcases hpick with ⟨hidle, -⟩ | ⟨j, hj, hchoice, hpos⟩
    · exact absurd hidle hbusy
    · exact ⟨j, hj, hchoice, (hinv.numTokens_pos_iff hj).mp hpos⟩
  · obtain ⟨i, hi, rfl, hpos⟩ := hinv.picked l hl
    refine ⟨i, hi, rfl, (hinv.numTokens_pos_iff hi).mp hpos, fun t ht => ?_⟩
    obtain ⟨b, hget⟩ := hinv.ok.get_spec S gatherSum hi hpos ht
    obtain ⟨hserved, hsplit, hlen⟩ := (hinv.ok.layers i hi).serve (show 0 ≤ t by omega)
    refine ⟨_, b, hget, hinv.ok.unlocked, ?_, hlen⟩
    rw [layerAt_modifyLayer_self r.sched (hinv.ok.length_layers ▸ hi)]
    exact hsplit

/-! ### A run in which a layer is picked -/

/-- One token for expert `0` of layer `0`. -/
def oneToken : TokenBatch ℕ ℕ where
  data := [7]
  metadata :=
    { batchTag := .expert, numTokens := 1, tokenHiddenDim := 1, layerId := 0, reqIds := [3]
      expIds := [0], topkWeights := [1], attnDpRanks := [0], initPrefillLens := [5] }

/-- Defragging with a window of two, a lookahead of three and decay one half. -/
def halfDecay : SchedulerType := .defrag ⟨2, 3, 1 / 2⟩

theorem addable_oneToken : (create halfDecay 2 1 2 : LayerScheduler ℕ ℕ).Addable oneToken where
  reqIds := rfl
  initPrefillLens := rfl
  expIds := .inr rfl
  topkWeights := .inr rfl
  attnDpRanks := .inr rfl
  data := rfl
  hiddenDim := rfl
  target := .inr ⟨rfl, by decide, rfl⟩

theorem agreement_after_pick : ∃ r : SchedRun ℕ ℕ,
    Relation.ReflTransGen (Step .stable List.sum) (init halfDecay 1 2) r ∧ r.picked = some 2 ∧
      Agreement .stable List.sum r := by
  have hadd := @Step.addBatch ℕ ℕ _ _ .stable List.sum (init halfDecay 1 2) oneToken _ rfl
    addable_oneToken rfl
  have hrun := (Relation.ReflTransGen.single hadd).tail (Step.schedule rfl rfl)
  refine ⟨_, hrun, by decide +kernel,
    agreement_of_reachable .stable List.sum (fun cfg hcfg => ?_) hrun⟩
  cases hcfg
  norm_num

end SchedRun

end StreamEP

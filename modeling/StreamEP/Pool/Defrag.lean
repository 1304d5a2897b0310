import StreamEP.Pool.SchedRun
import Mathlib.Algebra.BigOperators.Intervals
import Mathlib.Data.List.DropRight
import Mathlib.Data.Rat.Floor
import Mathlib.Tactic.Ring

/-!
# The defragging scheduler over a run

`UnifiedDefraggingLayerScheduler` keeps, for every layer, the loads of the last `lookback_steps`
calls of `schedule` that found work, and their sum, which is maintained by adding and subtracting.
It scores a layer by walking the circular pipeline `A0, E0, A1, E1, …` with a factor that decays.

A run is any sequence of calls of `schedule` with anything in between: the layers change in any way
that leaves their counters non-negative. The calls of the other threads are of that kind. Next to
the scheduler the state holds the loads that the calls found, as `step_end` is given them.

## Main results

* `DefragRun.defragged_of_run` — windows, sums, scores and the layer that is picked
* `DefragRun.exists_defragged` — the same for the threads of `StreamEP.Pool.SchedRun`
-/

namespace StreamEP

open LayerScheduler

variable {W V : Type}

/-- A scheduler in use, with the loads that were found. -/
structure DefragRun (W V : Type) where
  sched : LayerScheduler W V
  /-- The truncated effective tokens of the layers, for each call that found work. -/
  found : List (ℕ → ℤ)

namespace LayerScheduler

/-- `effective_snapshot_int` -/
def truncatedTokens (s : LayerScheduler W V) (i : ℕ) : ℤ := ⌊s.effectiveTokens i⌋

def totalRaw (s : LayerScheduler W V) : ℤ :=
  ((List.range s.numLayers).map fun i => (s.layerAt i).numTokens).sum

/-- The layer `k` positions ahead in the circular pipeline. -/
def ahead (s : LayerScheduler W V) (i k : ℕ) : ℕ :=
  s.fromPipelinePos ((s.toPipelinePos i + k) % s.numLayers)

end LayerScheduler

namespace DefragRun

def init (cfg : DefragConfig) (numExpertLayers topk : ℕ) : DefragRun W V :=
  ⟨create (.defrag cfg) (numExpertLayers + 1) numExpertLayers topk, []⟩

/-- **One call**, of `schedule` or of anything else. -/
inductive Step : DefragRun W V → DefragRun W V → Prop
  | found {r : DefragRun W V} (hwork : r.sched.totalRaw ≠ 0) :
      Step r ⟨r.sched.schedule.2, r.found ++ [r.sched.truncatedTokens]⟩
  | idle {r : DefragRun W V} (hidle : r.sched.totalRaw = 0) :
      Step r { r with sched := r.sched.schedule.2 }
  | other {r : DefragRun W V} (layers : List (UnifiedLayer W V)) (locked : Bool)
      (hnonneg : ∀ i < r.sched.numLayers,
        0 ≤ ({ r.sched with layers := layers, locked := locked }.layerAt i).numTokens) :
      Step r { r with sched := { r.sched with layers := layers, locked := locked } }

/-- What was found at a layer by the last `lookback_steps` calls that found work. -/
def window (cfg : DefragConfig) (r : DefragRun W V) (i : ℕ) : List ℤ :=
  (r.found.map (· i)).rtake cfg.lookbackSteps

/-- The mean of a window; nothing for an empty one. -/
def average (l : List ℤ) : ℚ := l.sum / l.length

/-- The pipeline of `n` expert layers. -/
structure Pipeline (s : LayerScheduler W V) (n : ℕ) : Prop where
  numLayers : s.numLayers = 2 * n + 1
  toPos : ∀ i < s.numLayers, s.toPipelinePos i < s.numLayers ∧
    s.fromPipelinePos (s.toPipelinePos i) = i
  fromPos : ∀ pos < s.numLayers, s.fromPipelinePos pos < s.numLayers ∧
    s.toPipelinePos (s.fromPipelinePos pos) = pos
  attn : ∀ i ≤ n, s.fromPipelinePos (2 * i) = i
  expert : ∀ i < n, s.fromPipelinePos (2 * i + 1) = s.numAttnLayers + i

structure Defragged (cfg : DefragConfig) (n : ℕ) (r : DefragRun W V) : Prop where
  pipeline : Pipeline r.sched n
  history : ∀ i < r.sched.numLayers, r.sched.historyTokensInLayer[i]? = some (window cfg r i) ∧
    r.sched.sumHistoryTokensInLayer[i]? = some (window cfg r i).sum
  /-- A call that finds no work changes nothing. -/
  idle : r.sched.totalRaw = 0 → r.sched.schedule = (-1, r.sched)
  score : ∀ i < r.sched.numLayers, 0 < (r.sched.layerAt i).numTokens →
    score cfg r.sched i = r.sched.effectiveTokens i +
      ∑ k ∈ Finset.Ico 1 cfg.lookaheadSteps.toNat, cfg.weightDecay ^ k *
        (r.sched.effectiveTokens (r.sched.ahead i k) + average (window cfg r (r.sched.ahead i k)))
  /-- The first layer of maximal score is picked. -/
  picked : r.sched.totalRaw ≠ 0 → ∃ best < r.sched.numLayers, r.sched.schedule.1 = best ∧
    0 < (r.sched.layerAt best).numTokens ∧ ∀ i < r.sched.numLayers,
      LayerScheduler.score cfg r.sched i ≤ LayerScheduler.score cfg r.sched best ∧
      (i < best → LayerScheduler.score cfg r.sched i < LayerScheduler.score cfg r.sched best)

/-! ### The pipeline -/

theorem pipeline_of_layers {s : LayerScheduler W V} {n : ℕ} (hattn : s.numAttnLayers = n + 1)
    (hexpert : s.numExpertLayers = n) : Pipeline s n := by
  have hlayers : s.numLayers = 2 * n + 1 := by
    rw [numLayers, hattn, hexpert]
    omega
  refine ⟨hlayers, fun i hi => ?_, fun pos hpos => ?_, fun i hi => ?_, fun i hi => ?_⟩
  · rw [toPipelinePos, hattn]
    split_ifs with h
    · rw [fromPipelinePos, if_pos (by omega)]
      omega
    · rw [fromPipelinePos, if_neg (by omega)]
      omega
  · rw [fromPipelinePos, hattn]
    split_ifs with h
    · rw [toPipelinePos, if_pos (by omega)]
      omega
    · rw [toPipelinePos, if_neg (by omega)]
      omega
  · rw [fromPipelinePos, if_pos (by omega)]
    omega
  · rw [fromPipelinePos, if_neg (by omega)]
    omega

/-! ### The windows -/

section Window

theorem rtake_concat_of_le {l : List ℤ} {n : ℕ} (hn : 0 < n) (hle : n ≤ (l.rtake n).length)
    (x : ℤ) : (l ++ [x]).rtake n = (l.rtake n).tail ++ [x] := by
  obtain ⟨m, rfl⟩ := Nat.exists_eq_succ_of_ne_zero hn.ne'
  have hlength : m + 1 ≤ l.length := by
    rw [List.rtake, List.length_drop] at hle
    omega
  rw [List.rtake_concat_succ, List.rtake, List.rtake, List.tail_drop]
  congr 2
  omega

theorem rtake_concat_of_lt {l : List ℤ} {n : ℕ} (hlt : (l.rtake n).length < n) (x : ℤ) :
    (l ++ [x]).rtake n = l.rtake n ++ [x] := by
  obtain ⟨m, rfl⟩ := Nat.exists_eq_succ_of_ne_zero (Nat.ne_zero_of_lt hlt)
  have hlength : l.length < m + 1 := by
    rw [List.rtake, List.length_drop] at hlt
    omega
  rw [List.rtake_concat_succ, List.rtake, List.rtake]
  congr 2
  omega

theorem pushHistory_rtake {cfg : DefragConfig} (hback : 0 < cfg.lookbackSteps) (l : List ℤ)
    (x : ℤ) : pushHistory cfg (l.rtake cfg.lookbackSteps) (l.rtake cfg.lookbackSteps).sum x =
      ((l ++ [x]).rtake cfg.lookbackSteps, ((l ++ [x]).rtake cfg.lookbackSteps).sum) := by
  rw [pushHistory]
  split_ifs with hfull
  · rw [rtake_concat_of_le hback hfull]
    cases hwindow : l.rtake cfg.lookbackSteps with
    | nil =>
      rw [hwindow] at hfull
      exact absurd hfull (not_le.mpr hback)
    | cons y window =>
      rw [List.headD_cons, List.tail_cons, List.sum_append, List.sum_cons, List.sum_singleton]
      congr 1
      omega
  · rw [rtake_concat_of_lt (not_le.mp hfull), List.sum_append, List.sum_singleton]

end Window

/-! ### Scores -/

section Score

variable {s : LayerScheduler W V} {cfg : DefragConfig}

theorem foldl_lookaheadStep (pos : ℕ) (acc : ℚ × ℚ) (m : ℕ) :
    (List.range' 1 m).foldl (lookaheadStep cfg s pos) acc =
      (acc.1 + ∑ t ∈ Finset.range m, acc.2 * cfg.weightDecay ^ t *
        (s.effectiveTokens (s.fromPipelinePos ((pos + (1 + t)) % s.numLayers)) +
          historyScore cfg s (s.fromPipelinePos ((pos + (1 + t)) % s.numLayers))),
        acc.2 * cfg.weightDecay ^ m) := by
  induction m with
  | zero => simp
  | succ m ih =>
    rw [List.range'_1_concat, List.foldl_append, ih, List.foldl_cons, List.foldl_nil,
      lookaheadStep, Finset.sum_range_succ]
    refine Prod.ext ?_ ?_
    · dsimp only
      ring
    · dsimp only
      ring

theorem score_of_pos (htop : 0 < s.topK) {i : ℕ} (hpos : 0 < (s.layerAt i).numTokens) :
    score cfg s i = s.effectiveTokens i +
      ∑ k ∈ Finset.Ico 1 cfg.lookaheadSteps.toNat, cfg.weightDecay ^ k *
        (s.effectiveTokens (s.ahead i k) + historyScore cfg s (s.ahead i k)) := by
  have himmediate := (effectiveTokens_pos_iff i htop).mpr hpos
  have hsteps : (cfg.lookaheadSteps - 1).toNat = cfg.lookaheadSteps.toNat - 1 := by omega
  rw [score, if_neg (not_le.mpr himmediate)]
  dsimp only
  have hterm : ∀ t, cfg.weightDecay * cfg.weightDecay ^ t = cfg.weightDecay ^ (1 + t) := by
    intro t
    rw [pow_add, pow_one]
  rw [foldl_lookaheadStep, hsteps, Finset.sum_Ico_eq_sum_range]
  simp only [hterm, zero_add]
  exact add_comm _ _

/-- The selection loop ends at the first maximum, if anything beats zero. -/
theorem foldl_selectStep_range (scores : ℕ → ℚ) (n : ℕ) :
    ((List.range n).foldl (selectStep scores) (0, -1) = (0, -1) ∧ ∀ i < n, scores i ≤ 0) ∨
      ∃ best < n, (List.range n).foldl (selectStep scores) (0, -1) = (scores best, (best : ℤ)) ∧
        0 < scores best ∧
        ∀ i < n, scores i ≤ scores best ∧ (i < best → scores i < scores best) := by
  induction n with
  | zero => exact .inl ⟨rfl, fun i hi => absurd hi (Nat.not_lt_zero i)⟩
  | succ n ih =>
    rw [List.range_succ, List.foldl_append, List.foldl_cons, List.foldl_nil]
    obtain ⟨heq, hle⟩ | ⟨best, hbest, heq, hpos, hmax⟩ := ih
    · rw [heq, selectStep]
      split_ifs with hgt
      · refine .inr ⟨n, Nat.lt_succ_self n, rfl, hgt, fun i hi => ?_⟩
        rcases Nat.lt_succ_iff_lt_or_eq.mp hi with hlt | rfl
        · have hless := (hle i hlt).trans_lt hgt
          exact ⟨hless.le, fun _ => hless⟩
        · exact ⟨le_rfl, fun h => absurd h (lt_irrefl _)⟩
      · refine .inl ⟨rfl, fun i hi => ?_⟩
        rcases Nat.lt_succ_iff_lt_or_eq.mp hi with hlt | rfl
        · exact hle i hlt
        · exact not_lt.mp hgt
    · rw [heq, selectStep]
      split_ifs with hgt
      · refine .inr ⟨n, Nat.lt_succ_self n, rfl, hpos.trans hgt, fun i hi => ?_⟩
        rcases Nat.lt_succ_iff_lt_or_eq.mp hi with hlt | rfl
        · have hless := (hmax i hlt).1.trans_lt hgt
          exact ⟨hless.le, fun _ => hless⟩
        · exact ⟨le_rfl, fun h => absurd h (lt_irrefl _)⟩
      · refine .inr ⟨best, hbest.trans (Nat.lt_succ_self n), rfl, hpos, fun i hi => ?_⟩
        rcases Nat.lt_succ_iff_lt_or_eq.mp hi with hlt | rfl
        · exact hmax i hlt
        · exact ⟨not_lt.mp hgt, fun h => absurd h hbest.not_gt⟩

end Score

/-! ### Runs -/

structure Inv (cfg : DefragConfig) (n : ℕ) (r : DefragRun W V) : Prop where
  schedulerType : r.sched.schedulerType = .defrag cfg
  numAttnLayers : r.sched.numAttnLayers = n + 1
  numExpertLayers : r.sched.numExpertLayers = n
  topK_pos : 0 < r.sched.topK
  nonneg : ∀ i < r.sched.numLayers, 0 ≤ (r.sched.layerAt i).numTokens
  found_nonneg : ∀ tokens ∈ r.found, ∀ i, 0 ≤ tokens i
  history : r.sched.historyTokensInLayer = (List.range r.sched.numLayers).map (window cfg r)
  sums : r.sched.sumHistoryTokensInLayer =
    (List.range r.sched.numLayers).map fun i => (window cfg r i).sum

theorem window_init (cfg : DefragConfig) (n topk : ℕ) :
    window cfg (init cfg n topk : DefragRun W V) = fun _ => [] := by
  funext i
  exact List.rtake_nil _

theorem inv_init {cfg : DefragConfig} (hback : 0 < cfg.lookbackSteps) (n topk : ℕ) :
    Inv cfg n (init cfg n topk : DefragRun W V) where
  schedulerType := rfl
  numAttnLayers := rfl
  numExpertLayers := rfl
  topK_pos := by
    simp only [init, create]
    split_ifs with h
    · exact h
    · exact Nat.one_pos
  nonneg i hi := by
    show 0 ≤ ((create (.defrag cfg) (n + 1) n topk : LayerScheduler W V).layerAt i).numTokens
    rw [layerAt_create _ n topk hi]
    split_ifs
    · exact le_rfl
    · exact le_rfl
  found_nonneg := fun _ h => absurd h List.not_mem_nil
  history := by
    rw [window_init, List.map_const', List.length_range]
    exact if_pos hback
  sums := by
    simp only [window_init, List.sum_nil]
    rw [List.map_const', List.length_range]
    exact if_pos hback

namespace Inv

variable {cfg : DefragConfig} {n : ℕ} {r r' : DefragRun W V} (h : Inv cfg n r)

include h

theorem window_nonneg (i : ℕ) : 0 ≤ (window cfg r i).sum := by
  refine List.sum_nonneg fun x hx => ?_
  obtain ⟨tokens, htokens, rfl⟩ := List.mem_map.mp (List.mem_of_mem_drop hx)
  exact h.found_nonneg tokens htokens i

theorem numLayers_pos : 0 < r.sched.numLayers := by
  rw [numLayers, h.numAttnLayers]
  omega

theorem history_ne_nil : r.sched.historyTokensInLayer ≠ [] := by
  rw [h.history]
  simpa using h.numLayers_pos.ne'

theorem getElem?_history {i : ℕ} (hi : i < r.sched.numLayers) :
    r.sched.historyTokensInLayer[i]? = some (window cfg r i) := by
  rw [h.history, List.getElem?_map, List.getElem?_range hi, Option.map_some]

theorem getElem?_sums {i : ℕ} (hi : i < r.sched.numLayers) :
    r.sched.sumHistoryTokensInLayer[i]? = some (window cfg r i).sum := by
  rw [h.sums, List.getElem?_map, List.getElem?_range hi, Option.map_some]

theorem historyScore_eq (hback : 0 < cfg.lookbackSteps) {i : ℕ} (hi : i < r.sched.numLayers) :
    historyScore cfg r.sched i = average (window cfg r i) := by
  have hne := h.history_ne_nil
  rw [historyScore]
  simp only [List.getD_eq_getElem?_getD, h.getElem?_history hi, h.getElem?_sums hi,
    Option.getD_some, average]
  split_ifs with hcond
  · rfl
  · -- an empty window has no mean, and one without tokens a mean of zero
    have hzero : (window cfg r i).sum = 0 ∨ window cfg r i = [] := by
      by_contra hboth
      rw [not_or] at hboth
      exact hcond ⟨hback, hne, hboth.2, lt_of_le_of_ne (h.window_nonneg i) (Ne.symm hboth.1)⟩
    rcases hzero with hzero | hzero
    · rw [hzero, Int.cast_zero, zero_div]
    · rw [hzero, List.sum_nil, Int.cast_zero, zero_div]

theorem schedule_idle (hidle : r.sched.totalRaw = 0) : r.sched.schedule = (-1, r.sched) := by
  rw [schedule, h.schedulerType]
  exact if_pos hidle

theorem schedule_found (hwork : r.sched.totalRaw ≠ 0) : r.sched.schedule =
    (((List.range r.sched.numLayers).foldl (selectStep (score cfg r.sched)) (0, -1)).2,
      stepEnd cfg r.sched ((List.range r.sched.numLayers).map r.sched.truncatedTokens)) := by
  rw [schedule, h.schedulerType]
  exact if_neg hwork

theorem stepEnd_eq (hback : 0 < cfg.lookbackSteps) (tokens : ℕ → ℤ) :
    stepEnd cfg r.sched ((List.range r.sched.numLayers).map tokens) = { r.sched with
      historyTokensInLayer := (List.range r.sched.numLayers).map
        (window cfg ⟨r.sched, r.found ++ [tokens]⟩)
      sumHistoryTokensInLayer := (List.range r.sched.numLayers).map fun i =>
        (window cfg ⟨r.sched, r.found ++ [tokens]⟩ i).sum } := by
  have hnext : ∀ i ∈ List.range r.sched.numLayers,
      pushHistory cfg (r.sched.historyTokensInLayer.getD i [])
        (r.sched.sumHistoryTokensInLayer.getD i 0)
        (((List.range r.sched.numLayers).map tokens).getD i 0) =
      (window cfg ⟨r.sched, r.found ++ [tokens]⟩ i,
        (window cfg ⟨r.sched, r.found ++ [tokens]⟩ i).sum) := by
    intro i hi
    have hi := List.mem_range.mp hi
    rw [List.getD_eq_getElem?_getD, List.getD_eq_getElem?_getD, List.getD_eq_getElem?_getD,
      h.getElem?_history hi, h.getElem?_sums hi, List.getElem?_map, List.getElem?_range hi,
      Option.map_some, Option.getD_some, Option.getD_some, Option.getD_some, window, window,
      pushHistory_rtake hback, List.map_append, List.map_singleton]
  rw [stepEnd, if_neg hback.ne']
  simp only [if_neg h.history_ne_nil]
  rw [List.map_congr_left fun i hi => congrArg Prod.fst (hnext i hi),
    List.map_congr_left fun i hi => congrArg Prod.snd (hnext i hi)]

theorem found (hback : 0 < cfg.lookbackSteps) (hwork : r.sched.totalRaw ≠ 0) :
    Inv cfg n ⟨r.sched.schedule.2, r.found ++ [r.sched.truncatedTokens]⟩ := by
  rw [h.schedule_found hwork]
  dsimp only
  rw [h.stepEnd_eq hback]
  refine ⟨h.schedulerType, h.numAttnLayers, h.numExpertLayers, h.topK_pos, h.nonneg, ?_, rfl, rfl⟩
  rw [List.forall_mem_append, List.forall_mem_singleton]
  exact ⟨h.found_nonneg, fun i => Int.floor_nonneg.mpr (effectiveTokens_nonneg i)⟩

theorem step (hback : 0 < cfg.lookbackSteps) (hstep : Step r r') : Inv cfg n r' := by
  cases hstep with
  | found hwork => exact h.found hback hwork
  | idle hidle =>
    rw [h.schedule_idle hidle]
    exact h
  | other layers locked hnonneg =>
    exact ⟨h.schedulerType, h.numAttnLayers, h.numExpertLayers, h.topK_pos, hnonneg,
      h.found_nonneg, h.history, h.sums⟩

theorem of_run (hback : 0 < cfg.lookbackSteps) (hrun : Relation.ReflTransGen Step r r') :
    Inv cfg n r' := by
  induction hrun with
  | refl => exact h
  | tail _ hstep ih => exact ih.step hback hstep

theorem exists_best (hdecay : 0 ≤ cfg.weightDecay) (hwork : r.sched.totalRaw ≠ 0) :
    ∃ best < r.sched.numLayers, r.sched.schedule.1 = best ∧
      0 < (r.sched.layerAt best).numTokens ∧ ∀ i < r.sched.numLayers,
        score cfg r.sched i ≤ score cfg r.sched best ∧
        (i < best → score cfg r.sched i < score cfg r.sched best) := by
  rw [h.schedule_found hwork]
  obtain ⟨-, hle⟩ | ⟨best, hbest, heq, hpos, hmax⟩ :=
    foldl_selectStep_range (score cfg r.sched) r.sched.numLayers
  · refine absurd (List.sum_eq_zero fun x hx => ?_) hwork
    obtain ⟨i, hi, rfl⟩ := List.mem_map.mp hx
    have hi := List.mem_range.mp hi
    have hnot := mt (score_pos_iff hdecay h.topK_pos i).mpr (not_lt.mpr (hle i hi))
    exact le_antisymm (not_lt.mp hnot) (h.nonneg i hi)
  · exact ⟨best, hbest, congrArg Prod.snd heq, numTokens_pos_of_score h.topK_pos hpos, hmax⟩

theorem defragged (hback : 0 < cfg.lookbackSteps) (hdecay : 0 ≤ cfg.weightDecay) :
    Defragged cfg n r where
  pipeline := pipeline_of_layers h.numAttnLayers h.numExpertLayers
  history := fun i hi => ⟨h.getElem?_history hi, h.getElem?_sums hi⟩
  idle := h.schedule_idle
  score := by
    intro i hi hpos
    rw [score_of_pos h.topK_pos hpos]
    refine congrArg _ (Finset.sum_congr rfl fun k _ => ?_)
    have hahead : r.sched.ahead i k < r.sched.numLayers :=
      ((pipeline_of_layers h.numAttnLayers h.numExpertLayers).fromPos _
        (Nat.mod_lt _ h.numLayers_pos)).1
    rw [h.historyScore_eq hback hahead]
  picked := h.exists_best hdecay

end Inv

/-- **The history and the lookahead of the defragging scheduler**, after any number of calls. -/
theorem defragged_of_run {cfg : DefragConfig} (hback : 1 ≤ cfg.lookbackSteps)
    (hdecay : 0 ≤ cfg.weightDecay) (n topk : ℕ) {r : DefragRun W V}
    (hrun : Relation.ReflTransGen Step (init cfg n topk) r) : Defragged cfg n r :=
  ((inv_init hback n topk).of_run hback hrun).defragged hback hdecay

/-- An attention layer with tokens in front of an empty pipeline, and then a call. -/
theorem defragged_of_run_threeTokens : ∃ r : DefragRun ℕ ℕ,
    Relation.ReflTransGen Step (init ⟨2, 3, 1 / 2⟩ 1 2) r ∧ r.found.length = 1 ∧
      window ⟨2, 3, 1 / 2⟩ r 0 = [3] ∧ Defragged ⟨2, 3, 1 / 2⟩ 1 r := by
  have hadd := @Step.other ℕ ℕ (init ⟨2, 3, 1 / 2⟩ 1 2)
    ((List.range 3).map fun i =>
      { UnifiedLayer.createAttentionLayer i with numTokens := if i = 0 then 3 else 0 })
    false (by decide)
  have hrun := (Relation.ReflTransGen.single hadd).tail (Step.found (by decide))
  exact ⟨_, hrun, rfl, by decide +kernel,
    defragged_of_run one_le_two (by norm_num) 1 2 hrun⟩

/-! ### The threads of a scheduler -/

section Threads

variable [Inhabited W] [TensorRow V] {S : StdSort} {gatherSum : List V → V}

omit [TensorRow V] [Inhabited W] in
theorem addBatch_frame {s s' : LayerScheduler W V} {b : TokenBatch W V}
    (h : s.addBatch b = .ok s') : ∃ layers, s' = { s with layers := layers } := by
  rw [addBatch] at h
  split_ifs at h
  · exact ⟨_, (Except.ok.inj h).symm⟩
  · exact ⟨_, (Except.ok.inj h).symm⟩

theorem getBatchFromLayerRestricted_frame (s : LayerScheduler W V) (l t : ℤ) :
    ∃ layers locked, (s.getBatchFromLayerRestricted S gatherSum l t).1 =
      { s with layers := layers, locked := locked } := by
  rw [getBatchFromLayerRestricted]
  split_ifs
  · exact ⟨_, _, rfl⟩
  · exact ⟨_, _, rfl⟩
  · dsimp only
    split
    · exact ⟨_, _, rfl⟩
    · exact ⟨_, _, rfl⟩

/-- **What the threads of a scheduler do is a run.** -/
theorem step_of_schedRun {r r' : SchedRun W V} (h : r.Inv) (hstep : r.Step S gatherSum r')
    (found : List (ℕ → ℤ)) : ∃ found', Step ⟨r.sched, found⟩ ⟨r'.sched, found'⟩ := by
  have hok := (h.step S gatherSum hstep).ok
  -- a call that leaves the counters non-negative
  have hother : ∀ layers locked, r'.sched = { r.sched with layers := layers, locked := locked } →
      ∃ found', Step ⟨r.sched, found⟩ ⟨r'.sched, found'⟩ := by
    intro layers locked heq
    rw [heq] at hok ⊢
    exact ⟨found, .other layers locked fun i hi => hok.numTokens_nonneg hi⟩
  cases hstep with
  | addBatch _ _ hs =>
    obtain ⟨layers, rfl⟩ := addBatch_frame hs
    exact hother layers r.sched.locked rfl
  | attnAddTokens _ _ _ _ hs =>
    rw [attnAddTokens] at hs
    split_ifs at hs
    exact hother _ r.sched.locked (Except.ok.inj hs).symm
  | schedule _ _ =>
    rcases eq_or_ne r.sched.totalRaw 0 with hidle | hwork
    · exact ⟨found, .idle hidle⟩
    · exact ⟨_, .found hwork⟩
  | get _ _ _ =>
    obtain ⟨layers, locked, heq⟩ := getBatchFromLayerRestricted_frame r.sched _ _
    exact hother layers locked heq

/-- The threads of a defragging scheduler leave it with the loads of some run. -/
theorem exists_defragged {cfg : DefragConfig} (hback : 1 ≤ cfg.lookbackSteps)
    (hdecay : 0 ≤ cfg.weightDecay) {n topk : ℕ} {r : SchedRun W V}
    (hrun : Relation.ReflTransGen (SchedRun.Step S gatherSum)
      (SchedRun.init (.defrag cfg) n topk) r) :
    ∃ found, Defragged cfg n ⟨r.sched, found⟩ := by
  have hty : ∀ cfg', SchedulerType.defrag cfg = .defrag cfg' → 0 ≤ cfg'.weightDecay := by
    rintro _ ⟨⟩
    exact hdecay
  obtain ⟨found, hfound⟩ : ∃ found, Relation.ReflTransGen Step
      (init cfg n topk : DefragRun W V) ⟨r.sched, found⟩ := by
    induction hrun with
    | refl => exact ⟨[], .refl⟩
    | tail hrun hstep ih =>
      obtain ⟨found, hfound⟩ := ih
      obtain ⟨found', hstep'⟩ :=
        step_of_schedRun (SchedRun.Inv.of_reachable S gatherSum hty hrun) hstep found
      exact ⟨found', hfound.tail hstep'⟩
  exact ⟨found, ((inv_init hback n topk).of_run hback hfound).defragged hback hdecay⟩

end Threads

end DefragRun

end StreamEP

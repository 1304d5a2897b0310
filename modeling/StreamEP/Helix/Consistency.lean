import StreamEP.Helix.FullPlacement
import StreamEP.Helix.Placement
import Mathlib.Algebra.Order.BigOperators.Group.Finset
import Mathlib.Order.CompletePartialOrder
import Mathlib.Order.Interval.Finset.Fin

/-!
# The placement models agree

The program of `solve_full_helix` comes with and without partial inference, and with and without
rows that the objective makes redundant; `solve_placement_ilp` is a program for a single pipeline.

Starts, holds and flows can be completed to values of all variables exactly if they are a valid
placement. Valid placements do not depend on the redundant rows, and allow more with partial
inference. A partition for a pipeline is a valid placement on the fully connected graph, where the
pipeline carries as much flow as its slowest GPU.

## What is compared

Programs with different variables have no solutions in common. They are compared by what a caller
reads off a solution: the sets of starts, holds and flows that can be completed to feasible values,
and the optimal objective over each set.

## Main results

* `FullHelix.mem_placements_iff`
* `FullHelix.consistent`
-/

namespace StreamEP

open Milp

/-! ### Completing a placement -/

namespace FullHelix

variable {n : ℕ} {h : FullHelix n}

/-- Values of `start`, `hold` and `flow`. -/
structure Values (n : ℕ) where
  start : Fin n → ℚ
  hold : Fin n → ℕ → ℚ
  flow : NodeId n → NodeId n → ℚ

def restrict (x : HelixVar n → ℚ) : Values n where
  start i := x (.start i)
  hold i k := x (.hold i k)
  flow a b := x (.flow a b)

def Values.toVars (v : Values n) : HelixVar n → ℚ
  | .start i => v.start i
  | .hold i k => v.hold i k
  | .flow a b => v.flow a b
  | _ => 0

/-- **The starts, holds and flows that can be completed** to feasible values. -/
def placements (h : FullHelix n) : Set (Values n) :=
  {v | ∃ P x, h.model = .ok P ∧ P.Feasible x ∧ restrict x = v}

def totalFlow (h : FullHelix n) (x : HelixVar n → ℚ) : ℚ := -value x h.objective

theorem mem_placements_iff (hsize : 2 ≤ h.numLayers ∨ h.removeRedundant = true) {v : Values n} :
    v ∈ h.placements ↔ (NodeId.source, NodeId.sink) ∉ h.directedEdges ∧
      ∃ p, Encodes h v.toVars p ∧ ValidPlacement h p v.flow := by
  constructor
  · rintro ⟨P, x, hmodel, hfeasible, rfl⟩
    obtain ⟨p, hx, hp, -⟩ := validPlacement_of_feasible hmodel hfeasible
    exact ⟨exists_model_iff.mp ⟨P, hmodel⟩, p, ⟨hx.start, hx.hold⟩, hp⟩
  · rintro ⟨hlink, p, hx, hp⟩
    obtain ⟨P, hmodel⟩ := exists_model_iff.mpr hlink
    exact ⟨P, h.extend p v.toVars, hmodel, feasible_extend hmodel hsize hx hp, rfl⟩

theorem totalFlow_congr {x y : HelixVar n → ℚ} (hflow : (restrict x).flow = (restrict y).flow) :
    h.totalFlow x = h.totalFlow y := by
  rw [totalFlow, totalFlow, value_congr]
  intro t ht
  obtain ⟨j, -, rfl⟩ := List.mem_map.mp ht
  exact congrFun (congrFun hflow .source) (.node j)

/-- An optimum carries as much as any flow that can be completed. -/
theorem totalFlow_le_of_isOptimal {P : Problem (HelixVar n) ℚ} {x y : HelixVar n → ℚ}
    (hmodel : h.model = .ok P) (hy : P.IsOptimal y) (hx : restrict x ∈ h.placements) :
    h.totalFlow x ≤ h.totalFlow y := by
  obtain ⟨P', x', hmodel', hfeasible, hrestrict⟩ := hx
  obtain rfl := Except.ok.inj (hmodel.symm.trans hmodel')
  have hle := hy.2 x' hfeasible
  rw [objective_of_model hmodel] at hle
  rw [← totalFlow_congr (congrArg Values.flow hrestrict)]
  exact neg_le_neg hle

/-! ### The flags -/

theorem connects_of_connects_false {p : Placement n} {numLayers : ℕ} {a b : NodeId n}
    (hpos : ∀ i, 0 < p.held i) (hconnects : Connects false numLayers p a b)
    (allowPartialInference : Bool) : Connects allowPartialInference numLayers p a b := by
  match allowPartialInference, a, b with
  | false, _, _ => exact hconnects
  | true, .source, .node b => exact hconnects
  | true, .node a, .sink => exact hconnects
  | true, .node a, .node b =>
    have hnext : p.stop a = p.start b := hconnects
    exact ⟨hnext.ge, hnext.trans_lt (Nat.lt_add_of_pos_right (hpos b))⟩
  | true, .source, .source | true, .source, .sink | true, .sink, _ | true, .node _, .source =>
    exact hconnects.elim

/-- A placement that is valid without partial inference is valid with it. -/
theorem validPlacement_allowPartialInference {p : Placement n} {flow : NodeId n → NodeId n → ℚ}
    (hp : ValidPlacement { h with allowPartialInference := false } p flow) :
    ValidPlacement { h with allowPartialInference := true } p flow :=
  ⟨hp.held_mem, hp.stop_le, hp.conserved, hp.inflow_le, hp.nonneg, hp.le_throughput,
    fun a b hedge hpos => connects_of_connects_false hp.held_pos (hp.connects a b hedge hpos) true⟩

theorem placements_removeRedundant (hsize : 2 ≤ h.numLayers) :
    { h with removeRedundant := true }.placements =
      { h with removeRedundant := false }.placements := by
  have hsub : ∀ r r' : Bool, { h with removeRedundant := r }.placements ⊆
      { h with removeRedundant := r' }.placements := by
    intro r r' v hv
    have hiff := fun r => @mem_placements_iff n { h with removeRedundant := r } (.inl hsize) v
    obtain ⟨hlink, p, hx, hp⟩ := (hiff r).mp hv
    exact (hiff r').mpr ⟨hlink, p, ⟨hx.start, hx.hold⟩, ⟨hp.held_mem, hp.stop_le, hp.conserved,
      hp.inflow_le, hp.nonneg, hp.le_throughput, hp.connects⟩⟩
  exact (hsub true false).antisymm (hsub false true)

theorem placements_allowPartialInference (hsize : 2 ≤ h.numLayers) :
    { h with allowPartialInference := false }.placements ⊆
      { h with allowPartialInference := true }.placements := by
  intro v hv
  have hiff := fun r => @mem_placements_iff n { h with allowPartialInference := r } (.inl hsize) v
  obtain ⟨hlink, p, hx, hp⟩ := (hiff false).mp hv
  exact (hiff true).mpr
    ⟨hlink, p, ⟨hx.start, hx.hold⟩, validPlacement_allowPartialInference hp⟩

end FullHelix

/-! ### The fully connected graph -/

section Connected

variable {n : ℕ} {sourceSinkThroughput interNodeThroughput : ℚ}

def buildFullyConnectedEdges (n : ℕ) (sourceSinkThroughput interNodeThroughput : ℚ)
    (hsourceSink : 0 ≤ sourceSinkThroughput) (hinterNode : 0 ≤ interNodeThroughput) :
    List (EdgeSpec n) :=
  ((List.finRange n).flatMap fun i =>
    [⟨.source, .node i, sourceSinkThroughput, hsourceSink⟩,
     ⟨.node i, .sink, sourceSinkThroughput, hsourceSink⟩]) ++
  ((List.finRange n).flatMap fun i => (List.finRange n).flatMap fun j =>
    if i ≠ j then [⟨.node i, .node j, interNodeThroughput, hinterNode⟩] else [])

/-- The program is on the fully connected graph, with links that carry at least `z`, and its nodes
have the maxima and throughputs of the GPUs of a pipeline, whatever the minimum of layers there. -/
structure PlacementProblem.Matches (q : PlacementProblem n) (h : FullHelix n) (z : ℚ) : Prop where
  numLayers : h.numLayers = q.numLayers
  maxLayers : ∀ i, q.gpuMaxLayers i ≤ (h.nodes i).maxLayers
  throughput : ∀ i, ∀ k ∈ q.counts i, h.nodeThroughput i k = (q.gpus i).throughput k
  edges : ∃ sourceSinkThroughput interNodeThroughput hsourceSink hinterNode,
    h.edges = buildFullyConnectedEdges n sourceSinkThroughput interNodeThroughput hsourceSink
      hinterNode ∧ z ≤ sourceSinkThroughput ∧ z ≤ interNodeThroughput

def Joined : NodeId n → NodeId n → Prop
  | .source, .node _ | .node _, .sink => True
  | .node i, .node j => i ≠ j
  | _, _ => False

theorem mem_buildFullyConnectedEdges {hsourceSink : 0 ≤ sourceSinkThroughput}
    {hinterNode : 0 ≤ interNodeThroughput} {a b : NodeId n} :
    (∃ e ∈ buildFullyConnectedEdges n sourceSinkThroughput interNodeThroughput hsourceSink
      hinterNode, e.fromId = a ∧ e.toId = b) ↔ Joined a b := by
  simp only [buildFullyConnectedEdges, List.mem_append, List.mem_flatMap, List.mem_finRange,
    true_and, List.mem_cons, List.not_mem_nil, or_false]
  constructor
  · rintro ⟨e, ⟨i, rfl | rfl⟩ | ⟨i, j, hmem⟩, rfl, rfl⟩
    · exact trivial
    · exact trivial
    · split_ifs at hmem with hne
      · obtain rfl := List.mem_singleton.mp hmem
        exact hne
      · cases hmem
  · intro hjoined
    cases a with
    | source =>
      cases b with
      | node i => exact ⟨_, .inl ⟨i, .inl rfl⟩, rfl, rfl⟩
      | source | sink => exact hjoined.elim
    | sink => exact hjoined.elim
    | node i =>
      cases b with
      | sink => exact ⟨_, .inl ⟨i, .inr rfl⟩, rfl, rfl⟩
      | node j =>
        have hne : i ≠ j := hjoined
        refine ⟨⟨.node i, .node j, interNodeThroughput, hinterNode⟩, .inr ⟨i, j, ?_⟩, rfl, rfl⟩
        rw [if_pos hne]
        exact List.mem_singleton_self _
      | source => exact hjoined.elim

theorem throughput_of_mem {hsourceSink : 0 ≤ sourceSinkThroughput}
    {hinterNode : 0 ≤ interNodeThroughput} {e : EdgeSpec n}
    (he : e ∈ buildFullyConnectedEdges n sourceSinkThroughput interNodeThroughput hsourceSink
      hinterNode) :
    e.throughput = sourceSinkThroughput ∨ e.throughput = interNodeThroughput := by
  simp only [buildFullyConnectedEdges, List.mem_append, List.mem_flatMap, List.mem_finRange,
    true_and, List.mem_cons, List.not_mem_nil, or_false] at he
  obtain ⟨i, rfl | rfl⟩ | ⟨i, j, hmem⟩ := he
  · exact .inl rfl
  · exact .inl rfl
  · split_ifs at hmem with hne
    · obtain rfl := List.mem_singleton.mp hmem
      exact .inr rfl
    · cases hmem

namespace PlacementProblem.Matches

variable {q : PlacementProblem n} {h : FullHelix n} {z : ℚ} (hm : q.Matches h z)
include hm

theorem mem_directedEdges {a b : NodeId n} : (a, b) ∈ h.directedEdges ↔ Joined a b := by
  obtain ⟨_, _, _, _, hedges, -⟩ := hm.edges
  rw [FullHelix.mem_directedEdges, FullHelix.Linked, FullHelix.mem_links, FullHelix.mem_links,
    hedges, mem_buildFullyConnectedEdges, mem_buildFullyConnectedEdges]
  cases a with
  | source => cases b <;> simp [Joined]
  | sink => simp [Joined]
  | node i => cases b <;> simp [Joined, eq_comm]

theorem le_edgeThroughput {a b : NodeId n} (hedge : (a, b) ∈ h.directedEdges) {t : ℚ}
    (ht : h.edgeThroughput a b = .ok t) : z ≤ t := by
  obtain ⟨_, _, _, _, hedges, hsourceSink, hinterNode⟩ := hm.edges
  obtain ⟨e, he, heq⟩ := FullHelix.exists_edgeThroughput hedge
  obtain rfl := Except.ok.inj (heq.symm.trans ht)
  rw [hedges] at he
  rcases throughput_of_mem he with h' | h'
  · exact hsourceSink.trans_eq h'.symm
  · exact hinterNode.trans_eq h'.symm

end PlacementProblem.Matches

end Connected

/-! ### Pipelines -/

section Pipeline

variable {n : ℕ}

/-- Every GPU goes on where the one before it stops. -/
def pipeline (counts : Fin n → ℕ) : Placement n where
  start i := ∑ j ∈ Finset.Iio i, counts j
  held := counts

/-- The same flow on all edges of the pipeline. -/
def pipelineFlow (z : ℚ) : NodeId n → NodeId n → ℚ
  | .source, .node b => if (b : ℕ) = 0 then z else 0
  | .node a, .node b => if (a : ℕ) + 1 = b then z else 0
  | .node a, .sink => if (a : ℕ) + 1 = n then z else 0
  | _, _ => 0

def pipelinePred (i : Fin n) : NodeId n :=
  if (i : ℕ) = 0 then .source else .node ⟨i - 1, by omega⟩

def pipelineSucc (i : Fin n) : NodeId n :=
  if hlt : (i : ℕ) + 1 < n then .node ⟨i + 1, hlt⟩ else .sink

def pipelineValues (counts : Fin n → ℕ) (z : ℚ) : HelixVar n → ℚ
  | .start i => ((pipeline counts).start i : ℕ)
  | .hold i k => if k = counts i then 1 else 0
  | .flow a b => pipelineFlow z a b
  | _ => 0

theorem stop_pipeline (counts : Fin n → ℕ) (i : Fin n) :
    (pipeline counts).stop i = ∑ j ∈ Finset.Iic i, counts j := by
  rw [Placement.stop, ← Finset.Iio_insert, Finset.sum_insert Finset.notMem_Iio_self, add_comm]
  rfl

theorem pipelineFlow_into (z : ℚ) (a : NodeId n) (i : Fin n) :
    pipelineFlow z a (.node i) = z * if a = pipelinePred i then 1 else 0 := by
  rw [mul_ite, mul_one, mul_zero]
  match a with
  | .source => exact if_congr (by rw [pipelinePred]; split_ifs <;> simp_all) rfl rfl
  | .sink => exact (if_neg (by rw [pipelinePred]; split_ifs <;> simp)).symm
  | .node a =>
    refine if_congr ?_ rfl rfl
    rw [pipelinePred]
    split_ifs with hzero
    · simp only [iff_false]
      omega
    · rw [NodeId.node.injEq, Fin.ext_iff]
      dsimp only
      omega

theorem pipelineFlow_out (z : ℚ) (i : Fin n) (b : NodeId n) :
    pipelineFlow z (.node i) b = z * if b = pipelineSucc i then 1 else 0 := by
  rw [mul_ite, mul_one, mul_zero]
  match b with
  | .source => exact (if_neg (by rw [pipelineSucc]; split_ifs <;> simp)).symm
  | .sink =>
    refine if_congr ?_ rfl rfl
    rw [pipelineSucc]
    split_ifs with hlt
    · simp only [iff_false]
      omega
    · simp only [iff_true]
      omega
  | .node b =>
    refine if_congr ?_ rfl rfl
    rw [pipelineSucc]
    split_ifs with hlt
    · rw [NodeId.node.injEq, Fin.ext_iff]
      dsimp only
      omega
    · simp only [iff_false]
      omega

theorem pipelineFlow_eq_or (z : ℚ) (a b : NodeId n) :
    pipelineFlow z a b = z ∨ pipelineFlow z a b = 0 := by
  match a, b with
  | .source, .node _ | .node _, .node _ | .node _, .sink => exact ite_eq_or_eq _ _ _
  | .source, .source | .source, .sink | .sink, _ | .node _, .source => exact .inr rfl

theorem pipelineFlow_mem_Icc {z : ℚ} (hz : 0 ≤ z) (a b : NodeId n) :
    0 ≤ pipelineFlow z a b ∧ pipelineFlow z a b ≤ z := by
  rcases pipelineFlow_eq_or z a b with heq | heq
  · rw [heq]
    exact ⟨hz, le_rfl⟩
  · rw [heq]
    exact ⟨le_rfl, hz⟩

theorem connects_pipeline {counts : Fin n → ℕ} {z : ℚ} {a b : NodeId n}
    (hpos : 0 < pipelineFlow z a b) :
    Connects false (∑ i, counts i) (pipeline counts) a b := by
  match a, b with
  | .source, .node b =>
    have hzero : (b : ℕ) = 0 := by
      by_contra hne
      exact lt_irrefl _ (hpos.trans_eq (if_neg hne))
    refine Finset.sum_eq_zero fun j hj => ?_
    have hlt := Fin.lt_def.mp (Finset.mem_Iio.mp hj)
    omega
  | .node a, .sink =>
    have hlast : (a : ℕ) + 1 = n := by
      by_contra hne
      exact lt_irrefl _ (hpos.trans_eq (if_neg hne))
    have huniv : Finset.Iic a = Finset.univ := by
      ext j
      simp only [Finset.mem_Iic, Finset.mem_univ, iff_true, Fin.le_def]
      omega
    rw [Connects, stop_pipeline, huniv]
  | .node a, .node b =>
    have hnext : (a : ℕ) + 1 = b := by
      by_contra hne
      exact lt_irrefl _ (hpos.trans_eq (if_neg hne))
    have hinterval : Finset.Iic a = Finset.Iio b := by
      ext j
      simp only [Finset.mem_Iic, Finset.mem_Iio, Fin.le_def, Fin.lt_def]
      omega
    show (pipeline counts).stop a = (pipeline counts).start b
    rw [stop_pipeline, hinterval]
    rfl
  | .source, .source | .source, .sink | .sink, _ | .node _, .source =>
    exact absurd hpos (lt_irrefl _)

variable {q : PlacementProblem n} {h : FullHelix n} {z : ℚ} {counts : Fin n → ℕ}

theorem inflow_pipeline (hm : q.Matches h z) (i : Fin n) :
    h.inflow (pipelineFlow z) i = z := by
  have hmem : pipelinePred i ∈ h.inNeighbours i := by
    rw [FullHelix.mem_inNeighbours, hm.mem_directedEdges, pipelinePred]
    split_ifs with hzero
    · exact trivial
    · exact Fin.ne_of_val_ne (by dsimp only; omega)
  rw [FullHelix.inflow]
  simp only [pipelineFlow_into]
  exact sum_mul_oneHot FullHelix.nodup_inNeighbours hmem (fun _ _ => rfl) fun _ => z

theorem outflow_pipeline (hm : q.Matches h z) (i : Fin n) :
    h.outflow (pipelineFlow z) i = z := by
  have hmem : pipelineSucc i ∈ h.outNeighbours i := by
    rw [FullHelix.mem_outNeighbours, hm.mem_directedEdges, pipelineSucc]
    split_ifs with hlt
    · exact Fin.ne_of_val_ne (by dsimp only; omega)
    · exact trivial
  rw [FullHelix.outflow]
  simp only [pipelineFlow_out]
  exact sum_mul_oneHot FullHelix.nodup_outNeighbours hmem (fun _ _ => rfl) fun _ => z

/-- **A partition is a valid placement** on the fully connected graph. -/
theorem validPlacement_pipeline (hm : q.Matches h z) (hq : q.IsPartition counts) (hz : 0 ≤ z)
    (hslow : ∀ i, z ≤ (q.gpus i).throughput (counts i)) :
    ValidPlacement h (pipeline counts) (pipelineFlow z) := by
  have hsum : ∑ i, counts i = h.numLayers := hq.sum_eq.trans hm.numLayers.symm
  have hpos : ∀ i, 0 < counts i := fun i => q.minLayersPerGpu_pos.trans_le (hq.min_le i)
  refine ⟨fun i => ?_, fun i => ?_, fun i => ?_, fun i => ?_,
    fun a b _ => (pipelineFlow_mem_Icc hz a b).1, fun a b hedge t ht => ?_, fun a b _ hflow => ?_⟩
  · have hmax := (hq.le_max i).trans (hm.maxLayers i)
    exact FullHelix.mem_holdCounts.mpr ⟨hpos i, by exact_mod_cast hmax⟩
  · rw [stop_pipeline, ← hsum]
    exact Finset.sum_le_univ_sum_of_nonneg fun _ => Nat.zero_le _
  · rw [inflow_pipeline hm, outflow_pipeline hm]
  · have hthroughput : h.nodeThroughput i (counts i) = (q.gpus i).throughput (counts i) :=
      hm.throughput i _ (hq.mem_counts i)
    rw [inflow_pipeline hm]
    exact (hslow i).trans_eq hthroughput.symm
  · exact (pipelineFlow_mem_Icc hz a b).2.trans (hm.le_edgeThroughput hedge ht)
  · rw [← hsum]
    exact FullHelix.connects_of_connects_false hpos (connects_pipeline hflow) _

theorem totalFlow_pipeline (hm : q.Matches h z) (hn : 0 < n) :
    h.totalFlow (pipelineValues counts z) = z := by
  have hflow : ∀ j : Fin n, pipelineValues counts z (.flow .source (.node j)) =
      z * if j = ⟨0, hn⟩ then 1 else 0 := by
    intro j
    rw [mul_ite, mul_one, mul_zero]
    exact if_congr (@Fin.ext_iff n j ⟨0, hn⟩).symm rfl rfl
  have hmem : (⟨0, hn⟩ : Fin n) ∈ (List.finRange n).filter fun j =>
      (NodeId.source, NodeId.node j) ∈ h.directedEdges :=
    List.mem_filter.mpr ⟨List.mem_finRange _, decide_eq_true (hm.mem_directedEdges.mpr trivial)⟩
  rw [FullHelix.totalFlow, FullHelix.objective, value_map]
  simp only [hflow, ← mul_assoc]
  rw [sum_mul_oneHot ((List.nodup_finRange n).filter _) hmem (fun _ _ => rfl) fun _ => -1 * z]
  ring

end Pipeline

/-! ### Consistency -/

open FullHelix in
/-- **The models agree**: the redundant rows do not change what can be completed, the full program
carries at least as much flow as the pipeline, and partial inference does not lower its optimum. -/
theorem FullHelix.consistent {n : ℕ} (h : FullHelix n) (hsize : 2 ≤ h.numLayers) :
    { h with removeRedundant := true }.placements =
      { h with removeRedundant := false }.placements ∧
    (∀ (q : PlacementProblem n) (x : PlacementVar n → ℚ), q.model.IsOptimal x →
      q.Matches h (x .z) →
      (∃ P y, h.model = .ok P ∧ P.Feasible y ∧ h.totalFlow y = x .z) ∧
        ∀ P y, h.model = .ok P → P.IsOptimal y → x .z ≤ h.totalFlow y) ∧
    { h with allowPartialInference := false }.placements ⊆
      { h with allowPartialInference := true }.placements ∧
    ∀ P P' y y', { h with allowPartialInference := false }.model = .ok P →
      { h with allowPartialInference := true }.model = .ok P' → P.IsOptimal y → P'.IsOptimal y' →
      h.totalFlow y ≤ h.totalFlow y' := by
  refine ⟨placements_removeRedundant hsize, fun q x hx hm => ?_,
    placements_allowPartialInference hsize, fun P P' y y' hP hP' hy hy' => ?_⟩
  · obtain ⟨hpartition, -, hslow⟩ := PlacementProblem.exists_counts hx.1
    have hz : 0 ≤ x .z := (PlacementProblem.feasible_iff.mp hx.1).2.1
    have hvalid := validPlacement_pipeline hm hpartition hz hslow
    have hlink : (NodeId.source, NodeId.sink) ∉ h.directedEdges :=
      fun hedge => hm.mem_directedEdges.mp hedge
    have hmem : restrict (pipelineValues (q.assigned x) (x .z)) ∈ h.placements :=
      (mem_placements_iff (.inl hsize)).mpr
        ⟨hlink, _, ⟨fun _ => rfl, fun _ _ _ => rfl⟩, hvalid⟩
    have htotal := @totalFlow_pipeline n q h (x .z) (q.assigned x) hm hpartition.pos
    refine ⟨?_, fun P y hmodel hy => ?_⟩
    · obtain ⟨P, y, hmodel, hfeasible, hrestrict⟩ := hmem
      refine ⟨P, y, hmodel, hfeasible, ?_⟩
      rw [totalFlow_congr (congrArg Values.flow hrestrict), htotal]
    · have hle := totalFlow_le_of_isOptimal hmodel hy hmem
      rwa [htotal] at hle
  · have hmem : restrict y ∈ { h with allowPartialInference := false }.placements :=
      ⟨P, y, hP, hy.1, rfl⟩
    exact @totalFlow_le_of_isOptimal n { h with allowPartialInference := true } P' y y' hP' hy'
      (placements_allowPartialInference hsize hmem)

/-! ### Two GPUs -/

/-- Three layers for two GPUs that hold at most two. -/
def gpuPair : PlacementProblem 2 where
  numLayers := 3
  minLayersPerGpu := 1
  gpus _ := { computeFactor := 2, maxLayers := some 2, profile := fun _ => some 1,
              computeFactor_nonneg := by decide, profile_nonneg := by simp }
  numLayers_pos := Nat.succ_pos 2
  minLayersPerGpu_pos := Nat.one_pos

/-- The same GPUs between the source and the sink. -/
def nodePair (allowPartialInference : Bool) : FullHelix 2 where
  numLayers := 3
  nodes _ := ⟨2, fun _ => some 1⟩
  edges := buildFullyConnectedEdges 2 2 2 (by decide) (by decide)
  allowPartialInference := allowPartialInference
  removeRedundant := false

theorem gpuPair_matches (allowPartialInference : Bool) :
    gpuPair.Matches (nodePair allowPartialInference) 1 :=
  ⟨rfl, fun _ => le_rfl, fun _ _ _ => rfl, 2, 2, zero_le_two, zero_le_two, rfl, one_le_two,
    one_le_two⟩

theorem gpuPair_isPartition : gpuPair.IsPartition unevenCounts :=
  ⟨by decide, by decide, by decide⟩

open PlacementProblem in
theorem gpuPair_isOptimal : gpuPair.model.IsOptimal (assignment unevenCounts 1) := by
  refine ⟨feasible_assignment gpuPair_isPartition zero_le_one fun _ => le_rfl, fun y hy => ?_⟩
  simp only [model, value_cons, value_nil, add_zero, neg_mul, one_mul, neg_le_neg_iff]
  exact (exists_counts hy).2.2 0

section NodePair

open FullHelix

variable {allowPartialInference : Bool} {p : Placement 2} {flow : NodeId 2 → NodeId 2 → ℚ}

/-- A node that starts with the first layer and does not stop before the other one keeps what it
gets. -/
theorem outflow_nodePair_eq_zero (hp : ValidPlacement (nodePair allowPartialInference) p flow)
    (hstart : ∀ i, p.start i = 0) {i : Fin 2} (hstop : ∀ j, p.stop j ≤ p.stop i) :
    (nodePair allowPartialInference).outflow flow i = 0 := by
  have hheld := mem_holdCounts.mp (hp.held_mem i)
  refine List.sum_eq_zero fun x hx => ?_
  obtain ⟨b, hb, rfl⟩ := List.mem_map.mp hx
  rw [mem_outNeighbours] at hb
  refine le_antisymm (not_lt.mp fun hpos => ?_) (hp.nonneg _ _ hb)
  have hconnects := hp.connects _ _ hb hpos
  cases b with
  | source => exact hconnects
  | sink =>
    have hend : p.start i + p.held i = 3 := hconnects
    have hle : p.held i ≤ 2 := hheld.2
    have := hstart i
    omega
  | node j =>
    have hle : p.stop j ≤ p.start i + p.held i := hstop j
    have := hstart i
    have := hstart j
    cases allowPartialInference with
    | true =>
      have hlt : p.start i + p.held i < p.stop j := hconnects.2
      omega
    | false =>
      have hnext : p.start i + p.held i = p.start j := hconnects
      omega

theorem flow_le_inflow (hp : ValidPlacement (nodePair allowPartialInference) p flow) (i : Fin 2) :
    flow .source (.node i) ≤ (nodePair allowPartialInference).inflow flow i := by
  have hmem : NodeId.source ∈ (nodePair allowPartialInference).inNeighbours i :=
    mem_inNeighbours.mpr ((gpuPair_matches _).mem_directedEdges.mpr trivial)
  refine List.single_le_sum (fun x hx => ?_) _ (List.mem_map_of_mem hmem)
  obtain ⟨a, ha, rfl⟩ := List.mem_map.mp hx
  exact hp.nonneg _ _ (mem_inNeighbours.mp ha)

/-- Only one of the nodes can start with the first layer, so one unit of flow is the most. -/
theorem source_flow_le_one (hp : ValidPlacement (nodePair allowPartialInference) p flow) :
    flow .source (.node 0) + flow .source (.node 1) ≤ 1 := by
  have hle : ∀ i, flow .source (.node i) ≤ 1 := fun i =>
    (flow_le_inflow hp i).trans (hp.inflow_le i)
  have hedge : ∀ i : Fin 2, (.source, .node i) ∈ (nodePair allowPartialInference).directedEdges :=
    fun _ => (gpuPair_matches _).mem_directedEdges.mpr trivial
  by_cases hboth : ∀ i, 0 < flow .source (.node i)
  · have hstart : ∀ i, p.start i = 0 := fun i => hp.connects _ _ (hedge i) (hboth i)
    obtain ⟨i, hi⟩ : ∃ i, ∀ j, p.stop j ≤ p.stop i := Finite.exists_max p.stop
    have hout := outflow_nodePair_eq_zero hp hstart hi
    exact absurd ((flow_le_inflow hp i).trans ((hp.conserved i).trans hout).le) (hboth i).not_ge
  · obtain ⟨i, hi⟩ := not_forall.mp hboth
    have hzero := not_lt.mp hi
    match i with
    | 0 => linarith [hle 1]
    | 1 => linarith [hle 0]

theorem exists_nodePair_isOptimal (allowPartialInference : Bool) :
    ∃ P y, (nodePair allowPartialInference).model = .ok P ∧ P.IsOptimal y ∧
      y (.flow (.node 0) (.node 1)) = 1 := by
  have hm := gpuPair_matches allowPartialInference
  have hsize : 2 ≤ (nodePair allowPartialInference).numLayers := Nat.le_succ 2
  have hmem : restrict (pipelineValues unevenCounts 1) ∈
      (nodePair allowPartialInference).placements :=
    (mem_placements_iff (.inl hsize)).mpr ⟨fun hedge => hm.mem_directedEdges.mp hedge, _,
      ⟨fun _ => rfl, fun _ _ _ => rfl⟩,
      validPlacement_pipeline hm gpuPair_isPartition zero_le_one fun _ => le_rfl⟩
  obtain ⟨P, y, hmodel, hfeasible, hrestrict⟩ := hmem
  have hflow := congrArg Values.flow hrestrict
  have htotal : (nodePair allowPartialInference).totalFlow y = 1 := by
    rw [totalFlow_congr hflow, totalFlow_pipeline hm zero_lt_two]
  refine ⟨P, y, hmodel, ⟨hfeasible, fun y' hy' => ?_⟩, congrFun (congrFun hflow _) _⟩
  obtain ⟨p, -, hp, -⟩ := validPlacement_of_feasible hmodel hy'
  have hobjective : (nodePair allowPartialInference).objective =
      [(.flow .source (.node 0), -1), (.flow .source (.node 1), -1)] := by
    cases allowPartialInference <;> decide +kernel
  have hle : y' (.flow .source (.node 0)) + y' (.flow .source (.node 1)) ≤ 1 :=
    source_flow_le_one hp
  rw [totalFlow, neg_eq_iff_eq_neg] at htotal
  rw [objective_of_model hmodel, htotal, hobjective]
  simp only [value_cons, value_nil]
  linarith

/-- Both nodes hold two layers, which partial inference allows. -/
theorem overlap_mem_placements :
    restrict overlapValues ∈ (nodePair true).placements ∧
      restrict overlapValues ∉ (nodePair false).placements := by
  have hnonneg : ∀ e ∈ (nodePair true).directedEdges, 0 ≤ overlapValues (.flow e.1 e.2) := by
    decide +kernel
  have hle : ∀ e ∈ (nodePair true).directedEdges, overlapValues (.flow e.1 e.2) ≤ 1 := by
    decide +kernel
  have hconnects : ∀ e ∈ (nodePair true).directedEdges, 0 < overlapValues (.flow e.1 e.2) →
      Connects true 3 overlap e.1 e.2 := by decide +kernel
  have hvalid : ValidPlacement (nodePair true) overlap fun a b => overlapValues (.flow a b) :=
    ⟨by decide, by decide, by decide +kernel, by decide +kernel, fun a b => hnonneg (a, b),
      fun a b hedge t ht => (hle (a, b) hedge).trans
        ((gpuPair_matches true).le_edgeThroughput hedge ht), fun a b => hconnects (a, b)⟩
  refine ⟨(mem_placements_iff (.inl (by decide))).mpr ⟨by decide +kernel, overlap,
    ⟨fun _ => rfl, fun _ _ _ => rfl⟩, hvalid⟩, fun hmem => ?_⟩
  obtain ⟨-, p, hx, hp⟩ := (mem_placements_iff (.inl (by decide))).mp hmem
  -- without it the second node goes on where the first one stops, after a single layer
  have hnext : p.start 0 + p.held 0 = p.start 1 :=
    hp.connects (.node 0) (.node 1) (by decide +kernel) zero_lt_one
  have hfirst : ((0 : ℕ) : ℚ) = p.start 0 := hx.start 0
  have hsecond : ((1 : ℕ) : ℚ) = p.start 1 := hx.start 1
  have hhold : (0 : ℚ) = if 1 = p.held 0 then 1 else 0 := hx.hold 0 1 (by decide)
  rw [Nat.cast_inj] at hfirst hsecond
  rw [if_pos (by omega)] at hhold
  exact zero_ne_one hhold

end NodePair

/-- The comparison of the models for two GPUs: the flow passes both, and partial inference adds a
placement. -/
theorem consistent_nodePair :
    2 ≤ (nodePair true).numLayers ∧ gpuPair.Matches (nodePair true) 1 ∧
      (∃ P y, (nodePair true).model = .ok P ∧ P.IsOptimal y ∧
        y (.flow (.node 0) (.node 1)) = 1 ∧ 1 ≤ (nodePair true).totalFlow y) ∧
      (nodePair false).placements ⊂ (nodePair true).placements ∧
      ∃ P P' y y', (nodePair false).model = .ok P ∧ (nodePair true).model = .ok P' ∧
        P.IsOptimal y ∧ P'.IsOptimal y' ∧
        (nodePair true).totalFlow y ≤ (nodePair true).totalFlow y' := by
  obtain ⟨P, y, hmodel, hy, -⟩ := exists_nodePair_isOptimal false
  obtain ⟨P', y', hmodel', hy', hflow⟩ := exists_nodePair_isOptimal true
  obtain ⟨-, hpipeline, hsub, hallow⟩ := FullHelix.consistent (nodePair true) (by decide)
  exact ⟨by decide, gpuPair_matches true,
    ⟨P', y', hmodel', hy', hflow, (hpipeline gpuPair _ gpuPair_isOptimal (gpuPair_matches true)).2
      P' y' hmodel' hy'⟩,
    ⟨hsub, fun h => overlap_mem_placements.2 (h overlap_mem_placements.1)⟩,
    P, P', y, y', hmodel, hmodel', hy, hy', hallow P P' y y' hmodel hmodel' hy hy'⟩

end StreamEP

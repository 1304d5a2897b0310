import StreamEP.Lib.Milp
import Mathlib.Algebra.BigOperators.Fin
import Mathlib.Data.Fintype.Lattice
import Mathlib.Data.Rat.Floor

/-!
# The partition of a pipeline

`compute_pp_partition` of `helix_pp/placement.py` splits the layers of a model among the GPUs of a
pipeline so that the slowest of them is as fast as possible. It is solved as a mixed-integer
program: a binary variable for every GPU and layer count, of which one is picked for each GPU, and a
variable below the throughput of every GPU, which is maximised.

A partition gives a feasible assignment and a feasible assignment gives a partition, so a solver
that is exact for the model makes the whole function exact.

The arguments of the function are gathered for each GPU. Dictionaries are functions.

## Main results

* `PlacementProblem.feasible_assignment`, `PlacementProblem.exists_counts` — the two directions
* `computePpPartition_exact`
-/

namespace StreamEP

open Milp

/-- A GPU: its entry in each of the arguments, with throughputs that are not negative. -/
structure Gpu where
  /-- `gpu_compute_factors[i]` -/
  computeFactor : ℚ
  /-- `gpu_max_layers[i]`, if the argument is given -/
  maxLayers : Option ℤ
  /-- `throughput_profiles[i]` -/
  profile : ℕ → Option ℚ
  computeFactor_nonneg : 0 ≤ computeFactor
  profile_nonneg : ∀ k, ∀ t ∈ profile k, 0 ≤ t

/-- The arguments of `compute_pp_partition` for `n` GPUs. -/
structure PlacementProblem (n : ℕ) where
  numLayers : ℕ
  minLayersPerGpu : ℕ
  gpus : Fin n → Gpu
  numLayers_pos : 0 < numLayers
  minLayersPerGpu_pos : 0 < minLayersPerGpu

inductive PlacementError
  | valueError (message : String)
  | assertionError (message : String)

inductive PlacementVar (n : ℕ)
  /-- `b[i][k]`: the GPU holds exactly `k` layers. -/
  | b (i : Fin n) (k : ℕ)
  | z
  deriving DecidableEq

/-- `range(lo, hi + 1)` -/
def layerCounts (lo : ℕ) (hi : ℤ) : List ℕ := List.range' lo (hi + 1 - lo).toNat

/-- `throughput_table[i][k]`: the profile, or proportional -/
def Gpu.throughput (gpu : Gpu) (k : ℕ) : ℚ := (gpu.profile k).getD (gpu.computeFactor / k)

namespace PlacementProblem

variable {n : ℕ} (p : PlacementProblem n)

/-- `gpu_max_layers[i]`, after it is clamped -/
def gpuMaxLayers (i : Fin n) : ℤ := min ((p.gpus i).maxLayers.getD p.numLayers) p.numLayers

def counts (i : Fin n) : List ℕ := layerCounts p.minLayersPerGpu (p.gpuMaxLayers i)

/-- The program of `solve_placement_ilp`. -/
def model : Problem (PlacementVar n) ℚ where
  vars := ((List.finRange n).flatMap fun i => (p.counts i).map fun k =>
    (PlacementVar.b i k, Bound.binary)) ++ [(.z, Bound.nonneg)]
  rows :=
    -- (C1) one count for each GPU
    ((List.finRange n).map fun i => Row.eq ((p.counts i).map fun k => (PlacementVar.b i k, 1)) 1) ++
    -- (C2) all layers are assigned
    [Row.eq ((List.finRange n).flatMap fun i => (p.counts i).map fun k =>
      (PlacementVar.b i k, (Nat.cast k : ℚ))) p.numLayers] ++
    -- (C3) no GPU is slower
    ((List.finRange n).map fun i => Row.leq ((.z, 1) :: (p.counts i).map fun k =>
      (PlacementVar.b i k, -(p.gpus i).throughput k)) 0)
  objective := [(.z, -1)]

/-- `assigned_k` for a GPU, zero if none is found -/
def assigned (x : PlacementVar n → ℚ) (i : Fin n) : ℕ :=
  (pick (fun k => x (.b i k)) (p.counts i)).getD 0

/-- `solve_placement_ilp`, given what the solver returns -/
def solvePlacementIlp (result : Except String (PlacementVar n → ℚ)) :
    Except PlacementError (Fin n → ℕ) :=
  match result with
  | .error message =>
    .error (.valueError (s!"ILP infeasible or solver failed: {message}\n  " ++
      s!"num_layers={p.numLayers}, num_gpus={n}, gpu_max_layers={List.ofFn p.gpuMaxLayers}"))
  | .ok x =>
    match (List.finRange n).find? fun i => p.assigned x i = 0 with
    | some i => .error (.valueError s!"GPU {i}: no layer assignment found in ILP solution")
    | none =>
      let sum := ∑ i, p.assigned x i
      if sum = p.numLayers then .ok (p.assigned x)
      else .error (.assertionError
        s!"Partition {List.ofFn (p.assigned x)} sums to {sum}, expected {p.numLayers}")

/-- A partition of the layers that respects the bounds. -/
structure IsPartition (q : Fin n → ℕ) : Prop where
  min_le : ∀ i, p.minLayersPerGpu ≤ q i
  le_max : ∀ i, (q i : ℤ) ≤ p.gpuMaxLayers i
  sum_eq : ∑ i, q i = p.numLayers

def throughputs (q : Fin n → ℕ) : Set ℚ := Set.range fun i => (p.gpus i).throughput (q i)

end PlacementProblem

/-- `compute_pp_partition` with a solver -/
def computePpPartition {n : ℕ} (p : PlacementProblem n)
    (milp : Problem (PlacementVar n) ℚ → Except String (PlacementVar n → ℚ)) :
    Except PlacementError (Fin n → ℕ) :=
  match (List.finRange n).find? fun i => p.counts i = [] with
  | some i => .error (.valueError (s!"GPU {i}: no feasible layer count in " ++
      s!"[{p.minLayersPerGpu}, {p.gpuMaxLayers i}]"))
  | none => p.solvePlacementIlp (milp p.model)

/-! ### Layer counts and throughputs -/

theorem mem_layerCounts {lo k : ℕ} {hi : ℤ} : k ∈ layerCounts lo hi ↔ lo ≤ k ∧ (k : ℤ) ≤ hi := by
  rw [layerCounts, List.mem_range'_1]
  omega

theorem Gpu.throughput_nonneg (gpu : Gpu) (k : ℕ) : 0 ≤ gpu.throughput k := by
  rw [Gpu.throughput]
  cases hprofile : gpu.profile k with
  | none => exact div_nonneg gpu.computeFactor_nonneg (Nat.cast_nonneg k)
  | some t => exact gpu.profile_nonneg k t hprofile

namespace PlacementProblem

variable {n : ℕ} {p : PlacementProblem n} {q : Fin n → ℕ} {x : PlacementVar n → ℚ}

theorem nodup_counts (i : Fin n) : (p.counts i).Nodup := List.nodup_range'

theorem IsPartition.mem_counts (hq : p.IsPartition q) (i : Fin n) : q i ∈ p.counts i :=
  mem_layerCounts.mpr ⟨hq.min_le i, hq.le_max i⟩

theorem IsPartition.pos (hq : p.IsPartition q) : 0 < n := by
  rcases Nat.eq_zero_or_pos n with rfl | hpos
  · exact absurd hq.sum_eq p.numLayers_pos.ne
  · exact hpos

theorem IsPartition.exists_isLeast (hq : p.IsPartition q) : ∃ t, IsLeast (p.throughputs q) t := by
  have : Nonempty (Fin n) := ⟨⟨0, hq.pos⟩⟩
  obtain ⟨i, hi⟩ := Finite.exists_min fun i => (p.gpus i).throughput (q i)
  exact ⟨_, ⟨i, rfl⟩, by rintro _ ⟨j, rfl⟩; exact hi j⟩

/-! ### From partitions to assignments, and back -/

def assignment (q : Fin n → ℕ) (t : ℚ) : PlacementVar n → ℚ
  | .b i k => if k = q i then 1 else 0
  | .z => t

theorem feasible_iff :
    p.model.Feasible x ↔
      (∀ i, ∀ k ∈ p.counts i, x (.b i k) = 0 ∨ x (.b i k) = 1) ∧ 0 ≤ x .z ∧
      (∀ i, ((p.counts i).map fun k => x (.b i k)).sum = 1) ∧
      (∑ i, ((p.counts i).map fun k : ℕ => (k : ℚ) * x (.b i k)).sum = p.numLayers) ∧
      ∀ i, x .z ≤ ((p.counts i).map fun k => (p.gpus i).throughput k * x (.b i k)).sum := by
  have hslow : ∀ i, value x ((p.counts i).map fun k =>
      (PlacementVar.b i k, -(p.gpus i).throughput k)) =
      -((p.counts i).map fun k => (p.gpus i).throughput k * x (.b i k)).sum := by
    intro i
    rw [value_map, List.sum_neg, List.map_map]
    simp only [Function.comp_def, neg_mul]
  rw [Problem.feasible_iff]
  simp only [model, List.forall_mem_append, List.forall_mem_flatMap, List.forall_mem_map,
    List.forall_mem_singleton, List.mem_finRange, forall_const, Row.holds_eq, Row.holds_leq,
    Bound.holds_nonneg, Bound.holds_binary, value_cons, hslow, value_flatMap, value_map, one_mul,
    ← sub_eq_add_neg, sub_nonpos, Fin.sum_univ_def, and_assoc]

theorem feasible_assignment (hq : p.IsPartition q) {t : ℚ} (ht : 0 ≤ t)
    (hslow : ∀ i, t ≤ (p.gpus i).throughput (q i)) : p.model.Feasible (assignment q t) := by
  have hsum : ∀ i (f : ℕ → ℚ), ((p.counts i).map fun k => f k * assignment q t (.b i k)).sum =
      f (q i) := fun i f =>
    sum_mul_oneHot (nodup_counts i) (hq.mem_counts i) (fun _ _ => rfl) f
  refine feasible_iff.mpr ⟨fun i k _ => ite_zero_or_one _, ht, fun i => ?_, ?_, fun i => ?_⟩
  · have := hsum i fun _ => 1
    simpa only [one_mul] using this
  · rw [Finset.sum_congr rfl fun i _ => hsum i fun k => (k : ℚ), ← Nat.cast_sum, hq.sum_eq]
  · rw [hsum]
    exact hslow i

/-- **An assignment gives a partition**, which is the one that is read off. -/
theorem exists_counts (hx : p.model.Feasible x) :
    p.IsPartition (p.assigned x) ∧ (∀ i, p.assigned x i ≠ 0) ∧
      ∀ i, x .z ≤ (p.gpus i).throughput (p.assigned x i) := by
  obtain ⟨hbinary, -, hone, hlayers, hslow⟩ := feasible_iff.mp hx
  have hpick : ∀ i, p.assigned x i ∈ p.counts i ∧
      ∀ k ∈ p.counts i, x (.b i k) = if k = p.assigned x i then 1 else 0 := by
    intro i
    obtain ⟨k, hk, hpicked⟩ := exists_oneHot (nodup_counts i) (hbinary i) (hone i)
    rw [assigned, pick_oneHot hk hpicked]
    exact ⟨hk, hpicked⟩
  have hsum : ∀ i (f : ℕ → ℚ), ((p.counts i).map fun k => f k * x (.b i k)).sum =
      f (p.assigned x i) := fun i f =>
    sum_mul_oneHot (nodup_counts i) (hpick i).1 (hpick i).2 f
  have hmem := fun i => mem_layerCounts.mp (hpick i).1
  refine ⟨⟨fun i => (hmem i).1, fun i => (hmem i).2, ?_⟩, fun i => ?_, fun i => ?_⟩
  · rw [Finset.sum_congr rfl fun i _ => hsum i fun k => (k : ℚ), ← Nat.cast_sum] at hlayers
    exact Nat.cast_injective hlayers
  · exact (p.minLayersPerGpu_pos.trans_le (hmem i).1).ne'
  · exact (hslow i).trans_eq (hsum i _)

theorem solvePlacementIlp_ok (hx : p.model.Feasible x) :
    p.solvePlacementIlp (.ok x) = .ok (p.assigned x) := by
  obtain ⟨hpartition, hne, -⟩ := exists_counts hx
  have hnone : (List.finRange n).find? (fun i => decide (p.assigned x i = 0)) = none :=
    List.find?_eq_none.mpr fun i _ => by simpa using hne i
  rw [solvePlacementIlp, hnone]
  exact if_pos hpartition.sum_eq

theorem isLeast_le_of_isOptimal (hx : p.model.IsOptimal x) (hq : p.IsPartition q) {t : ℚ}
    (ht : IsLeast (p.throughputs q) t) : t ≤ x .z := by
  have hnonneg : 0 ≤ t := by
    obtain ⟨i, rfl⟩ := ht.1
    exact (p.gpus i).throughput_nonneg _
  have hle := hx.2 _ (feasible_assignment hq hnonneg fun i => ht.2 ⟨i, rfl⟩)
  simp only [model, value_cons, value_nil, add_zero, neg_mul, one_mul, neg_le_neg_iff] at hle
  exact hle

end PlacementProblem

open PlacementProblem in
/-- **The partition is exact.** With a solver that is exact for the model, `ValueError` is raised if
and only if there is no partition, and otherwise a partition is returned whose slowest GPU is not
slower than that of any other partition. -/
theorem computePpPartition_exact {n : ℕ} (p : PlacementProblem n)
    (milp : Problem (PlacementVar n) ℚ → Except String (PlacementVar n → ℚ))
    (hmilp : p.model.IsResult (milp p.model)) :
    ((∃ message, computePpPartition p milp = .error (.valueError message)) ↔
      ¬ ∃ q, p.IsPartition q) ∧
    ((∃ q, p.IsPartition q) → ∃ q t, computePpPartition p milp = .ok q ∧ p.IsPartition q ∧
      IsLeast (p.throughputs q) t ∧
      ∀ q' t', p.IsPartition q' → IsLeast (p.throughputs q') t' → t' ≤ t) := by
  have hexists : (∃ q, p.IsPartition q) → ∃ q t, computePpPartition p milp = .ok q ∧
      p.IsPartition q ∧ IsLeast (p.throughputs q) t ∧
      ∀ q' t', p.IsPartition q' → IsLeast (p.throughputs q') t' → t' ≤ t := by
    rintro ⟨q, hq⟩
    have hnone : (List.finRange n).find? (fun i => decide (p.counts i = [])) = none := by
      refine List.find?_eq_none.mpr fun i _ => ?_
      simpa using List.ne_nil_of_mem (hq.mem_counts i)
    rw [computePpPartition, hnone]
    cases hresult : milp p.model with
    | error message =>
      rw [hresult] at hmilp
      exact absurd (feasible_assignment hq le_rfl fun i => (p.gpus i).throughput_nonneg _) (hmilp _)
    | ok x =>
      rw [hresult] at hmilp
      have hoptimal : p.model.IsOptimal x := hmilp
      obtain ⟨hpartition, -, hslow⟩ := exists_counts hoptimal.1
      obtain ⟨t, ht⟩ := hpartition.exists_isLeast
      refine ⟨_, t, solvePlacementIlp_ok hoptimal.1, hpartition, ht, fun q' t' hq' ht' => ?_⟩
      refine (isLeast_le_of_isOptimal hoptimal hq' ht').trans ?_
      obtain ⟨i, rfl⟩ := ht.1
      exact hslow i
  refine ⟨⟨?_, fun hno => ?_⟩, hexists⟩
  · rintro ⟨message, herror⟩ hsome
    obtain ⟨q, t, hok, -⟩ := hexists hsome
    rw [herror] at hok
    cases hok
  · rw [computePpPartition]
    split
    · exact ⟨_, rfl⟩
    · cases hresult : milp p.model with
      | error message => exact ⟨_, rfl⟩
      | ok x =>
        rw [hresult] at hmilp
        exact absurd ⟨_, (exists_counts hmilp.1).1⟩ hno

/-- Three layers for two GPUs, of which the first is twice as fast. -/
def unevenPair : PlacementProblem 2 where
  numLayers := 3
  minLayersPerGpu := 1
  gpus i := { computeFactor := if i.val = 0 then 2 else 1, maxLayers := none,
              profile := fun _ => none, computeFactor_nonneg := by split_ifs <;> decide,
              profile_nonneg := by simp }
  numLayers_pos := by decide
  minLayersPerGpu_pos := by decide

def unevenCounts (i : Fin 2) : ℕ := if i.val = 0 then 2 else 1

theorem unevenCounts_isPartition : unevenPair.IsPartition unevenCounts :=
  ⟨by decide, by decide, by decide⟩

open PlacementProblem in
/-- No assignment makes the slower GPU faster than with a single layer. -/
theorem unevenCounts_isOptimal : unevenPair.model.IsOptimal (assignment unevenCounts 1) := by
  refine ⟨feasible_assignment unevenCounts_isPartition zero_le_one ?_, fun y hy => ?_⟩
  · rw [Fin.forall_fin_two]
    norm_num [Gpu.throughput, unevenPair, unevenCounts]
  · obtain ⟨hpartition, -, hslow⟩ := exists_counts hy
    have hcount : (1 : ℚ) ≤ unevenPair.assigned y 1 := by exact_mod_cast hpartition.min_le 1
    have hz : y .z ≤ 1 / unevenPair.assigned y 1 := hslow 1
    have hone : (1 : ℚ) / unevenPair.assigned y 1 ≤ 1 :=
      (div_le_one (zero_lt_one.trans_le hcount)).mpr hcount
    simp only [model, value_cons, value_nil, add_zero, neg_mul, one_mul, neg_le_neg_iff]
    exact hz.trans hone

open PlacementProblem in
/-- The partition of the pair. -/
theorem computePpPartition_exact_unevenPair :
    unevenPair.model.IsResult (.ok (assignment unevenCounts 1)) ∧
      ∃ q t, computePpPartition unevenPair (fun _ => .ok (assignment unevenCounts 1)) = .ok q ∧
        unevenPair.IsPartition q ∧ IsLeast (unevenPair.throughputs q) t ∧
        ∀ q' t', unevenPair.IsPartition q' → IsLeast (unevenPair.throughputs q') t' → t' ≤ t :=
  ⟨unevenCounts_isOptimal,
    (computePpPartition_exact unevenPair (fun _ => .ok (assignment unevenCounts 1))
      unevenCounts_isOptimal).2 ⟨unevenCounts, unevenCounts_isPartition⟩⟩

end StreamEP

import Mathlib.Algebra.Order.BigOperators.Group.List
import Mathlib.Algebra.Order.Floor.Div
import Mathlib.Algebra.Ring.Rat
import Mathlib.GroupTheory.GroupAction.Ring

/-!
# The compute time of a worker

`_simulate_worker_compute_time`, which `simulation/sim_sync.py` and `simulation/sim_tbo.py` have in
common: the loads of the experts of a worker are served in batches, always from the fullest queue,
until nothing is left. The two guards against an empty worker, `== 0` and `<= 0`, agree on loads
that are not negative.

Batches of different queues interleave, and which of several fullest queues is served is up to
`max`. A run with any choice is a `GreedyRun`. Whatever the choices were, the batches of a run and
those that are still to come are the batches of the queues served one after another, up to their
order, and the order is nothing the totals depend on.

## One loop, two simulators

The loop takes what it does with a batch as an argument, as a computation that may raise. Looking a
batch up in the profile is one such argument; the loop that only records its batches is another.
Both have the same batches, since the choice of a queue does not look at the cost.

## Main results

* `ExpertBatching.simulateWorkerComputeTime_eq` — the closed form of the cost
-/

namespace StreamEP

/-- What `_simulate_worker_compute_time` reads of its simulator. -/
structure ExpertBatching (R : Type) where
  maxBatchSize : ℕ
  computeTimeLookup : ℕ → Option R
  maxBatchSize_pos : 0 < maxBatchSize
  /-- The table has the sizes of all batches. -/
  lookup_isSome : ∀ k, 0 < k → k ≤ maxBatchSize → (computeTimeLookup k).isSome

structure WorkerTotals (R : Type) where
  elapsed : R
  totalExpertBatchSize : ℕ
  totalExpertBatchCount : ℕ
deriving DecidableEq

namespace ExpertBatching

section Model

variable {R : Type} [Add R] (cfg : ExpertBatching R)

/-- A batch is looked up and counted. -/
def charge (totals : WorkerTotals R) (batch : ℕ) : Except String (WorkerTotals R) :=
  match cfg.computeTimeLookup batch with
  | none => .error "KeyError"
  | some computeT => .ok {
      elapsed := totals.elapsed + computeT
      totalExpertBatchSize := totals.totalExpertBatchSize + batch
      totalExpertBatchCount := totals.totalExpertBatchCount + 1 }

/-- The loop of `_simulate_worker_compute_time`, with what becomes of a batch as a parameter: `max`
returns the first of the fullest queues. -/
def serveLoop {T : Type} (m : ℕ) (hm : 0 < m) (charge : T → ℕ → Except String T)
    (queues : List ℕ) (totalTokens : ℕ) (totals : T) : Except String T :=
  if totalTokens > 0 then
    match queues.max? with
    | none => .error "max() arg is an empty sequence"
    | some available =>
      if available ≤ 0 then .ok totals
      else
        let batch := min available m
        charge totals batch >>= serveLoop m hm charge
          (queues.set (queues.idxOf available) (available - batch)) (totalTokens - batch)
  else .ok totals
termination_by totalTokens
decreasing_by
  have hbatch : 0 < min available m := lt_min (not_le.mp ‹¬ available ≤ 0›) hm
  omega

/-- `_simulate_worker_compute_time`, for a simulator that has counted `size` tokens in `count`
batches -/
def simulateWorkerComputeTime [Zero R] (size count : ℕ) (loads : List ℕ) :
    Except String (WorkerTotals R) :=
  if loads.sum = 0 then .ok ⟨0, size, count⟩
  else serveLoop cfg.maxBatchSize cfg.maxBatchSize_pos cfg.charge loads loads.sum ⟨0, size, count⟩

end Model

/-! ### Runs with any choice between the fullest queues -/

/-- **One batch is taken from a fullest queue.** -/
def Serve (m : ℕ) (queues : List ℕ) (batch : ℕ) (queues' : List ℕ) : Prop :=
  ∃ i available, queues[i]? = some available ∧ (∀ q ∈ queues, q ≤ available) ∧ 0 < available ∧
    batch = min available m ∧ queues' = queues.set i (available - batch)

/-- **Batches that may be taken one after another.** -/
inductive GreedyRun (m : ℕ) : List ℕ → List ℕ → List ℕ → Prop
  | nil (queues : List ℕ) : GreedyRun m queues [] queues
  | cons {queues queues' rest batches : List ℕ} {batch : ℕ} (hserve : Serve m queues batch queues')
      (hrun : GreedyRun m queues' batches rest) : GreedyRun m queues (batch :: batches) rest

/-- The batches of a queue that is served alone. -/
def batchesOf (m load : ℕ) : List ℕ :=
  List.replicate (load / m) m ++ if load % m = 0 then [] else [load % m]

section Batches

variable {m : ℕ}

theorem batchesOf_of_pos (hm : 0 < m) {load : ℕ} (hload : 0 < load) :
    batchesOf m load = min load m :: batchesOf m (load - min load m) := by
  rcases lt_or_ge load m with hlt | hge
  · rw [min_eq_left hlt.le, Nat.sub_self, batchesOf, batchesOf, Nat.div_eq_of_lt hlt,
      Nat.mod_eq_of_lt hlt, if_neg hload.ne', Nat.zero_div, Nat.zero_mod, if_pos rfl]
    rfl
  · have hdiv : load / m = (load - m) / m + 1 := Nat.div_eq_sub_div hm hge
    have hmod : load % m = (load - m) % m := Nat.mod_eq_sub_mod hge
    rw [min_eq_right hge, batchesOf, batchesOf, hdiv, hmod, List.replicate_succ, List.cons_append]

theorem mem_batchesOf (hm : 0 < m) {load batch : ℕ} (hbatch : batch ∈ batchesOf m load) :
    0 < batch ∧ batch ≤ m := by
  rcases List.mem_append.mp hbatch with hfull | hrest
  · obtain rfl := List.eq_of_mem_replicate hfull
    exact ⟨hm, le_rfl⟩
  · split_ifs at hrest with hmod
    · cases hrest
    · obtain rfl := List.mem_singleton.mp hrest
      exact ⟨Nat.pos_of_ne_zero hmod, (Nat.mod_lt load hm).le⟩

theorem length_batchesOf (hm : 0 < m) (load : ℕ) : (batchesOf m load).length = load ⌈/⌉ m := by
  have hdiv : load / m * m + load % m = load := Nat.div_add_mod' load m
  have hlt := Nat.mod_lt load hm
  rw [batchesOf, List.length_append, List.length_replicate, Nat.ceilDiv_eq_add_pred_div]
  split_ifs with hmod
  · rw [show load + m - 1 = m - 1 + load / m * m by omega, Nat.add_mul_div_right _ _ hm,
      Nat.div_eq_of_lt (show m - 1 < m by omega), List.length_nil, Nat.add_comm]
  · have hnext : (load / m + 1) * m = load / m * m + m := Nat.succ_mul _ _
    rw [show load + m - 1 = load % m - 1 + (load / m + 1) * m by omega,
      Nat.add_mul_div_right _ _ hm, Nat.div_eq_of_lt (show load % m - 1 < m by omega),
      List.length_singleton, Nat.zero_add]

theorem sum_batchesOf (m load : ℕ) : (batchesOf m load).sum = load := by
  have hrest : (if load % m = 0 then [] else [load % m]).sum = load % m := by
    split_ifs with hmod
    · exact hmod.symm
    · exact List.sum_singleton
  rw [batchesOf, List.sum_append, List.sum_replicate, hrest, smul_eq_mul, Nat.mul_comm]
  exact Nat.div_add_mod load m

theorem sum_flatMap_batchesOf (m : ℕ) (queues : List ℕ) :
    (queues.flatMap (batchesOf m)).sum = queues.sum := by
  rw [List.flatMap_def, List.sum_flatten, List.map_map]
  simp only [Function.comp_def, sum_batchesOf, List.map_id']

theorem length_flatMap_batchesOf (hm : 0 < m) (queues : List ℕ) :
    (queues.flatMap (batchesOf m)).length = (queues.map (· ⌈/⌉ m)).sum := by
  rw [List.length_flatMap]
  simp only [length_batchesOf hm]

theorem perm_flatMap_set {f : ℕ → List ℕ} {queues : List ℕ} {i a v x : ℕ}
    (hi : queues[i]? = some a) (hf : f a = x :: f v) :
    (x :: (queues.set i v).flatMap f).Perm (queues.flatMap f) := by
  induction queues generalizing i with
  | nil => cases hi
  | cons q queues ih =>
    cases i with
    | zero =>
      obtain rfl : q = a := Option.some.inj hi
      rw [List.set_cons_zero, List.flatMap_cons, List.flatMap_cons, hf]
      exact .refl _
    | succ i =>
      rw [List.set_cons_succ, List.flatMap_cons, List.flatMap_cons]
      exact List.perm_middle.symm.trans ((ih hi).append_left _)

theorem Serve.perm (hm : 0 < m) {queues queues' : List ℕ} {batch : ℕ}
    (h : Serve m queues batch queues') :
    (batch :: queues'.flatMap (batchesOf m)).Perm (queues.flatMap (batchesOf m)) := by
  obtain ⟨i, available, hi, -, hpos, rfl, rfl⟩ := h
  exact perm_flatMap_set hi (batchesOf_of_pos hm hpos)

theorem Serve.add_sum (hm : 0 < m) {queues queues' : List ℕ} {batch : ℕ}
    (h : Serve m queues batch queues') : batch + queues'.sum = queues.sum := by
  have hsum := (h.perm hm).sum_eq
  rwa [List.sum_cons, sum_flatMap_batchesOf, sum_flatMap_batchesOf] at hsum

/-- **The batches of a run and of what is left** are those of the queues one by one. -/
theorem GreedyRun.perm (hm : 0 < m) {queues batches rest : List ℕ}
    (h : GreedyRun m queues batches rest) :
    (batches ++ rest.flatMap (batchesOf m)).Perm (queues.flatMap (batchesOf m)) := by
  induction h with
  | nil queues => exact .refl _
  | cons hserve _ ih => exact (ih.cons _).trans (hserve.perm hm)

theorem exists_serve_max? (m : ℕ) {queues : List ℕ} (hsum : queues.sum ≠ 0) :
    ∃ available, queues.max? = some available ∧ 0 < available ∧
      Serve m queues (min available m)
        (queues.set (queues.idxOf available) (available - min available m)) := by
  cases hmax : queues.max? with
  | none =>
    rw [List.max?_eq_none_iff.mp hmax] at hsum
    exact absurd rfl hsum
  | some available =>
    obtain ⟨hmem, hle⟩ := List.max?_eq_some_iff.mp hmax
    have hpos : 0 < available := by
      by_contra hzero
      exact hsum (List.sum_eq_zero fun q hq => by have := hle q hq; omega)
    have hfirst : queues[queues.idxOf available]? = some available :=
      List.getElem?_idxOf hmem
    exact ⟨available, rfl, hpos, _, available, hfirst, hle, hpos, rfl, rfl⟩

theorem flatMap_batchesOf_of_sum (m : ℕ) {rest : List ℕ} (hsum : rest.sum = 0) :
    rest.flatMap (batchesOf m) = [] := by
  refine List.flatMap_eq_nil_iff.mpr fun q hq => ?_
  obtain rfl : q = 0 := List.sum_eq_zero_iff.mp hsum q hq
  rw [batchesOf, Nat.zero_div, Nat.zero_mod, if_pos rfl]
  rfl

/-- A run that has served everything has the batches of the queues one by one. -/
theorem GreedyRun.perm_loads (hm : 0 < m) {loads batches rest : List ℕ}
    (h : GreedyRun m loads batches rest) (hrest : rest.sum = 0) :
    batches.Perm (loads.flatMap (batchesOf m)) := by
  have hperm := h.perm hm
  rwa [flatMap_batchesOf_of_sum m hrest, List.append_nil] at hperm

theorem GreedyRun.sum_eq (hm : 0 < m) {loads batches rest : List ℕ}
    (h : GreedyRun m loads batches rest) (hrest : rest.sum = 0) : batches.sum = loads.sum := by
  rw [(h.perm_loads hm hrest).sum_eq, sum_flatMap_batchesOf]

theorem GreedyRun.bounds (hm : 0 < m) {loads batches rest : List ℕ}
    (h : GreedyRun m loads batches rest) (hrest : rest.sum = 0) :
    ∀ batch ∈ batches, 0 < batch ∧ batch ≤ m := by
  intro batch hbatch
  obtain ⟨load, -, hmem⟩ := List.mem_flatMap.mp ((h.perm_loads hm hrest).mem_iff.mp hbatch)
  exact mem_batchesOf hm hmem

/-- The loop is a run in which the first of the fullest queues is served. The batches do not depend
on what becomes of them. -/
theorem exists_serveLoop_eq {T : Type} (hm : 0 < m) (charge : T → ℕ → Except String T)
    (queues : List ℕ) :
    ∃ batches rest, GreedyRun m queues batches rest ∧ rest.sum = 0 ∧
      ∀ totals, serveLoop m hm charge queues queues.sum totals = batches.foldlM charge totals := by
  generalize htotal : queues.sum = total
  -- the tokens that are left decrease, whatever is charged
  induction total using Nat.strong_induction_on generalizing queues with
  | h total ih =>
    rcases Nat.eq_zero_or_pos total with hzero | hpos
    · refine ⟨[], queues, .nil queues, htotal.trans hzero, fun totals => ?_⟩
      rw [serveLoop, if_neg (by omega)]
      rfl
    · obtain ⟨available, hmax, havailable, hserve⟩ :=
        exists_serve_max? m (htotal ▸ hpos.ne' : queues.sum ≠ 0)
      have hsum := hserve.add_sum hm
      have hbatch : 0 < min available m := lt_min havailable hm
      obtain ⟨batches, rest, hrun, hrest, hloop⟩ := ih _ (by omega)
        (queues.set (queues.idxOf available) (available - min available m))
        (show _ = total - min available m by omega)
      refine ⟨_ :: batches, rest, .cons hserve hrun, hrest, fun totals => ?_⟩
      rw [serveLoop, if_pos hpos, List.foldlM_cons]
      simp only [hmax, if_neg (not_le.mpr havailable)]
      rw [funext hloop]

end Batches

/-! ### Totals -/

section Totals

variable {R : Type} [AddCommMonoid R] (cfg : ExpertBatching R)

def timeOf (batch : ℕ) : R := (cfg.computeTimeLookup batch).getD 0

/-- **The cost of a list of loads**: full batches, and a batch for what is left of each. -/
def cost (size count : ℕ) (loads : List ℕ) : WorkerTotals R where
  elapsed := (loads.map fun load => (load / cfg.maxBatchSize) • cfg.timeOf cfg.maxBatchSize +
    if load % cfg.maxBatchSize = 0 then 0 else cfg.timeOf (load % cfg.maxBatchSize)).sum
  totalExpertBatchSize := size + loads.sum
  totalExpertBatchCount := count + (loads.map (· ⌈/⌉ cfg.maxBatchSize)).sum

variable {cfg}

theorem charge_eq {batch : ℕ} (hpos : 0 < batch) (hle : batch ≤ cfg.maxBatchSize)
    (totals : WorkerTotals R) :
    cfg.charge totals batch = .ok ⟨totals.elapsed + cfg.timeOf batch,
      totals.totalExpertBatchSize + batch, totals.totalExpertBatchCount + 1⟩ := by
  obtain ⟨computeT, hlookup⟩ := Option.isSome_iff_exists.mp (cfg.lookup_isSome batch hpos hle)
  rw [charge, timeOf, hlookup]
  rfl

theorem foldlM_charge {batches : List ℕ}
    (hbatches : ∀ batch ∈ batches, 0 < batch ∧ batch ≤ cfg.maxBatchSize)
    (totals : WorkerTotals R) :
    batches.foldlM cfg.charge totals = .ok {
      elapsed := totals.elapsed + (batches.map cfg.timeOf).sum
      totalExpertBatchSize := totals.totalExpertBatchSize + batches.sum
      totalExpertBatchCount := totals.totalExpertBatchCount + batches.length } := by
  induction batches generalizing totals with
  | nil => simp [pure, Except.pure]
  | cons batch batches ih =>
    obtain ⟨⟨hpos, hle⟩, hrest⟩ := List.forall_mem_cons.mp hbatches
    rw [List.foldlM_cons, charge_eq hpos hle]
    show batches.foldlM cfg.charge _ = _
    rw [ih hrest, List.map_cons, List.sum_cons, List.sum_cons, List.length_cons, add_assoc,
      add_assoc, add_assoc, Nat.add_comm 1]

theorem sum_timeOf_batchesOf (load : ℕ) :
    ((batchesOf cfg.maxBatchSize load).map cfg.timeOf).sum =
      (load / cfg.maxBatchSize) • cfg.timeOf cfg.maxBatchSize +
        if load % cfg.maxBatchSize = 0 then 0 else cfg.timeOf (load % cfg.maxBatchSize) := by
  rw [batchesOf, List.map_append, List.sum_append, List.map_replicate, List.sum_replicate]
  split_ifs with hmod
  · rw [List.map_nil, List.sum_nil]
  · rw [List.map_singleton, List.sum_singleton]

theorem GreedyRun.foldlM_charge_eq {loads batches rest : List ℕ}
    (h : GreedyRun cfg.maxBatchSize loads batches rest) (hrest : rest.sum = 0) (size count : ℕ) :
    batches.foldlM cfg.charge ⟨0, size, count⟩ = .ok (cfg.cost size count loads) ∧
      batches.length = (loads.map (· ⌈/⌉ cfg.maxBatchSize)).sum := by
  have hperm := h.perm_loads cfg.maxBatchSize_pos hrest
  have hbatches := h.bounds cfg.maxBatchSize_pos hrest
  have htime : (batches.map cfg.timeOf).sum =
      (loads.map fun load => ((batchesOf cfg.maxBatchSize load).map cfg.timeOf).sum).sum := by
    rw [(hperm.map _).sum_eq, List.map_flatMap, List.flatMap_def, List.sum_flatten, List.map_map]
    rfl
  have hsize := h.sum_eq cfg.maxBatchSize_pos hrest
  have hlength : batches.length = (loads.map (· ⌈/⌉ cfg.maxBatchSize)).sum := by
    rw [hperm.length_eq, length_flatMap_batchesOf cfg.maxBatchSize_pos]
  refine ⟨?_, hlength⟩
  rw [foldlM_charge hbatches, htime, hsize, hlength, zero_add, cost]
  simp only [sum_timeOf_batchesOf]

/-- **The cost of greedy batching has a closed form**, which the loop returns. With any choice
between fullest queues, a run that has not served everything goes on, no run has more batches, and
one that has served everything has as many and costs the same. -/
theorem simulateWorkerComputeTime_eq (cfg : ExpertBatching R) (size count : ℕ) (loads : List ℕ) :
    cfg.simulateWorkerComputeTime size count loads = .ok (cfg.cost size count loads) ∧
      ∀ batches rest, GreedyRun cfg.maxBatchSize loads batches rest →
        batches.length ≤ (loads.map (· ⌈/⌉ cfg.maxBatchSize)).sum ∧
        (rest.sum ≠ 0 → ∃ batch rest', Serve cfg.maxBatchSize rest batch rest') ∧
        (rest.sum = 0 → batches.length = (loads.map (· ⌈/⌉ cfg.maxBatchSize)).sum ∧
          batches.foldlM cfg.charge ⟨0, size, count⟩ = .ok (cfg.cost size count loads)) := by
  refine ⟨?_, fun batches rest hrun => ⟨?_, fun hsum => ?_, fun hsum => ?_⟩⟩
  · rw [simulateWorkerComputeTime]
    split_ifs with hsum
    · exact ((GreedyRun.nil loads).foldlM_charge_eq hsum size count).1
    · obtain ⟨batches, rest, hrun, hrest, hloop⟩ :=
        exists_serveLoop_eq cfg.maxBatchSize_pos cfg.charge loads
      rw [hloop]
      exact (hrun.foldlM_charge_eq hrest size count).1
  · have hlength := (hrun.perm cfg.maxBatchSize_pos).length_eq
    rw [List.length_append, length_flatMap_batchesOf cfg.maxBatchSize_pos loads] at hlength
    omega
  · obtain ⟨available, -, -, hserve⟩ := exists_serve_max? cfg.maxBatchSize hsum
    exact ⟨_, _, hserve⟩
  · exact (hrun.foldlM_charge_eq hsum size count).symm

end Totals

/-- Batches of at most two, whose times are two and three. -/
def batchesOfTwo : ExpertBatching ℚ where
  maxBatchSize := 2
  computeTimeLookup k := if k = 1 ∨ k = 2 then some (k + 1) else none
  maxBatchSize_pos := Nat.two_pos
  lookup_isSome k hpos hle := by
    rw [if_pos (by omega)]
    rfl

/-- Two queues of three tokens, of which the last fullest one is always served. -/
theorem simulateWorkerComputeTime_eq_batchesOfTwo :
    batchesOfTwo.simulateWorkerComputeTime 0 0 [3, 3] = .ok ⟨10, 6, 4⟩ ∧
      GreedyRun 2 [3, 3] [2, 2, 1, 1] [0, 0] ∧
      [2, 2, 1, 1].foldlM batchesOfTwo.charge ⟨0, 0, 0⟩ = .ok ⟨10, 6, 4⟩ := by
  have hcost : batchesOfTwo.cost 0 0 [3, 3] = ⟨10, 6, 4⟩ := by decide +kernel
  have hrun : GreedyRun 2 [3, 3] [2, 2, 1, 1] [0, 0] :=
    .cons (show Serve 2 [3, 3] 2 [3, 1] from ⟨1, 3, by decide⟩)
      (.cons (show Serve 2 [3, 1] 2 [1, 1] from ⟨0, 3, by decide⟩)
        (.cons (show Serve 2 [1, 1] 1 [1, 0] from ⟨1, 1, by decide⟩)
          (.cons ⟨0, 1, by decide⟩ (.nil [0, 0]))))
  obtain ⟨hloop, hruns⟩ := simulateWorkerComputeTime_eq batchesOfTwo 0 0 [3, 3]
  rw [hcost] at hloop hruns
  exact ⟨hloop, hrun, ((hruns _ _ hrun).2.2 rfl).2⟩

end ExpertBatching

end StreamEP

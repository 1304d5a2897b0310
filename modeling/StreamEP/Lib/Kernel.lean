import Mathlib.Data.List.Basic
import Mathlib.Logic.Function.Basic

/-!
# Kernels

A kernel is a grid of threads that write to a memory. The order of the writes of different threads
is not known, so a launch may apply all writes in any order. If every address is only ever written
with one value the order does not matter: the memory has that value at the addresses that are
written, and is unchanged elsewhere.
-/

namespace StreamEP

namespace Kernel

/-! ### Strided loops -/

/-- The values of `i` in `for (i = start; i < bound; i += step)`, for `fuel` rounds at most. -/
def stridedFrom (step bound : ℕ) : ℕ → ℕ → List ℕ
  | 0, _ => []
  | fuel + 1, i => if i < bound then i :: stridedFrom step bound fuel (i + step) else []

/-- The values of `i` in `for (i = start; i < bound; i += step)` with a positive step. -/
def strided (start step bound : ℕ) : List ℕ := stridedFrom step bound bound start

theorem mem_stridedFrom {step bound fuel i j : ℕ} :
    j ∈ stridedFrom step bound fuel i ↔ j < bound ∧ ∃ k < fuel, j = i + k * step := by
  induction fuel generalizing i with
  | zero => simp [stridedFrom]
  | succ fuel ih =>
    rw [stridedFrom]
    split_ifs with hi
    · rw [List.mem_cons, ih]
      constructor
      · rintro (rfl | ⟨hj, k, hk, rfl⟩)
        · exact ⟨hi, 0, Nat.succ_pos fuel, by rw [Nat.zero_mul, Nat.add_zero]⟩
        · exact ⟨hj, k + 1, Nat.succ_lt_succ hk, by rw [Nat.succ_mul]; omega⟩
      · rintro ⟨hj, k, hk, rfl⟩
        cases k with
        | zero => exact .inl (by rw [Nat.zero_mul, Nat.add_zero])
        | succ k => exact .inr ⟨hj, k, Nat.lt_of_succ_lt_succ hk, by rw [Nat.succ_mul]; omega⟩
    · constructor
      · intro hj
        cases hj
      · rintro ⟨hj, k, -, rfl⟩
        exact absurd (Nat.lt_of_le_of_lt (Nat.le_add_right i _) hj) hi

theorem mem_strided {start step bound j : ℕ} (hstep : 0 < step) :
    j ∈ strided start step bound ↔ j < bound ∧ ∃ k, j = start + k * step := by
  rw [strided, mem_stridedFrom]
  constructor
  · rintro ⟨hj, k, -, hk⟩
    exact ⟨hj, k, hk⟩
  · rintro ⟨hj, k, rfl⟩
    have hk : k ≤ k * step := Nat.le_mul_of_pos_right k hstep
    exact ⟨hj, k, by omega, rfl⟩

theorem lt_of_mem_stridedFrom {step bound fuel i j : ℕ} (h : j ∈ stridedFrom step bound fuel i) :
    i ≤ j ∧ j < bound := by
  obtain ⟨hj, k, -, rfl⟩ := mem_stridedFrom.mp h
  exact ⟨Nat.le_add_right i _, hj⟩

theorem pairwise_stridedFrom {step : ℕ} (hstep : 0 < step) (bound fuel i : ℕ) :
    (stridedFrom step bound fuel i).Pairwise (· < ·) := by
  induction fuel generalizing i with
  | zero => exact .nil
  | succ fuel ih =>
    rw [stridedFrom]
    split_ifs
    · refine .cons (fun j hj => ?_) (ih _)
      have hle := (lt_of_mem_stridedFrom hj).1
      omega
    · exact .nil

/-- **A loop that is shared out** among the threads of a block reaches every multiple of `size`
below the bound. -/
theorem exists_thread {threads size bound i : ℕ} (hthreads : 0 < threads) (hsize : 0 < size)
    (hi : i < bound) (hdvd : size ∣ i) :
    ∃ tid < threads, i ∈ strided (tid * size) (threads * size) bound := by
  obtain ⟨k, rfl⟩ := hdvd
  refine ⟨k % threads, Nat.mod_lt k hthreads, (mem_strided (Nat.mul_pos hthreads hsize)).mpr
    ⟨hi, k / threads, ?_⟩⟩
  calc size * k = size * (k % threads + threads * (k / threads)) := by rw [Nat.mod_add_div]
    _ = k % threads * size + k / threads * (threads * size) := by
        rw [Nat.mul_add, Nat.mul_comm size, Nat.mul_comm threads, Nat.mul_comm size, Nat.mul_assoc]

/-! ### Launches -/

variable {α : Type}

def applyWrites (writes : List (ℕ × α)) (mem : ℕ → α) : ℕ → α :=
  writes.foldl (fun mem x => Function.update mem x.1 x.2) mem

def launch (grid threads : ℕ) (thread : ℕ → ℕ → List (ℕ × α)) : List (ℕ × α) :=
  (List.range grid).flatMap fun block => (List.range threads).flatMap fun tid => thread block tid

/-- The writes are applied in some order. -/
def Executes (writes : List (ℕ × α)) (mem mem' : ℕ → α) : Prop :=
  ∃ order : List (ℕ × α), order.Perm writes ∧ mem' = applyWrites order mem

theorem executes_applyWrites (writes : List (ℕ × α)) (mem : ℕ → α) :
    Executes writes mem (applyWrites writes mem) := ⟨writes, .refl _, rfl⟩

theorem mem_launch {grid threads : ℕ} {thread : ℕ → ℕ → List (ℕ × α)} {x : ℕ × α} :
    x ∈ launch grid threads thread ↔ ∃ block < grid, ∃ tid < threads, x ∈ thread block tid := by
  simp only [launch, List.mem_flatMap, List.mem_range]

/-- Every write has the value that belongs to its address. -/
def Agree (value : ℕ → α) (writes : List (ℕ × α)) : Prop := ∀ x ∈ writes, x.2 = value x.1

variable {value : ℕ → α} {writes : List (ℕ × α)} {mem mem' : ℕ → α} {a : ℕ}

theorem applyWrites_of_notMem (h : ∀ v, (a, v) ∉ writes) (mem : ℕ → α) :
    applyWrites writes mem a = mem a := by
  induction writes generalizing mem with
  | nil => rfl
  | cons x writes ih =>
    have hne : a ≠ x.1 := by
      rintro rfl
      exact h x.2 List.mem_cons_self
    have hrest := ih (fun v hv => h v (List.mem_cons_of_mem _ hv)) (Function.update mem x.1 x.2)
    exact hrest.trans (Function.update_of_ne hne _ _)

theorem applyWrites_of_agree (hagree : Agree value writes) (h : ∃ v, (a, v) ∈ writes)
    (mem : ℕ → α) : applyWrites writes mem a = value a := by
  induction writes generalizing mem with
  | nil =>
    obtain ⟨v, hv⟩ := h
    cases hv
  | cons x writes ih =>
    by_cases hlater : ∃ v, (a, v) ∈ writes
    · exact ih (fun y hy => hagree y (List.mem_cons_of_mem _ hy)) hlater _
    · obtain ⟨v, hv⟩ := h
      obtain rfl : (a, v) = x := (List.mem_cons.mp hv).resolve_right fun h => hlater ⟨v, h⟩
      have hrest := applyWrites_of_notMem (fun v' hv' => hlater ⟨v', hv'⟩)
        (Function.update mem a v)
      refine hrest.trans ((Function.update_self _ _ _).trans ?_)
      exact hagree (a, v) List.mem_cons_self

theorem Executes.apply (h : Executes writes mem mem') (hagree : Agree value writes)
    (ha : ∃ v, (a, v) ∈ writes) : mem' a = value a := by
  obtain ⟨order, hperm, rfl⟩ := h
  obtain ⟨v, hv⟩ := ha
  have hsome : ∃ v, (a, v) ∈ order := ⟨v, hperm.mem_iff.mpr hv⟩
  exact applyWrites_of_agree (fun x hx => hagree x (hperm.mem_iff.mp hx)) hsome mem

theorem Executes.frame (h : Executes writes mem mem') (ha : ∀ v, (a, v) ∉ writes) :
    mem' a = mem a := by
  obtain ⟨order, hperm, rfl⟩ := h
  exact applyWrites_of_notMem (fun v hv => ha v (hperm.mem_iff.mp hv)) mem

end Kernel

end StreamEP

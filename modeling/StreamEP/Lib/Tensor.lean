import Mathlib.Algebra.BigOperators.Group.List.Basic
import Mathlib.Data.List.Range
import Mathlib.Logic.Function.Basic
import Mathlib.Tactic.Ring

/-!
# Tensors as functions of their indices

A tensor is a function from lists of indices to entries; its memory is a function from addresses
to entries. A view of a memory reads the row-major address of an index, a permutation renames the
axes, and an indexed copy replaces slices of the first axis.
-/

namespace StreamEP

abbrev Tensor (α : Type) := List ℕ → α

namespace Tensor

variable {α : Type}

/-- The row-major address of an index, started from the address of the axes before. -/
def address : ℕ → List ℕ → List ℕ → ℕ
  | acc, size :: shape, i :: idx => address (acc * size + i) shape idx
  | acc, _, _ => acc

/-- The row-major address of an index in a tensor of a shape. -/
def rowMajor (shape idx : List ℕ) : ℕ := address 0 shape idx

/-- `view(shape)` of a memory. -/
def view (shape : List ℕ) (mem : ℕ → α) : Tensor α := fun idx => mem (rowMajor shape idx)

/-- `permute(dims)`: axis `k` of the result is axis `dims[k]` of `x`. -/
def permute (dims : List ℕ) (x : Tensor α) : Tensor α := fun idx =>
  x ((List.range dims.length).map fun axis => idx.getD (dims.idxOf axis) 0)

/-- The loop of `indexCopy`: slice `index[k]` becomes slice `p + k` of `src`. -/
def copySlices (src : Tensor α) : ℕ → List ℕ → Tensor α → Tensor α
  | _, [], x => x
  | p, b :: index, x => copySlices src (p + 1) index fun idx =>
      if idx.head? = some b then src (p :: idx.tail) else x idx

/-- `index_copy_(0, index, src)`: slice `index[p]` becomes slice `p` of `src`. -/
def indexCopy (x : Tensor α) (index : List ℕ) (src : Tensor α) : Tensor α :=
  copySlices src 0 index x

/-! ### Addresses -/

theorem address_eq (acc : ℕ) {shape idx : List ℕ} (h : idx.length = shape.length) :
    address acc shape idx = acc * shape.prod + rowMajor shape idx := by
  induction shape generalizing acc idx with
  | nil =>
    obtain rfl := List.length_eq_zero_iff.mp h
    simp [address, rowMajor]
  | cons size shape ih =>
    obtain ⟨i, idx, rfl⟩ := List.exists_cons_of_length_eq_add_one h
    have hlen : idx.length = shape.length := by simpa using h
    rw [rowMajor, address, address, ih _ hlen, ih _ hlen, List.prod_cons]
    ring

theorem rowMajor_append {shape idx : List ℕ} (h : idx.length = shape.length)
    {shape' idx' : List ℕ} (h' : idx'.length = shape'.length) :
    rowMajor (shape ++ shape') (idx ++ idx') =
      rowMajor shape idx * shape'.prod + rowMajor shape' idx' := by
  suffices hacc : ∀ acc, address acc (shape ++ shape') (idx ++ idx') =
      address (address acc shape idx) shape' idx' by
    rw [rowMajor, hacc, address_eq _ h']
    rfl
  induction shape generalizing idx with
  | nil =>
    obtain rfl := List.length_eq_zero_iff.mp h
    exact fun acc => rfl
  | cons size shape ih =>
    obtain ⟨i, idx, rfl⟩ := List.exists_cons_of_length_eq_add_one h
    exact fun acc => ih (by simpa using h) _

theorem rowMajor_lt {shape idx : List ℕ} (h : List.Forall₂ (· < ·) idx shape) :
    rowMajor shape idx < shape.prod := by
  induction h with
  | nil => exact Nat.one_pos
  | @cons i size idx shape hi htail ih =>
    rw [rowMajor, address, address_eq _ htail.length_eq, List.prod_cons, Nat.zero_mul, Nat.zero_add]
    calc i * shape.prod + rowMajor shape idx < i * shape.prod + shape.prod :=
          Nat.add_lt_add_left ih _
      _ = (i + 1) * shape.prod := by ring
      _ ≤ size * shape.prod := Nat.mul_le_mul_right _ hi

/-! ### Copies -/

theorem copySlices_of_notMem {src : Tensor α} {index : List ℕ} {b : ℕ} (h : b ∉ index) (p : ℕ)
    (x : Tensor α) (rest : List ℕ) : copySlices src p index x (b :: rest) = x (b :: rest) := by
  induction index generalizing p x with
  | nil => rfl
  | cons a index ih =>
    rw [List.mem_cons, not_or] at h
    rw [copySlices, ih h.2, List.head?_cons, if_neg (by simpa using h.1)]

theorem copySlices_of_getElem? {src : Tensor α} {index : List ℕ} (hnodup : index.Nodup) {k b : ℕ}
    (h : index[k]? = some b) (p : ℕ) (x : Tensor α) (rest : List ℕ) :
    copySlices src p index x (b :: rest) = src ((p + k) :: rest) := by
  induction index generalizing p x k with
  | nil => cases h
  | cons a index ih =>
    rw [List.nodup_cons] at hnodup
    rw [copySlices]
    cases k with
    | zero =>
      obtain rfl : a = b := Option.some.inj h
      rw [copySlices_of_notMem hnodup.1, List.head?_cons, if_pos rfl]
      rfl
    | succ k =>
      rw [ih hnodup.2 (by simpa using h), Nat.add_assoc, Nat.add_comm 1 k]

theorem indexCopy_of_notMem {x src : Tensor α} {index : List ℕ} {b : ℕ} (h : b ∉ index)
    (rest : List ℕ) : indexCopy x index src (b :: rest) = x (b :: rest) :=
  copySlices_of_notMem h 0 x rest

theorem indexCopy_of_getElem? {x src : Tensor α} {index : List ℕ} (hnodup : index.Nodup)
    {k b : ℕ} (h : index[k]? = some b) (rest : List ℕ) :
    indexCopy x index src (b :: rest) = src (k :: rest) := by
  rw [indexCopy, copySlices_of_getElem? hnodup h, Nat.zero_add]

/-- A loop over an array of tensors in which each round changes its own. -/
theorem foldl_update_range {β : Type} (f : ℕ → β → β) (n : ℕ) (x : ℕ → β) (l : ℕ) :
    (List.range n).foldl (fun x l => Function.update x l (f l (x l))) x l =
      if l < n then f l (x l) else x l := by
  induction n with
  | zero => rfl
  | succ n ih =>
    rw [List.range_succ, List.foldl_concat]
    by_cases hl : l = n
    · subst hl
      rw [Function.update_self, ih, if_neg (lt_irrefl l), if_pos (Nat.lt_succ_self l)]
    · rw [Function.update_of_ne hl, ih]
      exact if_congr (by omega) rfl rfl

end Tensor

end StreamEP

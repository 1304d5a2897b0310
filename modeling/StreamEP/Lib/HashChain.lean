import Mathlib.Data.Set.Function
import Mathlib.Data.List.Basic

/-!
# Hash chains

A chain hashes one block after another, each together with the digest of the block before. The
first block is hashed with a seed. When digests have a width of their own that is not the width of
the seed, what is hashed can be taken apart again: a digest that a chain meets belongs to one
position and to one sequence of blocks, as far as the hash is injective on what the chains hash.
-/

namespace StreamEP

namespace HashChain

variable {α β : Type*}

/-- What a chain with the digest `seed` before its first block hashes. -/
def inputs (hash : List β → List β) (enc : α → List β) : List β → List α → List (List β)
  | _, [] => []
  | seed, x :: xs => (seed ++ enc x) :: inputs hash enc (hash (seed ++ enc x)) xs

variable {hash : List β → List β} {enc : α → List β}

@[simp] theorem length_inputs (seed : List β) (xs : List α) :
    (inputs hash enc seed xs).length = xs.length := by
  induction xs generalizing seed with
  | nil => rfl
  | cons x xs ih => rw [inputs, List.length_cons, ih, List.length_cons]

/-- A chain over the first blocks is the first part of the chain. -/
theorem inputs_take (seed : List β) (xs : List α) (n : ℕ) :
    inputs hash enc seed (xs.take n) = (inputs hash enc seed xs).take n := by
  induction xs generalizing seed n with
  | nil => rw [List.take_nil, inputs, List.take_nil]
  | cons x xs ih =>
    cases n with
    | zero => rfl
    | succ n => rw [List.take_succ_cons, inputs, ih, inputs, List.take_succ_cons]

theorem getElem?_inputs_zero {seed : List β} {xs : List α} {m : List β} :
    (inputs hash enc seed xs)[0]? = some m ↔ ∃ x, xs[0]? = some x ∧ seed ++ enc x = m := by
  cases xs with
  | nil => simp [inputs]
  | cons x xs => simp [inputs]

/-- Every later block is hashed with the digest of the one before. -/
theorem getElem?_inputs_succ {seed : List β} {xs : List α} {i : ℕ} {m : List β} :
    (inputs hash enc seed xs)[i + 1]? = some m ↔
      ∃ m' x, (inputs hash enc seed xs)[i]? = some m' ∧ xs[i + 1]? = some x ∧
        hash m' ++ enc x = m := by
  induction xs generalizing seed i with
  | nil => simp [inputs]
  | cons x xs ih =>
    rw [inputs, List.getElem?_cons_succ]
    cases i with
    | zero =>
      rw [getElem?_inputs_zero]
      simp
    | succ i =>
      rw [ih]
      simp only [List.getElem?_cons_succ]

section Identify

variable {seed : List β} {xs ys : List α} {digest width : ℕ}

/-- The first input of a chain has another length than every later one. -/
theorem seed_append_ne (hdigest : ∀ m, (hash m).length = digest) (hseed : seed.length ≠ digest)
    {x y : α} (hwidth : (enc x).length = (enc y).length) (m : List β) :
    seed ++ enc x ≠ hash m ++ enc y := by
  intro hm
  have hlen := congrArg List.length hm
  rw [List.length_append, List.length_append, hdigest] at hlen
  exact absurd (by omega) hseed

/-- **An input identifies the blocks up to it.** The first input has another length than the later
ones, so positions agree; the digest in front leads back to the input before. -/
theorem take_eq_of_inputs (hdigest : ∀ m, (hash m).length = digest) (hseed : seed.length ≠ digest)
    (hinj : Set.InjOn hash {m | m ∈ inputs hash enc seed xs ∨ m ∈ inputs hash enc seed ys})
    (hwidth : ∀ x, x ∈ xs ∨ x ∈ ys → (enc x).length = width)
    (henc : Set.InjOn enc {x | x ∈ xs ∨ x ∈ ys}) {i j : ℕ} {m : List β}
    (hi : (inputs hash enc seed xs)[i]? = some m) (hj : (inputs hash enc seed ys)[j]? = some m) :
    i = j ∧ xs.take (i + 1) = ys.take (i + 1) := by
  induction i generalizing j m with
  | zero =>
    obtain ⟨x, hx, rfl⟩ := getElem?_inputs_zero.mp hi
    have hwx := hwidth x (Or.inl (List.mem_of_getElem? hx))
    cases j with
    | zero =>
      obtain ⟨y, hy, hm⟩ := getElem?_inputs_zero.mp hj
      have hxy := henc (Or.inr (List.mem_of_getElem? hy)) (Or.inl (List.mem_of_getElem? hx))
        (List.append_cancel_left hm)
      rw [List.take_add_one, List.take_add_one, hx, hy, hxy]
      exact ⟨rfl, rfl⟩
    | succ j =>
      obtain ⟨m', y, -, hy, hm⟩ := getElem?_inputs_succ.mp hj
      have hwy := hwidth y (Or.inr (List.mem_of_getElem? hy))
      exact absurd hm.symm (seed_append_ne hdigest hseed (hwx.trans hwy.symm) m')
  | succ i ih =>
    obtain ⟨m₁, x, hm₁, hx, rfl⟩ := getElem?_inputs_succ.mp hi
    have hwx := hwidth x (Or.inl (List.mem_of_getElem? hx))
    cases j with
    | zero =>
      obtain ⟨y, hy, hm⟩ := getElem?_inputs_zero.mp hj
      have hwy := hwidth y (Or.inr (List.mem_of_getElem? hy))
      exact absurd hm (seed_append_ne hdigest hseed (hwy.trans hwx.symm) m₁)
    | succ j =>
      obtain ⟨m₂, y, hm₂, hy, hm⟩ := getElem?_inputs_succ.mp hj
      obtain ⟨hhash, hblock⟩ := List.append_inj hm ((hdigest m₂).trans (hdigest m₁).symm)
      have hmm := hinj (Or.inr (List.mem_of_getElem? hm₂)) (Or.inl (List.mem_of_getElem? hm₁))
        hhash
      obtain ⟨rfl, htake⟩ := ih hm₁ (hmm ▸ hm₂)
      have hxy := henc (Or.inr (List.mem_of_getElem? hy)) (Or.inl (List.mem_of_getElem? hx)) hblock
      rw [List.take_add_one, List.take_add_one (l := ys), htake, hx, hy, hxy]
      exact ⟨rfl, rfl⟩

end Identify

end HashChain

end StreamEP

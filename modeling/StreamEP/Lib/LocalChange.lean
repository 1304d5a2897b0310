import Mathlib.Algebra.BigOperators.Fin

/-!
# Sums that change in one place

The contents of a distributed state are sums over its places. A step changes one place, and what
it takes out and puts in there is what the sum loses and gains. The lemmas below say this without
subtraction: `after + taken = before + added`.
-/

namespace StreamEP

open Finset

variable {ι M : Type} [DecidableEq ι] [AddCommMonoid M]

theorem sum_local_change {s : Finset ι} {i : ι} (hi : i ∈ s) {f g : ι → M} {taken added : M}
    (hother : ∀ j ∈ s, j ≠ i → g j = f j) (hlocal : g i + taken = f i + added) :
    ∑ j ∈ s, g j + taken = ∑ j ∈ s, f j + added := by
  rw [← Finset.add_sum_erase s f hi, ← Finset.add_sum_erase s g hi,
    Finset.sum_congr rfl fun j hj => hother j (mem_of_mem_erase hj) (ne_of_mem_erase hj),
    add_right_comm, hlocal, add_right_comm]

theorem sum_update_change [Fintype ι] {α : Type} (content : ι → α → M) (x : ι → α) (i : ι) (a : α)
    {taken added : M} (hlocal : content i a + taken = content i (x i) + added) :
    ∑ j, content j (Function.update x i a j) + taken = ∑ j, content j (x j) + added := by
  refine sum_local_change (mem_univ i) (fun j _ hj => ?_) ?_
  · rw [Function.update_of_ne hj]
  · rw [Function.update_self, hlocal]

end StreamEP

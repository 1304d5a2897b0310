import Mathlib.Data.List.Sort

/-!
# An unstable library sort

A library sort takes a comparator that must be a strict weak order on the elements it is given,
and returns some reordering in which no element is less than an earlier one. Which of the many
such reorderings it picks is not specified. `StdSort` is exactly that contract, so a result
proved for every `StdSort` does not depend on how ties are broken.

The comparator is only required to be a strict weak order *on the list being sorted*: comparators
that special-case a sentinel value are not orders on all integers.
-/

namespace StreamEP

variable {α β : Type}

/-- `lt` is a strict weak order on the elements of `l`. -/
structure StrictWeakOn (lt : α → α → Bool) (l : List α) : Prop where
  irrefl : ∀ a ∈ l, ¬ lt a a
  /-- `lt` is transitive. -/
  trans : ∀ a ∈ l, ∀ b ∈ l, ∀ c ∈ l, lt a b → lt b c → lt a c
  incomp : ∀ a ∈ l, ∀ b ∈ l, ∀ c ∈ l,
    ¬ lt a b → ¬ lt b a → ¬ lt b c → ¬ lt c b → ¬ lt a c ∧ ¬ lt c a

/-- The order in which a sorted list is checked: `a` may stand before `b`. -/
theorem StrictWeakOn.negTrans {lt : α → α → Bool} {l : List α} (h : StrictWeakOn lt l)
    {a b c : α} (ha : a ∈ l) (hb : b ∈ l) (hc : c ∈ l) (hba : ¬ lt b a) (hcb : ¬ lt c b) :
    ¬ lt c a := by
  intro hca
  have hab : ¬ lt a b := fun hab => hcb (h.trans c hc a ha b hb hca hab)
  have hbc : ¬ lt b c := fun hbc => hba (h.trans b hb c hc a ha hbc hca)
  exact (h.incomp a ha b hb c hc hab hba hbc hcb).2 hca

theorem StrictWeakOn.asymm {lt : α → α → Bool} {l : List α} (h : StrictWeakOn lt l)
    {a b : α} (ha : a ∈ l) (hb : b ∈ l) (hab : lt a b) : ¬ lt b a :=
  fun hba => h.irrefl a ha (h.trans a ha b hb a ha hab hba)

/-- A comparator that compares a key is a strict weak order everywhere. -/
theorem strictWeakOn_of_key {κ : Type} [LinearOrder κ] {lt : α → α → Bool} {l : List α}
    (key : α → κ) (h : ∀ a ∈ l, ∀ b ∈ l, lt a b ↔ key a < key b) : StrictWeakOn lt l where
  irrefl a ha := by rw [h a ha a ha]; exact lt_irrefl _
  trans a ha b hb c hc hab hbc := by
    rw [h a ha b hb] at hab
    rw [h b hb c hc] at hbc
    exact (h a ha c hc).mpr (hab.trans hbc)
  incomp a ha b hb c hc hab hba hbc hcb := by
    rw [h a ha b hb, not_lt] at hab
    rw [h b hb a ha, not_lt] at hba
    rw [h b hb c hc, not_lt] at hbc
    rw [h c hc b hb, not_lt] at hcb
    rw [h a ha c hc, h c hc a ha, not_lt, not_lt]
    exact ⟨hbc.trans hab, hba.trans hcb⟩

/-- A library sort: under a strict weak order it reorders its input so that no element is less
than an earlier one. -/
structure StdSort where
  sort : {α : Type} → (α → α → Bool) → List α → List α
  perm : ∀ {α : Type} {lt : α → α → Bool} {l : List α}, StrictWeakOn lt l → (sort lt l).Perm l
  /-- No element is less than an earlier one. -/
  sorted : ∀ {α : Type} {lt : α → α → Bool} {l : List α}, StrictWeakOn lt l →
    (sort lt l).Pairwise fun a b => ¬ lt b a

namespace StdSort

/-- Insertion sort, run on the elements together with the proof that they belong to the list: the
comparator is a strict weak order on all of that type. -/
def insertionSortOn (lt : α → α → Bool) (l : List α) : List α :=
  (l.attach.insertionSort fun a b => ¬ lt b.1 a.1).map Subtype.val

theorem insertionSortOn_perm (lt : α → α → Bool) (l : List α) :
    (insertionSortOn lt l).Perm l := by
  have h := (List.perm_insertionSort (fun a b : {x // x ∈ l} => ¬ lt b.1 a.1) l.attach).map
    Subtype.val
  rwa [List.attach_map_subtype_val] at h

theorem insertionSortOn_sorted {lt : α → α → Bool} {l : List α} (h : StrictWeakOn lt l) :
    (insertionSortOn lt l).Pairwise fun a b => ¬ lt b a := by
  have : Std.Total fun a b : {x // x ∈ l} => ¬ lt b.1 a.1 := ⟨fun a b => by
    by_cases hab : lt a.1 b.1
    · exact .inl (h.asymm a.2 b.2 hab)
    · exact .inr hab⟩
  have : IsTrans {x // x ∈ l} fun a b => ¬ lt b.1 a.1 :=
    ⟨fun a b c hab hbc => h.negTrans a.2 b.2 c.2 hab hbc⟩
  exact List.pairwise_map.mpr (List.pairwise_insertionSort _ l.attach)

/-- Insertion sort is a library sort, and a stable one. -/
def stable : StdSort where
  sort := insertionSortOn
  perm _ := insertionSortOn_perm _ _
  sorted h := insertionSortOn_sorted h

end StdSort

end StreamEP

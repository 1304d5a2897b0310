import Mathlib.Algebra.BigOperators.Group.Finset.Basic
import Mathlib.Algebra.BigOperators.Group.List.Basic
import Mathlib.Data.List.AList

/-!
# Sums over a table

What the entries of a finite map hold together, in any commutative monoid: numbers for budgets,
multisets for things that are handed out. Inserting and erasing an entry changes the sum by what
that entry holds. As in the other sums of this development there is no subtraction.
-/

namespace StreamEP

variable {κ υ M : Type} [DecidableEq κ] [AddCommMonoid M]

/-- The sum of `f` over the entries of a table. -/
def tableSum (f : κ → υ → M) (t : AList fun _ : κ => υ) : M :=
  (t.entries.map fun e => f e.1 e.2).sum

omit [DecidableEq κ] in
@[simp] theorem tableSum_empty (f : κ → υ → M) : tableSum f ∅ = 0 := rfl

theorem erase_of_lookup_eq_none {t : AList fun _ : κ => υ} {k : κ} (h : t.lookup k = none) :
    t.erase k = t :=
  AList.ext (List.kerase_of_notMem_keys (AList.lookup_eq_none.1 h))

theorem perm_cons_erase {t : AList fun _ : κ => υ} {k : κ} {v : υ} (h : t.lookup k = some v) :
    t.entries.Perm (⟨k, v⟩ :: (t.erase k).entries) := by
  have hmem : k ∈ t.entries.keys := by
    rw [← AList.keys, ← AList.mem_keys, ← AList.lookup_isSome, h]
    rfl
  obtain ⟨v', l₁, l₂, hl₁, hl, hk⟩ := List.exists_of_kerase hmem
  obtain rfl : v' = v := by
    have hv : t.entries.dlookup k = some v := h
    rw [hl, List.dlookup_append, List.dlookup_eq_none.2 hl₁] at hv
    simpa using hv
  rw [show (t.erase k).entries = t.entries.kerase k from rfl, hk, hl]
  exact List.perm_middle

/-! ### The number of keys -/

section Keys

variable {t : AList fun _ : κ => υ} {k : κ} {v v' : υ}

theorem length_keys_erase (h : t.lookup k = some v) :
    (t.erase k).keys.length + 1 = t.keys.length := by
  have hmem : k ∈ t.keys := AList.mem_keys.mp (AList.lookup_isSome.mp (by simp [h]))
  have hpos := List.length_pos_of_mem hmem
  rw [AList.keys_erase, List.length_erase_of_mem hmem]
  omega

theorem length_keys_insert_new (v : υ) (h : t.lookup k = none) :
    (t.insert k v).keys.length = t.keys.length + 1 := by
  rw [AList.keys_insert, List.length_cons, ← AList.keys_erase, erase_of_lookup_eq_none h]

theorem length_keys_insert_old (v : υ) (h : t.lookup k = some v') :
    (t.insert k v).keys.length = t.keys.length := by
  rw [AList.keys_insert, List.length_cons, ← AList.keys_erase, length_keys_erase h]

end Keys

/-! ### Erasing and writing -/

theorem tableSum_erase (f : κ → υ → M) {t : AList fun _ : κ => υ} {k : κ} {v : υ}
    (h : t.lookup k = some v) : f k v + tableSum f (t.erase k) = tableSum f t := by
  have hsum := ((perm_cons_erase h).map fun e => f e.1 e.2).sum_eq
  rw [List.map_cons, List.sum_cons] at hsum
  exact hsum.symm

/-- **Writing an entry.** What was stored under the key is erased first. -/
theorem tableSum_insert (f : κ → υ → M) (t : AList fun _ : κ => υ) (k : κ) (v : υ) :
    tableSum f (t.insert k v) = f k v + tableSum f (t.erase k) := rfl

theorem tableSum_insert_new (f : κ → υ → M) {t : AList fun _ : κ => υ} {k : κ}
    (h : t.lookup k = none) (v : υ) : tableSum f (t.insert k v) = f k v + tableSum f t := by
  rw [tableSum_insert, erase_of_lookup_eq_none h]

omit [DecidableEq κ] in
theorem map_tableSum {N : Type} [AddCommMonoid N] (φ : M →+ N) (f : κ → υ → M)
    (t : AList fun _ : κ => υ) : φ (tableSum f t) = tableSum (fun k v => φ (f k v)) t := by
  rw [tableSum, map_list_sum, List.map_map]
  rfl

theorem tableSum_eq_sum_keys {f : κ → υ → M} {g : κ → M} {t : AList fun _ : κ => υ}
    (h : ∀ k v, t.lookup k = some v → f k v = g k) :
    tableSum f t = ∑ k ∈ t.keys.toFinset, g k := by
  rw [List.sum_toFinset _ t.keys_nodup, tableSum, AList.keys, List.keys, List.map_map]
  congr 1
  exact List.map_congr_left fun e he => h e.1 e.2 (AList.mem_lookup_iff.2 he)

end StreamEP

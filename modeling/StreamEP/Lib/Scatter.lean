import Mathlib.Data.List.Nodup
import Mathlib.Data.List.Range
import Mathlib.Data.List.Perm.Subperm
import Mathlib.Data.List.ProdSigma
import Mathlib.Data.List.NodupEquivFin
import Mathlib.Tactic.Ring

/-!
# Moving the entries of a list along a list of positions

A *position list* for `n` entries is a permutation of `0, …, n - 1`; entry `i` is to be moved to
place `pos[i]`. `scatter` performs the moves one assignment at a time, which is how an
imperative program does it. `invPos` is the same permutation read the other way: place `j` of the
result receives entry `(invPos n pos)[j]`.

Everything a caller needs is the gather form `getElem?_scatter_invPos`: after scattering, place
`j` holds the entry whose index stands at place `j` of `invPos`. It does not mention the element
type, so parallel lists scattered along one position list stay aligned.
-/

namespace StreamEP

namespace Scatter

variable {α β : Type*}

/-- Assign `xs[i]` to place `pos[i]` of `r`, for `i` from left to right. -/
def scatter (r : List α) (pos : List ℕ) (xs : List α) : List α :=
  (pos.zip xs).foldl (fun r p => r.set p.1 p.2) r

@[simp] theorem scatter_nil (r xs : List α) : scatter r [] xs = r := rfl

@[simp] theorem scatter_cons (r : List α) (p : ℕ) (pos : List ℕ) (x : α) (xs : List α) :
    scatter r (p :: pos) (x :: xs) = scatter (r.set p x) pos xs := rfl

@[simp] theorem length_scatter (r : List α) (pos : List ℕ) (xs : List α) :
    (scatter r pos xs).length = r.length := by
  induction pos generalizing r xs with
  | nil => rfl
  | cons p pos ih =>
    cases xs with
    | nil => rfl
    | cons x xs => rw [scatter_cons, ih, List.length_set]

theorem getElem?_scatter_of_notMem {r : List α} {pos : List ℕ} {xs : List α} {j : ℕ}
    (hj : j ∉ pos) : (scatter r pos xs)[j]? = r[j]? := by
  induction pos generalizing r xs with
  | nil => rfl
  | cons p pos ih =>
    cases xs with
    | nil => rfl
    | cons x xs =>
      rw [List.mem_cons, not_or] at hj
      rw [scatter_cons, ih hj.2, List.getElem?_set_ne (Ne.symm hj.1)]

/-- Entry `i` arrives at place `pos[i]`, provided no later entry is moved there. -/
theorem getElem?_scatter {r : List α} {pos : List ℕ} {xs : List α} (hnd : pos.Nodup)
    (hlen : pos.length = xs.length) {i p : ℕ} (hp : pos[i]? = some p) (hr : p < r.length) :
    (scatter r pos xs)[p]? = xs[i]? := by
  induction pos generalizing r xs i with
  | nil => simp at hp
  | cons q pos ih =>
    cases xs with
    | nil => simp at hlen
    | cons x xs =>
      rw [List.nodup_cons] at hnd
      rw [scatter_cons]
      cases i with
      | zero =>
        obtain rfl : q = p := by simpa using hp
        rw [getElem?_scatter_of_notMem hnd.1, List.getElem?_set_self hr]
        rfl
      | succ i =>
        exact ih hnd.2 (by simpa using hlen) (by simpa using hp) (by simpa using hr)

/-! ### Position lists -/

/-- The inverse of a position list: place `j` receives entry `(invPos n pos)[j]`. -/
def invPos (n : ℕ) (pos : List ℕ) : List ℕ :=
  scatter (List.replicate n 0) pos (List.range n)

@[simp] theorem length_invPos (n : ℕ) (pos : List ℕ) : (invPos n pos).length = n := by
  simp [invPos]

section Positions

variable {n : ℕ} {pos : List ℕ}

theorem pos_lt (h : pos.Perm (List.range n)) {i p : ℕ} (hp : pos[i]? = some p) : p < n :=
  List.mem_range.mp (h.mem_iff.mp (List.mem_of_getElem? hp))

theorem pos_length (h : pos.Perm (List.range n)) : pos.length = n := by
  simpa using h.length_eq

theorem pos_nodup (h : pos.Perm (List.range n)) : pos.Nodup :=
  h.nodup_iff.mpr List.nodup_range

theorem getElem?_invPos_of_pos (h : pos.Perm (List.range n)) {i p : ℕ}
    (hp : pos[i]? = some p) : (invPos n pos)[p]? = some i := by
  have hi : i < n := by
    rw [← pos_length h]
    exact (List.getElem?_eq_some_iff.mp hp).1
  rw [invPos, getElem?_scatter (pos_nodup h) (by simp [pos_length h]) hp
    (by simpa using pos_lt h hp), List.getElem?_range hi]

theorem exists_getElem?_invPos (h : pos.Perm (List.range n)) {j : ℕ} (hj : j < n) :
    ∃ i, (invPos n pos)[j]? = some i ∧ pos[i]? = some j := by
  obtain ⟨i, hi⟩ := List.mem_iff_getElem?.mp (h.mem_iff.mpr (List.mem_range.mpr hj))
  exact ⟨i, getElem?_invPos_of_pos h hi, hi⟩

theorem pos_of_getElem?_invPos (h : pos.Perm (List.range n)) {i j : ℕ}
    (hj : (invPos n pos)[j]? = some i) : pos[i]? = some j := by
  have hlt : j < n := by simpa using (List.getElem?_eq_some_iff.mp hj).1
  obtain ⟨i', hi', hp⟩ := exists_getElem?_invPos h hlt
  rw [hj] at hi'
  rw [Option.some.inj hi', hp]

theorem invPos_nodup (h : pos.Perm (List.range n)) : (invPos n pos).Nodup := by
  rw [List.nodup_iff_injective_get]
  intro a b hab
  have ha := pos_of_getElem?_invPos h (List.getElem?_eq_getElem a.isLt)
  have hb := pos_of_getElem?_invPos h (List.getElem?_eq_getElem b.isLt)
  simp only [List.get_eq_getElem] at hab
  rw [hab, hb] at ha
  exact Fin.ext (Option.some.inj ha).symm

theorem invPos_perm (h : pos.Perm (List.range n)) : (invPos n pos).Perm (List.range n) := by
  refine List.Subperm.perm_of_length_le ?_ (by simp)
  refine List.subperm_of_subset (invPos_nodup h) fun i hi => ?_
  obtain ⟨j, hj⟩ := List.mem_iff_getElem?.mp hi
  have hp := (List.getElem?_eq_some_iff.mp (pos_of_getElem?_invPos h hj)).1
  rw [pos_length h] at hp
  exact List.mem_range.mpr hp

theorem invPos_invPos (h : pos.Perm (List.range n)) : invPos n (invPos n pos) = pos := by
  refine List.ext_getElem? fun j => ?_
  by_cases hj : j < n
  · obtain ⟨p, hp⟩ : ∃ p, pos[j]? = some p :=
      ⟨_, List.getElem?_eq_getElem (by rw [pos_length h]; exact hj)⟩
    rw [hp, getElem?_invPos_of_pos (invPos_perm h) (getElem?_invPos_of_pos h hp)]
  · rw [List.getElem?_eq_none (by simpa using hj),
      List.getElem?_eq_none (by rw [pos_length h]; exact Nat.le_of_not_lt hj)]

/-- **Gather form.** Place `j` of the result holds the entry `invPos` names. -/
theorem getElem?_scatter_invPos (h : pos.Perm (List.range n)) {r xs : List α} (hr : r.length = n)
    (hx : xs.length = n) {i j : ℕ} (hj : (invPos n pos)[j]? = some i) :
    (scatter r pos xs)[j]? = xs[i]? := by
  have hlt : j < n := by simpa using (List.getElem?_eq_some_iff.mp hj).1
  exact getElem?_scatter (pos_nodup h) (by rw [pos_length h, hx]) (pos_of_getElem?_invPos h hj)
    (by rw [hr]; exact hlt)

theorem map_some_eq_map_range (xs : List α) :
    xs.map some = (List.range xs.length).map fun i => xs[i]? := by
  refine List.ext_getElem? fun j => ?_
  by_cases hj : j < xs.length
  · simp [hj]
  · rw [List.getElem?_eq_none (by simpa using hj), List.getElem?_eq_none (by simpa using hj)]

end Positions

/-! ### Tables of rows -/

theorem scatter_append (r : List α) {p₁ p₂ : List ℕ} {x₁ x₂ : List α}
    (h : p₁.length = x₁.length) :
    scatter r (p₁ ++ p₂) (x₁ ++ x₂) = scatter (scatter r p₁ x₁) p₂ x₂ := by
  rw [scatter, List.zip_append h, List.foldl_append]
  rfl

theorem scatter_range (a b xs : List α) (h : xs.length ≤ b.length) :
    scatter (a ++ b) ((List.range xs.length).map (a.length + ·)) xs =
      a ++ xs ++ b.drop xs.length := by
  induction xs generalizing a b with
  | nil => simp
  | cons x xs ih =>
    obtain ⟨y, b, rfl⟩ := List.exists_cons_of_length_pos (Nat.lt_of_lt_of_le (by simp) h)
    rw [List.length_cons, List.range_succ_eq_map, List.map_cons, scatter_cons, List.map_map,
      Nat.add_zero, List.set_append_right _ _ (Nat.le_refl _), Nat.sub_self, List.set_cons_zero]
    have hshift : (List.range xs.length).map ((a.length + ·) ∘ Nat.succ) =
        (List.range xs.length).map ((a ++ [x]).length + ·) := by
      refine List.map_congr_left fun j _ => ?_
      simp only [Function.comp, List.length_append, List.length_singleton]
      omega
    rw [hshift, ← List.singleton_append (l := b), ← List.append_assoc,
      ih (a ++ [x]) b (by simpa using h)]
    simp

/-- The places of the entries of `rows` in a table with rows of width `m`. -/
def rowPositions (m : ℕ) (rows : List (List α)) (start : ℕ) : List ℕ :=
  (rows.zipIdx start).flatMap fun x => (List.range x.1.length).map (x.2 * m + ·)

/-- A row filled up to width `m`. -/
def padRow (m : ℕ) (d : α) (row : List α) : List α := row ++ List.replicate (m - row.length) d

theorem length_padRow {m : ℕ} {row : List α} (h : row.length ≤ m) (d : α) :
    (padRow m d row).length = m := by
  simp only [padRow, List.length_append, List.length_replicate]
  omega

theorem scatter_rows {m : ℕ} {rows : List (List α)} (h : ∀ row ∈ rows, row.length ≤ m)
    (a : List α) {start : ℕ} (ha : a.length = start * m) (k : ℕ) (d : α) :
    scatter (a ++ List.replicate (rows.length * m + k) d) (rowPositions m rows start)
        rows.flatten =
      a ++ (rows.map (padRow m d)).flatten ++ List.replicate k d := by
  induction rows generalizing a start with
  | nil => simp [rowPositions]
  | cons row rows ih =>
    have hrow := h row (by simp)
    have hsplit : List.replicate ((row :: rows).length * m + k) d =
        List.replicate m d ++ List.replicate (rows.length * m + k) d := by
      rw [← List.replicate_add, List.length_cons]
      congr 1
      ring
    have hpos : rowPositions m (row :: rows) start =
        (List.range row.length).map (a.length + ·) ++ rowPositions m rows (start + 1) := by
      rw [rowPositions, List.zipIdx_cons, List.flatMap_cons, ha]
      rfl
    rw [hpos, List.flatten_cons, scatter_append _ (by simp), hsplit, ← List.append_assoc,
      List.append_assoc a, scatter_range a _ row (by simp; omega)]
    have hpad : a ++ row ++ (List.replicate m d ++ List.replicate (rows.length * m + k) d).drop
        row.length = (a ++ padRow m d row) ++ List.replicate (rows.length * m + k) d := by
      rw [List.drop_append_of_le_length (by simpa using hrow), List.drop_replicate, padRow]
      simp
    rw [hpad, ih (fun row hrow => h row (by simp [hrow])) _ (by
      rw [List.length_append, length_padRow hrow, ha]
      ring)]
    simp

theorem getElem?_flatten {m : ℕ} {rows : List (List α)} (h : ∀ row ∈ rows, row.length = m)
    {i j : ℕ} (hj : j < m) {row : List α} (hrow : rows[i]? = some row) :
    rows.flatten[i * m + j]? = row[j]? := by
  induction rows generalizing i with
  | nil => simp at hrow
  | cons r rows ih =>
    have hr := h r (by simp)
    rw [List.flatten_cons]
    cases i with
    | zero =>
      obtain rfl : r = row := by simpa using hrow
      rw [Nat.zero_mul, Nat.zero_add, List.getElem?_append_left (by omega)]
    | succ i =>
      rw [List.getElem?_append_right (by rw [hr, Nat.succ_mul]; omega), hr,
        show (i + 1) * m + j - m = i * m + j by rw [Nat.succ_mul]; omega]
      exact ih (fun row hrow => h row (by simp [hrow])) (by simpa using hrow)

/-- Cutting a table with rows of width `m` out of a buffer gives the rows back. -/
theorem map_range_rows {m : ℕ} {rows : List (List α)} (h : ∀ row ∈ rows, row.length = m)
    (rest : List α) :
    (List.range rows.length).map (fun i => ((rows.flatten ++ rest).drop (i * m)).take m) =
      rows := by
  induction rows with
  | nil => rfl
  | cons r rows ih =>
    have hr := h r (by simp)
    have hdrop : ∀ i, ((r :: rows).flatten ++ rest).drop ((i + 1) * m) =
        (rows.flatten ++ rest).drop (i * m) := by
      intro i
      rw [List.flatten_cons, List.append_assoc, Nat.succ_mul, Nat.add_comm, ← List.drop_drop,
        List.drop_left' hr]
    rw [List.length_cons, List.range_succ_eq_map, List.map_cons, List.map_map]
    congr 1
    · rw [Nat.zero_mul, List.drop_zero, List.flatten_cons, List.append_assoc, List.take_left' hr]
    · simp only [Function.comp_def, Nat.succ_eq_add_one, hdrop]
      exact ih fun row hrow => h row (List.mem_cons_of_mem _ hrow)

theorem range_mul (n m : ℕ) : List.range (n * m) =
    (List.range n).flatMap fun i => (List.range m).map fun j => i * m + j := by
  induction n with
  | zero => simp
  | succ n ih =>
    rw [Nat.succ_mul, List.range_add, ih, List.range_succ, List.flatMap_append]
    simp

theorem map_divMod_range (n : ℕ) {m : ℕ} (hm : 0 < m) :
    (List.range (n * m)).map (fun i => (i / m, i % m)) = List.range n ×ˢ List.range m := by
  rw [range_mul, List.map_flatMap]
  refine List.flatMap_congr fun i _ => ?_
  rw [List.map_map]
  refine List.map_congr_left fun j hj => ?_
  have hj' := List.mem_range.mp hj
  simp only [Function.comp_apply, Nat.mul_comm i m, Nat.mul_add_div hm, Nat.mul_add_mod,
    Nat.div_eq_of_lt hj', Nat.mod_eq_of_lt hj', Nat.add_zero]

end Scatter

end StreamEP

import Mathlib.Algebra.BigOperators.Group.List.Basic
import Mathlib.Algebra.Order.BigOperators.Group.List
import Mathlib.Algebra.Order.Field.Basic
import Mathlib.Algebra.Order.Floor.Ring
import Mathlib.Tactic.Ring

/-!
# Mixed-integer linear programs

A program has named variables with bounds, of which some are integral, rows that bound linear
expressions, and a linear objective that is minimised. Expressions are lists of variables with
coefficients, so that rows can be built piece by piece.

Two rules cover most encodings. A row over binary variables with the sum one picks exactly one of
them, and every other sum over the same variables is then the coefficient of the one that was
picked. And an integral variable with bounds is an integer between them, so that rows which bound
integers can be read as order facts.

Integral values are read off a solution by rounding, halves to the even side.
-/

namespace StreamEP

namespace Milp

/-! ### Expressions and rows -/

section Rows

variable {V K : Type} [CommRing K]

def value (x : V → K) (e : List (V × K)) : K := (e.map fun t => t.2 * x t.1).sum

def neg (e : List (V × K)) : List (V × K) := e.map fun t => (t.1, -t.2)

@[simp] theorem value_nil (x : V → K) : value x [] = 0 := rfl

@[simp] theorem value_cons (x : V → K) (t : V × K) (e : List (V × K)) :
    value x (t :: e) = t.2 * x t.1 + value x e := by
  rw [value, List.map_cons, List.sum_cons]
  rfl

@[simp] theorem value_append (x : V → K) (e e' : List (V × K)) :
    value x (e ++ e') = value x e + value x e' := by
  rw [value, List.map_append, List.sum_append]
  rfl

@[simp] theorem value_neg (x : V → K) (e : List (V × K)) : value x (neg e) = -value x e := by
  induction e with
  | nil => exact neg_zero.symm
  | cons t e ih =>
    rw [neg, List.map_cons, value_cons, ← neg, ih, value_cons]
    ring

theorem value_map {ι : Type} (x : V → K) (l : List ι) (v : ι → V) (coeff : ι → K) :
    value x (l.map fun k => (v k, coeff k)) = (l.map fun k => coeff k * x (v k)).sum := by
  rw [value, List.map_map]
  rfl

theorem value_flatMap {ι : Type} (x : V → K) (l : List ι) (e : ι → List (V × K)) :
    value x (l.flatMap e) = (l.map fun i => value x (e i)).sum := by
  induction l with
  | nil => rfl
  | cons i l ih => rw [List.flatMap_cons, value_append, ih, List.map_cons, List.sum_cons]

theorem value_congr {x y : V → K} {e : List (V × K)} (h : ∀ t ∈ e, x t.1 = y t.1) :
    value x e = value y e := by
  rw [value, value, List.map_congr_left fun t ht => by rw [h t ht]]

structure Row (V K : Type) where
  coeffs : List (V × K)
  lb : Option K
  ub : Option K

def Row.eq (coeffs : List (V × K)) (rhs : K) : Row V K := ⟨coeffs, some rhs, some rhs⟩

def Row.leq (coeffs : List (V × K)) (rhs : K) : Row V K := ⟨coeffs, none, some rhs⟩

def Row.geq (coeffs : List (V × K)) (rhs : K) : Row V K := ⟨coeffs, some rhs, none⟩

end Rows

theorem ite_zero_or_one {K : Type} [Zero K] [One K] (c : Prop) [Decidable c] :
    (if c then (1 : K) else 0) = 0 ∨ (if c then (1 : K) else 0) = 1 := by
  split_ifs
  · exact .inr rfl
  · exact .inl rfl

/-! ### Problems -/

structure Bound (K : Type) where
  lb : K
  ub : Option K
  integral : Bool

def Bound.binary {K : Type} [Zero K] [One K] : Bound K := ⟨0, some 1, true⟩

def Bound.int {K : Type} [IntCast K] (lb ub : ℤ) : Bound K := ⟨lb, some ub, true⟩

def Bound.nonneg {K : Type} [Zero K] : Bound K := ⟨0, none, false⟩

structure Problem (V K : Type) where
  vars : List (V × Bound K)
  rows : List (Row V K)
  objective : List (V × K)

section Order

variable {V K : Type} [CommRing K] [LinearOrder K]

def Row.Holds (x : V → K) (row : Row V K) : Prop :=
  (∀ b ∈ row.lb, b ≤ value x row.coeffs) ∧ ∀ b ∈ row.ub, value x row.coeffs ≤ b

/-- The value is between the bounds, and integral if it has to be. -/
def Bound.Holds (a : K) (bound : Bound K) : Prop :=
  bound.lb ≤ a ∧ (∀ b ∈ bound.ub, a ≤ b) ∧ (bound.integral = true → ∃ m : ℤ, a = m)

structure Problem.Feasible (P : Problem V K) (x : V → K) : Prop where
  vars : ∀ v ∈ P.vars, v.2.Holds (x v.1)
  rows : ∀ row ∈ P.rows, row.Holds x

/-- No feasible values have a smaller objective. -/
def Problem.IsOptimal (P : Problem V K) (x : V → K) : Prop :=
  P.Feasible x ∧ ∀ y, P.Feasible y → value x P.objective ≤ value y P.objective

/-- What an exact solver may return: a message if nothing is feasible, an optimum otherwise. -/
def Problem.IsResult (P : Problem V K) : Except String (V → K) → Prop
  | .error _ => ∀ x, ¬ P.Feasible x
  | .ok x => P.IsOptimal x

variable {P : Problem V K} {x : V → K} {e : List (V × K)} {rhs : K}

theorem Problem.feasible_iff :
    P.Feasible x ↔ (∀ v ∈ P.vars, v.2.Holds (x v.1)) ∧ ∀ row ∈ P.rows, row.Holds x :=
  ⟨fun h => ⟨h.vars, h.rows⟩, fun h => ⟨h.1, h.2⟩⟩

@[simp] theorem Row.holds_eq : (Row.eq e rhs).Holds x ↔ value x e = rhs := by
  rw [Row.Holds, Row.eq]
  simp only [Option.mem_some_iff, forall_eq']
  exact ⟨fun h => le_antisymm h.2 h.1, fun h => ⟨h.ge, h.le⟩⟩

@[simp] theorem Row.holds_leq : (Row.leq e rhs).Holds x ↔ value x e ≤ rhs := by
  rw [Row.Holds, Row.leq]
  simp

@[simp] theorem Row.holds_geq : (Row.geq e rhs).Holds x ↔ rhs ≤ value x e := by
  rw [Row.Holds, Row.geq]
  simp

@[simp] theorem Bound.holds_nonneg {a : K} : (Bound.nonneg : Bound K).Holds a ↔ 0 ≤ a := by
  rw [Bound.Holds, Bound.nonneg]
  simp

end Order

section Field

variable {K ι : Type} [Field K] [LinearOrder K] [IsStrictOrderedRing K]

/-- **An integral variable** is an integer between its bounds. -/
theorem Bound.holds_int {a : K} {lb ub : ℤ} :
    (Bound.int lb ub : Bound K).Holds a ↔ ∃ m : ℤ, a = m ∧ lb ≤ m ∧ m ≤ ub := by
  rw [Bound.Holds, Bound.int]
  simp only [Option.mem_some_iff, forall_eq', forall_const]
  constructor
  · rintro ⟨hlb, hub, m, rfl⟩
    exact ⟨m, rfl, Int.cast_le.mp hlb, Int.cast_le.mp hub⟩
  · rintro ⟨m, rfl, hlb, hub⟩
    exact ⟨Int.cast_le.mpr hlb, Int.cast_le.mpr hub, m, rfl⟩

@[simp] theorem Bound.holds_binary {a : K} : (Bound.binary : Bound K).Holds a ↔ a = 0 ∨ a = 1 := by
  have hint : (Bound.binary : Bound K) = Bound.int 0 1 := by
    rw [Bound.binary, Bound.int, Int.cast_zero, Int.cast_one]
  rw [hint, Bound.holds_int]
  constructor
  · rintro ⟨m, rfl, hlb, hub⟩
    obtain rfl | rfl : m = 0 ∨ m = 1 := by omega
    · exact .inl Int.cast_zero
    · exact .inr Int.cast_one
  · rintro (rfl | rfl)
    · exact ⟨0, Int.cast_zero.symm, by decide, by decide⟩
    · exact ⟨1, Int.cast_one.symm, by decide, by decide⟩

variable [DecidableEq ι] {l : List ι} {x : ι → K}

/-- **One of several**: binary values with the sum one. -/
theorem exists_oneHot (hnodup : l.Nodup) (hbinary : ∀ k ∈ l, x k = 0 ∨ x k = 1)
    (hsum : (l.map x).sum = 1) : ∃ k ∈ l, ∀ k' ∈ l, x k' = if k' = k then 1 else 0 := by
  induction l with
  | nil => exact absurd hsum.symm one_ne_zero
  | cons k l ih =>
    obtain ⟨hnotMem, hnodup⟩ := List.nodup_cons.mp hnodup
    obtain ⟨hk, hbinary⟩ := List.forall_mem_cons.mp hbinary
    rw [List.map_cons, List.sum_cons] at hsum
    rcases hk with hk | hk
    · rw [hk, zero_add] at hsum
      obtain ⟨k', hk', hone⟩ := ih hnodup hbinary hsum
      refine ⟨k', List.mem_cons_of_mem _ hk', List.forall_mem_cons.mpr ⟨?_, hone⟩⟩
      have hne : k ≠ k' := fun heq => hnotMem (heq ▸ hk')
      rw [hk, if_neg hne]
    · -- the others have the sum zero
      rw [hk, add_eq_left] at hsum
      have hnonneg : ∀ a ∈ l.map x, 0 ≤ a := by
        intro a ha
        obtain ⟨k', hk', rfl⟩ := List.mem_map.mp ha
        rcases hbinary k' hk' with h | h
        · exact h.ge
        · exact h ▸ zero_le_one
      refine ⟨k, List.mem_cons_self, List.forall_mem_cons.mpr ⟨by rw [hk, if_pos rfl], ?_⟩⟩
      intro k' hk'
      have hne : k' ≠ k := fun heq => hnotMem (heq ▸ hk')
      rw [if_neg hne]
      exact List.all_zero_of_le_zero_le_of_sum_eq_zero (fun a ha => hnonneg a ha) hsum
        (List.mem_map_of_mem hk')

omit [LinearOrder K] [IsStrictOrderedRing K] in
theorem sum_mul_oneHot (hnodup : l.Nodup) {k : ι} (hk : k ∈ l)
    (hx : ∀ k' ∈ l, x k' = if k' = k then 1 else 0) (f : ι → K) :
    (l.map fun k' => f k' * x k').sum = f k := by
  have hite : (l.map fun k' => f k' * x k') = l.map fun k' => if k' = k then f k' else 0 := by
    refine List.map_congr_left fun k' hk' => ?_
    rw [hx k' hk', mul_ite, mul_one, mul_zero]
  rw [hite]
  clear hite hx
  induction l with
  | nil => cases hk
  | cons a l ih =>
    obtain ⟨hnotMem, hnodup⟩ := List.nodup_cons.mp hnodup
    rw [List.map_cons, List.sum_cons]
    rcases List.mem_cons.mp hk with rfl | hk
    · have hzero : (l.map fun k' => if k' = k then f k' else 0).sum = 0 := by
        refine List.sum_eq_zero fun b hb => ?_
        obtain ⟨k', hk', rfl⟩ := List.mem_map.mp hb
        have hne : k' ≠ k := fun heq => hnotMem (heq ▸ hk')
        exact if_neg hne
      rw [if_pos rfl, hzero, add_zero]
    · have hne : a ≠ k := fun heq => hnotMem (heq ▸ hk)
      rw [if_neg hne, zero_add, ih hnodup hk]

/-! ### Reading values off -/

variable [FloorRing K]

/-- The nearest integer, and the even one of two. -/
def roundHalfEven (a : K) : ℤ :=
  if 2 * Int.fract a < 1 then ⌊a⌋
  else if 1 < 2 * Int.fract a then ⌊a⌋ + 1
  else if Even ⌊a⌋ then ⌊a⌋ else ⌊a⌋ + 1

/-- The first index whose value rounds to one, if any. -/
def pick (x : ι → K) (l : List ι) : Option ι := l.find? fun k => roundHalfEven (x k) = 1

omit [DecidableEq ι] in
@[simp] theorem roundHalfEven_intCast (m : ℤ) : roundHalfEven (m : K) = m := by
  rw [roundHalfEven, Int.fract_intCast, mul_zero, if_pos zero_lt_one, Int.floor_intCast]

theorem pick_oneHot {k : ι} (hk : k ∈ l) (hx : ∀ k' ∈ l, x k' = if k' = k then 1 else 0) :
    pick x l = some k := by
  have hround : ∀ k' ∈ l, roundHalfEven (x k') = if k' = k then 1 else 0 := by
    intro k' hk'
    rw [hx k' hk', ← Int.cast_one, ← Int.cast_zero, ← Int.cast_ite, roundHalfEven_intCast]
  cases hfound : pick x l with
  | none =>
    have hnot := List.find?_eq_none.mp hfound k hk
    rw [hround k hk, if_pos rfl] at hnot
    exact absurd (decide_eq_true rfl) hnot
  | some k' =>
    have hone := List.find?_some hfound
    rw [decide_eq_true_iff, hround k' (List.mem_of_find?_eq_some hfound)] at hone
    by_contra hne
    rw [if_neg fun heq => hne (congrArg some heq)] at hone
    exact absurd hone (by decide)

end Field

end Milp

end StreamEP

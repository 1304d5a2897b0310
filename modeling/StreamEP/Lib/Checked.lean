import Mathlib.Logic.Basic

/-!
# Assertions

Code that checks a condition and throws when it fails is modelled in `Except String`. `ensure` is
the check; the lemmas below take a successful computation apart without unfolding the monad.
-/

namespace StreamEP

variable {ε α β : Type}

/-- Check a condition; fail with `msg` when it does not hold. -/
def ensure (c : Prop) [Decidable c] (msg : ε) : Except ε Unit :=
  if c then .ok () else .error msg

@[simp] theorem ensure_of_true {c : Prop} [Decidable c] (h : c) (msg : ε) :
    ensure c msg = .ok () := if_pos h

@[simp] theorem ensure_of_false {c : Prop} [Decidable c] (h : ¬ c) (msg : ε) :
    ensure c msg = .error msg := if_neg h

@[simp] theorem ok_bind (a : α) (f : α → Except ε β) : (Except.ok a >>= f) = f a := rfl

@[simp] theorem error_bind (e : ε) (f : α → Except ε β) : (Except.error e >>= f) = .error e := rfl

theorem bind_eq_ok {x : Except ε α} {f : α → Except ε β} {b : β} :
    (x >>= f) = .ok b ↔ ∃ a, x = .ok a ∧ f a = .ok b := by
  cases x <;> simp

theorem map_eq_ok {x : Except ε α} {f : α → β} {b : β} :
    f <$> x = .ok b ↔ ∃ a, x = .ok a ∧ f a = b := by
  cases x <;> simp [Functor.map, Except.map]

/-- A guarded computation succeeds when the guard holds and the rest succeeds. -/
theorem ensure_bind_eq_ok {c : Prop} [Decidable c] {msg : ε} {f : Unit → Except ε β} {b : β} :
    (ensure c msg >>= f) = .ok b ↔ c ∧ f () = .ok b := by
  by_cases h : c <;> simp [h]

theorem mapM_eq_ok {f : α → Except ε β} {g : α → β} {l : List α}
    (h : ∀ x ∈ l, f x = .ok (g x)) : l.mapM f = .ok (l.map g) := by
  induction l with
  | nil => rfl
  | cons x l ih =>
    rw [List.mapM_cons, h x (by simp), ih fun y hy => h y (by simp [hy])]
    rfl

theorem getElem?_of_mapM_eq_ok {f : α → Except ε β} {l : List α} {l' : List β}
    (h : l.mapM f = .ok l') :
    l'.length = l.length ∧ ∀ (k : Nat) (x : α), l[k]? = some x →
      ∃ y, f x = .ok y ∧ l'[k]? = some y := by
  induction l generalizing l' with
  | nil =>
    obtain rfl := Except.ok.inj h
    exact ⟨rfl, fun k x hk => by simp at hk⟩
  | cons x l ih =>
    rw [List.mapM_cons] at h
    obtain ⟨y, hy, h⟩ := bind_eq_ok.mp h
    obtain ⟨ys, hys, h⟩ := bind_eq_ok.mp h
    obtain rfl := Except.ok.inj h
    obtain ⟨hlen, hget⟩ := ih hys
    refine ⟨congrArg Nat.succ hlen, fun k z hk => ?_⟩
    cases k with
    | zero =>
      obtain rfl := Option.some.inj hk
      exact ⟨y, hy, rfl⟩
    | succ k => exact hget k z hk

theorem exists_mapM_eq_ok {f : α → Except ε β} {l : List α} (h : ∀ x ∈ l, ∃ y, f x = .ok y) :
    ∃ l', l.mapM f = .ok l' := by
  induction l with
  | nil => exact ⟨[], rfl⟩
  | cons x l ih =>
    obtain ⟨y, hy⟩ := h x List.mem_cons_self
    obtain ⟨ys, hys⟩ := ih fun z hz => h z (List.mem_cons_of_mem _ hz)
    exact ⟨y :: ys, by rw [List.mapM_cons, hy, ok_bind, hys, ok_bind]; rfl⟩

/-- Every call of a `mapM` that succeeds does, and its values are those of the calls. -/
theorem mem_of_mapM_eq_ok {f : α → Except ε β} {l : List α} {l' : List β}
    (h : l.mapM f = .ok l') :
    (∀ x ∈ l, ∃ y ∈ l', f x = .ok y) ∧ ∀ y ∈ l', ∃ x ∈ l, f x = .ok y := by
  obtain ⟨hlen, hget⟩ := getElem?_of_mapM_eq_ok h
  constructor
  · intro x hx
    obtain ⟨k, hk⟩ := List.mem_iff_getElem?.mp hx
    obtain ⟨y, hy, hk'⟩ := hget k x hk
    exact ⟨y, List.mem_of_getElem? hk', hy⟩
  · intro y hy
    obtain ⟨k, hk, rfl⟩ := List.mem_iff_getElem.mp hy
    have hlt : k < l.length := hlen ▸ hk
    obtain ⟨z, hz, hk'⟩ := hget k l[k] (List.getElem?_eq_getElem hlt)
    rw [List.getElem?_eq_getElem hk] at hk'
    exact ⟨l[k], List.getElem_mem hlt, (Option.some.inj hk').symm ▸ hz⟩

end StreamEP

import Mathlib.Algebra.Ring.Nat
import Mathlib.Data.Nat.Notation
import Mathlib.Logic.Basic

/-!
# Computations that keep what they did before they failed

Code that changes a shared object and throws leaves the object as it is at the throw. `Except`
over a state would forget that, so the exception sits on top of the state here: a computation
ends with a result or a message, and with a state in both cases.

`Returns` is what proofs talk about. It is taken apart along the program by the lemmas below, and
loops over an index have an invariant rule.
-/

namespace StreamEP

/-- A computation on a state `σ` that may fail. -/
abbrev Attempt (σ α : Type) := ExceptT String (StateM σ) α

namespace Attempt

variable {σ α β : Type}

def exec (x : Attempt σ α) (s : σ) : Except String α × σ := StateT.run (ExceptT.run x) s

/-- Fail with `msg` when a condition does not hold. -/
def check (c : Prop) [Decidable c] (msg : String) : Attempt σ Unit :=
  if c then pure () else throw msg

/-- Read a list; fail past its end. -/
def nth (l : List α) (i : ℕ) : Attempt σ α :=
  match l[i]? with
  | some a => pure a
  | none => throw "index out of range"

/-- Run a computation on the part of the state that `proj` reads and `put` writes. -/
def zoom {τ : Type} (proj : σ → τ) (put : τ → σ → σ) (x : Attempt τ α) : Attempt σ α :=
  ExceptT.mk fun s => ((x.exec (proj s)).1, put (x.exec (proj s)).2 s)

def Returns (x : Attempt σ α) (s : σ) (a : α) (s' : σ) : Prop := x.exec s = (.ok a, s')

@[simp] theorem exec_pure (a : α) (s : σ) : (pure a : Attempt σ α).exec s = (.ok a, s) := rfl

@[simp] theorem exec_throw (e : String) (s : σ) :
    (throw e : Attempt σ α).exec s = (.error e, s) := rfl

@[simp] theorem exec_get (s : σ) : (get : Attempt σ σ).exec s = (.ok s, s) := rfl

@[simp] theorem exec_set (t s : σ) : (set t : Attempt σ PUnit).exec s = (.ok ⟨⟩, t) := rfl

@[simp] theorem exec_modify (f : σ → σ) (s : σ) :
    (modify f : Attempt σ PUnit).exec s = (.ok ⟨⟩, f s) := rfl

theorem exec_bind (x : Attempt σ α) (f : α → Attempt σ β) (s : σ) :
    (x >>= f).exec s =
      match x.exec s with
      | (.ok a, t) => (f a).exec t
      | (.error e, t) => (.error e, t) := by
  show StateT.run (ExceptT.run (ExceptT.bind x f)) s = _
  simp only [ExceptT.bind, ExceptT.run, ExceptT.mk, exec, StateT.run_bind]
  rcases h : StateT.run x s with ⟨r, t⟩
  rcases r with e | a <;> rfl

theorem exec_check (c : Prop) [Decidable c] (msg : String) (s : σ) :
    (check c msg : Attempt σ Unit).exec s = (if c then .ok () else .error msg, s) := by
  unfold check
  split <;> rfl

/-! ### Success -/

@[simp] theorem returns_pure {a b : α} {s s' : σ} :
    (pure a : Attempt σ α).Returns s b s' ↔ a = b ∧ s = s' := by
  simp [Returns]

@[simp] theorem not_returns_throw {e : String} {a : α} {s s' : σ} :
    ¬ (throw e : Attempt σ α).Returns s a s' := by
  simp [Returns]

@[simp] theorem returns_get {s t s' : σ} :
    (get : Attempt σ σ).Returns s t s' ↔ s = t ∧ s = s' := by
  simp [Returns]

@[simp] theorem returns_set {t s s' : σ} {u : PUnit} :
    (set t : Attempt σ PUnit).Returns s u s' ↔ t = s' := by
  simp [Returns]

@[simp] theorem returns_modify {f : σ → σ} {s s' : σ} {u : PUnit} :
    (modify f : Attempt σ PUnit).Returns s u s' ↔ f s = s' := by
  simp [Returns]

@[simp] theorem returns_check {c : Prop} [Decidable c] {msg : String} {s s' : σ} {u : Unit} :
    (check c msg : Attempt σ Unit).Returns s u s' ↔ c ∧ s = s' := by
  by_cases h : c <;> simp [Returns, exec_check, h]

@[simp] theorem returns_nth {l : List α} {i : ℕ} {a : α} {s s' : σ} :
    (nth l i : Attempt σ α).Returns s a s' ↔ l[i]? = some a ∧ s = s' := by
  unfold nth
  split <;> simp_all

theorem returns_zoom {τ : Type} {proj : σ → τ} {put : τ → σ → σ} {x : Attempt τ α} {s s' : σ}
    {a : α} : (zoom proj put x).Returns s a s' ↔ ∃ t, x.Returns (proj s) a t ∧ put t s = s' := by
  show ((x.exec (proj s)).1, put (x.exec (proj s)).2 s) = (.ok a, s') ↔ ∃ t, x.exec _ = _ ∧ _
  rcases x.exec (proj s) with ⟨r, t⟩
  simp [and_assoc]

theorem returns_bind {x : Attempt σ α} {f : α → Attempt σ β} {s s' : σ} {b : β} :
    (x >>= f).Returns s b s' ↔ ∃ a t, x.Returns s a t ∧ (f a).Returns t b s' := by
  unfold Returns
  rw [exec_bind]
  rcases h : x.exec s with ⟨e | a, t⟩
  · simp
  · constructor
    · exact fun hf => ⟨a, t, rfl, hf⟩
    · rintro ⟨a', t', hx, hf⟩
      obtain ⟨ha, rfl⟩ := Prod.mk.inj hx
      obtain rfl := Except.ok.inj ha
      exact hf

@[simp] theorem returns_get_bind {f : σ → Attempt σ β} {s s' : σ} {b : β} :
    (get >>= f).Returns s b s' ↔ (f s).Returns s b s' := by
  rw [Returns, exec_bind, exec_get, Returns]

@[simp] theorem returns_set_bind {t : σ} {f : PUnit → Attempt σ β} {s s' : σ} {b : β} :
    (set t >>= f).Returns s b s' ↔ (f ⟨⟩).Returns t b s' := by
  rw [Returns, exec_bind, exec_set, Returns]

@[simp] theorem returns_check_bind {c : Prop} [Decidable c] {msg : String}
    {f : Unit → Attempt σ β} {s s' : σ} {b : β} :
    (check c msg >>= f).Returns s b s' ↔ c ∧ (f ()).Returns s b s' := by
  rw [Returns, exec_bind, exec_check]
  by_cases h : c <;> simp [h, Returns]

@[simp] theorem returns_nth_bind {l : List α} {i : ℕ} {f : α → Attempt σ β} {s s' : σ} {b : β} :
    (nth l i >>= f).Returns s b s' ↔ ∃ a, l[i]? = some a ∧ (f a).Returns s b s' := by
  simp [returns_bind, and_assoc]

theorem Returns.unique {x : Attempt σ α} {s s₁ s₂ : σ} {a₁ a₂ : α} (h₁ : x.Returns s a₁ s₁)
    (h₂ : x.Returns s a₂ s₂) : a₁ = a₂ ∧ s₁ = s₂ := by
  have h := h₁.symm.trans h₂
  simpa using h

/-! ### Loops -/

@[simp] theorem returns_forM_nil {f : α → Attempt σ PUnit} {s s' : σ} {u : PUnit} :
    (([] : List α).forM f).Returns s u s' ↔ s = s' := by
  simp [List.forM]

theorem returns_forM_cons {f : α → Attempt σ PUnit} {x : α} {l : List α} {s s' : σ} {u : PUnit} :
    ((x :: l).forM f).Returns s u s' ↔ ∃ t, (f x).Returns s ⟨⟩ t ∧ (l.forM f).Returns t u s' := by
  show (f x >>= fun _ => l.forM f).Returns s u s' ↔ _
  rw [returns_bind]
  constructor
  · rintro ⟨_, t, hx, hl⟩
    exact ⟨t, hx, hl⟩
  · rintro ⟨t, hx, hl⟩
    exact ⟨⟨⟩, t, hx, hl⟩

theorem returns_forM_append {f : α → Attempt σ PUnit} {l₁ l₂ : List α} {s s' : σ} {u : PUnit} :
    ((l₁ ++ l₂).forM f).Returns s u s' ↔
      ∃ t, (l₁.forM f).Returns s ⟨⟩ t ∧ (l₂.forM f).Returns t u s' := by
  induction l₁ generalizing s with
  | nil => simp
  | cons x l ih =>
    simp only [List.cons_append, returns_forM_cons, ih]
    constructor
    · rintro ⟨t, hx, t', hl, hr⟩
      exact ⟨t', ⟨t, hx, hl⟩, hr⟩
    · rintro ⟨t', ⟨t, hx, hl⟩, hr⟩
      exact ⟨t, hx, t', hl, hr⟩

theorem Returns.forM_range {f : ℕ → Attempt σ PUnit} {P : ℕ → σ → Prop} {n : ℕ} {s s' : σ}
    {u : PUnit} (h : ((List.range n).forM f).Returns s u s') (hinit : P 0 s)
    (hstep : ∀ i < n, ∀ t t', P i t → (f i).Returns t ⟨⟩ t' → P (i + 1) t') : P n s' := by
  induction n generalizing s' with
  | zero =>
    simp only [List.range_zero, returns_forM_nil] at h
    exact h ▸ hinit
  | succ n ih =>
    rw [List.range_succ, returns_forM_append] at h
    obtain ⟨t, hn, hlast⟩ := h
    obtain ⟨t', hfn, hnil⟩ := returns_forM_cons.1 hlast
    rw [returns_forM_nil] at hnil
    subst hnil
    exact hstep n (Nat.lt_succ_self n) t t'
      (ih hn fun i hi => hstep i (Nat.lt_succ_of_lt hi)) hfn

theorem notMem_take_of_nodup {κ : Type} {keys : List κ} (hnodup : keys.Nodup) {i q : ℕ} {k : κ}
    (hk : keys[i]? = some k) (hq : q ≤ i) : k ∉ keys.take q := by
  intro hmem
  obtain ⟨j, hj⟩ := List.mem_iff_getElem?.1 hmem
  obtain ⟨hjlt, -⟩ := List.getElem?_eq_some_iff.1 hj
  rw [List.length_take, Nat.lt_min] at hjlt
  rw [List.getElem?_take_of_lt hjlt.1, ← hk] at hj
  have hji := (List.getElem?_inj hjlt.2 hnodup).1 hj
  omega

/-- **A loop over distinct keys.** When the round of a key only changes what is stored under that
key, every key ends with what its own round made of its first value. -/
theorem Returns.forM_keys {κ υ : Type} {f : ℕ → Attempt σ PUnit} {keys : List κ}
    {L : σ → κ → υ} {I : σ → Prop} {R : ℕ → υ → υ → Prop} {s s' : σ} {u : PUnit}
    (h : ((List.range keys.length).forM f).Returns s u s') (hnodup : keys.Nodup) (hinit : I s)
    (hstep : ∀ i k t t', keys[i]? = some k → I t → (f i).Returns t ⟨⟩ t' →
      I t' ∧ R i (L t k) (L t' k) ∧ ∀ k' ≠ k, L t' k' = L t k') :
    I s' ∧ (∀ i k, keys[i]? = some k → R i (L s k) (L s' k)) ∧
      ∀ k ∉ keys, L s' k = L s k := by
  suffices hP : I s' ∧
      (∀ j < keys.length, ∀ k, keys[j]? = some k → R j (L s k) (L s' k)) ∧
      ∀ k, (∀ j < keys.length, keys[j]? ≠ some k) → L s' k = L s k by
    refine ⟨hP.1, fun i k hk => hP.2.1 i (List.getElem?_eq_some_iff.1 hk).1 k hk, fun k hk => ?_⟩
    exact hP.2.2 k fun j _ hj => hk (List.mem_of_getElem? hj)
  refine h.forM_range (P := fun i t => I t ∧
      (∀ j < i, ∀ k, keys[j]? = some k → R j (L s k) (L t k)) ∧
      ∀ k, (∀ j < i, keys[j]? ≠ some k) → L t k = L s k)
    ⟨hinit, by simp, by simp⟩ ?_
  rintro i hi t t' ⟨hinv, hdone, hrest⟩ hf
  obtain ⟨hinv', hR, hother⟩ := hstep i keys[i] t t' (List.getElem?_eq_getElem hi) hinv hf
  -- the key of this round was not the key of an earlier one
  have hne : ∀ j < i, ∀ k, keys[j]? = some k → k ≠ keys[i] := by
    rintro j hj k hk rfl
    exact Nat.ne_of_lt hj ((List.getElem?_inj (Nat.lt_trans hj hi) hnodup).1
      (hk.trans (List.getElem?_eq_getElem hi).symm))
  refine ⟨hinv', fun j hj k hk => ?_, fun k hk => ?_⟩
  · rcases Nat.lt_succ_iff_lt_or_eq.1 hj with hj | rfl
    · rw [hother k (hne j hj k hk)]
      exact hdone j hj k hk
    · obtain rfl : keys[j] = k := by simpa [List.getElem?_eq_getElem hi] using hk
      rw [← hrest keys[j] fun j' hj' h' => hne j' hj' _ h' rfl]
      exact hR
  · rw [hother k, hrest k fun j hj => hk j (Nat.lt_succ_of_lt hj)]
    rintro rfl
    exact hk i (Nat.lt_succ_self i) (List.getElem?_eq_getElem hi)

/-- A loop succeeds when every round succeeds and keeps what the next one needs. -/
theorem exists_returns_forM_range {f : ℕ → Attempt σ PUnit} {P : ℕ → σ → Prop} {n : ℕ} {s : σ}
    (hinit : P 0 s)
    (hstep : ∀ i < n, ∀ t, P i t → ∃ t', (f i).Returns t ⟨⟩ t' ∧ P (i + 1) t') :
    ∃ s', ((List.range n).forM f).Returns s ⟨⟩ s' ∧ P n s' := by
  induction n with
  | zero => exact ⟨s, by simp, hinit⟩
  | succ n ih =>
    obtain ⟨t, hn, hP⟩ := ih fun i hi => hstep i (Nat.lt_succ_of_lt hi)
    obtain ⟨t', hfn, hP'⟩ := hstep n (Nat.lt_succ_self n) t hP
    refine ⟨t', ?_, hP'⟩
    rw [List.range_succ, returns_forM_append]
    exact ⟨t, hn, returns_forM_cons.2 ⟨t', hfn, returns_forM_nil.2 rfl⟩⟩

/-- **A loop that uses up a supply.** When round `i` needs `c i` of what `F` counts, and fails
when it needs any and fewer than `k` would remain, the loop succeeds when the total cost leaves
`k`, or is zero. -/
theorem exists_returns_forM_range_iff {f : ℕ → Attempt σ PUnit} {I : ℕ → σ → Prop} {F : σ → ℕ}
    {c : ℕ → ℕ} {k n : ℕ} {s : σ} (hinit : I 0 s)
    (hround : ∀ i < n, ∀ t, I i t →
      ((∃ t', (f i).Returns t ⟨⟩ t') ↔ c i = 0 ∨ c i + k ≤ F t))
    (hkeep : ∀ i < n, ∀ t t', I i t → (f i).Returns t ⟨⟩ t' →
      I (i + 1) t' ∧ F t' + c i = F t) :
    ((∃ s', ((List.range n).forM f).Returns s ⟨⟩ s') ↔
        ((List.range n).map c).sum = 0 ∨ ((List.range n).map c).sum + k ≤ F s) ∧
      ∀ s', ((List.range n).forM f).Returns s ⟨⟩ s' →
        I n s' ∧ F s' + ((List.range n).map c).sum = F s := by
  induction n with
  | zero =>
    refine ⟨by simp, fun s' hs' => ?_⟩
    obtain rfl := returns_forM_nil.1 hs'
    exact ⟨hinit, rfl⟩
  | succ n ih =>
    obtain ⟨hiff, hpost⟩ := ih (fun i hi => hround i (Nat.lt_succ_of_lt hi))
      fun i hi => hkeep i (Nat.lt_succ_of_lt hi)
    have hsplit : ∀ s', ((List.range (n + 1)).forM f).Returns s ⟨⟩ s' ↔
        ∃ t, ((List.range n).forM f).Returns s ⟨⟩ t ∧ (f n).Returns t ⟨⟩ s' := by
      intro s'
      simp only [List.range_succ, returns_forM_append, returns_forM_cons, returns_forM_nil,
        exists_eq_right]
    have hsum : ((List.range (n + 1)).map c).sum = ((List.range n).map c).sum + c n := by
      simp [List.range_succ]
    refine ⟨?_, fun s' hs' => ?_⟩
    · rw [hsum]
      constructor
      · rintro ⟨s', hs'⟩
        obtain ⟨t, ht, hlast⟩ := (hsplit s').1 hs'
        obtain ⟨hI, hfree⟩ := hpost t ht
        have hfirst := hiff.1 ⟨t, ht⟩
        have hround := (hround n (Nat.lt_succ_self n) t hI).1 ⟨s', hlast⟩
        omega
      · intro hfits
        obtain ⟨t, ht⟩ := hiff.2 (by omega)
        obtain ⟨hI, hfree⟩ := hpost t ht
        obtain ⟨s', hlast⟩ := (hround n (Nat.lt_succ_self n) t hI).2 (by omega)
        exact ⟨s', (hsplit s').2 ⟨t, ht, hlast⟩⟩
    · obtain ⟨t, ht, hlast⟩ := (hsplit s').1 hs'
      obtain ⟨hI, hfree⟩ := hpost t ht
      obtain ⟨hI', hfree'⟩ := hkeep n (Nat.lt_succ_self n) t s' hI hlast
      exact ⟨hI', by omega⟩

/-! ### Failure -/

/-- When `x` fails in `s`, the state is `s` again. -/
def Traceless (x : Attempt σ α) (s : σ) : Prop := ∀ e t, x.exec s = (.error e, t) → t = s

theorem Returns.traceless {x : Attempt σ α} {s t : σ} {a : α} (h : x.Returns s a t) :
    x.Traceless s := by
  intro e t' herr
  rw [Returns, herr] at h
  cases h

theorem traceless_throw (e : String) (s : σ) : (throw e : Attempt σ α).Traceless s := by
  intro e' t h
  exact (congrArg Prod.snd h).symm

theorem traceless_get_bind {f : σ → Attempt σ β} {s : σ} (h : (f s).Traceless s) :
    (get >>= f).Traceless s := by
  intro e t herr
  rw [exec_bind, exec_get] at herr
  exact h e t herr

theorem traceless_check_bind {c : Prop} [Decidable c] {msg : String} {f : Unit → Attempt σ β}
    {s : σ} (h : c → (f ()).Traceless s) : (check c msg >>= f).Traceless s := by
  intro e t herr
  rw [exec_bind, exec_check] at herr
  by_cases hc : c
  · rw [if_pos hc] at herr
    exact h hc e t herr
  · rw [if_neg hc] at herr
    exact (congrArg Prod.snd herr).symm

theorem traceless_nth_bind {l : List α} {i : ℕ} {f : α → Attempt σ β} {s : σ}
    (h : ∀ a, l[i]? = some a → (f a).Traceless s) : (nth l i >>= f).Traceless s := by
  intro e t herr
  rw [exec_bind, nth] at herr
  cases hi : l[i]? with
  | none =>
    rw [hi] at herr
    exact (congrArg Prod.snd herr).symm
  | some a =>
    rw [hi] at herr
    exact h a hi e t herr

/-- The first round that does anything fails. -/
def FirstFails (f : α → Attempt σ PUnit) (l : List α) (s : σ) : Prop :=
  ∃ before x after, l = before ++ x :: after ∧ (∀ y ∈ before, (f y).Returns s ⟨⟩ s) ∧
    ∀ t, ¬(f x).Returns s ⟨⟩ t

theorem firstFails_cons {f : α → Attempt σ PUnit} {x : α} {l : List α} {s : σ} :
    FirstFails f (x :: l) s ↔
      (∀ t, ¬(f x).Returns s ⟨⟩ t) ∨ (f x).Returns s ⟨⟩ s ∧ FirstFails f l s := by
  constructor
  · rintro ⟨before, y, after, hl, hbefore, hy⟩
    cases before with
    | nil =>
      obtain ⟨rfl, rfl⟩ := List.cons.inj hl
      exact .inl hy
    | cons z before =>
      obtain ⟨rfl, rfl⟩ := List.cons.inj hl
      exact .inr ⟨hbefore x (by simp), before, y, after, rfl,
        fun w hw => hbefore w (List.mem_cons_of_mem _ hw), hy⟩
  · rintro (hx | ⟨hx, before, y, after, rfl, hbefore, hy⟩)
    · exact ⟨[], x, l, rfl, by simp, hx⟩
    · refine ⟨x :: before, y, after, rfl, fun w hw => ?_, hy⟩
      rcases List.mem_cons.mp hw with rfl | hw
      · exact hx
      · exact hbefore w hw

theorem exec_forM_cons_error {f : α → Attempt σ PUnit} {x : α} {l : List α} {s t : σ}
    {e : String} : ((x :: l).forM f).exec s = (.error e, t) ↔
      (f x).exec s = (.error e, t) ∨
        ∃ t', (f x).Returns s ⟨⟩ t' ∧ (l.forM f).exec t' = (.error e, t) := by
  show (f x >>= fun _ => l.forM f).exec s = _ ↔ _
  rw [exec_bind]
  unfold Returns
  rcases (f x).exec s with ⟨e' | u, t'⟩
  · simp
  · simp

/-- A loop that failed has not gone back: its rounds lower `μ` or do nothing. -/
theorem le_of_forM_error {f : α → Attempt σ PUnit} {I : σ → Prop} {μ : σ → ℤ}
    (hf : ∀ x s, I s → (f x).Traceless s)
    (hμ : ∀ x s t, I s → (f x).Returns s ⟨⟩ t → I t ∧ (t = s ∨ μ t < μ s)) {l : List α} {s t : σ}
    {e : String} (hs : I s) (h : (l.forM f).exec s = (.error e, t)) : μ t ≤ μ s := by
  induction l generalizing s with
  | nil => cases h
  | cons x l ih =>
    rcases exec_forM_cons_error.mp h with hx | ⟨t', hx, hl⟩
    · exact Int.le_of_eq (congrArg μ (hf x s hs e t hx))
    · obtain ⟨ht', hcase⟩ := hμ x s t' hs hx
      have hle := ih ht' hl
      rcases hcase with rfl | hlt
      · exact hle
      · omega

/-- **A loop that failed left no trace** exactly when its first round that does anything is the
one that failed. Rounds are traceless, and lower `μ` or do nothing. -/
theorem traceless_forM_iff {f : α → Attempt σ PUnit} {I : σ → Prop} {μ : σ → ℤ}
    (hf : ∀ x s, I s → (f x).Traceless s)
    (hμ : ∀ x s t, I s → (f x).Returns s ⟨⟩ t → I t ∧ (t = s ∨ μ t < μ s)) {l : List α} {s t : σ}
    {e : String} (hs : I s) (h : (l.forM f).exec s = (.error e, t)) :
    t = s ↔ FirstFails f l s := by
  induction l with
  | nil => cases h
  | cons x l ih =>
    rw [firstFails_cons]
    rcases exec_forM_cons_error.mp h with hx | ⟨t', hx, hl⟩
    · have hnot : ∀ t, ¬(f x).Returns s ⟨⟩ t := by
        intro t' hret
        rw [Returns, hx] at hret
        cases hret
      exact ⟨fun _ => .inl hnot, fun _ => hf x s hs e t hx⟩
    · have hsome : ¬∀ t, ¬(f x).Returns s ⟨⟩ t := fun hnot => hnot t' hx
      obtain ⟨ht', rfl | hlt⟩ := hμ x s t' hs hx
      · rw [ih hl]
        simp [hsome, hx]
      · have hle := le_of_forM_error hf hμ ht' hl
        refine ⟨fun heq => ?_, fun hfirst => ?_⟩
        · rw [heq] at hle
          omega
        · rcases hfirst with hnot | ⟨hquiet, -⟩
          · exact absurd hnot hsome
          · rw [(hquiet.unique hx).2] at hlt
            omega

end Attempt

end StreamEP

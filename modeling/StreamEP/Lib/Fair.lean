import Mathlib.Order.Nat

/-!
# Progress in fair runs

A run is an infinite sequence of states. An action is weakly fair in it if again and again it is
taken or impossible. What a fair action makes happen is proved with a rank: while the goal is not
reached the action stays possible, no step raises the rank, and the action lowers it.
-/

namespace StreamEP

variable {S : Type} {σ : ℕ → S} {P Q R : S → Prop}

/-- Some step of the action is possible. -/
def Enabled (A : S → S → Prop) (s : S) : Prop := ∃ s', A s s'

/-- The action is taken or impossible again and again. -/
def WeaklyFair (A : S → S → Prop) (σ : ℕ → S) : Prop :=
  ∀ t, ∃ t', t ≤ t' ∧ (A (σ t') (σ (t' + 1)) ∨ ¬Enabled A (σ t'))

/-- Whenever `P` holds, `Q` holds then or later. -/
def LeadsTo (σ : ℕ → S) (P Q : S → Prop) : Prop :=
  ∀ t, P (σ t) → ∃ t', t ≤ t' ∧ Q (σ t')

theorem LeadsTo.trans (h : LeadsTo σ P Q) (h' : LeadsTo σ Q R) : LeadsTo σ P R := by
  intro t ht
  obtain ⟨t₁, hle₁, ht₁⟩ := h t ht
  obtain ⟨t₂, hle₂, ht₂⟩ := h' t₁ ht₁
  exact ⟨t₂, hle₁.trans hle₂, ht₂⟩

/-- What every step keeps until `Q` holds. -/
theorem stays_or_reaches (hkeep : ∀ t, P (σ t) → Q (σ (t + 1)) ∨ P (σ (t + 1))) {t t' : ℕ}
    (hle : t ≤ t') (ht : P (σ t)) : P (σ t') ∨ ∃ u, t ≤ u ∧ Q (σ u) := by
  induction t', hle using Nat.le_induction with
  | base => exact .inl ht
  | succ u hu ih =>
    rcases ih with hP | hQ
    · rcases hkeep u hP with hQ | hP'
      · exact .inr ⟨u + 1, Nat.le_succ_of_le hu, hQ⟩
      · exact .inl hP'
    · exact .inr hQ

theorem LeadsTo.of_rank (rank : S → ℕ)
    (h : ∀ n, LeadsTo σ (fun s => P s ∧ rank s = n) fun s => Q s ∨ P s ∧ rank s < n) :
    LeadsTo σ P Q := by
  suffices hrank : ∀ n t, P (σ t) ∧ rank (σ t) = n → ∃ t', t ≤ t' ∧ Q (σ t') by
    exact fun t ht => hrank _ t ⟨ht, rfl⟩
  intro n
  induction n using Nat.strong_induction_on with
  | h n ih =>
    intro t ht
    obtain ⟨u, hle, hQ | ⟨hP, hlt⟩⟩ := h n t ht
    · exact ⟨u, hle, hQ⟩
    · obtain ⟨t', hle', hQ⟩ := ih _ hlt u ⟨hP, rfl⟩
      exact ⟨t', hle.trans hle', hQ⟩

theorem WeaklyFair.leadsTo {A : S → S → Prop} (hfair : WeaklyFair A σ)
    (henabled : ∀ t, P (σ t) → Enabled A (σ t))
    (hkeep : ∀ t, P (σ t) → Q (σ (t + 1)) ∨ P (σ (t + 1)))
    (hstep : ∀ t, P (σ t) → A (σ t) (σ (t + 1)) → Q (σ (t + 1))) : LeadsTo σ P Q := by
  intro t ht
  obtain ⟨u, hle, hu⟩ := hfair t
  rcases stays_or_reaches hkeep hle ht with hPu | hQ
  · have htaken := hu.resolve_right fun h => h (henabled u hPu)
    exact ⟨u + 1, Nat.le_succ_of_le hle, hstep u hPu htaken⟩
  · exact hQ

/-- **The rule of a fair action that lowers a rank.** -/
theorem WeaklyFair.leadsTo_of_rank {A : S → S → Prop} (hfair : WeaklyFair A σ) (rank : S → ℕ)
    (henabled : ∀ t, P (σ t) → Enabled A (σ t))
    (hkeep : ∀ t, P (σ t) →
      Q (σ (t + 1)) ∨ P (σ (t + 1)) ∧ rank (σ (t + 1)) ≤ rank (σ t))
    (hstep : ∀ t, P (σ t) → A (σ t) (σ (t + 1)) →
      Q (σ (t + 1)) ∨ P (σ (t + 1)) ∧ rank (σ (t + 1)) < rank (σ t)) :
    LeadsTo σ P Q := by
  refine LeadsTo.of_rank rank fun n => hfair.leadsTo (fun t ht => henabled t ht.1) ?_ ?_
  · rintro t ⟨hP, hn⟩
    rcases hkeep t hP with hQ | ⟨hP', hle⟩
    · exact .inl (.inl hQ)
    · rcases (hle.trans_eq hn).lt_or_eq with hlt | heq
      · exact .inl (.inr ⟨hP', hlt⟩)
      · exact .inr ⟨hP', heq⟩
  · rintro t ⟨hP, hn⟩ htaken
    exact (hstep t hP htaken).imp_right fun h => ⟨h.1, h.2.trans_eq hn⟩

end StreamEP

import Mathlib.Algebra.Order.Group.Multiset
import Mathlib.Data.Set.Insert
import Mathlib.Logic.Relation
import Mathlib.Tactic.Abel

/-!
# Fork and join

Jobs with distinct keys. A job is in one piece, or it has been forked into exactly `m` copies that
travel on their own; a join collects `m` copies that carry the same key and puts the job back
together. A join looks at keys only, never at where a copy comes from or when it was made.

The result is that it does not need to: at most one fork per key is open at any time, so the `m`
copies a join collects are exactly the ones the last fork of that key made.

## Scope

The machine knows keys and values, no places and no time. A system is connected to it by a function
that collects its whole jobs and its copies; moving a copy is then no step at all. Nothing here is
about how copies travel, so the results apply to any system whose steps are of these four kinds.
-/

namespace StreamEP

namespace ForkJoin

open Relation

variable {κ γ : Type}

/-- The jobs in one piece, the copies under way, and what was forked for every key. -/
structure State (κ γ : Type) where
  seen : Set κ
  done : Set κ
  /-- The keys of the jobs in one piece. -/
  whole : Multiset κ
  /-- The copies under way, with their keys. -/
  copies : Multiset (κ × γ)
  /-- The copies made by the fork of a key, until they are joined. -/
  job : κ → Multiset γ

variable [DecidableEq κ]

/-- One step of the machine with `m` copies per fork, the copies of one fork being alike in the
sense of `alike`. -/
inductive Step (m : ℕ) (alike : Multiset γ → Prop) : State κ γ → State κ γ → Prop
  | arrive {s : State κ γ} {k : κ} (h : k ∉ s.seen) :
      Step m alike s { s with seen := insert k s.seen, whole := k ::ₘ s.whole }
  | finish {s : State κ γ} {k : κ} {rest : Multiset κ} (h : s.whole = k ::ₘ rest) :
      Step m alike s { s with done := insert k s.done, whole := rest }
  /-- A job is split into `m` copies. -/
  | fork {s : State κ γ} {k : κ} {rest : Multiset κ} {c : Multiset γ}
      (h : s.whole = k ::ₘ rest) (hc : c.card = m) (halike : alike c) :
      Step m alike s { s with
        whole := rest
        copies := c.map (Prod.mk k) + s.copies
        job := Function.update s.job k c }
  /-- Some `m` copies with the same key are put together. -/
  | join {s : State κ γ} {k : κ} {rest : Multiset (κ × γ)} {c : Multiset γ}
      (h : s.copies = c.map (Prod.mk k) + rest) (hc : c.card = m) :
      Step m alike s { s with
        whole := k ::ₘ s.whole
        copies := rest
        job := Function.update s.job k 0 }

def State.copiesOf (s : State κ γ) (k : κ) : Multiset γ :=
  (s.copies.filter (·.1 = k)).map Prod.snd

variable (m : ℕ) (alike : Multiset γ → Prop)

/-- Key `k` is in one piece, or forked and complete. -/
def State.Live (s : State κ γ) (k : κ) : Prop :=
  (s.whole.count k = 1 ∧ s.copiesOf k = 0) ∨
    (s.whole.count k = 0 ∧ s.copiesOf k = s.job k ∧ (s.job k).card = m ∧ alike (s.job k))

omit m alike in
/-- Nothing carries key `k`. -/
def State.Absent (s : State κ γ) (k : κ) : Prop := s.whole.count k = 0 ∧ s.copiesOf k = 0

/-- What holds of key `k`: live while it is admitted and unfinished, absent otherwise. -/
structure State.Proper (s : State κ γ) (k : κ) : Prop where
  /-- An admitted and unfinished key is represented once. -/
  live : k ∈ s.seen → k ∉ s.done → s.Live m alike k
  /-- An unknown key does not occur and has not finished. -/
  unseen : k ∉ s.seen → k ∉ s.done ∧ s.Absent k
  finished : k ∈ s.done → s.Absent k

/-- Live keys are whole or complete; other keys are absent. -/
def Inv (s : State κ γ) : Prop := ∀ k, s.Proper m alike k

/-! ### Copies of a key -/

/-- The values of the copies with key `k`. -/
def valuesOf (k : κ) (x : Multiset (κ × γ)) : Multiset γ := (x.filter (·.1 = k)).map Prod.snd

theorem copiesOf_eq (s : State κ γ) (k : κ) : s.copiesOf k = valuesOf k s.copies := rfl

theorem valuesOf_add (k : κ) (x y : Multiset (κ × γ)) :
    valuesOf k (x + y) = valuesOf k x + valuesOf k y := by
  simp [valuesOf]

@[simp] theorem valuesOf_map_self (k : κ) (c : Multiset γ) :
    valuesOf k (c.map (Prod.mk k)) = c := by
  simp [valuesOf, Multiset.filter_map]

theorem valuesOf_map_of_ne {k k' : κ} (h : k ≠ k') (c : Multiset γ) :
    valuesOf k' (c.map (Prod.mk k)) = 0 := by
  simp [valuesOf, Multiset.filter_map, h]

theorem mem_valuesOf {k : κ} {c : γ} {x : Multiset (κ × γ)} : c ∈ valuesOf k x ↔ (k, c) ∈ x := by
  simp [valuesOf]

/-! ### The invariant -/

section Invariant

variable {m : ℕ} {alike : Multiset γ → Prop} {s s' : State κ γ}

theorem State.Proper.congr {k : κ} (h : s.Proper m alike k) (hseen : k ∈ s'.seen ↔ k ∈ s.seen)
    (hdone : k ∈ s'.done ↔ k ∈ s.done) (hwhole : s'.whole.count k = s.whole.count k)
    (hcopies : s'.copiesOf k = s.copiesOf k) (hjob : s'.job k = s.job k) : s'.Proper m alike k := by
  have hlive : s'.Live m alike k ↔ s.Live m alike k := by rw [Live, Live, hwhole, hcopies, hjob]
  have habsent : s'.Absent k ↔ s.Absent k := by rw [Absent, Absent, hwhole, hcopies]
  refine ⟨fun hs hd => ?_, fun hs => ?_, fun hd => ?_⟩
  · exact hlive.mpr (h.live (hseen.mp hs) (hdone.not.mp hd))
  · obtain ⟨hd, ha⟩ := h.unseen (hseen.not.mp hs)
    exact ⟨hdone.not.mpr hd, habsent.mpr ha⟩
  · exact habsent.mpr (h.finished (hdone.mp hd))

/-- A key that is live and neither unknown nor finished is proper. -/
theorem State.Live.proper {k : κ} (h : s.Live m alike k) (hseen : k ∈ s.seen) (hdone : k ∉ s.done) :
    s.Proper m alike k :=
  ⟨fun _ _ => h, fun hn => absurd hseen hn, fun hd => absurd hd hdone⟩

theorem Inv.live_of_mem_whole (h : Inv m alike s) {k : κ} (hk : k ∈ s.whole) :
    k ∈ s.seen ∧ k ∉ s.done ∧ s.whole.count k = 1 ∧ s.copiesOf k = 0 := by
  have hpos := Multiset.count_pos.mpr hk
  have hseen : k ∈ s.seen := by
    by_contra hns
    have := (h k).unseen hns |>.2.1
    omega
  have hdone : k ∉ s.done := by
    intro hd
    have := ((h k).finished hd).1
    omega
  rcases (h k).live hseen hdone with ⟨hone, hnone⟩ | ⟨hzero, -⟩
  · exact ⟨hseen, hdone, hone, hnone⟩
  · omega

/-- A key with a copy under way has exactly the copies of its fork. -/
theorem Inv.forked_of_mem (h : Inv m alike s) {k : κ} {c : γ} (hc : (k, c) ∈ s.copies) :
    k ∈ s.seen ∧ k ∉ s.done ∧ s.whole.count k = 0 ∧ s.copiesOf k = s.job k ∧
      (s.job k).card = m ∧ alike (s.job k) := by
  have hmem : c ∈ s.copiesOf k := mem_valuesOf.mpr hc
  have hne : s.copiesOf k ≠ 0 := fun h0 => by simp [h0] at hmem
  have hseen : k ∈ s.seen := by
    by_contra hns
    exact hne ((h k).unseen hns).2.2
  have hdone : k ∉ s.done := fun hd => hne ((h k).finished hd).2
  rcases (h k).live hseen hdone with ⟨-, hnone⟩ | ⟨hzero, hforked⟩
  · exact absurd hnone hne
  · exact ⟨hseen, hdone, hzero, hforked⟩

theorem Inv.forked_of_join (h : Inv m alike s) (hm : 0 < m) {k : κ} {c : Multiset γ}
    {rest : Multiset (κ × γ)} (hs : s.copies = c.map (Prod.mk k) + rest) (hc : c.card = m) :
    k ∈ s.seen ∧ k ∉ s.done ∧ s.whole.count k = 0 ∧ s.copiesOf k = s.job k ∧
      (s.job k).card = m ∧ alike (s.job k) := by
  obtain ⟨x, hx⟩ := Multiset.card_pos_iff_exists_mem.mp (hc ▸ hm)
  refine h.forked_of_mem (c := x) ?_
  rw [hs]
  exact Multiset.mem_add.mpr (.inl (Multiset.mem_map_of_mem _ hx))

theorem Inv.eq_job (h : Inv m alike s) (hm : 0 < m) {k : κ} {c : Multiset γ}
    {rest : Multiset (κ × γ)} (hs : s.copies = c.map (Prod.mk k) + rest) (hc : c.card = m) :
    c = s.job k ∧ valuesOf k rest = 0 := by
  obtain ⟨-, -, -, hjob, hcard, -⟩ := h.forked_of_join hm hs hc
  have hsplit : c + valuesOf k rest = s.job k := by
    rw [← hjob, copiesOf_eq, hs, valuesOf_add, valuesOf_map_self]
  have hzero : valuesOf k rest = 0 := by
    have := congrArg Multiset.card hsplit
    rw [Multiset.card_add] at this
    exact Multiset.card_eq_zero.mp (by omega)
  exact ⟨by rw [← hsplit, hzero, add_zero], hzero⟩

theorem Inv.step (hm : 0 < m) (h : Inv m alike s) (hstep : Step m alike s s') : Inv m alike s' := by
  intro k'
  cases hstep with
  | @arrive k hk =>
    by_cases hkk : k' = k
    · subst hkk
      obtain ⟨hdone, hcount, hnone⟩ := (h k').unseen hk
      exact State.Live.proper (.inl ⟨by simp [hcount], hnone⟩) (.inl rfl) hdone
    · exact (h k').congr (by simp [hkk]) .rfl (Multiset.count_cons_of_ne hkk _) rfl rfl
  | @finish k rest hs =>
    obtain ⟨hseen, hdone, hone, hnone⟩ := h.live_of_mem_whole (k := k) (by simp [hs])
    by_cases hkk : k' = k
    · subst hkk
      rw [hs, Multiset.count_cons_self] at hone
      have habsent : { s with done := insert k' s.done, whole := rest }.Absent k' :=
        ⟨by simpa using hone, hnone⟩
      exact ⟨fun _ hd => absurd (.inl rfl) hd, fun hn => absurd hseen hn, fun _ => habsent⟩
    · refine (h k').congr .rfl (by simp [hkk]) ?_ rfl rfl
      rw [hs, Multiset.count_cons_of_ne hkk]
  | @fork k rest c hs hc halike =>
    obtain ⟨hseen, hdone, hone, hnone⟩ := h.live_of_mem_whole (k := k) (by simp [hs])
    by_cases hkk : k' = k
    · subst hkk
      rw [hs, Multiset.count_cons_self] at hone
      have hjob : Function.update s.job k' c k' = c := Function.update_self ..
      refine State.Live.proper (.inr ⟨by simpa using hone, ?_, ?_⟩) hseen hdone
      · rw [copiesOf_eq, valuesOf_add, valuesOf_map_self, ← copiesOf_eq, hnone, add_zero]
        exact hjob.symm
      · show (Function.update s.job k' c k').card = m ∧ alike (Function.update s.job k' c k')
        rw [hjob]
        exact ⟨hc, halike⟩
    · refine (h k').congr .rfl .rfl ?_ ?_ (Function.update_of_ne hkk _ _)
      · rw [hs, Multiset.count_cons_of_ne hkk]
      · rw [copiesOf_eq, valuesOf_add, valuesOf_map_of_ne (Ne.symm hkk), zero_add]
        rfl
  | @join k rest c hs hc =>
    obtain ⟨hseen, hdone, hzero, -⟩ := h.forked_of_join hm hs hc
    by_cases hkk : k' = k
    · subst hkk
      exact State.Live.proper (.inl ⟨by simp [hzero], (h.eq_job hm hs hc).2⟩) hseen hdone
    · refine (h k').congr .rfl .rfl (Multiset.count_cons_of_ne hkk _) ?_
        (Function.update_of_ne hkk _ _)
      rw [copiesOf_eq, copiesOf_eq, hs, valuesOf_add, valuesOf_map_of_ne (Ne.symm hkk), zero_add]

theorem Inv.steps (hm : 0 < m) (h : Inv m alike s) (hsteps : ReflTransGen (Step m alike) s s') :
    Inv m alike s' := by
  induction hsteps with
  | refl => exact h
  | tail _ hstep ih => exact ih.step hm hstep

/-! ### Several jobs at once -/

theorem steps_fork {forks : List (κ × Multiset γ)}
    (hforks : ∀ x ∈ forks, x.2.card = m ∧ alike x.2) {rest : Multiset κ}
    (h : s.whole = ↑(forks.map Prod.fst) + rest) :
    ReflTransGen (Step m alike) s { s with
      whole := rest
      copies := (forks.map fun x => x.2.map (Prod.mk x.1)).sum + s.copies
      job := forks.foldl (fun job x => Function.update job x.1 x.2) s.job } := by
  induction forks generalizing s with
  | nil =>
    obtain rfl : s.whole = rest := by simpa using h
    simpa using ReflTransGen.refl
  | cons x forks ih =>
    obtain ⟨hx, hforks⟩ := List.forall_mem_cons.mp hforks
    have hfirst : s.whole = x.1 ::ₘ (↑(forks.map Prod.fst) + rest) := by
      rw [h, List.map_cons, ← Multiset.cons_coe, Multiset.cons_add]
    refine .head (.fork hfirst hx.1 hx.2) ?_
    have hrest := ih hforks (s := { s with
      whole := ↑(forks.map Prod.fst) + rest
      copies := x.2.map (Prod.mk x.1) + s.copies
      job := Function.update s.job x.1 x.2 }) rfl
    rw [← add_assoc, add_comm (List.sum _), ← List.sum_cons] at hrest
    exact hrest

theorem steps_finish {keys : List κ} {rest : Multiset κ} (h : s.whole = ↑keys + rest) :
    ReflTransGen (Step m alike) s { s with
      done := {k | k ∈ keys} ∪ s.done
      whole := rest } := by
  induction keys generalizing s with
  | nil =>
    obtain rfl : s.whole = rest := by simpa using h
    simpa using ReflTransGen.refl
  | cons k keys ih =>
    have hfirst : s.whole = k ::ₘ (↑keys + rest) := by
      rw [h, ← Multiset.cons_coe, Multiset.cons_add]
    refine .head (.finish hfirst) ?_
    have hrest := ih (s := { s with done := insert k s.done, whole := ↑keys + rest }) rfl
    rwa [show {k' | k' ∈ keys} ∪ insert k s.done = {k' | k' ∈ k :: keys} ∪ s.done by
      ext k'
      show (k' ∈ keys ∨ k' = k ∨ k' ∈ s.done) ↔ (k' ∈ k :: keys ∨ k' ∈ s.done)
      rw [List.mem_cons]
      tauto] at hrest

end Invariant

end ForkJoin

end StreamEP

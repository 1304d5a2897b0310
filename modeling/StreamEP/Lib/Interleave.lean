import Mathlib.Data.List.Basic
import Mathlib.Data.List.Nodup
import Mathlib.Logic.Function.Basic

/-!
# Interleavings

Threads that run at the same time, each with its own list of steps, are interleaved: the steps of
one thread keep their order, and nothing is known about the order of steps of different threads. A
step updates one address of a memory, by a function of what the address has. So a thread may read
back what it has written, and what the address has in the end depends on the order.

If a single thread updates an address, the other threads do not matter for it: the address has in
the end what the thread would leave if it ran alone.
-/

namespace StreamEP

variable {ι β : Type} [DecidableEq ι]

/-- **The interleavings** of a family of threads: a step of any thread, its first one, is taken
next, until no thread has a step left. -/
inductive Interleave : (ι → List β) → List β → Prop
  | done {thread : ι → List β} (h : ∀ i, thread i = []) : Interleave thread []
  | step {thread : ι → List β} {steps rest : List β} {x : β} (i : ι) (hi : thread i = x :: rest)
      (h : Interleave (Function.update thread i rest) steps) : Interleave thread (x :: steps)

namespace Interleave

variable {thread : ι → List β} {steps : List β}

theorem exists_mem (h : Interleave thread steps) {x : β} (hx : x ∈ steps) :
    ∃ i, x ∈ thread i := by
  induction h with
  | done => cases hx
  | @step thread steps rest y i hi _ ih =>
    rcases List.mem_cons.mp hx with rfl | hx
    · exact ⟨i, hi ▸ List.mem_cons_self⟩
    · obtain ⟨j, hj⟩ := ih hx
      by_cases hji : j = i
      · subst hji
        rw [Function.update_self] at hj
        exact ⟨j, hi ▸ List.mem_cons_of_mem _ hj⟩
      · rw [Function.update_of_ne hji] at hj
        exact ⟨j, hj⟩

/-- The steps that only thread `i` takes stand in the interleaving as they stand in thread `i`. -/
theorem filter_eq {p : β → Bool} {i : ι} (h : Interleave thread steps)
    (hp : ∀ j ≠ i, ∀ x ∈ thread j, p x = false) : steps.filter p = (thread i).filter p := by
  induction h with
  | done h => rw [h i]
  | @step thread steps rest x j hj _ ih =>
    have hrest : ∀ k ≠ i, ∀ y ∈ Function.update thread j rest k, p y = false := by
      intro k hk y hy
      by_cases hkj : k = j
      · subst hkj
        rw [Function.update_self] at hy
        exact hp k hk y (hj ▸ List.mem_cons_of_mem _ hy)
      · rw [Function.update_of_ne hkj] at hy
        exact hp k hk y hy
    by_cases hji : j = i
    · subst hji
      rw [List.filter_cons, ih hrest, Function.update_self, hj, List.filter_cons]
    · have hx : p x = false := hp j hji x (hj ▸ List.mem_cons_self)
      rw [List.filter_cons_of_neg (by rw [hx]; exact Bool.false_ne_true), ih hrest,
        Function.update_of_ne (Ne.symm hji)]

theorem append_thread {i : ι} (h : Interleave (Function.update thread i []) steps) :
    Interleave thread (thread i ++ steps) := by
  generalize hl : thread i = l
  induction l generalizing thread with
  | nil => rwa [← hl, Function.update_eq_self] at h
  | cons x rest ih =>
    refine .step i hl (ih ?_ (Function.update_self ..))
    rwa [Function.update_idem]

/-- **Finitely many threads have an interleaving**: they may run one after another. -/
theorem exists_of_nodup (ids : List ι) (hids : ids.Nodup)
    (hthread : ∀ i, i ∉ ids → thread i = []) : Interleave thread (ids.flatMap thread) := by
  induction ids generalizing thread with
  | nil => exact .done fun i => hthread i List.not_mem_nil
  | cons i ids ih =>
    obtain ⟨hi, hids⟩ := List.nodup_cons.mp hids
    have hsame : ids.flatMap (Function.update thread i []) = ids.flatMap thread := by
      refine List.flatMap_congr fun j hj => Function.update_of_ne ?_ _ _
      rintro rfl
      exact hi hj
    have hrest : Interleave (Function.update thread i []) (ids.flatMap thread) := by
      rw [← hsame]
      refine ih hids fun j hj => ?_
      by_cases hji : j = i
      · rw [hji, Function.update_self]
      · rw [Function.update_of_ne hji]
        exact hthread j (fun h => (List.mem_cons.mp h).elim hji hj)
    exact hrest.append_thread

end Interleave

/-! ### Updates of a memory -/

variable {α : Type}

/-- Updates, one after another. Each gives one address a new value, from the one it has. -/
def applyUpdates (updates : List (ℕ × (α → α))) (mem : ℕ → α) : ℕ → α :=
  updates.foldl (fun mem u => Function.update mem u.1 (u.2 (mem u.1))) mem

/-- What an address has in the end is for the updates of that address to say. -/
theorem applyUpdates_apply (updates : List (ℕ × (α → α))) (mem : ℕ → α) (a : ℕ) :
    applyUpdates updates mem a =
      (updates.filter (·.1 == a)).foldl (fun v u => u.2 v) (mem a) := by
  induction updates generalizing mem with
  | nil => rfl
  | cons u updates ih =>
    have hcons : applyUpdates (u :: updates) mem a =
        applyUpdates updates (Function.update mem u.1 (u.2 (mem u.1))) a := rfl
    rw [hcons, ih, List.filter_cons]
    by_cases hu : u.1 = a
    · subst hu
      rw [Function.update_self, if_pos (beq_self_eq_true _), List.foldl_cons]
    · rw [Function.update_of_ne (Ne.symm hu), if_neg (by rwa [beq_iff_eq])]

variable {thread : ι → List (ℕ × (α → α))} {updates : List (ℕ × (α → α))}

/-- **An address with an owner** has in the end what its owner leaves when it runs alone. -/
theorem Interleave.apply_of_owner {i : ι} {a : ℕ} (h : Interleave thread updates)
    (hown : ∀ j ≠ i, ∀ u ∈ thread j, u.1 ≠ a) (mem : ℕ → α) :
    applyUpdates updates mem a = applyUpdates (thread i) mem a := by
  rw [applyUpdates_apply, applyUpdates_apply, h.filter_eq]
  intro j hj u hu
  exact beq_eq_false_iff_ne.mpr (hown j hj u hu)

theorem Interleave.frame {a : ℕ} (h : Interleave thread updates)
    (ha : ∀ i, ∀ u ∈ thread i, u.1 ≠ a) (mem : ℕ → α) : applyUpdates updates mem a = mem a := by
  have hnone : updates.filter (·.1 == a) = [] := by
    refine List.filter_eq_nil_iff.mpr fun u hu => ?_
    obtain ⟨i, hi⟩ := h.exists_mem hu
    rw [beq_iff_eq]
    exact ha i u hi
  rw [applyUpdates_apply, hnone, List.foldl_nil]

end StreamEP

import Mathlib.Algebra.BigOperators.Group.List.Basic
import Mathlib.Algebra.Order.Ring.Rat
import Mathlib.Data.List.Sort
import Mathlib.Data.Prod.Lex

/-!
# Two-batch overlap

`_schedule_resources` of `simulation/sim_tbo.py` runs the stages of two microbatches. Compute stages
of both share one resource; transfers are launched at once and only hold up the next compute stage
of their own microbatch. A round starts the stage that can start first, with ties broken by kind and
microbatch.

The model keeps a log of what was started when. That the schedule is valid does not depend on the
choice between the two candidates. The clocks that are returned are those of the last compute
stages: a transfer that no compute stage waits for is not in them, and the last combine of a
microbatch is such a transfer.

Times are in any linearly ordered group. The wait that is recorded for the timeline is left out.

## Main results

* `Tbo.Inv.step` — the clocks and the log, over a round
* `Tbo.schedule_valid`
* `Tbo.runOneIteration_covers_iff` — when the reported times cover the transfers
-/

namespace StreamEP

namespace Tbo

inductive TaskKind
  | compute
  | dispatch
  | combine
  deriving DecidableEq

/-- A task: its kind and its duration. -/
structure StageTask (R : Type) [Zero R] [LE R] where
  kind : TaskKind
  dur : R
  dur_nonneg : 0 ≤ dur

structure Slot (R : Type) [Zero R] [LE R] where
  mb : Fin 2
  task : StageTask R
  start : R

/-- The local variables of `_schedule_resources`, with a log of the tasks that were started. -/
structure Clocks (R : Type) [Zero R] [LE R] where
  /-- `tasks[mb][next_idx[mb]:]` -/
  pending : Fin 2 → List (StageTask R)
  ready : Fin 2 → R
  computeFree : R
  inflightUntil : Fin 2 → R
  /-- What was started, in the order of the rounds. -/
  log : List (Slot R)

def kindPrio : TaskKind → ℕ
  | .dispatch | .combine => 0
  | .compute => 1

section Loop

variable {R : Type} [AddCommGroup R] [LinearOrder R]

def Slot.stop (x : Slot R) : R := x.start + x.task.dur

def est (s : Clocks R) (mb : Fin 2) (t : StageTask R) : R :=
  match t.kind with
  | .compute => max (max (s.ready mb) (s.inflightUntil mb)) s.computeFree
  | .dispatch | .combine => s.ready mb

/-- `candidates`, in the order of tuples -/
def candidates (s : Clocks R) : List (R ×ₗ ℕ ×ₗ Fin 2) :=
  [0, 1].filterMap fun mb =>
    (s.pending mb).head?.map fun t => toLex (est s mb t, toLex (kindPrio t.kind, mb))

/-- What a round does with the first task of a microbatch. -/
def execute (s : Clocks R) (mb : Fin 2) (t : StageTask R) (rest : List (StageTask R)) : Clocks R :=
  let start := est s mb t
  let stop := start + t.dur
  let s := { s with
    pending := Function.update s.pending mb rest
    log := s.log ++ [Slot.mk mb t start] }
  match t.kind with
  | .compute => { s with ready := Function.update s.ready mb stop, computeFree := stop }
  | .dispatch | .combine =>
    { s with inflightUntil :=
        if stop > s.inflightUntil mb then Function.update s.inflightUntil mb stop
        else s.inflightUntil }

/-- A round of the loop; without candidates the loop ends. -/
def step (s : Clocks R) : Option (Clocks R) :=
  match (candidates s).min? with
  | none => none
  | some c =>
    let mb := (ofLex (ofLex c).2).2
    match s.pending mb with
    | [] => none
    | t :: rest => some (execute s mb t rest)

def loop : ℕ → Clocks R → Clocks R
  | 0, s => s
  | fuel + 1, s =>
    match step s with
    | none => s
    | some s' => loop fuel s'

def start (tasks : Fin 2 → List (StageTask R)) : Clocks R where
  pending := tasks
  ready := fun _ => 0
  computeFree := 0
  inflightUntil := fun _ => 0
  log := []

/-- `_schedule_resources`; it returns the field `ready`. A round takes one task. -/
def schedule (tasks : Fin 2 → List (StageTask R)) : Clocks R :=
  loop ((tasks 0).length + (tasks 1).length) (start tasks)

/-- The tasks of a microbatch that were started. -/
def slots (s : Clocks R) (mb : Fin 2) : List (Slot R) := s.log.filter (·.mb = mb)

/-- The end of the last compute task, zero without one. -/
def lastComputeEnd (l : List (Slot R)) : R :=
  l.foldl (fun time x => if x.task.kind = .compute then x.stop else time) 0

def total (l : List (StageTask R)) : R := (l.map (·.dur)).sum

def totalCompute (l : List (StageTask R)) : R := total (l.filter (·.kind = .compute))

/-- Of two started tasks, the later one waits for the earlier one if it computes and either they
have the same microbatch or both compute. -/
def Apart (x y : Slot R) : Prop :=
  y.task.kind = .compute → x.mb = y.mb ∨ x.task.kind = .compute → x.stop ≤ y.start

/-- **A valid schedule** of two task lists. -/
structure Valid (tasks : Fin 2 → List (StageTask R)) (s : Clocks R) : Prop where
  ended : step s = none
  /-- Every task was started once, each list in order. -/
  order : ∀ mb, (slots s mb).map (·.task) = tasks mb
  /-- Compute tasks do not overlap, and wait for what their microbatch has started before. -/
  apart : s.log.Pairwise Apart
  /-- A transfer starts at the end of the last compute task of its microbatch. -/
  launched : ∀ mb pre x post, slots s mb = pre ++ x :: post → x.task.kind ≠ .compute →
    x.start = lastComputeEnd pre
  /-- The larger clock is at least the compute time of both lists, and at most all of their time. -/
  lower : totalCompute (tasks 0) + totalCompute (tasks 1) ≤ max (s.ready 0) (s.ready 1)
  upper : max (s.ready 0) (s.ready 1) ≤ total (tasks 0) + total (tasks 1)

/-! ### A round -/

theorem step_eq_some {s s' : Clocks R} (h : step s = some s') :
    ∃ mb t rest, s.pending mb = t :: rest ∧ s' = execute s mb t rest := by
  rw [step] at h
  split at h
  · cases h
  · next c _ =>
    simp only at h
    split at h
    · cases h
    · next t rest hpending => exact ⟨_, t, rest, hpending, (Option.some.inj h).symm⟩

theorem step_eq_none_iff {s : Clocks R} : step s = none ↔ ∀ mb, s.pending mb = [] := by
  constructor
  · intro h mb
    rw [step] at h
    split at h
    · next hmin =>
      -- without candidates both lists are empty
      have hnil := List.min?_eq_none_iff.mp hmin
      rw [candidates, List.filterMap_eq_nil_iff] at hnil
      have hmb := hnil mb (by rw [List.mem_cons, List.mem_singleton]; omega)
      rwa [Option.map_eq_none_iff, List.head?_eq_none_iff] at hmb
    · next c hmin =>
      have hmem := List.min?_mem hmin
      rw [candidates, List.mem_filterMap] at hmem
      obtain ⟨mb', -, hc⟩ := hmem
      rw [Option.map_eq_some_iff] at hc
      obtain ⟨t, hhead, rfl⟩ := hc
      simp only [ofLex_toLex] at h
      obtain ⟨rest, hpending⟩ := List.head?_eq_some_iff.mp hhead
      rw [hpending] at h
      cases h
  · intro h
    have hnil : candidates s = [] := by
      rw [candidates, List.filterMap_eq_nil_iff]
      intro mb _
      rw [h mb]
      rfl
    rw [step, hnil]
    rfl

section Execute

variable (s : Clocks R) (mb : Fin 2) (t : StageTask R) (rest : List (StageTask R))

theorem execute_pending : (execute s mb t rest).pending = Function.update s.pending mb rest := by
  rw [execute]
  cases t.kind <;> rfl

theorem execute_log : (execute s mb t rest).log = s.log ++ [⟨mb, t, est s mb t⟩] := by
  rw [execute]
  cases t.kind <;> rfl

theorem slots_execute (m : Fin 2) :
    slots (execute s mb t rest) m =
      if mb = m then slots s m ++ [⟨mb, t, est s mb t⟩] else slots s m := by
  rw [slots, execute_log, List.filter_append, slots]
  split_ifs with h
  · rw [List.filter_singleton, h]
    simp
  · rw [List.filter_singleton]
    simp [h]

variable {s mb t rest}

theorem execute_of_compute (h : t.kind = .compute) :
    (execute s mb t rest).ready = Function.update s.ready mb (est s mb t + t.dur) ∧
      (execute s mb t rest).computeFree = est s mb t + t.dur ∧
      (execute s mb t rest).inflightUntil = s.inflightUntil := by
  rw [execute, h]
  exact ⟨rfl, rfl, rfl⟩

theorem execute_of_transfer (h : t.kind ≠ .compute) :
    (execute s mb t rest).ready = s.ready ∧ (execute s mb t rest).computeFree = s.computeFree ∧
      (execute s mb t rest).inflightUntil =
        Function.update s.inflightUntil mb (max (s.inflightUntil mb) (est s mb t + t.dur)) := by
  have hmax : (if est s mb t + t.dur > s.inflightUntil mb then
        Function.update s.inflightUntil mb (est s mb t + t.dur) else s.inflightUntil) =
      Function.update s.inflightUntil mb (max (s.inflightUntil mb) (est s mb t + t.dur)) := by
    split_ifs with hgt
    · rw [max_eq_right hgt.le]
    · rw [max_eq_left (not_lt.mp hgt), Function.update_eq_self]
  cases hkind : t.kind with
  | compute => exact absurd hkind h
  | dispatch | combine =>
    rw [← hmax]
    simp only [execute, hkind, and_self]

theorem est_of_compute (h : t.kind = .compute) :
    s.ready mb ≤ est s mb t ∧ s.inflightUntil mb ≤ est s mb t ∧ s.computeFree ≤ est s mb t ∧
      ∀ bound, s.ready mb ≤ bound → s.inflightUntil mb ≤ bound → s.computeFree ≤ bound →
        est s mb t ≤ bound := by
  rw [est, h]
  exact ⟨(le_max_left _ _).trans (le_max_left _ _), (le_max_right _ _).trans (le_max_left _ _),
    le_max_right _ _, fun bound h1 h2 h3 => max_le (max_le h1 h2) h3⟩

theorem est_of_transfer (h : t.kind ≠ .compute) : est s mb t = s.ready mb := by
  rw [est]
  cases hkind : t.kind with
  | compute => exact absurd hkind h
  | dispatch | combine => rfl

end Execute

theorem lastComputeEnd_concat (l : List (Slot R)) (x : Slot R) :
    lastComputeEnd (l ++ [x]) = if x.task.kind = .compute then x.stop else lastComputeEnd l := by
  rw [lastComputeEnd, List.foldl_append]
  rfl

theorem total_concat (l : List (StageTask R)) (t : StageTask R) :
    total (l ++ [t]) = total l + t.dur := by
  rw [total, List.map_append, List.sum_append, List.map_singleton, List.sum_singleton]
  rfl

theorem total_perm {l l' : List (StageTask R)} (h : l.Perm l') : total l = total l' :=
  (h.map _).sum_eq

theorem log_perm (s : Clocks R) :
    (s.log.map (·.task)).Perm ((slots s 0).map (·.task) ++ (slots s 1).map (·.task)) := by
  have hone : slots s 1 = s.log.filter fun x => !decide (x.mb = 0) := by
    rw [slots]
    refine List.filter_congr fun x _ => ?_
    have hmb : x.mb = 1 ↔ ¬ x.mb = 0 := by omega
    rw [decide_eq_decide.mpr hmb, decide_not]
  rw [hone, slots, ← List.map_append]
  exact ((List.filter_append_perm _ s.log).map _).symm

/-! ### The clocks and the log -/

structure Inv (tasks : Fin 2 → List (StageTask R)) (s : Clocks R) : Prop where
  order : ∀ mb, (slots s mb).map (·.task) ++ s.pending mb = tasks mb
  ready : ∀ mb, s.ready mb = lastComputeEnd (slots s mb)
  ready_le : ∀ mb, s.ready mb ≤ s.computeFree
  free : ∃ mb, s.computeFree = s.ready mb
  compute_le : ∀ x ∈ s.log, x.task.kind = .compute → x.stop ≤ s.ready x.mb
  transfer_le : ∀ x ∈ s.log, x.task.kind ≠ .compute → x.stop ≤ s.inflightUntil x.mb
  apart : s.log.Pairwise Apart
  launched : ∀ mb pre x post, slots s mb = pre ++ x :: post → x.task.kind ≠ .compute →
    x.start = lastComputeEnd pre
  lower : totalCompute (s.log.map (·.task)) ≤ s.computeFree
  free_le : s.computeFree ≤ total (s.log.map (·.task))
  inflight_le : ∀ mb, s.inflightUntil mb ≤ total (s.log.map (·.task))

theorem inv_start (tasks : Fin 2 → List (StageTask R)) : Inv tasks (start tasks) where
  order := fun _ => rfl
  ready := fun _ => rfl
  ready_le := fun _ => le_rfl
  free := ⟨0, rfl⟩
  compute_le := fun _ hx => absurd hx List.not_mem_nil
  transfer_le := fun _ hx => absurd hx List.not_mem_nil
  apart := .nil
  launched := fun mb pre x post h => by
    have hlength := congrArg List.length h
    simp [slots, start] at hlength
  lower := le_rfl
  free_le := le_rfl
  inflight_le := fun _ => le_rfl

section Step

variable {tasks : Fin 2 → List (StageTask R)} {s : Clocks R} {mb : Fin 2} {t : StageTask R}
  {rest : List (StageTask R)}

theorem Inv.order_execute (hs : Inv tasks s) (hpending : s.pending mb = t :: rest) (m : Fin 2) :
    (slots (execute s mb t rest) m).map (·.task) ++ (execute s mb t rest).pending m = tasks m := by
  rw [slots_execute, execute_pending]
  split_ifs with h
  · obtain rfl := h
    rw [Function.update_self, List.map_append, List.append_assoc, ← hs.order mb, hpending]
    rfl
  · rw [Function.update_of_ne (Ne.symm h), hs.order m]

/-- A transfer starts with the clock of its microbatch, which is the end of its last compute
task. -/
theorem Inv.launched_execute (hs : Inv tasks s) {m : Fin 2} {pre post : List (Slot R)} {x : Slot R}
    (hslots : slots (execute s mb t rest) m = pre ++ x :: post) (hx : x.task.kind ≠ .compute) :
    x.start = lastComputeEnd pre := by
  rw [slots_execute] at hslots
  split_ifs at hslots with h
  · obtain rfl := h
    rcases List.eq_nil_or_concat post with rfl | ⟨post, y, rfl⟩
    · obtain ⟨rfl, heq⟩ := List.append_inj' hslots rfl
      obtain rfl := (List.cons.inj heq).1
      exact (est_of_transfer hx).trans (hs.ready mb)
    · rw [List.concat_eq_append, ← List.cons_append, ← List.append_assoc] at hslots
      exact hs.launched mb pre x post (List.append_inj' hslots rfl).1 hx
  · exact hs.launched m pre x post hslots hx

/-- A compute task starts after all that it has to wait for. -/
theorem Inv.apart_execute (hs : Inv tasks s) : (execute s mb t rest).log.Pairwise Apart := by
  rw [execute_log, List.pairwise_append]
  refine ⟨hs.apart, List.pairwise_singleton _ _, fun x hx y hy hcompute hor => ?_⟩
  obtain rfl := List.mem_singleton.mp hy
  obtain ⟨hready, hinflight, hfree, -⟩ := @est_of_compute R _ _ s mb t hcompute
  by_cases hkind : x.task.kind = .compute
  · exact ((hs.compute_le x hx hkind).trans (hs.ready_le x.mb)).trans hfree
  · have hmb : x.mb = mb := hor.resolve_right hkind
    exact (hmb ▸ hs.transfer_le x hx hkind).trans hinflight

theorem total_execute :
    total ((execute s mb t rest).log.map (·.task)) = total (s.log.map (·.task)) + t.dur := by
  rw [execute_log, List.map_append, List.map_singleton, total_concat]

theorem totalCompute_execute :
    totalCompute ((execute s mb t rest).log.map (·.task)) =
      totalCompute (s.log.map (·.task)) + if t.kind = .compute then t.dur else 0 := by
  rw [execute_log, List.map_append, List.map_singleton, totalCompute, List.filter_append,
    List.filter_singleton]
  split_ifs with h
  · rw [decide_eq_true h]
    exact total_concat _ t
  · rw [decide_eq_false h, add_zero]
    exact congrArg total (List.append_nil _)

def left (s : Clocks R) : ℕ := (s.pending 0).length + (s.pending 1).length

theorem left_execute (hpending : s.pending mb = t :: rest) :
    left (execute s mb t rest) + 1 = left s := by
  have hlength := congrArg List.length hpending
  rw [List.length_cons] at hlength
  rw [left, left, execute_pending]
  rcases eq_or_ne mb 0 with rfl | hne
  · rw [Function.update_self, Function.update_of_ne (by decide)]
    omega
  · obtain rfl : mb = 1 := by omega
    rw [Function.update_self, Function.update_of_ne (by decide)]
    omega

variable [IsOrderedAddMonoid R]

theorem Inv.compute (hs : Inv tasks s) (hpending : s.pending mb = t :: rest)
    (hkind : t.kind = .compute) : Inv tasks (execute s mb t rest) := by
  obtain ⟨hready, hfree, hinflight⟩ := @execute_of_compute R _ _ s mb t rest hkind
  obtain ⟨hestready, -, hestfree, hleast⟩ := @est_of_compute R _ _ s mb t hkind
  have hdur := t.dur_nonneg
  have hestle : est s mb t ≤ total (s.log.map (·.task)) :=
    hleast _ ((hs.ready_le mb).trans hs.free_le) (hs.inflight_le mb) hs.free_le
  -- the clock of the microbatch only grows
  have hgrow : ∀ m, s.ready m ≤ (execute s mb t rest).ready m := by
    intro m
    rw [hready]
    rcases eq_or_ne m mb with rfl | hne
    · rw [Function.update_self]
      exact hestready.trans (le_add_of_nonneg_right hdur)
    · rw [Function.update_of_ne hne]
  refine ⟨hs.order_execute hpending, fun m => ?_, fun m => ?_, ⟨mb, ?_⟩, fun x hx hx' => ?_,
    fun x hx hx' => ?_, hs.apart_execute, fun _ _ _ _ => hs.launched_execute, ?_, ?_, fun m => ?_⟩
  · rw [hready, slots_execute]
    split_ifs with h
    · obtain rfl := h
      rw [Function.update_self, lastComputeEnd_concat, if_pos hkind]
      rfl
    · rw [Function.update_of_ne (Ne.symm h), hs.ready m]
  · rw [hready, hfree]
    rcases eq_or_ne m mb with rfl | hne
    · rw [Function.update_self]
    · rw [Function.update_of_ne hne]
      exact ((hs.ready_le m).trans hestfree).trans (le_add_of_nonneg_right hdur)
  · rw [hready, hfree, Function.update_self]
  · rw [execute_log, List.mem_append, List.mem_singleton] at hx
    rcases hx with hx | rfl
    · exact (hs.compute_le x hx hx').trans (hgrow x.mb)
    · rw [hready, Function.update_self]
      rfl
  · rw [execute_log, List.mem_append, List.mem_singleton] at hx
    rcases hx with hx | rfl
    · rw [hinflight]
      exact hs.transfer_le x hx hx'
    · exact absurd hkind hx'
  · rw [totalCompute_execute, if_pos hkind, hfree]
    exact add_le_add_left (hs.lower.trans hestfree) _
  · rw [hfree, total_execute]
    exact add_le_add_left hestle _
  · rw [hinflight, total_execute]
    exact (hs.inflight_le m).trans (le_add_of_nonneg_right hdur)

theorem Inv.transfer (hs : Inv tasks s) (hpending : s.pending mb = t :: rest)
    (hkind : t.kind ≠ .compute) : Inv tasks (execute s mb t rest) := by
  obtain ⟨hready, hfree, hinflight⟩ := @execute_of_transfer R _ _ s mb t rest hkind
  have hdur := t.dur_nonneg
  have hstop : est s mb t + t.dur ≤ total (s.log.map (·.task)) + t.dur := by
    rw [est_of_transfer hkind]
    exact add_le_add_left ((hs.ready_le mb).trans hs.free_le) _
  have hgrow : ∀ m, s.inflightUntil m ≤ (execute s mb t rest).inflightUntil m := by
    intro m
    rw [hinflight]
    rcases eq_or_ne m mb with rfl | hne
    · rw [Function.update_self]
      exact le_max_left _ _
    · rw [Function.update_of_ne hne]
  refine ⟨hs.order_execute hpending, fun m => ?_, fun m => ?_, ?_, fun x hx hx' => ?_,
    fun x hx hx' => ?_, hs.apart_execute, fun _ _ _ _ => hs.launched_execute, ?_, ?_, fun m => ?_⟩
  · rw [hready, slots_execute]
    split_ifs with h
    · rw [lastComputeEnd_concat, if_neg hkind, hs.ready m]
    · exact hs.ready m
  · rw [hready, hfree]
    exact hs.ready_le m
  · rw [hready, hfree]
    exact hs.free
  · rw [execute_log, List.mem_append, List.mem_singleton] at hx
    rcases hx with hx | rfl
    · rw [hready]
      exact hs.compute_le x hx hx'
    · exact absurd hx' hkind
  · rw [execute_log, List.mem_append, List.mem_singleton] at hx
    rcases hx with hx | rfl
    · exact (hs.transfer_le x hx hx').trans (hgrow x.mb)
    · rw [hinflight, Function.update_self]
      exact le_max_right _ _
  · rw [totalCompute_execute, if_neg hkind, add_zero, hfree]
    exact hs.lower
  · rw [hfree, total_execute]
    exact hs.free_le.trans (le_add_of_nonneg_right hdur)
  · rw [hinflight, total_execute]
    rcases eq_or_ne m mb with rfl | hne
    · rw [Function.update_self]
      exact max_le ((hs.inflight_le m).trans (le_add_of_nonneg_right hdur)) hstop
    · rw [Function.update_of_ne hne]
      exact (hs.inflight_le m).trans (le_add_of_nonneg_right hdur)

theorem Inv.step {s' : Clocks R} (hs : Inv tasks s) (h : step s = some s') : Inv tasks s' := by
  obtain ⟨mb, t, rest, hpending, rfl⟩ := step_eq_some h
  by_cases hkind : t.kind = .compute
  · exact hs.compute hpending hkind
  · exact hs.transfer hpending hkind

/-- **The loop** ends with a round for each task, and keeps the clocks and the log. -/
theorem Inv.loop (fuel : ℕ) (hs : Inv tasks s) (hfuel : left s ≤ fuel) :
    Inv tasks (loop fuel s) ∧ Tbo.step (Tbo.loop fuel s) = none := by
  induction fuel generalizing s with
  | zero =>
    refine ⟨hs, ?_⟩
    rw [Tbo.loop, step_eq_none_iff]
    intro mb
    rw [left] at hfuel
    apply List.length_eq_zero_iff.mp
    match mb with
    | 0 => omega
    | 1 => omega
  | succ fuel ih =>
    rw [Tbo.loop]
    cases hstep : Tbo.step s with
    | none => exact ⟨hs, hstep⟩
    | some s' =>
      obtain ⟨mb, t, rest, hpending, rfl⟩ := step_eq_some hstep
      have := left_execute hpending
      exact ih (hs.step hstep) (by omega)

end Step

/-! ### The schedule -/

variable [IsOrderedAddMonoid R]

theorem schedule_inv (tasks : Fin 2 → List (StageTask R)) :
    Inv tasks (schedule tasks) ∧ step (schedule tasks) = none :=
  (inv_start tasks).loop ((tasks 0).length + (tasks 1).length) le_rfl

theorem schedule_order (tasks : Fin 2 → List (StageTask R)) (mb : Fin 2) :
    (slots (schedule tasks) mb).map (·.task) = tasks mb := by
  obtain ⟨hinv, hended⟩ := schedule_inv tasks
  rw [← hinv.order mb, step_eq_none_iff.mp hended mb, List.append_nil]

/-- **The schedule is valid**, for all task lists. -/
theorem schedule_valid (tasks : Fin 2 → List (StageTask R)) : Valid tasks (schedule tasks) := by
  obtain ⟨hinv, hended⟩ := schedule_inv tasks
  have horder := schedule_order tasks
  have hperm : ((schedule tasks).log.map (·.task)).Perm (tasks 0 ++ tasks 1) := by
    rw [← horder 0, ← horder 1]
    exact log_perm (schedule tasks)
  have hmax : max ((schedule tasks).ready 0) ((schedule tasks).ready 1) =
      (schedule tasks).computeFree := by
    refine le_antisymm (max_le (hinv.ready_le 0) (hinv.ready_le 1)) ?_
    obtain ⟨mb, hmb⟩ := hinv.free
    rw [hmb]
    match mb with
    | 0 => exact le_max_left _ _
    | 1 => exact le_max_right _ _
  refine ⟨hended, horder, hinv.apart, hinv.launched, ?_, ?_⟩
  · have htotal : totalCompute ((schedule tasks).log.map (·.task)) =
        totalCompute (tasks 0) + totalCompute (tasks 1) := by
      rw [totalCompute, total_perm (hperm.filter _), List.filter_append, total, List.map_append,
        List.sum_append]
      rfl
    rw [hmax, ← htotal]
    exact hinv.lower
  · have htotal : total ((schedule tasks).log.map (·.task)) =
        total (tasks 0) + total (tasks 1) := by
      rw [total_perm hperm, total, List.map_append, List.sum_append]
      rfl
    rw [hmax, ← htotal]
    exact hinv.free_le

/-- A transfer of the first microbatch holds up its second compute task; the other microbatch
computes meanwhile. -/
theorem schedule_valid_overlap :
    ∃ tasks : Fin 2 → List (StageTask ℚ),
      tasks 0 = [⟨.compute, 1, by decide⟩, ⟨.dispatch, 3, by decide⟩, ⟨.compute, 1, by decide⟩] ∧
        tasks 1 = [⟨.compute, 2, by decide⟩] ∧ Valid tasks (schedule tasks) := by
  refine ⟨fun mb => if mb = 0 then
      [⟨.compute, 1, by decide⟩, ⟨.dispatch, 3, by decide⟩, ⟨.compute, 1, by decide⟩]
    else [⟨.compute, 2, by decide⟩], rfl, rfl, schedule_valid _⟩

end Loop

/-! ### An iteration -/

/-- The stages of a microbatch in a layer. -/
structure StageTimes (R : Type) [Zero R] [LE R] where
  attn : R
  dispatch : R
  expertCompute : R
  combine : R
  attn_nonneg : 0 ≤ attn
  dispatch_nonneg : 0 ≤ dispatch
  expertCompute_nonneg : 0 ≤ expertCompute
  combine_nonneg : 0 ≤ combine

/-- `Token`, as far as it is split into microbatches -/
structure Token where
  tid : ℕ
  requestId : ℕ

/-- `tokens_sorted`, by request and token -/
def sortTokens (tokens : List Token) : List Token :=
  tokens.insertionSort fun x y =>
    x.requestId < y.requestId ∨ x.requestId = y.requestId ∧ x.tid ≤ y.tid

/-- `tid_to_mb.get(tid, 0)` of `_split_into_microbatches` -/
def tidToMb (tokens : List Token) (tid : ℕ) : Fin 2 :=
  match (sortTokens tokens).zipIdx.reverse.find? (·.1.tid = tid) with
  | some (_, i) => if i % 2 = 0 then 0 else 1
  | none => 0

section Iteration

variable {R : Type} [AddCommGroup R] [LinearOrder R]

def StageTimes.tasks (times : StageTimes R) : List (StageTask R) :=
  [⟨.compute, times.attn, times.attn_nonneg⟩, ⟨.dispatch, times.dispatch, times.dispatch_nonneg⟩,
    ⟨.compute, times.expertCompute, times.expertCompute_nonneg⟩,
    ⟨.combine, times.combine, times.combine_nonneg⟩]

/-- `tasks` of `_run_one_iteration` -/
def buildTasks (layers : List (Fin 2 → StageTimes R)) (mb : Fin 2) : List (StageTask R) :=
  layers.flatMap fun times => (times mb).tasks

/-- What `_run_one_iteration` returns for the times of its layers: the makespan, and the completion
times of the tokens. -/
def runOneIteration (layers : List (Fin 2 → StageTimes R)) (tokens : List Token) :
    R × List (ℕ × R) :=
  let finish := (schedule (buildTasks layers)).ready
  (max (finish 0) (finish 1),
    tokens.map fun token => (token.tid, finish (tidToMb tokens token.tid)))

/-- **The reported times cover the tasks**: the clock of a microbatch is not before the end of any
of its tasks, a token does not complete before the tasks of its microbatch, and the makespan covers
all tasks. -/
structure Covers (layers : List (Fin 2 → StageTimes R)) (tokens : List Token) : Prop where
  finish : ∀ x ∈ (schedule (buildTasks layers)).log,
    x.stop ≤ (schedule (buildTasks layers)).ready x.mb
  token : ∀ entry ∈ (runOneIteration layers tokens).2,
    ∀ x ∈ (schedule (buildTasks layers)).log, x.mb = tidToMb tokens entry.1 → x.stop ≤ entry.2
  makespan : ∀ x ∈ (schedule (buildTasks layers)).log, x.stop ≤ (runOneIteration layers tokens).1

theorem buildTasks_concat (layers : List (Fin 2 → StageTimes R)) (last : Fin 2 → StageTimes R)
    (mb : Fin 2) : buildTasks (layers ++ [last]) mb = buildTasks layers mb ++ (last mb).tasks := by
  rw [buildTasks, List.flatMap_append, List.flatMap_singleton]
  rfl

/-- If the clocks cover the tasks, so do the times that are derived from them. -/
theorem covers_iff_finish {layers : List (Fin 2 → StageTimes R)} {tokens : List Token} :
    Covers layers tokens ↔ ∀ x ∈ (schedule (buildTasks layers)).log,
      x.stop ≤ (schedule (buildTasks layers)).ready x.mb := by
  refine ⟨Covers.finish, fun h => ⟨h, fun entry hentry x hx hmb => ?_, fun x hx => ?_⟩⟩
  · obtain ⟨token, -, rfl⟩ := List.mem_map.mp hentry
    have := h x hx
    rwa [hmb] at this
  · refine (h x hx).trans ?_
    match x.mb with
    | 0 => exact le_max_left _ _
    | 1 => exact le_max_right _ _

variable [IsOrderedAddMonoid R]

/-- The last compute task of a microbatch ends with its clock, and covers all but the last
combine. -/
theorem finish_iff (layers : List (Fin 2 → StageTimes R)) (last : Fin 2 → StageTimes R)
    (mb : Fin 2) :
    (∀ x ∈ slots (schedule (buildTasks (layers ++ [last]))) mb,
      x.stop ≤ (schedule (buildTasks (layers ++ [last]))).ready mb) ↔ (last mb).combine = 0 := by
  set s := schedule (buildTasks (layers ++ [last])) with hs
  have hinv : Inv (buildTasks (layers ++ [last])) s := (schedule_inv _).1
  have horder : (slots s mb).map (·.task) = buildTasks (layers ++ [last]) mb := schedule_order _ mb
  rw [buildTasks_concat, StageTimes.tasks, List.map_eq_append_iff] at horder
  obtain ⟨before, layer, hslots, -, hlayer⟩ := horder
  obtain ⟨attn, layer, rfl, -, hlayer⟩ := List.map_eq_cons_iff.mp hlayer
  obtain ⟨dispatch, layer, rfl, -, hlayer⟩ := List.map_eq_cons_iff.mp hlayer
  obtain ⟨expert, layer, rfl, hexpert, hlayer⟩ := List.map_eq_cons_iff.mp hlayer
  obtain ⟨combine, layer, rfl, hcombine, hlayer⟩ := List.map_eq_cons_iff.mp hlayer
  obtain rfl := List.map_eq_nil_iff.mp hlayer
  have hexpertKind : expert.task.kind = .compute := by rw [hexpert]
  have hcombineKind : combine.task.kind ≠ .compute := by simp [hcombine]
  -- all of the tasks with the last one split off, and with the last compute task split off
  have hlast : slots s mb = (before ++ [attn, dispatch] ++ [expert]) ++ [combine] := by
    rw [hslots, List.append_assoc, List.append_assoc]
    rfl
  have hend : s.ready mb = expert.stop := by
    rw [hinv.ready, hlast, lastComputeEnd_concat, if_neg hcombineKind, lastComputeEnd_concat,
      if_pos hexpertKind]
  have hstart : combine.start = expert.stop := by
    rw [hinv.launched mb _ combine [] hlast hcombineKind, lastComputeEnd_concat,
      if_pos hexpertKind]
  have hbefore : ∀ x ∈ before ++ [attn, dispatch], x.stop ≤ expert.stop := by
    intro x hx
    have hpairwise : (slots s mb).Pairwise Apart := hinv.apart.filter _
    rw [hlast, List.append_assoc, List.pairwise_append] at hpairwise
    have hmb : ∀ y ∈ slots s mb, y.mb = mb :=
      fun y hy => of_decide_eq_true (List.mem_filter.mp hy).2
    have hxmb : x.mb = mb := by
      refine hmb x ?_
      rw [hlast, List.append_assoc]
      exact List.mem_append_left _ hx
    have hexpertMb : expert.mb = mb := hmb expert (by rw [hlast]; simp)
    exact (hpairwise.2.2 x hx expert (by simp) hexpertKind (.inl (hxmb.trans hexpertMb.symm))).trans
      (le_add_of_nonneg_right expert.task.dur_nonneg)
  have hstop : combine.stop = expert.stop + (last mb).combine := by
    rw [Slot.stop, hstart, hcombine]
  rw [hend, hlast]
  constructor
  · intro h
    have hle := h combine (by simp)
    rw [hstop, add_le_iff_nonpos_right] at hle
    exact le_antisymm hle (last mb).combine_nonneg
  · intro hzero x hx
    rw [List.mem_append, List.mem_append, List.mem_singleton, List.mem_singleton] at hx
    rcases hx with (hx | rfl) | rfl
    · exact hbefore x hx
    · exact le_rfl
    · rw [hstop, hzero, add_zero]

/-- **The reported times cover the transfers** exactly if the last combine of each microbatch takes
no time. -/
theorem runOneIteration_covers_iff (layers : List (Fin 2 → StageTimes R)) (hlayers : layers ≠ [])
    (tokens : List Token) :
    Covers layers tokens ↔ ∀ mb, (layers.getLast hlayers mb).combine = 0 := by
  obtain ⟨before, last, rfl⟩ : ∃ before last, layers = before ++ [last] :=
    ⟨_, _, (List.dropLast_append_getLast hlayers).symm⟩
  rw [List.getLast_append_singleton, covers_iff_finish]
  constructor
  · intro h mb
    refine (finish_iff before last mb).mp fun x hx => ?_
    obtain ⟨hlog, hmb⟩ := List.mem_filter.mp hx
    obtain rfl := of_decide_eq_true hmb
    exact h x hlog
  · intro h x hx
    exact (finish_iff before last x.mb).mpr (h x.mb) x
      (List.mem_filter.mpr ⟨hx, decide_eq_true rfl⟩)

/-- The combine of the first layer takes time, and the attention of the second one waits for it. -/
theorem runOneIteration_covers_iff_at_free_combine :
    Covers [fun _ => ⟨1, 2, 1, 3, by decide, by decide, by decide, by decide⟩,
      fun _ => (⟨1, 2, 1, 0, by decide, by decide, by decide, by decide⟩ : StageTimes ℚ)]
      [⟨0, 0⟩, ⟨1, 1⟩] :=
  (runOneIteration_covers_iff _ (List.cons_ne_nil _ _) _).mpr fun _ => rfl

/-- One layer with a combine that takes one unit of time: the token and the iteration end at 2, the
combine at 3. -/
theorem last_combine_not_covered :
    ∃ layers : List (Fin 2 → StageTimes ℚ),
      layers = [fun _ => ⟨1, 0, 0, 1, by decide, by decide, by decide, by decide⟩] ∧
      runOneIteration layers [⟨0, 0⟩, ⟨1, 1⟩] = (2, [(0, 1), (1, 2)]) ∧
      (∃ x ∈ (schedule (buildTasks layers)).log,
        x.mb = 1 ∧ x.task.kind = .combine ∧ x.stop = 3) ∧
      ¬ Covers layers [⟨0, 0⟩, ⟨1, 1⟩] := by
  refine ⟨_, rfl, by decide +kernel, by decide +kernel, fun h => ?_⟩
  exact absurd h.makespan (by decide +kernel)

end Iteration

end Tbo

end StreamEP

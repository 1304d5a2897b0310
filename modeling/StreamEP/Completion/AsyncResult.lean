import StreamEP.Completion.Detokenizer
import StreamEP.Lib.Checked
import Mathlib.Data.List.Nodup
import Mathlib.Logic.Relation

/-!
# Waiting for a result

`AsyncResult` of `disagmoe/frontend/controller.py` is what a client gets for a request. `get` waits
on a condition, `put` stores the result and notifies the condition. The condition is waited for
without a predicate: a notification wakes up one task that waits at that moment, and is lost on
the others.

`asyncio.Condition` is a lock and a queue of waiters. All coroutines run on one event loop. A
coroutine that awaits something here has released the lock before, so the lock is free whenever
another one runs, and acquiring it does not suspend: what a coroutine does between two `await`s of
a notification is one step.

## Main results

* `AsyncResult.Inv.of_run` — who waits
* `AsyncResult.get_returns_iff` — when every `get` returns
-/

namespace StreamEP

open Relation

/-- `asyncio.Condition`: tasks are numbered. -/
structure Condition where
  locked : Bool
  /-- The tasks that wait for a notification, in order. -/
  waiters : List ℕ
deriving DecidableEq, Repr

namespace Condition

def init : Condition := ⟨false, []⟩

/-- `acquire`, when it does not suspend -/
def acquire (c : Condition) : Option Condition :=
  if c.locked then none else some { c with locked := true }

def release (c : Condition) : Except String Condition := do
  ensure (c.locked) "Lock is not acquired."
  return { c with locked := false }

/-- `wait`, up to the `await` of the notification: the lock is released. -/
def wait (c : Condition) (task : ℕ) : Except String Condition := do
  ensure (c.locked) "cannot wait on un-acquired lock"
  let c ← c.release
  return { c with waiters := c.waiters ++ [task] }

/-- `notify`, and the tasks that are woken up -/
def notify (c : Condition) (n : ℕ) : Except String (List ℕ × Condition) := do
  ensure (c.locked) "cannot notify on un-acquired lock"
  return (c.waiters.take n, { c with waiters := c.waiters.drop n })

end Condition

structure AsyncResult where
  finishCond : Condition
  sloStat : Option SloStat

namespace AsyncResult

def init : AsyncResult := ⟨.init, none⟩

/-- `get`, up to the `await` of the notification. `none`: it suspends on the lock. -/
def startGet (r : AsyncResult) (task : ℕ) : Option (Except String AsyncResult) :=
  r.finishCond.acquire.map fun cond => do
    let cond ← cond.wait task
    return { r with finishCond := cond }

/-- `get`, after the notification: the lock is acquired again and released, and the result is
returned. -/
def finishGet (r : AsyncResult) : Option (Except String (SloStat × AsyncResult)) :=
  r.finishCond.acquire.map fun cond => do
    let cond ← cond.release
    match r.sloStat with
    | some sloStat => return (sloStat, { r with finishCond := cond })
    | none => .error "AssertionError"

/-- `put`, and the tasks it wakes up: `notify` is called with its default, one task. -/
def put (r : AsyncResult) (sloStat : SloStat) : Option (Except String (List ℕ × AsyncResult)) :=
  r.finishCond.acquire.map fun cond => do
    let (woken, cond) ← cond.notify 1
    let cond ← cond.release
    return (woken, ⟨cond, some sloStat⟩)

/-! ### Tasks -/

inductive Phase
  /-- Before its call of `get`. -/
  | idle
  /-- In `finish_cond.wait()`. -/
  | waiting
  /-- Notified, and not yet resumed. -/
  | woken
  /-- `get` has returned. -/
  | returned (sloStat : SloStat)
deriving DecidableEq, Repr

/-- A result, the tasks that call `get` on it, and who called when. -/
structure State where
  result : AsyncResult
  phase : ℕ → Phase
  /-- The tasks that called `get` before `put`, in order. -/
  early : List ℕ
  /-- The tasks that called `get` after `put`, in order. -/
  late : List ℕ

def State.init : State := ⟨.init, fun _ => .idle, [], []⟩

/-- What a coroutine does up to its next `await`. -/
inductive Step : State → State → Prop
  /-- A task calls `get`. -/
  | get {s : State} {task : ℕ} {result : AsyncResult} (hphase : s.phase task = .idle)
      (h : s.result.startGet task = some (.ok result)) :
      Step s { s with
        result := result
        phase := Function.update s.phase task .waiting
        early := if s.result.sloStat.isNone then s.early ++ [task] else s.early
        late := if s.result.sloStat.isNone then s.late else s.late ++ [task] }
  /-- The result is put; there is one result. -/
  | put {s : State} {sloStat : SloStat} {woken : List ℕ} {result : AsyncResult}
      (hnone : s.result.sloStat = none) (h : s.result.put sloStat = some (.ok (woken, result))) :
      Step s { s with
        result := result
        phase := fun task => if task ∈ woken then .woken else s.phase task }
  /-- A task that was notified goes on. -/
  | resume {s : State} {task : ℕ} {sloStat : SloStat} {result : AsyncResult}
      (hphase : s.phase task = .woken) (h : s.result.finishGet = some (.ok (sloStat, result))) :
      Step s { s with
        result := result
        phase := Function.update s.phase task (.returned sloStat) }

/-! ### What the calls do -/

variable {r : AsyncResult}

theorem startGet_eq (hfree : r.finishCond.locked = false) (task : ℕ) :
    r.startGet task = some (.ok ⟨⟨false, r.finishCond.waiters ++ [task]⟩, r.sloStat⟩) := by
  simp [startGet, Condition.acquire, Condition.wait, Condition.release, hfree]

theorem put_eq (hfree : r.finishCond.locked = false) (sloStat : SloStat) :
    r.put sloStat = some (.ok (r.finishCond.waiters.take 1,
      ⟨⟨false, r.finishCond.waiters.drop 1⟩, some sloStat⟩)) := by
  simp [put, Condition.acquire, Condition.notify, Condition.release, hfree]

theorem finishGet_eq (hfree : r.finishCond.locked = false) {sloStat : SloStat}
    (hput : r.sloStat = some sloStat) : r.finishGet = some (.ok (sloStat, r)) := by
  obtain ⟨⟨locked, waiters⟩, stat⟩ := r
  dsimp only at hfree hput
  subst hfree hput
  rfl

/-! ### Who waits -/

structure Inv (s : State) : Prop where
  unlocked : s.result.finishCond.locked = false
  /-- Until the result is there, every task that has called waits, afterwards all but the first of
  them, and the ones that came late. -/
  waiters : s.result.finishCond.waiters =
    if s.result.sloStat.isNone then s.early else s.early.tail ++ s.late
  waiting : ∀ i, s.phase i = .waiting ↔ i ∈ s.result.finishCond.waiters
  late : s.result.sloStat = none → s.late = []
  nodup : s.result.finishCond.waiters.Nodup
  /-- A task is notified only once the result is there. -/
  woken : ∀ i, s.phase i = .woken → s.result.sloStat.isSome
  returned : ∀ i v, s.phase i = .returned v → s.result.sloStat = some v

namespace Inv

theorem init : Inv .init := by
  constructor <;> simp [State.init, AsyncResult.init, Condition.init]

variable {s : State}

theorem get (h : Inv s) {task : ℕ} {result : AsyncResult} (hphase : s.phase task = .idle)
    (hget : s.result.startGet task = some (.ok result)) :
    Inv { s with
      result := result
      phase := Function.update s.phase task .waiting
      early := if s.result.sloStat.isNone then s.early ++ [task] else s.early
      late := if s.result.sloStat.isNone then s.late else s.late ++ [task] } := by
  rw [startGet_eq h.unlocked] at hget
  obtain rfl := Except.ok.inj (Option.some.inj hget)
  have hnew : task ∉ s.result.finishCond.waiters := fun hmem => by
    rw [(h.waiting task).mpr hmem] at hphase
    cases hphase
  refine ⟨rfl, ?_, fun i => ?_, fun hnone => ?_, ?_, fun i hi => ?_, fun i v hi => ?_⟩
  · dsimp only
    rw [h.waiters]
    split_ifs <;> simp
  · by_cases hi : i = task
    · simp [hi]
    · simp [hi, h.waiting]
  · dsimp only at hnone ⊢
    rw [hnone]
    exact h.late hnone
  · refine List.Nodup.append h.nodup (List.nodup_singleton _) fun i hi hi' => ?_
    exact hnew (List.mem_singleton.mp hi' ▸ hi)
  · by_cases heq : i = task
    · simp [heq] at hi
    · exact h.woken i (by simpa [heq] using hi)
  · by_cases heq : i = task
    · simp [heq] at hi
    · exact h.returned i v (by simpa [heq] using hi)

theorem put (h : Inv s) {sloStat : SloStat} {woken : List ℕ} {result : AsyncResult}
    (hnone : s.result.sloStat = none)
    (hput : s.result.put sloStat = some (.ok (woken, result))) :
    Inv { s with
      result := result
      phase := fun task => if task ∈ woken then .woken else s.phase task } := by
  rw [put_eq h.unlocked] at hput
  obtain ⟨rfl, rfl⟩ := Prod.mk.inj (Except.ok.inj (Option.some.inj hput))
  have hwaiters := h.waiters
  rw [hnone] at hwaiters
  have hphase : ∀ {i : ℕ} {p : Phase},
      (if i ∈ s.result.finishCond.waiters.take 1 then .woken else s.phase i) = p → p ≠ .woken →
        s.phase i = p := by
    intro i p hi hp
    split_ifs at hi
    · exact absurd hi.symm hp
    · exact hi
  refine ⟨rfl, ?_, fun i => ?_, (by simp), h.nodup.sublist (List.drop_sublist 1 _),
    fun _ _ => rfl, fun i v hi => ?_⟩
  · simp [hwaiters, h.late hnone]
  · -- the first waiter is woken, and it is not among the others
    have hsplit := List.take_append_drop 1 s.result.finishCond.waiters
    have hnodup := h.nodup
    rw [← hsplit] at hnodup
    dsimp only
    split_ifs with hi
    · simp only [false_iff]
      exact fun hi' => (List.nodup_append.mp hnodup).2.2 i hi i hi' rfl
    · rw [h.waiting i]
      conv_lhs => rw [← hsplit]
      rw [List.mem_append, or_iff_right hi]
  · have hi' := h.returned i v (hphase hi (by simp))
    rw [hnone] at hi'
    cases hi'

theorem resume (h : Inv s) {task : ℕ} {sloStat : SloStat} {result : AsyncResult}
    (hphase : s.phase task = .woken)
    (hfinish : s.result.finishGet = some (.ok (sloStat, result))) :
    Inv { s with
      result := result
      phase := Function.update s.phase task (.returned sloStat) } := by
  obtain ⟨stat, hstat⟩ := Option.isSome_iff_exists.mp (h.woken task hphase)
  rw [finishGet_eq h.unlocked hstat] at hfinish
  obtain ⟨rfl, rfl⟩ := Prod.mk.inj (Except.ok.inj (Option.some.inj hfinish))
  refine ⟨h.unlocked, h.waiters, fun i => ?_, h.late, h.nodup, fun i hi => ?_, fun i v hi => ?_⟩
  · by_cases hi : i = task
    · subst hi
      have hnot : i ∉ s.result.finishCond.waiters := fun hmem => by
        rw [(h.waiting i).mpr hmem] at hphase
        cases hphase
      simp [hnot]
    · simp [hi, h.waiting]
  · by_cases heq : i = task
    · simp [heq] at hi
    · exact h.woken i (by simpa [heq] using hi)
  · by_cases heq : i = task
    · simp only [heq, Function.update_self, Phase.returned.injEq] at hi
      exact hi ▸ hstat
    · exact h.returned i v (by simpa [heq] using hi)

theorem step (h : Inv s) {s' : State} (hstep : Step s s') : Inv s' := by
  cases hstep with
  | get hphase hget => exact h.get hphase hget
  | put hnone hput => exact h.put hnone hput
  | resume hphase hfinish => exact h.resume hphase hfinish

theorem of_run (hrun : ReflTransGen Step .init s) : Inv s := by
  induction hrun with
  | refl => exact init
  | tail _ hstep ih => exact ih.step hstep

/-- A step after the result is there leaves a waiting task waiting. -/
theorem stuck_step (h : Inv s) {s' : State} (hstep : Step s s') {i : ℕ}
    (hput : s.result.sloStat.isSome) (hi : s.phase i = .waiting) :
    s'.result.sloStat.isSome ∧ s'.phase i = .waiting := by
  cases hstep with
  | @get task _ hphase hget =>
    rw [startGet_eq h.unlocked] at hget
    obtain rfl := Except.ok.inj (Option.some.inj hget)
    refine ⟨hput, ?_⟩
    by_cases heq : i = task
    · simp [heq]
    · simp [heq, hi]
  | put hnone => simp [hnone] at hput
  | @resume task _ _ hphase hfinish =>
    obtain ⟨stat, hstat⟩ := Option.isSome_iff_exists.mp hput
    rw [finishGet_eq h.unlocked hstat] at hfinish
    obtain ⟨rfl, rfl⟩ := Prod.mk.inj (Except.ok.inj (Option.some.inj hfinish))
    have hne : i ≠ task := fun heq => by
      rw [heq, hphase] at hi
      cases hi
    exact ⟨hput, by simp [hne, hi]⟩

theorem stuck_of_run {s' : State} (h : Inv s) (hrun : ReflTransGen Step s s') {i : ℕ}
    (hput : s.result.sloStat.isSome) (hi : s.phase i = .waiting) : s'.phase i = .waiting := by
  have hall : Inv s' ∧ s'.result.sloStat.isSome ∧ s'.phase i = .waiting := by
    induction hrun with
    | refl => exact ⟨h, hput, hi⟩
    | tail _ hstep ih => exact ⟨ih.1.step hstep, ih.1.stuck_step hstep ih.2.1 ih.2.2⟩
  exact hall.2.2

end Inv

/-- **When every `get` returns.** Once the result is there, no task is blocked exactly when at most
one task has called `get`, and it did so before; a task that is blocked stays so. A task that was
woken can go on, and what is returned is the result. -/
theorem get_returns_iff {s : State} (hrun : ReflTransGen Step .init s) {sloStat : SloStat}
    (hput : s.result.sloStat = some sloStat) :
    ((∀ i, s.phase i ≠ .waiting) ↔ s.early.length ≤ 1 ∧ s.late = []) ∧
      (∀ i, s.phase i = .waiting → ∀ s', ReflTransGen Step s s' → s'.phase i = .waiting) ∧
      (∀ i, s.phase i = .woken → ∃ s', Step s s' ∧ s'.phase i = .returned sloStat) ∧
      ∀ i v, s.phase i = .returned v → v = sloStat := by
  have h := Inv.of_run hrun
  refine ⟨?_, fun i hi s' hrun' => h.stuck_of_run hrun' (by rw [hput]; rfl) hi, fun i hi => ?_,
    fun i v hi => ?_⟩
  · have hwaiters := h.waiters
    rw [hput] at hwaiters
    have hblocked : (∀ i, s.phase i ≠ .waiting) ↔ s.result.finishCond.waiters = [] := by
      rw [List.eq_nil_iff_forall_not_mem]
      exact forall_congr' fun i => not_congr (h.waiting i)
    rw [hblocked, hwaiters]
    simp only [Option.isNone_some, Bool.false_eq_true, if_false, List.append_eq_nil_iff]
    refine and_congr_left fun _ => ?_
    cases s.early with
    | nil => simp
    | cons i rest => simp
  · exact ⟨_, .resume hi (finishGet_eq h.unlocked hput), Function.update_self ..⟩
  · exact Option.some.inj ((h.returned i v hi).symm.trans hput)

def someStat : SloStat := ⟨1, 0, 0, 0, [], none⟩

theorem get_returns_one_waiter :
    ∃ s, ReflTransGen Step .init s ∧ s.result.sloStat = some someStat ∧
      s.phase 0 = .returned someStat ∧ ∀ i, s.phase i ≠ .waiting := by
  have hrun : ReflTransGen Step .init _ :=
    ((ReflTransGen.refl.tail (@Step.get _ 0 _ rfl rfl)).tail
      (@Step.put _ someStat _ _ rfl rfl)).tail (@Step.resume _ 0 _ _ rfl rfl)
  exact ⟨_, hrun, rfl, rfl, (get_returns_iff hrun rfl).1.mpr ⟨by decide, rfl⟩⟩

/-- A task that calls `get` after `put`, and the second of two tasks that call it before: both
wait, whatever happens. -/
theorem get_never_returns :
    (∃ s, ReflTransGen Step .init s ∧ s.result.sloStat = some someStat ∧ s.late = [0] ∧
      ∀ s', ReflTransGen Step s s' → s'.phase 0 = .waiting) ∧
    ∃ s, ReflTransGen Step .init s ∧ s.result.sloStat = some someStat ∧ s.early = [0, 1] ∧
      ∀ s', ReflTransGen Step s s' → s'.phase 1 = .waiting := by
  constructor
  · have hrun : ReflTransGen Step .init _ :=
      (ReflTransGen.refl.tail (@Step.put _ someStat _ _ rfl rfl)).tail (@Step.get _ 0 _ rfl rfl)
    exact ⟨_, hrun, rfl, rfl, fun s' h => (Inv.of_run hrun).stuck_of_run h rfl rfl⟩
  · have hrun : ReflTransGen Step .init _ :=
      ((ReflTransGen.refl.tail (@Step.get _ 0 _ rfl rfl)).tail (@Step.get _ 1 _ rfl rfl)).tail
        (@Step.put _ someStat _ _ rfl rfl)
    exact ⟨_, hrun, rfl, rfl, fun s' h => (Inv.of_run hrun).stuck_of_run h rfl rfl⟩

end AsyncResult

end StreamEP

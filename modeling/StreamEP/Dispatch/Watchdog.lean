import Mathlib.Data.List.Nodup
import Mathlib.Logic.Function.Basic
import Mathlib.Logic.Relation

/-!
# The watchdog of the send loop

`MuDispatcher::run` of `csrc/muhelper/muhelper.cpp` keeps the sends whose event has not completed
in the queue `pending_sends`. In every round it takes completed sends from the front
(`clean_pending_sends`), and before every send it waits until there is room
(`drain_pending_sends_to`). The first loop counts how often it finds the front not ready, and
aborts when it did so too often. It starts counting again when it takes a send out itself. The
second loop takes sends out too, and does not touch the counter.

Which events complete, and when, is left to the environment. A piece for a NIXL channel is sent in
another way and leaves no entry in the queue.

## Main results

* `Watchdog.Alive.step` — the counter belongs to the front
* `Watchdog.aborts_iff` — without such takeovers the watchdog fires exactly on a stuck send
-/

namespace StreamEP

namespace Watchdog

open Relation

/-- What `cudaEventQuery` says about an event. -/
inductive EventStatus
  | success
  | notReady
  | error
deriving DecidableEq, Repr

/-- Where `run` is. A batch that is sent is a list of pieces, `true` for one on a NIXL channel. -/
inductive Phase
  /-- At the head of the loop. -/
  | top
  /-- In `clean_pending_sends`. -/
  | clean
  /-- Waiting for `send_queue`. -/
  | fetch
  /-- In `_send_once`, with these pieces left. -/
  | send (pieces : List Bool)
  | stopped
  | failed (message : String)
deriving DecidableEq, Repr

def spinMessage : String := "spin count too large"

structure State where
  phase : Phase
  endFlag : Bool
  sendQueue : List (List Bool)
  /-- `pending_sends`: the sends are numbered. -/
  pendingSends : List ℕ
  spinCount : ℕ
  events : ℕ → EventStatus
  numSends : ℕ
  /-- How often `clean_pending_sends` found a send not ready at the front. -/
  found : ℕ → ℕ

namespace State

def init : State := ⟨.top, false, [], [], 0, fun _ => .notReady, 0, fun _ => 0⟩

/-- `clean_pending_sends` finds send `i` at the front not ready. -/
def spin (s : State) (i : ℕ) : State :=
  let found := Function.update s.found i (s.found i + 1)
  if s.spinCount + 1 > 10000 then
    { s with
      phase := .failed spinMessage
      pendingSends := []
      spinCount := s.spinCount + 1
      found := found }
  else { s with phase := .fetch, spinCount := s.spinCount + 1, found := found }

/-- The end of `send_batch_nonblocking`: a piece that is not for a NIXL channel is recorded. -/
def push (s : State) (isNixl : Bool) (pieces : List Bool) : State :=
  if isNixl then { s with phase := .send pieces }
  else { s with
    phase := .send pieces
    pendingSends := s.pendingSends ++ [s.numSends]
    numSends := s.numSends + 1 }

end State

/-- A step of the loop or of its environment, for `max_pending_sends_` and runs in which
`drain_pending_sends_to` takes out a send only in states that are `MayDrain`. -/
inductive Step (maxPendingSends : ℕ) (MayDrain : State → Prop) : State → State → Prop
  | put {s : State} (batch : List Bool) :
      Step _ _ s { s with sendQueue := s.sendQueue ++ [batch] }
  /-- The end flag is set. -/
  | terminate {s : State} : Step _ _ s { s with endFlag := true }
  /-- The event of a send completes. -/
  | complete {s : State} {i : ℕ} {status : EventStatus} (hi : i < s.numSends)
      (hstatus : s.events i = .notReady) :
      Step _ _ s { s with events := Function.update s.events i status }
  | enter {s : State} (hphase : s.phase = .top) (hflag : s.endFlag = false) :
      Step _ _ s { s with phase := .clean }
  | leave {s : State} (hphase : s.phase = .top) (hflag : s.endFlag = true) :
      Step _ _ s { s with phase := .stopped }
  /-- `clean_pending_sends`: no send is pending. -/
  | cleanEmpty {s : State} (hphase : s.phase = .clean) (hpending : s.pendingSends = []) :
      Step _ _ s { s with phase := .fetch }
  /-- It takes out the front. -/
  | cleanPop {s : State} {i : ℕ} {rest : List ℕ} (hphase : s.phase = .clean)
      (hpending : s.pendingSends = i :: rest) (hstatus : s.events i = .success) :
      Step _ _ s { s with pendingSends := rest, spinCount := 0 }
  /-- It finds the front not ready. -/
  | cleanSpin {s : State} {i : ℕ} {rest : List ℕ} (hphase : s.phase = .clean)
      (hpending : s.pendingSends = i :: rest) (hstatus : s.events i = .notReady) :
      Step _ _ s (s.spin i)
  | cleanError {s : State} {i : ℕ} {rest : List ℕ} (hphase : s.phase = .clean)
      (hpending : s.pendingSends = i :: rest) (hstatus : s.events i = .error) :
      Step _ _ s { s with phase := .failed "Failed to query cuda event" }
  /-- A batch is taken from `send_queue`. -/
  | fetch {s : State} {batch : List Bool} {rest : List (List Bool)} (hphase : s.phase = .fetch)
      (hqueue : s.sendQueue = batch :: rest) :
      Step _ _ s { s with phase := .send batch, sendQueue := rest }
  /-- `drain_pending_sends_to`: while there is no room it takes out a front that is ready, and
  leaves the counter alone. -/
  | drainPop {s : State} {i : ℕ} {rest : List ℕ} {isNixl : Bool} {pieces : List Bool}
      (hphase : s.phase = .send (isNixl :: pieces))
      (hfull : maxPendingSends ≤ s.pendingSends.length) (hpending : s.pendingSends = i :: rest)
      (hstatus : s.events i = .success) (hdrain : MayDrain s) :
      Step _ _ s { s with pendingSends := rest }
  /-- There is room, and a piece is sent. -/
  | push {s : State} {isNixl : Bool} {pieces : List Bool}
      (hphase : s.phase = .send (isNixl :: pieces))
      (hroom : s.pendingSends.length < maxPendingSends) : Step _ _ s (s.push isNixl pieces)
  | sent {s : State} (hphase : s.phase = .send []) : Step _ _ s { s with phase := .top }

/-! ### The counter belongs to the front -/

/-- What the counter should be: how often the front was found not ready. -/
def State.foundAtFront (s : State) : ℕ := (s.pendingSends.head?.map s.found).getD 0

structure Alive (s : State) : Prop where
  phase : s.phase ≠ .failed spinMessage
  spin : s.spinCount = s.foundAtFront
  /-- Sends behind the front were not looked at. -/
  behind : ∀ i ∈ s.pendingSends.tail, s.found i = 0
  fresh : ∀ i, s.numSends ≤ i → s.found i = 0
  lt : ∀ i ∈ s.pendingSends, i < s.numSends
  nodup : s.pendingSends.Nodup
  /-- No send was found not ready too often. -/
  found_le : ∀ i, s.found i ≤ 10000

/-- The watchdog has not fired, or there is a stuck send. -/
def Inv (s : State) : Prop :=
  Alive s ∨ s.phase = .failed spinMessage ∧ ∃ i, 10000 < s.found i

namespace Alive

theorem init : Alive .init where
  phase := by simp [State.init]
  spin := rfl
  behind := by simp [State.init]
  fresh := fun _ _ => rfl
  lt := by simp [State.init]
  nodup := List.nodup_nil
  found_le := fun _ => Nat.zero_le _

variable {s : State}

/-- Only the phase and what the counter does not depend on changes. -/
theorem congr {s' : State} (h : Alive s) (hphase : s'.phase ≠ .failed spinMessage)
    (hpending : s'.pendingSends = s.pendingSends) (hspin : s'.spinCount = s.spinCount)
    (hnum : s'.numSends = s.numSends) (hfound : s'.found = s.found) : Alive s' where
  phase := hphase
  spin := by rw [hspin, h.spin, State.foundAtFront, State.foundAtFront, hpending, hfound]
  behind := by rw [hpending, hfound]; exact h.behind
  fresh := by rw [hnum, hfound]; exact h.fresh
  lt := by rw [hpending, hnum]; exact h.lt
  nodup := hpending ▸ h.nodup
  found_le := hfound ▸ h.found_le

theorem pop (h : Alive s) {i : ℕ} {rest : List ℕ} (hpending : s.pendingSends = i :: rest) :
    Alive { s with pendingSends := rest, spinCount := 0 } := by
  have hbehind := h.behind
  rw [hpending, List.tail_cons] at hbehind
  refine ⟨h.phase, ?_, fun j hj => hbehind j (List.mem_of_mem_tail hj), h.fresh,
    fun j hj => h.lt j (hpending ▸ List.mem_cons_of_mem _ hj), (hpending ▸ h.nodup).of_cons,
    h.found_le⟩
  -- the next send was behind the front
  cases rest with
  | nil => rfl
  | cons j rest => exact (hbehind j List.mem_cons_self).symm

theorem push (h : Alive s) (isNixl : Bool) (pieces : List Bool) :
    Alive (s.push isNixl pieces) := by
  rw [State.push]
  split_ifs
  · exact h.congr (by simp) rfl rfl rfl rfl
  · have hnew := h.fresh s.numSends (Nat.le_refl _)
    refine ⟨by simp, ?_, ?_, fun i hi => h.fresh i (Nat.le_of_succ_le hi), ?_, ?_, h.found_le⟩
    · show s.spinCount = _
      rw [h.spin, State.foundAtFront, State.foundAtFront]
      cases hpending : s.pendingSends with
      | nil => simp [hnew]
      | cons i rest => rfl
    · cases hpending : s.pendingSends with
      | nil => simp
      | cons i rest =>
        have hbehind := h.behind
        rw [hpending] at hbehind
        simpa [or_imp, forall_and, hnew] using hbehind
    · intro i hi
      rcases List.mem_append.mp hi with hi | hi
      · exact Nat.lt_succ_of_lt (h.lt i hi)
      · exact List.mem_singleton.mp hi ▸ Nat.lt_succ_self _
    · refine List.Nodup.append h.nodup (List.nodup_singleton _) fun i hi hi' => ?_
      exact absurd (h.lt i hi) (List.mem_singleton.mp hi' ▸ Nat.lt_irrefl _)

theorem spin_step (h : Alive s) {i : ℕ} {rest : List ℕ} (hpending : s.pendingSends = i :: rest) :
    Inv (s.spin i) := by
  have hcount : s.spinCount = s.found i := by
    rw [h.spin, State.foundAtFront, hpending]
    rfl
  have hnodup := List.nodup_cons.mp (hpending ▸ h.nodup)
  have hother : ∀ j ∈ rest, Function.update s.found i (s.found i + 1) j = s.found j :=
    fun j hj => Function.update_of_ne (fun hji : j = i => hnodup.1 (hji ▸ hj)) _ _
  rw [State.spin]
  split_ifs with hlarge
  · exact .inr ⟨rfl, i, by simpa [← hcount] using hlarge⟩
  · refine .inl ⟨by simp, ?_, ?_, fun j hj => ?_, h.lt, h.nodup, fun j => ?_⟩
    · rw [State.foundAtFront]
      simp [hpending, hcount]
    · intro j hj
      have hbehind := h.behind
      rw [hpending] at hbehind
      dsimp only at hj ⊢
      rw [hpending] at hj
      rw [hother j hj]
      exact hbehind j hj
    · have hne : j ≠ i := fun hji => by
        have := h.lt i (hpending ▸ List.mem_cons_self)
        dsimp only at hj
        omega
      exact (Function.update_of_ne hne _ _).trans (h.fresh j hj)
    · by_cases hj : j = i
      · subst hj
        simp only [Function.update_self]
        omega
      · simpa only [Function.update_of_ne hj] using h.found_le j

/-- **A step of the loop** that drains only with the counter at zero. -/
theorem step (h : Alive s) {maxPending : ℕ} {s' : State}
    (hstep : Step maxPending (·.spinCount = 0) s s') : Inv s' := by
  cases hstep with
  | put => exact .inl (h.congr h.phase rfl rfl rfl rfl)
  | terminate => exact .inl (h.congr h.phase rfl rfl rfl rfl)
  | complete => exact .inl (h.congr h.phase rfl rfl rfl rfl)
  | enter => exact .inl (h.congr (by simp) rfl rfl rfl rfl)
  | leave => exact .inl (h.congr (by simp) rfl rfl rfl rfl)
  | cleanEmpty => exact .inl (h.congr (by simp) rfl rfl rfl rfl)
  | cleanPop _ hpending => exact .inl (h.pop hpending)
  | cleanSpin _ hpending => exact h.spin_step hpending
  | cleanError => exact .inl (h.congr (by simp [spinMessage]) rfl rfl rfl rfl)
  | fetch => exact .inl (h.congr (by simp) rfl rfl rfl rfl)
  | drainPop _ _ hpending _ hdrain =>
    have hpop := h.pop hpending
    exact .inl (hpop.congr h.phase rfl hdrain rfl rfl)
  | push => exact .inl (h.push _ _)
  | sent => exact .inl (h.congr (by simp) rfl rfl rfl rfl)

end Alive

theorem Step.of_failed {maxPending : ℕ} {MayDrain : State → Prop} {s s' : State} {message : String}
    (h : Step maxPending MayDrain s s') (hphase : s.phase = .failed message) :
    s'.phase = .failed message ∧ s'.found = s.found := by
  cases h with
  | put => exact ⟨hphase, rfl⟩
  | terminate => exact ⟨hphase, rfl⟩
  | complete => exact ⟨hphase, rfl⟩
  | _ => simp_all

theorem Inv.of_run {maxPending : ℕ} {s : State}
    (h : ReflTransGen (Step maxPending (·.spinCount = 0)) .init s) : Inv s := by
  induction h with
  | refl => exact .inl .init
  | tail _ hstep ih =>
    rcases ih with halive | ⟨hphase, i, hi⟩
    · exact halive.step hstep
    · obtain ⟨hphase', hfound⟩ := hstep.of_failed hphase
      exact .inr ⟨hphase', i, hfound ▸ hi⟩

/-- **The watchdog fires exactly on a stuck send**, in every run in which
`drain_pending_sends_to` takes out sends only while `spin_count` is zero. -/
theorem aborts_iff {maxPendingSends : ℕ} {s : State}
    (h : ReflTransGen (Step maxPendingSends (·.spinCount = 0)) .init s) :
    s.phase = .failed spinMessage ↔ ∃ i, 10000 < s.found i := by
  rcases Inv.of_run h with halive | ⟨hphase, hstuck⟩
  · refine ⟨fun hphase => absurd hphase halive.phase, fun ⟨i, hi⟩ => ?_⟩
    exact absurd (halive.found_le i) (Nat.not_le_of_lt hi)
  · exact ⟨fun _ => hstuck, fun _ => hphase⟩

/-- With room for one send, the first of two pieces is taken out by `drain_pending_sends_to`, and
the second one is found not ready. -/
theorem aborts_iff_one_wait :
    ∃ s, ReflTransGen (Step 1 (·.spinCount = 0)) .init s ∧ s.pendingSends = [1] ∧
      s.found 1 = 1 ∧ (s.phase = .failed spinMessage ↔ ∃ i, 10000 < s.found i) := by
  have hpush : ReflTransGen (Step 1 (·.spinCount = 0)) .init _ :=
    ((((ReflTransGen.refl.tail (.put [false, false])).tail (.enter rfl rfl)).tail
      (.cleanEmpty rfl rfl)).tail (.fetch rfl rfl)).tail (.push rfl (by decide))
  have hready := hpush.tail (@Step.complete 1 _ _ 0 .success Nat.one_pos rfl)
  have hdrain := hready.tail (.drainPop rfl (Nat.le_refl 1) rfl rfl rfl)
  have hrun := (((hdrain.tail (.push rfl (by decide))).tail (.sent rfl)).tail
    (.enter rfl rfl)).tail (.cleanSpin rfl rfl rfl)
  exact ⟨_, hrun, rfl, rfl, aborts_iff hrun⟩

/-! ### Sends that take turns -/

/-- Send `n` is pending and was not looked at; the counter stands at `n`. -/
def turn (n : ℕ) (events : ℕ → EventStatus) (found : ℕ → ℕ) : State :=
  ⟨.clean, false, [], [n], n, events, n + 1, found⟩

/-- With room for one send, every send is found not ready once and then taken out by
`drain_pending_sends_to`. -/
theorem exists_turn {n : ℕ} (hn : n ≤ 10000) :
    ∃ events found, ReflTransGen (Step 1 fun _ => True) .init (turn n events found) ∧
      (∀ i, n ≤ i → events i = .notReady ∧ found i = 0) ∧ ∀ i, found i ≤ 1 := by
  induction n with
  | zero =>
    refine ⟨fun _ => .notReady, fun _ => 0, ?_, fun _ _ => ⟨rfl, rfl⟩, fun _ => Nat.zero_le _⟩
    exact ((((((ReflTransGen.refl.tail (.put [false])).tail (.enter rfl rfl)).tail
      (.cleanEmpty rfl rfl)).tail (.fetch rfl rfl)).tail (.push rfl (by decide))).tail
      (.sent rfl)).tail (.enter rfl rfl)
  | succ n ih =>
    obtain ⟨events, found, hrun, hlater, hle⟩ := ih (Nat.le_of_succ_le hn)
    have hspin : (turn n events found).spin n =
        { turn n events found with
          phase := .fetch
          spinCount := n + 1
          found := Function.update found n (found n + 1) } := by
      rw [State.spin, if_neg (by simp only [turn]; omega)]
      rfl
    have hwait := hrun.tail (.cleanSpin rfl rfl (hlater n (Nat.le_refl n)).1)
    rw [hspin] at hwait
    refine ⟨Function.update events n .success, Function.update found n (found n + 1), ?_,
      fun i hi => ?_, fun i => ?_⟩
    · exact ((((((hwait.tail (.put [false])).tail (.fetch rfl rfl)).tail
        (.complete (Nat.lt_succ_self n) (hlater n (Nat.le_refl n)).1)).tail
        (.drainPop rfl (Nat.le_refl 1) rfl (Function.update_self ..) trivial)).tail
        (.push rfl Nat.one_pos)).tail (.sent rfl)).tail (.enter rfl rfl)
    · have hne : i ≠ n := by omega
      rw [Function.update_of_ne hne, Function.update_of_ne hne]
      exact hlater i (by omega)
    · by_cases hi : i = n
      · have hfound : found n = 0 := (hlater n (Nat.le_refl n)).2
        rw [hi, Function.update_self]
        omega
      · rw [Function.update_of_ne hi]
        exact hle i

/-- The watchdog fires although no send was found not ready more than once. -/
theorem aborts_without_stuck_send :
    ∃ s, ReflTransGen (Step 1 fun _ => True) .init s ∧ s.phase = .failed "spin count too large" ∧
      ∀ i, s.found i ≤ 1 := by
  obtain ⟨events, found, hrun, hlater, hle⟩ := exists_turn (Nat.le_refl 10000)
  refine ⟨_, hrun.tail (.cleanSpin rfl rfl (hlater 10000 (Nat.le_refl _)).1), ?_, fun i => ?_⟩
  · rw [State.spin, if_pos (by simp [turn])]
    rfl
  · rw [State.spin, if_pos (by simp [turn])]
    by_cases hi : i = 10000
    · rw [hi]
      simp [turn, (hlater 10000 (Nat.le_refl _)).2]
    · simp [turn, hi, hle i]

end Watchdog

end StreamEP

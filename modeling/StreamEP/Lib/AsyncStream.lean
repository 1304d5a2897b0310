import Mathlib.Data.List.Basic

/-!
# Host writes beside an in-order stream

A host enqueues operations on a stream that executes them in order, with any delay. The host also
writes memory cells that operations read, and those writes do not go through the stream: a write
takes effect at once, whatever is still queued. The only way for the host to learn how far the
stream is, is to record an event on it and to wait for that event.

A host is *disciplined* when an operation only reads cells that were written after the last event
recorded. Then a write that precedes an event is read before that event only, so waiting for the
event is enough to write the cell again. The position of an event counts the operations up to the
event itself, and the position of a write those enqueued before it.
-/

namespace StreamEP

/-- A stream of operations, each with the cells it reads. -/
structure AsyncStream (Cell : Type) where
  ops : List (List Cell)
  retired : ℕ
  /-- The cells the host has written, and where the stream ended at that time. -/
  writes : List (Cell × ℕ)
  events : List ℕ
  /-- The events the host has waited for. -/
  waited : List ℕ

namespace AsyncStream

variable {Cell : Type}

def init : AsyncStream Cell := ⟨[], 0, [], [], []⟩

def write (s : AsyncStream Cell) (c : Cell) : AsyncStream Cell :=
  { s with writes := s.writes ++ [(c, s.ops.length)] }

def enqueue (s : AsyncStream Cell) (ops : List (List Cell)) : AsyncStream Cell :=
  { s with ops := s.ops ++ ops }

/-- The event that `record` records. -/
def nextEvent (s : AsyncStream Cell) : ℕ := s.ops.length + 1

/-- The host records an event, which takes a place on the stream. -/
def record (s : AsyncStream Cell) : AsyncStream Cell :=
  { s with ops := s.ops ++ [[]], events := s.events ++ [s.nextEvent] }

/-- The host has waited for an event. -/
def wait (s : AsyncStream Cell) (event : ℕ) : AsyncStream Cell :=
  { s with waited := s.waited ++ [event] }

def retire (s : AsyncStream Cell) : AsyncStream Cell :=
  { s with retired := s.retired + 1 }

/-- Every operation that reads the cell has retired. -/
def Quiet (s : AsyncStream Cell) (c : Cell) : Prop := ∀ reads ∈ s.ops.drop s.retired, c ∉ reads

/-- The cell was written after the last event. -/
def Fresh (s : AsyncStream Cell) (c : Cell) : Prop :=
  ∃ p, (c, p) ∈ s.writes ∧ ∀ e ∈ s.events, e ≤ p

/-- The host has waited for an event after the position. -/
def Passed (s : AsyncStream Cell) (p : ℕ) : Prop := ∃ e ∈ s.waited, p < e

instance (s : AsyncStream Cell) (p : ℕ) : Decidable (s.Passed p) :=
  inferInstanceAs (Decidable (∃ e ∈ s.waited, p < e))

@[simp] theorem writes_write (s : AsyncStream Cell) (c : Cell) :
    (s.write c).writes = s.writes ++ [(c, s.ops.length)] := rfl

@[simp] theorem writes_enqueue (s : AsyncStream Cell) (ops : List (List Cell)) :
    (s.enqueue ops).writes = s.writes := rfl

@[simp] theorem writes_record (s : AsyncStream Cell) : s.record.writes = s.writes := rfl

@[simp] theorem writes_wait (s : AsyncStream Cell) (e : ℕ) : (s.wait e).writes = s.writes := rfl

@[simp] theorem writes_retire (s : AsyncStream Cell) : s.retire.writes = s.writes := rfl

theorem Passed.wait {s : AsyncStream Cell} {p : ℕ} (h : s.Passed p) (e : ℕ) :
    (s.wait e).Passed p := by
  obtain ⟨e', he', hp⟩ := h
  exact ⟨e', List.mem_append_left _ he', hp⟩

theorem passed_wait (s : AsyncStream Cell) {p e : ℕ} (h : p < e) : (s.wait e).Passed p :=
  ⟨e, List.mem_append_right _ (List.mem_singleton.2 rfl), h⟩

theorem Passed.mono {s : AsyncStream Cell} {p q : ℕ} (h : s.Passed q) (hpq : p ≤ q) :
    s.Passed p := by
  obtain ⟨e, he, hq⟩ := h
  exact ⟨e, he, Nat.lt_of_le_of_lt hpq hq⟩

structure Disciplined (s : AsyncStream Cell) : Prop where
  retired_le : s.retired ≤ s.ops.length
  events_le : ∀ e ∈ s.events, e ≤ s.ops.length
  /-- A wait returns when the event has retired. -/
  waited_le : ∀ e ∈ s.waited, e ≤ s.retired
  waited_events : ∀ e ∈ s.waited, e ∈ s.events
  /-- Writes are made where the stream has been. -/
  writes_le : ∀ x ∈ s.writes, x.2 ≤ s.ops.length
  /-- An operation that reads a cell stands after a write of the cell and before the events
  recorded after that write. -/
  reads : ∀ (i : ℕ) reads (c : Cell), s.ops[i]? = some reads → c ∈ reads →
    ∃ p, (c, p) ∈ s.writes ∧ p ≤ i ∧ ∀ e ∈ s.events, p < e → i < e

namespace Disciplined

variable {s : AsyncStream Cell}

theorem init : Disciplined (init : AsyncStream Cell) where
  retired_le := Nat.le_refl 0
  events_le := by rintro e ⟨⟩
  waited_le := by rintro e ⟨⟩
  waited_events := by rintro e ⟨⟩
  writes_le := by rintro x ⟨⟩
  reads i reads c h := by simp [AsyncStream.init] at h

theorem quiet (hs : Disciplined s) {c : Cell} (h : ∀ p, (c, p) ∈ s.writes → s.Passed p) :
    s.Quiet c := by
  intro reads hreads hc
  obtain ⟨k, hk⟩ := List.mem_iff_getElem?.1 hreads
  rw [List.getElem?_drop] at hk
  obtain ⟨p, hp, -, hbefore⟩ := hs.reads _ reads c hk hc
  obtain ⟨e, he, hpe⟩ := h p hp
  have hlt := hbefore e (hs.waited_events e he) hpe
  have hle := hs.waited_le e he
  omega

theorem write (hs : Disciplined s) (c : Cell) : Disciplined (s.write c) where
  retired_le := hs.retired_le
  events_le := hs.events_le
  waited_le := hs.waited_le
  waited_events := hs.waited_events
  writes_le x hx := by
    rcases List.mem_append.1 hx with hx | hx
    · exact hs.writes_le x hx
    · rw [List.mem_singleton.1 hx]
      exact Nat.le_refl _
  reads i reads c' hi hc' := by
    obtain ⟨p, hp, h⟩ := hs.reads i reads c' hi hc'
    exact ⟨p, List.mem_append_left _ hp, h⟩

theorem fresh_write (hs : Disciplined s) (c : Cell) : (s.write c).Fresh c :=
  ⟨s.ops.length, List.mem_append_right _ (List.mem_singleton.2 rfl), hs.events_le⟩

theorem enqueue (hs : Disciplined s) {ops : List (List Cell)}
    (hfresh : ∀ reads ∈ ops, ∀ c ∈ reads, s.Fresh c) : Disciplined (s.enqueue ops) where
  retired_le := Nat.le_trans hs.retired_le (by simp [AsyncStream.enqueue])
  events_le e he := Nat.le_trans (hs.events_le e he) (by simp [AsyncStream.enqueue])
  waited_le := hs.waited_le
  waited_events := hs.waited_events
  writes_le x hx := Nat.le_trans (hs.writes_le x hx) (by simp [AsyncStream.enqueue])
  reads i reads c hi hc := by
    rcases Nat.lt_or_ge i s.ops.length with hlt | hge
    · rw [AsyncStream.enqueue, List.getElem?_append_left hlt] at hi
      exact hs.reads i reads c hi hc
    · rw [AsyncStream.enqueue, List.getElem?_append_right hge] at hi
      obtain ⟨p, hp, hlast⟩ := hfresh reads (List.mem_of_getElem? hi) c hc
      refine ⟨p, hp, Nat.le_trans (hs.writes_le _ hp) hge, fun e he hpe => ?_⟩
      have := hlast e he
      omega

theorem record (hs : Disciplined s) : Disciplined s.record where
  retired_le := Nat.le_trans hs.retired_le (by simp [AsyncStream.record])
  events_le e he := by
    simp only [AsyncStream.record, List.length_append, List.length_singleton]
    rcases List.mem_append.1 he with he | he
    · exact Nat.le_succ_of_le (hs.events_le e he)
    · rw [List.mem_singleton.1 he]
      exact Nat.le_refl _
  waited_le := hs.waited_le
  waited_events e he := List.mem_append_left _ (hs.waited_events e he)
  writes_le x hx := Nat.le_trans (hs.writes_le x hx) (by simp [AsyncStream.record])
  reads i reads c hi hc := by
    rcases Nat.lt_or_ge i s.ops.length with hlt | hge
    · rw [AsyncStream.record, List.getElem?_append_left hlt] at hi
      obtain ⟨p, hp, hle, hbefore⟩ := hs.reads i reads c hi hc
      refine ⟨p, hp, hle, fun e he hpe => ?_⟩
      rcases List.mem_append.1 he with he | he
      · exact hbefore e he hpe
      · rw [List.mem_singleton.1 he]
        exact Nat.lt_succ_of_lt hlt
    · -- the place of the event reads nothing
      rw [AsyncStream.record, List.getElem?_append_right hge] at hi
      have hreads := List.mem_singleton.1 (List.mem_of_getElem? hi)
      subst hreads
      cases hc

theorem wait (hs : Disciplined s) {e : ℕ} (he : e ∈ s.events) (hle : e ≤ s.retired) :
    Disciplined (s.wait e) where
  retired_le := hs.retired_le
  events_le := hs.events_le
  waited_le e' he' := by
    rcases List.mem_append.1 he' with he' | he'
    · exact hs.waited_le e' he'
    · rwa [List.mem_singleton.1 he']
  waited_events e' he' := by
    rcases List.mem_append.1 he' with he' | he'
    · exact hs.waited_events e' he'
    · rwa [List.mem_singleton.1 he']
  writes_le := hs.writes_le
  reads := hs.reads

theorem retire (hs : Disciplined s) (hlt : s.retired < s.ops.length) : Disciplined s.retire where
  retired_le := hlt
  events_le := hs.events_le
  waited_le e he := Nat.le_succ_of_le (hs.waited_le e he)
  waited_events := hs.waited_events
  writes_le := hs.writes_le
  reads := hs.reads

end Disciplined

end AsyncStream

end StreamEP

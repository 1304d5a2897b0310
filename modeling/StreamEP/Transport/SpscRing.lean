import Mathlib.Data.Nat.ModEq
import Mathlib.Data.Nat.SuccPred
import Mathlib.Logic.Relation

/-!
# The ring between the UCX worker and the receiver

`SpscRing` of `csrc/include/ucxq.hpp`: one thread calls `try_enqueue`, another one `try_dequeue`,
and neither takes a lock. Both calls load their own index, load the index of the other side, move a
value into or out of a slot, and store their own index. These are the steps below, in any
interleaving. What a thread has loaded may be out of date by the time it uses it.

A slot that holds nothing, because nothing was moved into it or its value was moved out, is `none`.
The steps do not look at that: a read of such a slot returns `none`, and a write replaces whatever
is there. A value counts as enqueued when `head_` is stored and as dequeued when `tail_` is; both
logs are kept next to the ring.

The indices are the lengths of the logs modulo the capacity. The values that are stored lie in the
slots between them, and fewer than a full round are.

## Main results

* `SpscRing.safe_of_reaches` — the ring is a bounded FIFO
-/

namespace StreamEP

namespace SpscRing

structure Config where
  /-- `capacity_pow2` -/
  capacity : ℕ
  isPowTwo : ∃ k, capacity = 2 ^ k
  two_le : 2 ≤ capacity

def Config.capacityMask (cfg : Config) : ℕ := cfg.capacity - 1

/-- Where `try_enqueue` is. -/
inductive Producer (α : Type)
  | idle
  /-- After the load of `head_`. -/
  | loadedHead (item : α) (head : ℕ)
  /-- After the load of `tail_`, before the slot is written. -/
  | notFull (item : α) (head next : ℕ)
  /-- Before the store of `head_`. -/
  | written (item : α) (next : ℕ)

/-- Where `try_dequeue` is. -/
inductive Consumer (α : Type)
  | idle
  /-- After the load of `tail_`. -/
  | loadedTail (tail : ℕ)
  /-- After the load of `head_`, before the slot is read. -/
  | notEmpty (tail : ℕ)
  /-- Before the store of `tail_`. -/
  | read (tail : ℕ) (out : Option α)

/-- The ring, its two threads, and what went through it. -/
structure State (α : Type) where
  buffer : ℕ → Option α
  head : ℕ
  tail : ℕ
  producer : Producer α
  consumer : Consumer α
  /-- The values for which `try_enqueue` stored `head_`. -/
  enqueued : List α
  /-- The values that `try_dequeue` moved out, when it stored `tail_`. -/
  dequeued : List (Option α)

def init (α : Type) : State α := ⟨fun _ => none, 0, 0, .idle, .idle, [], []⟩

/-- What a step does to others: nothing, an access to a slot, or a call that fails. -/
inductive Event
  | silent
  | write (slot : ℕ)
  | read (slot : ℕ)
  /-- `try_enqueue` returns `false`. -/
  | full
  /-- `try_dequeue` returns `false`. -/
  | empty

inductive Step {α : Type} (cfg : Config) : State α → Event → State α → Prop
  | loadHead {s : State α} (item : α) (hp : s.producer = .idle) :
      Step cfg s .silent { s with producer := .loadedHead item s.head }
  | full {s : State α} {item : α} {head : ℕ} (hp : s.producer = .loadedHead item head)
      (hnext : (head + 1) &&& cfg.capacityMask = s.tail) :
      Step cfg s .full { s with producer := .idle }
  | notFull {s : State α} {item : α} {head : ℕ} (hp : s.producer = .loadedHead item head)
      (hnext : (head + 1) &&& cfg.capacityMask ≠ s.tail) :
      Step cfg s .silent { s with producer := .notFull item head ((head + 1) &&& cfg.capacityMask) }
  | write {s : State α} {item : α} {head next : ℕ} (hp : s.producer = .notFull item head next) :
      Step cfg s (.write head) { s with
        buffer := Function.update s.buffer head (some item)
        producer := .written item next }
  | storeHead {s : State α} {item : α} {next : ℕ} (hp : s.producer = .written item next) :
      Step cfg s .silent { s with
        head := next
        producer := .idle
        enqueued := s.enqueued ++ [item] }
  | loadTail {s : State α} (hc : s.consumer = .idle) :
      Step cfg s .silent { s with consumer := .loadedTail s.tail }
  | empty {s : State α} {tail : ℕ} (hc : s.consumer = .loadedTail tail) (heq : tail = s.head) :
      Step cfg s .empty { s with consumer := .idle }
  | notEmpty {s : State α} {tail : ℕ} (hc : s.consumer = .loadedTail tail) (hne : tail ≠ s.head) :
      Step cfg s .silent { s with consumer := .notEmpty tail }
  | read {s : State α} {tail : ℕ} (hc : s.consumer = .notEmpty tail) :
      Step cfg s (.read tail) { s with
        buffer := Function.update s.buffer tail none
        consumer := .read tail (s.buffer tail) }
  | storeTail {s : State α} {tail : ℕ} {out : Option α} (hc : s.consumer = .read tail out) :
      Step cfg s .silent { s with
        tail := (tail + 1) &&& cfg.capacityMask
        consumer := .idle
        dequeued := s.dequeued ++ [out] }

def Reaches {α : Type} (cfg : Config) : State α → State α → Prop :=
  Relation.ReflTransGen fun s s' => ∃ event, Step cfg s event s'

/-- **The ring is a bounded FIFO.** The calls that fail are those that find the ring full or empty
at that very step. -/
structure Safe {α : Type} (cfg : Config) (s : State α) : Prop where
  /-- Values come out in the order in which they went in. -/
  fifo : s.dequeued <+: s.enqueued.map some
  bounded : s.enqueued.length ≤ s.dequeued.length + (cfg.capacity - 1)
  /-- A slot that is read was written, with the value whose turn it is. -/
  read : ∀ slot s', Step cfg s (.read slot) s' → slot < cfg.capacity ∧
    ∃ item, s.buffer slot = some item ∧ s.enqueued[s.dequeued.length]? = some item
  /-- A slot that is written was read, or never written. -/
  write : ∀ slot s', Step cfg s (.write slot) s' → slot < cfg.capacity ∧ s.buffer slot = none
  full : ∀ s', Step cfg s .full s' →
    s.enqueued.length = s.dequeued.length + (cfg.capacity - 1)
  empty : ∀ s', Step cfg s .empty s' → s.enqueued.length = s.dequeued.length

/-! ### Indices modulo the capacity -/

section Index

variable (cfg : Config)

theorem capacity_pos : 0 < cfg.capacity := Nat.two_pos.trans_le cfg.two_le

theorem succ_and_capacityMask (n : ℕ) :
    (n % cfg.capacity + 1) &&& cfg.capacityMask = (n + 1) % cfg.capacity := by
  obtain ⟨k, hk⟩ := cfg.isPowTwo
  rw [Config.capacityMask, hk, Nat.and_two_pow_sub_one_eq_mod, Nat.mod_add_mod]

variable {cfg}

/-- Counters within a round have the same index only if they are the same. -/
theorem eq_of_mod_eq {a b : ℕ} (hle : a ≤ b) (hlt : b < a + cfg.capacity)
    (hmod : a % cfg.capacity = b % cfg.capacity) : a = b := by
  have hdvd := (Nat.modEq_iff_dvd' hle).mp hmod
  have := Nat.eq_zero_of_dvd_of_lt hdvd (by omega)
  omega

theorem mod_ne {a b : ℕ} (hlt : a < b) (hround : b < a + cfg.capacity) :
    a % cfg.capacity ≠ b % cfg.capacity := fun hmod => hlt.ne (eq_of_mod_eq hlt.le hround hmod)

end Index

/-! ### The invariant -/

section Invariant

variable {α : Type}

def State.stored (s : State α) : List α :=
  s.enqueued ++ match s.producer with
    | .written item _ => [item]
    | _ => []

/-- The number of values that were moved out. -/
def State.taken (s : State α) : ℕ :=
  s.dequeued.length + match s.consumer with
    | .read _ _ => 1
    | _ => 0

/-- What `try_enqueue` knows. There is still room for a value when it is past the load of `tail_`:
the other thread only makes more. -/
def ProducerInv (cfg : Config) (s : State α) : Prop :=
  match s.producer with
  | .idle => True
  | .loadedHead _ head => head = s.head
  | .notFull _ head next => head = s.head ∧ next = (s.enqueued.length + 1) % cfg.capacity ∧
    s.enqueued.length + 1 < s.dequeued.length + cfg.capacity
  | .written _ next => next = (s.enqueued.length + 1) % cfg.capacity ∧
    s.enqueued.length + 1 < s.dequeued.length + cfg.capacity

def ConsumerInv (s : State α) : Prop :=
  match s.consumer with
  | .idle => True
  | .loadedTail tail => tail = s.tail
  | .notEmpty tail => tail = s.tail ∧ s.dequeued.length < s.enqueued.length
  | .read tail out => tail = s.tail ∧ s.dequeued.length < s.enqueued.length ∧
    out = s.enqueued[s.dequeued.length]?

structure Inv (cfg : Config) (s : State α) : Prop where
  head : s.head = s.enqueued.length % cfg.capacity
  tail : s.tail = s.dequeued.length % cfg.capacity
  fifo : s.dequeued <+: s.enqueued.map some
  bound : s.enqueued.length < s.dequeued.length + cfg.capacity
  producer : ProducerInv cfg s
  consumer : ConsumerInv s
  /-- A round of slots, from the first value that was not moved out. -/
  slots : ∀ j, s.taken ≤ j → j < s.taken + cfg.capacity →
    s.buffer (j % cfg.capacity) = s.stored[j]?

variable {cfg : Config} {s s' : State α} {event : Event}

theorem inv_init (cfg : Config) : Inv cfg (init α) where
  head := (Nat.zero_mod _).symm
  tail := (Nat.zero_mod _).symm
  fifo := List.nil_prefix
  bound := by simpa [init] using capacity_pos cfg
  producer := trivial
  consumer := trivial
  slots := fun _ _ _ => rfl

namespace Inv

variable (h : Inv cfg s)

include h

theorem length_le : s.dequeued.length ≤ s.enqueued.length := by
  simpa using h.fifo.length_le

theorem full_iff : (s.head + 1) &&& cfg.capacityMask = s.tail ↔
    s.enqueued.length + 1 = s.dequeued.length + cfg.capacity := by
  have hle := h.length_le
  have hbound := h.bound
  rw [h.head, h.tail, succ_and_capacityMask]
  constructor
  · intro hmod
    refine @eq_of_mod_eq cfg _ _ (by omega) (by omega) ?_
    rw [hmod, Nat.add_mod_right]
  · intro heq
    rw [heq, Nat.add_mod_right]

theorem empty_iff : s.tail = s.head ↔ s.dequeued.length = s.enqueued.length := by
  rw [h.head, h.tail]
  exact ⟨eq_of_mod_eq h.length_le h.bound, congrArg (· % cfg.capacity)⟩

/-! #### What a thread knows where it is -/

theorem of_loadedHead {item : α} {head : ℕ} (hp : s.producer = .loadedHead item head) :
    head = s.head := by
  have hproducer := h.producer
  rwa [ProducerInv, hp] at hproducer

theorem of_notFull {item : α} {head next : ℕ} (hp : s.producer = .notFull item head next) :
    head = s.head ∧ next = (s.enqueued.length + 1) % cfg.capacity ∧
      s.enqueued.length + 1 < s.dequeued.length + cfg.capacity := by
  have hproducer := h.producer
  rwa [ProducerInv, hp] at hproducer

theorem of_written {item : α} {next : ℕ} (hp : s.producer = .written item next) :
    next = (s.enqueued.length + 1) % cfg.capacity ∧
      s.enqueued.length + 1 < s.dequeued.length + cfg.capacity := by
  have hproducer := h.producer
  rwa [ProducerInv, hp] at hproducer

theorem of_loadedTail {tail : ℕ} (hc : s.consumer = .loadedTail tail) : tail = s.tail := by
  have hconsumer := h.consumer
  rwa [ConsumerInv, hc] at hconsumer

theorem of_notEmpty {tail : ℕ} (hc : s.consumer = .notEmpty tail) :
    tail = s.tail ∧ s.dequeued.length < s.enqueued.length := by
  have hconsumer := h.consumer
  rwa [ConsumerInv, hc] at hconsumer

theorem of_read {tail : ℕ} {out : Option α} (hc : s.consumer = .read tail out) :
    tail = s.tail ∧ s.dequeued.length < s.enqueued.length ∧
      out = s.enqueued[s.dequeued.length]? := by
  have hconsumer := h.consumer
  rwa [ConsumerInv, hc] at hconsumer

theorem taken_le : s.taken ≤ s.enqueued.length := by
  have hle := h.length_le
  rw [State.taken]
  cases hc : s.consumer with
  | idle | loadedTail _ | notEmpty _ => exact hle
  | read tail out => exact (h.of_read hc).2.1

theorem length_stored_lt : s.stored.length < s.dequeued.length + cfg.capacity := by
  have hbound := h.bound
  rw [State.stored]
  cases hp : s.producer with
  | idle | loadedHead _ _ | notFull _ _ _ =>
    rw [List.append_nil]
    exact hbound
  | written item next =>
    rw [List.length_append, List.length_singleton]
    exact (h.of_written hp).2

/-! #### Steps of the producer -/

theorem withProducer {producer : Producer α}
    (hstored : { s with producer := producer }.stored = s.stored)
    (hproducer : ProducerInv cfg { s with producer := producer }) :
    Inv cfg { s with producer := producer } :=
  { h with
    producer := hproducer
    slots := by
      rw [hstored]
      exact h.slots }

theorem write {item : α} {head next : ℕ} (hp : s.producer = .notFull item head next) :
    Inv cfg { s with
      buffer := Function.update s.buffer head (some item)
      producer := .written item next } := by
  obtain ⟨rfl, hnext, hroom⟩ := h.of_notFull hp
  have hstored : s.stored = s.enqueued := by rw [State.stored, hp, List.append_nil]
  have htaken := h.taken_le
  refine ⟨h.head, h.tail, h.fifo, h.bound, ⟨hnext, hroom⟩, h.consumer, fun j hle hlt => ?_⟩
  show Function.update s.buffer s.head (some item) (j % cfg.capacity) = (s.enqueued ++ [item])[j]?
  change s.taken ≤ j at hle
  change j < s.taken + cfg.capacity at hlt
  have hlo : s.dequeued.length ≤ s.taken := Nat.le_add_right _ _
  have hold := h.slots j hle hlt
  rw [hstored] at hold
  rw [h.head]
  rcases lt_trichotomy j s.enqueued.length with hj | rfl | hj
  · rw [Function.update_of_ne (@mod_ne cfg _ _ hj (by omega)), hold, List.getElem?_append_left hj]
  · rw [Function.update_self, List.getElem?_concat_length]
  · rw [Function.update_of_ne (@mod_ne cfg _ _ hj (by omega)).symm, hold,
      List.getElem?_eq_none hj.le, List.getElem?_eq_none (by simpa using hj)]

theorem storeHead {item : α} {next : ℕ} (hp : s.producer = .written item next) :
    Inv cfg { s with
      head := next
      producer := .idle
      enqueued := s.enqueued ++ [item] } := by
  obtain ⟨rfl, hroom⟩ := h.of_written hp
  have hstored : s.stored = s.enqueued ++ [item] := by rw [State.stored, hp]
  have hlength : (s.enqueued ++ [item]).length = s.enqueued.length + 1 := by simp
  refine ⟨?_, h.tail, ?_, ?_, trivial, ?_, ?_⟩
  · rw [hlength]
  · rw [List.map_append]
    exact h.fifo.trans (List.prefix_append _ _)
  · rw [hlength]
    exact hroom
  · rw [ConsumerInv]
    dsimp only
    rw [hlength]
    cases hc : s.consumer with
    | idle => trivial
    | loadedTail tail => exact h.of_loadedTail hc
    | notEmpty tail =>
      obtain ⟨htail, hlt⟩ := h.of_notEmpty hc
      exact ⟨htail, hlt.trans (Nat.lt_succ_self _)⟩
    | read tail out =>
      obtain ⟨htail, hlt, hout⟩ := h.of_read hc
      refine ⟨htail, hlt.trans (Nat.lt_succ_self _), ?_⟩
      rw [List.getElem?_append_left hlt]
      exact hout
  · show ∀ j, s.taken ≤ j → j < s.taken + cfg.capacity →
      s.buffer (j % cfg.capacity) = (s.enqueued ++ [item] ++ [])[j]?
    rw [List.append_nil, ← hstored]
    exact h.slots

/-! #### Steps of the consumer -/

theorem withConsumer {consumer : Consumer α}
    (htaken : { s with consumer := consumer }.taken = s.taken)
    (hconsumer : ConsumerInv { s with consumer := consumer }) :
    Inv cfg { s with consumer := consumer } :=
  { h with
    consumer := hconsumer
    slots := by
      rw [htaken]
      exact h.slots }

theorem buffer_tail (hc : s.taken = s.dequeued.length)
    (hlt : s.dequeued.length < s.enqueued.length) :
    s.buffer s.tail = s.enqueued[s.dequeued.length]? := by
  have hslot := h.slots s.dequeued.length hc.le (by have := capacity_pos cfg; omega)
  rwa [← h.tail, State.stored, List.getElem?_append_left hlt] at hslot

theorem read {tail : ℕ} (hc : s.consumer = .notEmpty tail) :
    Inv cfg { s with
      buffer := Function.update s.buffer tail none
      consumer := .read tail (s.buffer tail) } := by
  obtain ⟨rfl, hlt⟩ := h.of_notEmpty hc
  have htaken : s.taken = s.dequeued.length := by simp [State.taken, hc]
  refine ⟨h.head, h.tail, h.fifo, h.bound, h.producer, ⟨rfl, hlt, h.buffer_tail htaken hlt⟩,
    fun j hle hround => ?_⟩
  show Function.update s.buffer s.tail none (j % cfg.capacity) = s.stored[j]?
  change s.dequeued.length + 1 ≤ j at hle
  change j < s.dequeued.length + 1 + cfg.capacity at hround
  rw [h.tail]
  rcases eq_or_ne j (s.dequeued.length + cfg.capacity) with rfl | hne
  · -- the slot that was read is the last one of the next round
    rw [Nat.add_mod_right, Function.update_self, List.getElem?_eq_none h.length_stored_lt.le]
  · rw [Function.update_of_ne (@mod_ne cfg _ _ hle (by omega)).symm]
    exact h.slots j (by omega) (by omega)

theorem storeTail {tail : ℕ} {out : Option α} (hc : s.consumer = .read tail out) :
    Inv cfg { s with
      tail := (tail + 1) &&& cfg.capacityMask
      consumer := .idle
      dequeued := s.dequeued ++ [out] } := by
  obtain ⟨rfl, hlt, rfl⟩ := h.of_read hc
  have hbound := h.bound
  have hlength : (s.dequeued ++ [s.enqueued[s.dequeued.length]?]).length =
      s.dequeued.length + 1 := by simp
  have htaken : s.taken = s.dequeued.length + 1 := by simp [State.taken, hc]
  refine ⟨h.head, ?_, ?_, ?_, ?_, trivial, ?_⟩
  · dsimp only
    rw [hlength, h.tail, succ_and_capacityMask]
  · have hprefix := List.prefix_iff_eq_take.mp h.fifo
    rw [List.prefix_iff_eq_take, hlength, List.take_add_one, ← hprefix, List.getElem?_map,
      List.getElem?_eq_getElem hlt]
    rfl
  · dsimp only
    omega
  · rw [ProducerInv]
    dsimp only
    cases hp : s.producer with
    | idle => trivial
    | loadedHead item head => exact h.of_loadedHead hp
    | notFull item head next =>
      obtain ⟨hhead, hnext, hroom⟩ := h.of_notFull hp
      exact ⟨hhead, hnext, by omega⟩
    | written item next =>
      obtain ⟨hnext, hroom⟩ := h.of_written hp
      exact ⟨hnext, by omega⟩
  · -- what was moved out before the store is what is dequeued after it
    intro j hle hround
    rw [State.taken, hlength] at hle hround
    exact h.slots j (htaken.trans_le hle) (by rwa [htaken])

theorem step (hstep : Step cfg s event s') : Inv cfg s' := by
  cases hstep with
  | loadHead item hp => exact h.withProducer (by rw [State.stored, State.stored, hp]) rfl
  | full hp _ => exact h.withProducer (by rw [State.stored, State.stored, hp]) trivial
  | notFull hp hnext =>
    obtain rfl := h.of_loadedHead hp
    refine h.withProducer (by rw [State.stored, State.stored, hp]) ⟨rfl, ?_, ?_⟩
    · rw [h.head, succ_and_capacityMask]
    · have hbound := h.bound
      have hnot := mt h.full_iff.mpr hnext
      dsimp only
      omega
  | write hp => exact h.write hp
  | storeHead hp => exact h.storeHead hp
  | loadTail hc => exact h.withConsumer (by rw [State.taken, State.taken, hc]) rfl
  | empty hc _ => exact h.withConsumer (by rw [State.taken, State.taken, hc]) trivial
  | notEmpty hc hne =>
    obtain rfl := h.of_loadedTail hc
    refine h.withConsumer (by rw [State.taken, State.taken, hc]) ⟨rfl, ?_⟩
    exact lt_of_le_of_ne h.length_le (mt h.empty_iff.mpr hne)
  | read hc => exact h.read hc
  | storeTail hc => exact h.storeTail hc

theorem of_reaches (hrun : Reaches cfg s s') : Inv cfg s' := by
  induction hrun with
  | refl => exact h
  | tail _ hstep ih =>
    obtain ⟨event, hstep⟩ := hstep
    exact ih.step hstep

theorem safe : Safe cfg s where
  fifo := h.fifo
  bounded := by
    have := h.bound
    omega
  read := by
    rintro slot s' hstep
    cases hstep with
    | read hc =>
      obtain ⟨rfl, hlt⟩ := h.of_notEmpty hc
      have hslot := h.buffer_tail (by simp [State.taken, hc]) hlt
      refine ⟨?_, _, hslot.trans (List.getElem?_eq_getElem hlt), List.getElem?_eq_getElem hlt⟩
      rw [h.tail]
      exact Nat.mod_lt _ (capacity_pos cfg)
  write := by
    rintro slot s' hstep
    cases hstep with
    | write hp =>
      obtain ⟨rfl, -, hroom⟩ := h.of_notFull hp
      have hlo : s.dequeued.length ≤ s.taken := Nat.le_add_right _ _
      have hslot := h.slots s.enqueued.length h.taken_le (by omega)
      rw [State.stored, hp, List.append_nil, List.getElem?_eq_none le_rfl] at hslot
      rw [h.head]
      exact ⟨Nat.mod_lt _ (capacity_pos cfg), hslot⟩
  full := by
    rintro s' hstep
    cases hstep with
    | full hp hnext =>
      obtain rfl := h.of_loadedHead hp
      have hfull := h.full_iff.mp hnext
      have := cfg.two_le
      omega
  empty := by
    rintro s' hstep
    cases hstep with
    | empty hc heq =>
      obtain rfl := h.of_loadedTail hc
      exact (h.empty_iff.mp heq).symm

end Inv

/-- **Every interleaving of the two threads keeps the ring a bounded FIFO**: values are dequeued in
the order in which they were enqueued, slots are written and read in turn, and a call fails only if
the ring is full or empty at that step of the call. -/
theorem safe_of_reaches (cfg : Config) {s : State α} (hrun : Reaches cfg (init α) s) :
    Safe cfg s := ((inv_init cfg).of_reaches hrun).safe

end Invariant

def pairRing : Config := ⟨2, ⟨1, rfl⟩, le_rfl⟩

/-- A value fills the smallest ring: the next call fails, and the value is the one to be read. -/
theorem safe_of_reaches_pairRing : ∃ s s' s'' : State ℕ, Reaches pairRing (init ℕ) s ∧
    s.enqueued = [7] ∧ Step pairRing s .full s' ∧ Step pairRing s (.read 0) s'' ∧
    Safe pairRing s := by
  have hrun : Reaches pairRing (init ℕ) (init ℕ) := .refl
  replace hrun := hrun.tail ⟨_, .loadHead 7 rfl⟩
  replace hrun := hrun.tail ⟨_, .notFull rfl (by decide)⟩
  replace hrun := hrun.tail ⟨_, .write rfl⟩
  replace hrun := hrun.tail ⟨_, .storeHead rfl⟩
  replace hrun := hrun.tail ⟨_, .loadHead 8 rfl⟩
  replace hrun := hrun.tail ⟨_, .loadTail rfl⟩
  replace hrun := hrun.tail ⟨_, .notEmpty rfl (by decide)⟩
  exact ⟨_, _, _, hrun, rfl, .full rfl (by decide), .read rfl, safe_of_reaches pairRing hrun⟩

end SpscRing

end StreamEP

import StreamEP.Lib.Checked
import Mathlib.Algebra.Ring.Int.Defs
import Mathlib.Algebra.Ring.Nat
import Mathlib.Data.Int.Basic
import Mathlib.Logic.Function.Basic
import Mathlib.Logic.Relation

/-!
# Credits for receive slots

`NixlContext` of `csrc/muhelper/nixl_context.cpp` lends the receive slots of a peer to senders. A
sender acquires a free slot, numbers its message, notes which credit the slot waits for, and posts
the write. The receiver accepts the notification of a write once, consumes the slot and returns a
credit with the same slot and number, which frees the slot at the sender.

Notifications may arrive in any order and more than once. The state of a pair of devices therefore
keeps every notification that was ever sent, and a delivery may pick any of them again. Every
function below runs under the mutex of the peer, so a step of the run is one call. Sends are made
by several threads: each of the three calls of a send is a step of its own.
-/

namespace StreamEP

namespace Nixl

/-- `NIXL_RECV_RING_SIZE` -/
def recvRingSize : ℤ := 8

def ring : List ℤ := [0, 1, 2, 3, 4, 5, 6, 7]

structure SlotState where
  expectedCreditSeq : ℤ := -1
  inflightRecvSeq : ℤ := -1
  completedRecvSeq : ℤ := -1
deriving DecidableEq, Repr

structure PeerState where
  availableRecvSlots : List ℤ
  nextSeq : ℤ
  slotState : ℤ → SlotState

/-- An `int` put into a `uint32_t` field of `NixlNotifHeader` and read back. -/
def wire (x : ℤ) : ℤ := (BitVec.ofInt 32 x).toInt

theorem wire_eq {x : ℤ} (hge : 0 ≤ x) (hlt : x < 2 ^ 31) : wire x = x := by
  rw [wire, BitVec.toInt_ofInt]
  exact Int.bmod_eq_of_le (by omega) (by omega)

namespace PeerState

def init : PeerState where
  availableRecvSlots := ring
  nextSeq := 0
  slotState := fun _ => {}

def modifySlot (p : PeerState) (slotId : ℤ) (f : SlotState → SlotState) : PeerState :=
  { p with slotState := Function.update p.slotState slotId (f (p.slotState slotId)) }

/-- `acquire_recv_slot`: waits while there is none. -/
def acquireRecvSlot (p : PeerState) : Option (ℤ × PeerState) :=
  match p.availableRecvSlots with
  | [] => none
  | slot :: rest => some (slot, { p with availableRecvSlots := rest })

/-- `next_send_seq`: the counter is an `int` and wraps. -/
def nextSendSeq (p : PeerState) : ℤ × PeerState :=
  (p.nextSeq, { p with nextSeq := (p.nextSeq + 1).bmod (2 ^ 32) })

def noteSendPosted (p : PeerState) (slotId seq : ℤ) : Except String PeerState := do
  ensure (0 ≤ slotId ∧ slotId < recvRingSize) "note_send_posted: slot OOR"
  ensure ((p.slotState slotId).expectedCreditSeq = -1)
    "note_send_posted: remote recv slot reused before credit"
  return p.modifySlot slotId fun st => { st with expectedCreditSeq := seq }

/-- `on_recv_credit`, and whether the credit was accepted. -/
def onRecvCredit (p : PeerState) (slotId seq : ℤ) : Bool × PeerState :=
  if slotId < 0 ∨ slotId ≥ recvRingSize then (false, p)
  else if (p.slotState slotId).expectedCreditSeq = seq then
    (true, { p.modifySlot slotId fun st => { st with expectedCreditSeq := -1 } with
      availableRecvSlots := p.availableRecvSlots ++ [slotId] })
  else (false, p)

def acceptDataNotif (p : PeerState) (slotId seq : ℤ) : Bool × PeerState :=
  if slotId < 0 ∨ slotId ≥ recvRingSize then (false, p)
  else if (p.slotState slotId).inflightRecvSeq = seq ∨
      (p.slotState slotId).completedRecvSeq ≥ seq then (false, p)
  else (true, p.modifySlot slotId fun st => { st with inflightRecvSeq := seq })

def markRecvCompleted (p : PeerState) (slotId seq : ℤ) : PeerState :=
  if slotId < 0 then p
  else if slotId ≥ recvRingSize then p
  else p.modifySlot slotId fun st => { st with
    completedRecvSeq := if st.completedRecvSeq < seq then seq else st.completedRecvSeq
    inflightRecvSeq := if st.inflightRecvSeq = seq then -1 else st.inflightRecvSeq }

/-- The slots that wait for a credit. -/
def outstanding (p : PeerState) : List ℤ :=
  ring.filter fun s => (p.slotState s).expectedCreditSeq ≠ -1

end PeerState

/-! ### An ordered pair of devices -/

/-- A use of a slot: the slot and the number of the message. -/
abbrev Use : Type := ℤ × ℤ

/-- The sender and the receiver, the sends and receives under way, and what has happened. -/
structure Run where
  /-- What the sender keeps about the receiver. -/
  sender : PeerState
  /-- What the receiver keeps about the sender. -/
  receiver : PeerState
  /-- Slots acquired by sends that have no number yet. -/
  acquired : List ℤ
  /-- Sends with a slot and a number that are not noted yet. -/
  numbered : List Use
  /-- Posts that are queued or under way. -/
  posts : List Use
  /-- Writes that are complete; the notification of each may be delivered. -/
  written : List Use
  /-- Accepted notifications whose slot is not consumed yet. -/
  arrived : List Use
  /-- Consumed slots that are not marked yet. -/
  consumed : List Use
  /-- Marked slots whose credit is not sent yet. -/
  marked : List Use
  /-- Credits that were sent; each may be delivered. -/
  credited : List Use
  sends : ℕ
  noted : List Use
  delivered : List Use
  accepted : List Use
  freed : List Use

namespace Run

def init : Run where
  sender := .init
  receiver := .init
  acquired := []
  numbered := []
  posts := []
  written := []
  arrived := []
  consumed := []
  marked := []
  credited := []
  sends := 0
  noted := []
  delivered := []
  accepted := []
  freed := []

end Run

/-- One call at one of the devices, or one delivery. -/
inductive Step : Run → Run → Prop
  /-- A send acquires a slot. -/
  | acquire {r : Run} {slot : ℤ} {sender : PeerState}
      (h : r.sender.acquireRecvSlot = some (slot, sender)) :
      Step r { r with sender := sender, acquired := slot :: r.acquired }
  | number {r : Run} {slot : ℤ} (h : slot ∈ r.acquired) :
      Step r { r with
        sender := r.sender.nextSendSeq.2
        acquired := r.acquired.erase slot
        numbered := (slot, r.sender.nextSendSeq.1) :: r.numbered
        sends := r.sends + 1 }
  /-- It notes the credit it waits for and queues the post. -/
  | note {r : Run} {x : Use} {sender : PeerState} (h : x ∈ r.numbered)
      (hnote : r.sender.noteSendPosted x.1 x.2 = .ok sender) :
      Step r { r with
        sender := sender
        numbered := r.numbered.erase x
        posts := x :: r.posts
        noted := x :: r.noted }
  /-- A post completes: the slot is written and the notification on its way. -/
  | write {r : Run} {x : Use} (h : x ∈ r.posts) :
      Step r { r with posts := r.posts.erase x, written := x :: r.written }
  /-- A notification of a write is delivered. -/
  | deliverData {r : Run} {x : Use} (h : x ∈ r.written) :
      Step r { r with
        receiver := (r.receiver.acceptDataNotif (wire x.1) (wire x.2)).2
        delivered := x :: r.delivered
        arrived := if (r.receiver.acceptDataNotif (wire x.1) (wire x.2)).1 then
          (wire x.1, wire x.2) :: r.arrived else r.arrived
        accepted := if (r.receiver.acceptDataNotif (wire x.1) (wire x.2)).1 then
          (wire x.1, wire x.2) :: r.accepted else r.accepted }
  /-- The receiver consumes a slot. -/
  | consume {r : Run} {x : Use} (h : x ∈ r.arrived) :
      Step r { r with arrived := r.arrived.erase x, consumed := x :: r.consumed }
  | complete {r : Run} {x : Use} (h : x ∈ r.consumed) :
      Step r { r with
        receiver := r.receiver.markRecvCompleted x.1 x.2
        consumed := r.consumed.erase x
        marked := x :: r.marked }
  | sendCredit {r : Run} {x : Use} (h : x ∈ r.marked) :
      Step r { r with marked := r.marked.erase x, credited := x :: r.credited }
  | deliverCredit {r : Run} {x : Use} (h : x ∈ r.credited) :
      Step r { r with
        sender := (r.sender.onRecvCredit (wire x.1) (wire x.2)).2
        freed := if (r.sender.onRecvCredit (wire x.1) (wire x.2)).1 then x :: r.freed
          else r.freed }

theorem Step.sends_le {r r' : Run} (h : Step r r') : r.sends ≤ r'.sends := by
  cases h with
  | number => exact Nat.le_succ _
  | _ => exact le_rfl

end Nixl

end StreamEP

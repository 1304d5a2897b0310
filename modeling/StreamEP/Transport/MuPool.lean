import StreamEP.Batch.TokenBatch
import Mathlib.Logic.Function.Basic
import Mathlib.Logic.Relation

/-!
# Moving batches between devices

A batch travels in two halves. `MuDispatcher::send_batch_nonblocking` first sends the metadata to
the one metadata queue of the receiver and then the tensor over the channel of the pair, and
nothing in either half names the other. `MuPool::run` is the receiving thread: it drains the
metadata queue, receives the tensor announced by each message over the channel of its sender, and
hands both to `process_batch`.

There is one channel per sender. A `TensorLocalChannel` (the device sending to itself) is a
queue under a mutex, and `recv_batch` waits for its front. An `NcclChannel` runs sends and
receives in the order they were issued on one stream: `recv_batch` only posts a receive, which is
kept in `pending_recvs` with an event and is polled later.

The state below is that of one receiver and of everything on the way to it. A number `seq` comes
with both halves of a batch: it is its place among the batches of its sender. The program has no
such number and no step looks at it.
-/

namespace StreamEP

namespace Transport

variable {ι W V : Type}

def muPoolGroupRecvLimit : ℕ := 16

/-- `MuPoolPendingRecv`: a posted receive. -/
structure PendingRecv (ι W V : Type) where
  peerId : ι
  /-- The place of the message `metadata` came with. -/
  seq : ℕ
  /-- `meta` -/
  metadata : BatchMetadata W
  /-- `tensor`, once `event` is complete. -/
  tensor : Option (List V)
deriving DecidableEq, Repr

/-- A call of `process_batch`. -/
structure Handed (ι W V : Type) where
  /-- The sender named by the metadata message. -/
  peerId : ι
  /-- The place of the message `metadata` came with. -/
  seq : ℕ
  /-- `meta` -/
  metadata : BatchMetadata W
  tensor : List V
deriving DecidableEq, Repr

/-- Where the thread of `MuPool::run` is. -/
inductive Phase (ι W V : Type)
  /-- At the head of the `while` loop. -/
  | loop
  /-- Before `recv_metadata`. -/
  | drain (shouldBlock : Bool) (drainCount : ℕ)
  /-- In `recv_batch` of a local channel. -/
  | recvLocal (drainCount : ℕ) (peerId : ι) (seq : ℕ) (metadata : BatchMetadata W)
  /-- In `process_batch`, with what was received over a local channel. -/
  | handLocal (drainCount : ℕ) (batch : Handed ι W V)
  /-- Before the entry `it` of `pending_recvs`. -/
  | poll (it : ℕ)
deriving DecidableEq, Repr

/-- The end of one round of the `do` loop. -/
def Phase.next (drainCount : ℕ) : Phase ι W V :=
  if drainCount + 1 < muPoolGroupRecvLimit then .drain false (drainCount + 1) else .poll 0

/-- One receiver, and what is on the way to it. -/
structure State (ι W V : Type) where
  /-- The batches each sender has begun to send, in order. -/
  sent : ι → List (TokenBatch W V)
  /-- The batch whose metadata a dispatcher has sent and whose tensor it has not. -/
  sending : ι → Option (ℕ × TokenBatch W V)
  /-- Metadata that has not reached the queue. -/
  onWire : ι → List (ℕ × BatchMetadata W)
  mq : List (ι × ℕ × BatchMetadata W)
  /-- Tensors in the channel of each sender. -/
  channel : ι → List (ℕ × List V)
  pendingRecvs : List (PendingRecv ι W V)
  phase : Phase ι W V
  /-- The calls of `process_batch` that have returned. -/
  processed : List (Handed ι W V)

def State.init (ι W V : Type) : State ι W V where
  sent _ := []
  sending _ := none
  onWire _ := []
  mq := []
  channel _ := []
  pendingRecvs := []
  phase := .loop
  processed := []

variable [DecidableEq ι]

/-- A step. `isLocal p` says that the channel of `p` is a `TensorLocalChannel`. -/
inductive Step (isLocal : ι → Bool) : State ι W V → State ι W V → Prop
  /-- `peer_mq[cid]->send`. The tensor has a row per token. -/
  | sendMetadata {s : State ι W V} {p : ι} {b : TokenBatch W V} (hidle : s.sending p = none)
      (hrows : b.data.length = b.metadata.numTokens) :
      Step isLocal s
        { s with
          sent := Function.update s.sent p (s.sent p ++ [b])
          sending := Function.update s.sending p (some ((s.sent p).length, b))
          onWire := Function.update s.onWire p
            (s.onWire p ++ [((s.sent p).length, b.metadata)]) }
  /-- `channels[cid]->send_batch`: `num_element` elements from the start of the tensor. -/
  | sendData {s : State ι W V} {p : ι} {seq : ℕ} {b : TokenBatch W V}
      (hsending : s.sending p = some (seq, b)) :
      Step isLocal s
        { s with
          sending := Function.update s.sending p none
          channel := Function.update s.channel p
            (s.channel p ++ [(seq, b.data.take b.metadata.numTokens)]) }
  /-- The oldest message of a sender reaches the queue. -/
  | deliver {s : State ι W V} {p : ι} {x : ℕ × BatchMetadata W} {rest}
      (hwire : s.onWire p = x :: rest) :
      Step isLocal s
        { s with onWire := Function.update s.onWire p rest, mq := s.mq ++ [(p, x)] }
  /-- `should_block = pending_recvs.empty()`, `drain_count = 0`. -/
  | beginDrain {s : State ι W V} (hphase : s.phase = .loop) :
      Step isLocal s { s with phase := .drain s.pendingRecvs.isEmpty 0 }
  /-- A non-blocking `recv_metadata` finds nothing. -/
  | endDrain {s : State ι W V} {n : ℕ} (hphase : s.phase = .drain false n) (hmq : s.mq = []) :
      Step isLocal s { s with phase := .poll 0 }
  /-- `recv_metadata` on behalf of a local channel. -/
  | recvMetadataLocal {s : State ι W V} {block : Bool} {n seq : ℕ} {p : ι}
      {metadata : BatchMetadata W} {rest} (hphase : s.phase = .drain block n)
      (hmq : s.mq = (p, seq, metadata) :: rest) (hlocal : isLocal p = true) :
      Step isLocal s { s with mq := rest, phase := .recvLocal n p seq metadata }
  /-- `recv_metadata` and the receive posted for it. -/
  | recvMetadataNccl {s : State ι W V} {block : Bool} {n seq : ℕ} {p : ι}
      {metadata : BatchMetadata W} {rest} (hphase : s.phase = .drain block n)
      (hmq : s.mq = (p, seq, metadata) :: rest) (hlocal : isLocal p = false) :
      Step isLocal s
        { s with
          mq := rest
          pendingRecvs := s.pendingRecvs ++ [⟨p, seq, metadata, none⟩]
          phase := .next n }
  /-- `TensorLocalChannel::recv_batch` copies `num_element` elements of the front. -/
  | recvLocal {s : State ι W V} {n seq : ℕ} {p : ι} {metadata : BatchMetadata W}
      {x : ℕ × List V} {rest} (hphase : s.phase = .recvLocal n p seq metadata)
      (hchannel : s.channel p = x :: rest) :
      Step isLocal s
        { s with
          channel := Function.update s.channel p rest
          phase := .handLocal n ⟨p, seq, metadata, x.2.take metadata.numTokens⟩ }
  /-- `process_batch` for a local channel. -/
  | processLocal {s : State ι W V} {n : ℕ} {batch : Handed ι W V}
      (hphase : s.phase = .handLocal n batch) :
      Step isLocal s { s with phase := .next n, processed := s.processed ++ [batch] }
  /-- The oldest posted receive of a channel completes, with the oldest tensor in it. -/
  | complete {s : State ι W V} {p : ι} {x : ℕ × List V} {rest before after}
      {e : PendingRecv ι W V} (hchannel : s.channel p = x :: rest)
      (hpending : s.pendingRecvs = before ++ e :: after) (hpeer : e.peerId = p)
      (hposted : e.tensor = none) (holdest : ∀ e' ∈ before, e'.peerId = p → e'.tensor ≠ none) :
      Step isLocal s
        { s with
          channel := Function.update s.channel p rest
          pendingRecvs :=
            before ++ { e with tensor := some (x.2.take e.metadata.numTokens) } :: after }
  /-- `cudaEventQuery` does not find `it` complete. -/
  | pollSkip {s : State ι W V} {it : ℕ} (hphase : s.phase = .poll it)
      (hit : it < s.pendingRecvs.length) :
      Step isLocal s { s with phase := .poll (it + 1) }
  /-- `cudaEventQuery` finds `it` complete: `process_batch`, and `it` is erased. -/
  | pollProcess {s : State ι W V} {e : PendingRecv ι W V} {tensor : List V} {before after}
      (hphase : s.phase = .poll before.length) (hpending : s.pendingRecvs = before ++ e :: after)
      (htensor : e.tensor = some tensor) :
      Step isLocal s
        { s with
          pendingRecvs := before ++ after
          processed := s.processed ++ [⟨e.peerId, e.seq, e.metadata, tensor⟩] }
  /-- The end of the polling loop. -/
  | endPoll {s : State ι W V} {it : ℕ} (hphase : s.phase = .poll it)
      (hit : s.pendingRecvs.length ≤ it) :
      Step isLocal s { s with phase := .loop }

/-! ### Where the batches of one sender are -/

/-- The batch of `p` that the receiving thread has in hand. -/
def Phase.current (p : ι) : Phase ι W V → List ℕ
  | .recvLocal _ q seq _ => if q = p then [seq] else []
  | .handLocal _ batch => if batch.peerId = p then [batch.seq] else []
  | _ => []

namespace State

variable (s : State ι W V) (p : ι)

/-- Batches of `p` whose metadata has not been received. -/
def queued : List ℕ :=
  (s.mq.filterMap fun x => if x.1 = p then some x.2.1 else none) ++ (s.onWire p).map (·.1)

/-- Batches of `p` in `pending_recvs`. -/
def pending : List ℕ :=
  s.pendingRecvs.filterMap fun e => if e.peerId = p then some e.seq else none

/-- The batch of `p` that is being received over a local channel or handed over from there. -/
def current : List ℕ :=
  s.phase.current p

/-- Batches of `p` that have been processed. -/
def done : List ℕ :=
  s.processed.filterMap fun x => if x.peerId = p then some x.seq else none

end State

end Transport

end StreamEP

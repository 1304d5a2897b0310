import StreamEP.Lib.AsyncStream
import Mathlib.Data.Int.Notation
import Mathlib.Logic.Function.Basic
import Mathlib.Logic.Relation

/-!
# The overlapped loop

`single_module_loop_overlap` of `disagmoe/frontend/engine.py` runs on one CPU thread and enqueues
all its work on one CUDA stream. An iteration schedules a batch, preprocesses and executes it, and
then post-processes the batch of the iteration before, so that the GPU works on one batch while
the CPU prepares the next. The CPU blocks only where it waits for an event.

The host writes three kinds of device memory through GDR, past the stream: the two alternating
buffers with attention metadata, the ring with the stash slots of a batch and the ring with the
indices of continuing requests. These are the cells below. An operation is the list of cells it
reads; what else it does is left out, and so are operations that read none of them, unless their
place on the stream matters. A batch for the last pseudo-layer goes to the sampler and is put back
to the pool without an event.

The model has GDR copies switched on, as without them the host writes no device memory. In
eager mode the post-processing of attention also fetches device values, which only makes the CPU
wait more often. An event that does not come in time raises and ends the loop.
-/

namespace StreamEP

structure GdrRingBuffer where
  n : ℕ
  idx : ℤ
deriving DecidableEq, Repr

def GdrRingBuffer.create (n : ℕ) : GdrRingBuffer := ⟨n, -1⟩

/-- `get_one_handle`: a slot and the new ring. -/
def GdrRingBuffer.getOneHandle (r : GdrRingBuffer) : ℕ × GdrRingBuffer :=
  let idx := (r.idx + 1) % r.n
  (idx.toNat, { r with idx := idx })

namespace Overlap

inductive Ring
  /-- `stash_slots_gdr` -/
  | stashSlots
  /-- `sample_continue_ids_gdr` -/
  | sampleContinueIds
deriving DecidableEq, Repr

/-- Device memory that the host writes past the stream. -/
inductive Cell
  /-- A `BatchTensorBuffer`. -/
  | batchTensorBuffer (alt : Bool)
  /-- A slot of a ring. -/
  | slot (ring : Ring) (i : ℕ)
deriving DecidableEq, Repr

/-- A `ForwardBatch`, numbered in the order of execution. -/
structure ForwardBatch where
  number : ℕ
  /-- Whether it is an `AttentionForwardBatch`. -/
  isAttn : Bool
deriving DecidableEq, Repr

/-- What an iteration schedules. The dummy sampler continues some of the requests. -/
inductive Work
  | idle
  | expert
  | attn (numReqs : ℕ)
  | sampling (numReqs numContinue : ℕ) (hle : numContinue ≤ numReqs)

inductive Pc
  | top
  /-- Before `pack_flash_attn_metadata`. -/
  | pack (numReqs : ℕ)
  /-- Before the stash slots of an attention batch. -/
  | stashSlots (numReqs : ℕ)
  /-- Before `execute_batch_attn`, with the slot of the ring. -/
  | executeAttn (slot : Option ℕ)
  /-- Before `execute_batch_expert`. -/
  | executeExpert
  /-- Before `sample_results`. -/
  | sample (numReqs numContinue : ℕ)
  /-- In `sample_results`, after the sampler. -/
  | continueIds (numContinue : ℕ)
  | collect
  /-- Before `post_proc_func` of a batch, after the wait for its event. -/
  | postProc (batch : ForwardBatch) (event : ℕ)
  /-- Before `post_process`, with `sync_event`. -/
  | postProcess (event : Option ℕ)
  /-- At the end of the body. -/
  | finish
deriving DecidableEq, Repr

/-- Where the loop goes when it has scheduled. -/
def Work.entry : Work → Pc
  | .idle => .collect
  | .expert => .executeExpert
  | .attn numReqs => .pack numReqs
  | .sampling numReqs numContinue _ => .sample numReqs numContinue

/-- The loop and the stream, and what happened so far. -/
structure State where
  stream : AsyncStream Cell
  /-- Which of the two buffers is `batch_tensor_buffer`; the other is `batch_tensor_buffer_alt`. -/
  batchTensorBuffer : Bool
  rings : Ring → GdrRingBuffer
  /-- `result_queue`, with the `sync_event` of each result. -/
  resultQueue : List (ForwardBatch × ℕ)
  forwardBatch : Option ForwardBatch
  lastBatch : Option ForwardBatch
  pc : Pc
  /-- The batches executed, in order, with their events. -/
  executed : List (ForwardBatch × ℕ)
  /-- The batches post-processed, in order, with the event waited for. -/
  postProcessed : List (ForwardBatch × ℕ)

namespace State

/-- The loop starts, with rings of `n` slots. -/
def init (n : ℕ) : State where
  stream := .init
  batchTensorBuffer := false
  rings _ := .create n
  resultQueue := []
  forwardBatch := none
  lastBatch := none
  pc := .top
  executed := []
  postProcessed := []

/-- The slot that `get_one_handle` of a ring returns next. -/
def nextSlot (s : State) (ring : Ring) : ℕ := (s.rings ring).getOneHandle.1

/-- `get_one_handle` of a ring, and the copy into the slot. -/
def copyToSlot (s : State) (ring : Ring) : State :=
  { s with
    rings := Function.update s.rings ring (s.rings ring).getOneHandle.2
    stream := s.stream.write (.slot ring (s.nextSlot ring)) }

/-- `pack_flash_attn_metadata`, and the positions that `preprocess_batch_attn` computes from the
metadata. -/
def packFlashAttnMetadata (s : State) : State :=
  let buffer := !s.batchTensorBuffer
  { s with
    batchTensorBuffer := buffer
    stream := (s.stream.write (.batchTensorBuffer buffer)).enqueue [[.batchTensorBuffer buffer]] }

/-- `proc_func` with the given operations, and the result queue. -/
def execute (s : State) (isAttn : Bool) (ops : List (List Cell)) : State :=
  let stream := s.stream.enqueue ops
  let batch : ForwardBatch := ⟨s.executed.length, isAttn⟩
  { s with
    stream := stream.record
    forwardBatch := some batch
    resultQueue := s.resultQueue ++ [(batch, stream.nextEvent)]
    executed := s.executed ++ [(batch, stream.nextEvent)] }

/-- `post_proc_func`. Permuting the tokens of an attention batch is waited for in
`post_process`. -/
def postProcFunc (s : State) (batch : ForwardBatch) (event : ℕ) : State :=
  let s := { s with postProcessed := s.postProcessed ++ [(batch, event)] }
  if batch.isAttn then
    let stream := s.stream.enqueue [[]]
    { s with stream := stream.record, pc := .postProcess (some stream.nextEvent) }
  else { s with pc := .postProcess none }

end State

/-- The cells an attention batch may read. -/
def AttnReads (s : State) (slot : Option ℕ) (c : Cell) : Prop :=
  c = .batchTensorBuffer s.batchTensorBuffer ∨ ∃ i, slot = some i ∧ c = .slot .stashSlots i

/-- What the loop or the stream does. -/
inductive Step : State → State → Prop
  /-- The stream retires an operation. -/
  | retire {s : State} (hlt : s.stream.retired < s.stream.ops.length) :
      Step s { s with stream := s.stream.retire }
  | schedule {s : State} (work : Work) (hpc : s.pc = .top) :
      Step s { s with forwardBatch := none, pc := work.entry }
  /-- `pack_flash_attn_metadata`. -/
  | pack {s : State} {numReqs : ℕ} (hpc : s.pc = .pack numReqs) :
      Step s { s.packFlashAttnMetadata with pc := .stashSlots numReqs }
  /-- The stash slots of an attention batch. -/
  | stashSlots {s : State} {numReqs : ℕ} (hpc : s.pc = .stashSlots numReqs) (hpos : 0 < numReqs) :
      Step s { s.copyToSlot .stashSlots with
        pc := .executeAttn (some (s.nextSlot .stashSlots)) }
  /-- An attention batch without requests. -/
  | noStashSlots {s : State} (hpc : s.pc = .stashSlots 0) :
      Step s { s with pc := .executeAttn none }
  /-- `execute_batch_attn`. -/
  | executeAttn {s : State} {slot : Option ℕ} (ops : List (List Cell))
      (hpc : s.pc = .executeAttn slot)
      (hops : ∀ reads ∈ ops, ∀ c ∈ reads, AttnReads s slot c) :
      Step s { s.execute true ops with pc := .collect }
  /-- `execute_batch_expert`. -/
  | executeExpert {s : State} (numOps : ℕ) (hpc : s.pc = .executeExpert) :
      Step s { s.execute false (List.replicate numOps []) with pc := .collect }
  /-- `sample_results`: the stash rows of the requests are read. -/
  | sample {s : State} {numReqs numContinue : ℕ} (hpc : s.pc = .sample numReqs numContinue)
      (hpos : 0 < numReqs) :
      Step s { s.copyToSlot .stashSlots with
        stream := (s.copyToSlot .stashSlots).stream.enqueue
          [[.slot .stashSlots (s.nextSlot .stashSlots)]]
        pc := .continueIds numContinue }
  /-- `sample_results` without requests. -/
  | noSample {s : State} {numContinue : ℕ} (hpc : s.pc = .sample 0 numContinue) :
      Step s { s with stream := s.stream.enqueue [[]], pc := .continueIds numContinue }
  /-- `sample_results`: the rows of the continuing requests are selected. -/
  | continueIds {s : State} {numContinue : ℕ} (hpc : s.pc = .continueIds numContinue)
      (hpos : 0 < numContinue) :
      Step s { s.copyToSlot .sampleContinueIds with
        stream := (s.copyToSlot .sampleContinueIds).stream.enqueue
          [[.slot .sampleContinueIds (s.nextSlot .sampleContinueIds)]]
        pc := .collect }
  /-- `sample_results` when every request has finished. -/
  | noContinueIds {s : State} (hpc : s.pc = .continueIds 0) : Step s { s with pc := .collect }
  /-- There was no batch in the iteration before. -/
  | skip {s : State} (hpc : s.pc = .collect) (hlast : s.lastBatch = none) :
      Step s { s with pc := .finish }
  /-- The event of the batch of the iteration before has come. -/
  | wait {s : State} {last batch : ForwardBatch} {event : ℕ} {rest : List (ForwardBatch × ℕ)}
      (hpc : s.pc = .collect) (hlast : s.lastBatch = some last)
      (hqueue : s.resultQueue = (batch, event) :: rest) (hevent : event ≤ s.stream.retired) :
      Step s { s with
        resultQueue := rest
        stream := s.stream.wait event
        pc := .postProc batch event }
  /-- `post_proc_func`. -/
  | postProc {s : State} {batch : ForwardBatch} {event : ℕ} (hpc : s.pc = .postProc batch event) :
      Step s (s.postProcFunc batch event)
  /-- `post_process` of an attention batch. -/
  | postProcess {s : State} {event : ℕ} (hpc : s.pc = .postProcess (some event))
      (hevent : event ≤ s.stream.retired) :
      Step s { s with stream := s.stream.wait event, pc := .finish }
  /-- `post_process` of an expert batch. -/
  | postProcessExpert {s : State} (hpc : s.pc = .postProcess none) : Step s { s with pc := .finish }
  /-- `last_batch = forward_batch` -/
  | finish {s : State} (hpc : s.pc = .finish) :
      Step s { s with lastBatch := s.forwardBatch, pc := .top }

/-- The states of a loop with rings of `n` slots. -/
def Run (n : ℕ) (s : State) : Prop := Relation.ReflTransGen Step (State.init n) s

end Overlap

end StreamEP

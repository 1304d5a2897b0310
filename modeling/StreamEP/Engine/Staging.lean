import StreamEP.Engine.Overlap

/-!
# Two staging buffers suffice

A buffer with attention metadata is written again two attention batches later. By then the event
of the batch that read it has been waited for: a batch is collected in the iteration after its
own, and the two batches are in different iterations. This module turns that into an invariant of
the overlapped loop, over every sequence of iterations and every delay of the GPU.

The invariant has a part about the stream, a part about the result queue and a part about the
buffers. The last says, for each buffer, that every write of it is *covered*: the CPU has waited
for a later event, or such an event waits in the queue. The buffer that is written next needs no
event from the queue where the loop packs.

## Main results

* `Overlap.Inv.step`, `Overlap.Inv.of_run`
* `Overlap.staged_of_run`
-/

namespace StreamEP

namespace Overlap

/-- Every write of the cell has passed, or an event of the list is after it. -/
def Covered (stream : AsyncStream Cell) (c : Cell) (queue : List (ForwardBatch × ℕ)) : Prop :=
  ∀ p, (c, p) ∈ stream.writes → stream.Passed p ∨ ∃ x ∈ queue, p < x.2

section Covered

variable {stream : AsyncStream Cell} {c : Cell} {queue : List (ForwardBatch × ℕ)}

theorem Covered.mono (h : Covered stream c queue) {queue' : List (ForwardBatch × ℕ)}
    (hsub : ∀ x ∈ queue, x ∈ queue') : Covered stream c queue' := by
  intro p hp
  exact (h p hp).imp_right fun ⟨x, hx, hlt⟩ => ⟨x, hsub x hx, hlt⟩

theorem Covered.write (h : Covered stream c queue) {c' : Cell} (hne : c ≠ c') :
    Covered (stream.write c') c queue := by
  intro p hp
  rcases List.mem_append.1 hp with hp | hp
  · exact h p hp
  · exact absurd (congrArg Prod.fst (List.mem_singleton.1 hp)) hne

theorem covered_nextEvent (hs : stream.Disciplined) (b : ForwardBatch) :
    Covered stream c (queue ++ [(b, stream.nextEvent)]) := by
  intro p hp
  refine .inr ⟨_, List.mem_append_right _ (List.mem_singleton.2 rfl), ?_⟩
  exact Nat.lt_succ_of_le (hs.writes_le _ hp)

theorem Covered.wait {x : ForwardBatch × ℕ} (h : Covered stream c (x :: queue)) :
    Covered (stream.wait x.2) c queue := by
  intro p hp
  rcases h p hp with hpass | ⟨y, hy, hlt⟩
  · exact .inl (hpass.wait _)
  · rcases List.mem_cons.1 hy with rfl | hy
    · exact .inl (stream.passed_wait hlt)
    · exact .inr ⟨y, hy, hlt⟩

theorem Covered.wait_any (h : Covered stream c queue) (e : ℕ) :
    Covered (stream.wait e) c queue := by
  intro p hp
  exact (h p hp).imp_left fun hpass => hpass.wait e

end Covered

/-! ### The invariant -/

namespace Pc

/-- The batch whose event was waited for and that is not post-processed yet. -/
def inHand : Pc → List (ForwardBatch × ℕ)
  | .postProc batch event => [(batch, event)]
  | _ => []

/-- What the next step needs of the stream: fresh cells to read, or an event to wait for. -/
def Ready (s : State) : Pc → Prop
  | .stashSlots _ => s.stream.Fresh (.batchTensorBuffer s.batchTensorBuffer)
  | .executeAttn slot => ∀ c, AttnReads s slot c → s.stream.Fresh c
  | .postProcess (some event) => event ∈ s.stream.events
  | _ => True

def Queued (s : State) : Pc → Prop
  | .top => s.resultQueue.map (·.1) = s.lastBatch.toList
  | .collect => s.resultQueue.map (·.1) = s.lastBatch.toList ++ s.forwardBatch.toList
  | .postProc _ _ | .postProcess _ | .finish => s.resultQueue.map (·.1) = s.forwardBatch.toList
  | _ => s.forwardBatch = none ∧ s.resultQueue.map (·.1) = s.lastBatch.toList

def CoveredBuffers (s : State) : Pc → Prop
  | .stashSlots _ | .executeAttn _ =>
    Covered s.stream (.batchTensorBuffer !s.batchTensorBuffer) s.resultQueue
  | .collect =>
    Covered s.stream (.batchTensorBuffer !s.batchTensorBuffer)
        (s.resultQueue.take s.lastBatch.toList.length) ∧
      Covered s.stream (.batchTensorBuffer s.batchTensorBuffer) s.resultQueue
  | _ =>
    Covered s.stream (.batchTensorBuffer !s.batchTensorBuffer) [] ∧
      Covered s.stream (.batchTensorBuffer s.batchTensorBuffer) s.resultQueue

end Pc

/-- The invariant, where the loop is at `pc`. -/
structure InvAt (pc : Pc) (s : State) : Prop where
  stream : s.stream.Disciplined
  ready : pc.Ready s
  events : ∀ x ∈ s.resultQueue, x.2 ∈ s.stream.events
  numbers : s.executed.map (·.1.number) = List.range s.executed.length
  order : s.executed = s.postProcessed ++ (pc.inHand ++ s.resultQueue)
  waited : ∀ x ∈ s.postProcessed ++ pc.inHand, x.2 ∈ s.stream.waited
  queued : pc.Queued s
  covered : pc.CoveredBuffers s

def Inv (s : State) : Prop := InvAt s.pc s

theorem inv_init (n : ℕ) : Inv (State.init n) where
  stream := .init
  ready := trivial
  events := by rintro x ⟨⟩
  numbers := rfl
  order := rfl
  waited := by rintro x ⟨⟩
  queued := rfl
  covered := ⟨by rintro p ⟨⟩, by rintro p ⟨⟩⟩

/-! ### One lemma per action -/

namespace InvAt

variable {s : State} {pc : Pc}

theorem retire (hs : InvAt pc s) (hlt : s.stream.retired < s.stream.ops.length) :
    InvAt pc { s with stream := s.stream.retire } where
  stream := hs.stream.retire hlt
  ready := by cases pc <;> exact hs.ready
  events := hs.events
  numbers := hs.numbers
  order := hs.order
  waited := hs.waited
  queued := by cases pc <;> exact hs.queued
  covered := by cases pc <;> exact hs.covered

theorem schedule (hs : InvAt .top s) (work : Work) :
    InvAt work.entry { s with forwardBatch := none, pc := work.entry } := by
  have hqueued : s.resultQueue.map (·.1) = s.lastBatch.toList := hs.queued
  cases work with
  | idle =>
    refine ⟨hs.stream, trivial, hs.events, hs.numbers, hs.order, hs.waited, ?_,
      hs.covered.1.mono (by rintro x ⟨⟩), hs.covered.2⟩
    show s.resultQueue.map (·.1) = s.lastBatch.toList ++ []
    rw [List.append_nil, hqueued]
  | expert =>
    exact ⟨hs.stream, trivial, hs.events, hs.numbers, hs.order, hs.waited, ⟨rfl, hqueued⟩,
      hs.covered⟩
  | attn numReqs =>
    exact ⟨hs.stream, trivial, hs.events, hs.numbers, hs.order, hs.waited, ⟨rfl, hqueued⟩,
      hs.covered⟩
  | sampling numReqs numContinue hle =>
    exact ⟨hs.stream, trivial, hs.events, hs.numbers, hs.order, hs.waited, ⟨rfl, hqueued⟩,
      hs.covered⟩

theorem pack {numReqs : ℕ} (hs : InvAt (.pack numReqs) s) :
    InvAt (.stashSlots numReqs) { s.packFlashAttnMetadata with pc := .stashSlots numReqs } := by
  have hfresh := hs.stream.fresh_write (.batchTensorBuffer !s.batchTensorBuffer)
  refine ⟨(hs.stream.write _).enqueue ?_, hfresh, hs.events, hs.numbers, hs.order, hs.waited,
    hs.queued, ?_⟩
  · intro reads hreads c hc
    obtain rfl := List.mem_singleton.1 hreads
    obtain rfl := List.mem_singleton.1 hc
    exact hfresh
  · show Covered (s.stream.write (.batchTensorBuffer !s.batchTensorBuffer))
      (.batchTensorBuffer !(!s.batchTensorBuffer)) s.resultQueue
    rw [Bool.not_not]
    exact hs.covered.2.write (by simp)

theorem stashSlots {numReqs : ℕ} (hs : InvAt (.stashSlots numReqs) s) :
    InvAt (.executeAttn (some (s.nextSlot .stashSlots))) { s.copyToSlot .stashSlots with
      pc := .executeAttn (some (s.nextSlot .stashSlots)) } := by
  have hcovered : Covered s.stream (.batchTensorBuffer !s.batchTensorBuffer) s.resultQueue :=
    hs.covered
  refine ⟨hs.stream.write _, ?_, hs.events, hs.numbers, hs.order, hs.waited, hs.queued,
    hcovered.write (by simp)⟩
  rintro c (rfl | ⟨i, hi, rfl⟩)
  · obtain ⟨p, hp, hlast⟩ := hs.ready
    exact ⟨p, List.mem_append_left _ hp, hlast⟩
  · obtain rfl := Option.some.inj hi
    exact hs.stream.fresh_write _

theorem noStashSlots (hs : InvAt (.stashSlots 0) s) :
    InvAt (.executeAttn none) { s with pc := .executeAttn none } := by
  refine ⟨hs.stream, ?_, hs.events, hs.numbers, hs.order, hs.waited, hs.queued, hs.covered⟩
  rintro c (rfl | ⟨i, hi, rfl⟩)
  · exact hs.ready
  · cases hi

theorem execute (hs : InvAt pc s) (isAttn : Bool) {ops : List (List Cell)}
    (hfresh : ∀ reads ∈ ops, ∀ c ∈ reads, s.stream.Fresh c) (hhand : pc.inHand = [])
    (hqueued : s.resultQueue.map (·.1) = s.lastBatch.toList)
    (hcovered : Covered s.stream (.batchTensorBuffer !s.batchTensorBuffer) s.resultQueue) :
    InvAt .collect { s.execute isAttn ops with pc := .collect } := by
  have horder := hs.order
  have hwaited := hs.waited
  rw [hhand] at horder hwaited
  have hstream := hs.stream.enqueue hfresh
  have hlength : s.lastBatch.toList.length = s.resultQueue.length := by
    rw [← hqueued, List.length_map]
  refine ⟨hstream.record, trivial, fun x hx => ?_, ?_, ?_, hwaited, ?_, ?_, ?_⟩
  · show x.2 ∈ s.stream.events ++ [(s.stream.enqueue ops).nextEvent]
    rcases List.mem_append.1 hx with hx | hx
    · exact List.mem_append_left _ (hs.events x hx)
    · rw [List.mem_singleton.1 hx]
      exact List.mem_append_right _ (List.mem_singleton.2 rfl)
  · simp [State.execute, hs.numbers, List.range_succ]
  · simp [State.execute, horder, Pc.inHand]
  · simp [State.execute, Pc.Queued, hqueued]
  · simp only [State.execute]
    rw [hlength, List.take_left]
    exact hcovered
  · exact covered_nextEvent hstream _

theorem executeAttn {slot : Option ℕ} (hs : InvAt (.executeAttn slot) s) {ops : List (List Cell)}
    (hops : ∀ reads ∈ ops, ∀ c ∈ reads, AttnReads s slot c) :
    InvAt .collect { s.execute true ops with pc := .collect } :=
  hs.execute true (fun reads hreads c hc => hs.ready c (hops reads hreads c hc)) rfl hs.queued.2
    hs.covered

theorem executeExpert (hs : InvAt .executeExpert s) (numOps : ℕ) :
    InvAt .collect { s.execute false (List.replicate numOps []) with pc := .collect } := by
  refine hs.execute false (fun reads hreads c hc => ?_) rfl hs.queued.2
    (hs.covered.1.mono (by rintro x ⟨⟩))
  rw [List.eq_of_mem_replicate hreads] at hc
  cases hc

theorem readSlot (hs : InvAt pc s) (ring : Ring) :
    (((s.copyToSlot ring).stream.enqueue [[.slot ring (s.nextSlot ring)]])).Disciplined := by
  refine (hs.stream.write _).enqueue ?_
  intro reads hreads c hc
  obtain rfl := List.mem_singleton.1 hreads
  obtain rfl := List.mem_singleton.1 hc
  exact hs.stream.fresh_write _

theorem sample {numReqs numContinue : ℕ} (hs : InvAt (.sample numReqs numContinue) s) :
    InvAt (.continueIds numContinue) { s.copyToSlot .stashSlots with
      stream := (s.copyToSlot .stashSlots).stream.enqueue
        [[.slot .stashSlots (s.nextSlot .stashSlots)]]
      pc := .continueIds numContinue } :=
  ⟨hs.readSlot _, trivial, hs.events, hs.numbers, hs.order, hs.waited, hs.queued,
    hs.covered.1.write (by simp), hs.covered.2.write (by simp)⟩

theorem noSample {numContinue : ℕ} (hs : InvAt (.sample 0 numContinue) s) :
    InvAt (.continueIds numContinue)
      { s with stream := s.stream.enqueue [[]], pc := .continueIds numContinue } :=
  ⟨hs.stream.enqueue (by simp), trivial, hs.events, hs.numbers, hs.order, hs.waited, hs.queued,
    hs.covered⟩

theorem continueIds {numContinue : ℕ} (hs : InvAt (.continueIds numContinue) s) :
    InvAt .collect { s.copyToSlot .sampleContinueIds with
      stream := (s.copyToSlot .sampleContinueIds).stream.enqueue
        [[.slot .sampleContinueIds (s.nextSlot .sampleContinueIds)]]
      pc := .collect } := by
  refine ⟨hs.readSlot _, trivial, hs.events, hs.numbers, hs.order, hs.waited, ?_,
    (hs.covered.1.write (by simp)).mono (by rintro x ⟨⟩), hs.covered.2.write (by simp)⟩
  show s.resultQueue.map (·.1) = s.lastBatch.toList ++ s.forwardBatch.toList
  rw [hs.queued.1, hs.queued.2]
  exact (List.append_nil _).symm

theorem noContinueIds (hs : InvAt (.continueIds 0) s) :
    InvAt .collect { s with pc := .collect } := by
  refine ⟨hs.stream, trivial, hs.events, hs.numbers, hs.order, hs.waited, ?_,
    hs.covered.1.mono (by rintro x ⟨⟩), hs.covered.2⟩
  show s.resultQueue.map (·.1) = s.lastBatch.toList ++ s.forwardBatch.toList
  rw [hs.queued.1, hs.queued.2]
  exact (List.append_nil _).symm

theorem skip (hs : InvAt .collect s) (hlast : s.lastBatch = none) :
    InvAt .finish { s with pc := .finish } := by
  have hqueued : s.resultQueue.map (·.1) = s.lastBatch.toList ++ s.forwardBatch.toList := hs.queued
  have hcovered := hs.covered.1
  rw [hlast] at hqueued hcovered
  exact ⟨hs.stream, trivial, hs.events, hs.numbers, hs.order, hs.waited, hqueued, hcovered,
    hs.covered.2⟩

/-- **Waiting** for the batch of the iteration before. Its event covers the writes of the buffer
that is packed next. -/
theorem wait (hs : InvAt .collect s) {last batch : ForwardBatch} {event : ℕ}
    {rest : List (ForwardBatch × ℕ)} (hlast : s.lastBatch = some last)
    (hqueue : s.resultQueue = (batch, event) :: rest) (hevent : event ≤ s.stream.retired) :
    InvAt (.postProc batch event) { s with
      resultQueue := rest
      stream := s.stream.wait event
      pc := .postProc batch event } := by
  have hqueued : s.resultQueue.map (·.1) = s.lastBatch.toList ++ s.forwardBatch.toList := hs.queued
  have hcovered := hs.covered
  have horder := hs.order
  simp only [Pc.CoveredBuffers, hlast, hqueue] at hcovered
  rw [hlast, hqueue] at hqueued
  have hmem : (batch, event) ∈ s.resultQueue := by rw [hqueue]; exact List.mem_cons_self ..
  refine ⟨hs.stream.wait (hs.events _ hmem) hevent, trivial, fun x hx => hs.events x ?_,
    hs.numbers, ?_, ?_, (List.cons.inj hqueued).2, hcovered.1.wait, hcovered.2.wait⟩
  · rw [hqueue]
    exact List.mem_cons_of_mem _ hx
  · rw [horder, hqueue]
    rfl
  · intro x hx
    rcases List.mem_append.1 hx with hx | hx
    · exact List.mem_append_left _ (hs.waited x (List.mem_append_left _ hx))
    · rw [List.mem_singleton.1 hx]
      exact List.mem_append_right _ (List.mem_singleton.2 rfl)

theorem postProc {batch : ForwardBatch} {event : ℕ} (hs : InvAt (.postProc batch event) s) :
    InvAt (s.postProcFunc batch event).pc (s.postProcFunc batch event) := by
  have horder : s.executed = s.postProcessed ++ ([(batch, event)] ++ s.resultQueue) := hs.order
  rw [← List.append_assoc] at horder
  have hwaited : ∀ x ∈ s.postProcessed ++ [(batch, event)] ++ [], x.2 ∈ s.stream.waited := by
    rw [List.append_nil]
    exact hs.waited
  unfold State.postProcFunc
  cases batch.isAttn with
  | true =>
    have hstream : (s.stream.enqueue [[]]).Disciplined := hs.stream.enqueue (by simp)
    refine ⟨hstream.record, ?_, fun x hx => ?_, hs.numbers, horder, hwaited, hs.queued,
      hs.covered⟩
    · exact List.mem_append_right _ (List.mem_singleton.2 rfl)
    · exact List.mem_append_left _ (hs.events x hx)
  | false =>
    exact ⟨hs.stream, trivial, hs.events, hs.numbers, horder, hwaited, hs.queued, hs.covered⟩

theorem postProcess {event : ℕ} (hs : InvAt (.postProcess (some event)) s)
    (hevent : event ≤ s.stream.retired) :
    InvAt .finish { s with stream := s.stream.wait event, pc := .finish } := by
  refine ⟨hs.stream.wait hs.ready hevent, trivial, hs.events, hs.numbers, hs.order,
    fun x hx => List.mem_append_left _ (hs.waited x hx), hs.queued, hs.covered.1.wait_any event,
    hs.covered.2.wait_any event⟩

theorem postProcessExpert (hs : InvAt (.postProcess none) s) :
    InvAt .finish { s with pc := .finish } :=
  ⟨hs.stream, trivial, hs.events, hs.numbers, hs.order, hs.waited, hs.queued, hs.covered⟩

theorem finish (hs : InvAt .finish s) :
    InvAt .top { s with lastBatch := s.forwardBatch, pc := .top } :=
  ⟨hs.stream, trivial, hs.events, hs.numbers, hs.order, hs.waited, hs.queued, hs.covered⟩

end InvAt

/-! ### Runs -/

theorem Inv.here {s : State} (hs : Inv s) {pc : Pc} (hpc : s.pc = pc) : InvAt pc s := by
  subst hpc
  exact hs

theorem Inv.step {s s' : State} (hs : Inv s) (hstep : Step s s') : Inv s' := by
  cases hstep with
  | retire hlt => exact InvAt.retire hs hlt
  | schedule work hpc => exact (hs.here hpc).schedule work
  | pack hpc => exact (hs.here hpc).pack
  | stashSlots hpc hpos => exact (hs.here hpc).stashSlots
  | noStashSlots hpc => exact (hs.here hpc).noStashSlots
  | executeAttn ops hpc hops => exact (hs.here hpc).executeAttn hops
  | executeExpert numOps hpc => exact (hs.here hpc).executeExpert numOps
  | sample hpc hpos => exact (hs.here hpc).sample
  | noSample hpc => exact (hs.here hpc).noSample
  | continueIds hpc hpos => exact (hs.here hpc).continueIds
  | noContinueIds hpc => exact (hs.here hpc).noContinueIds
  | skip hpc hlast => exact (hs.here hpc).skip hlast
  | wait hpc hlast hqueue hevent => exact (hs.here hpc).wait hlast hqueue hevent
  | postProc hpc => exact (hs.here hpc).postProc
  | postProcess hpc hevent => exact (hs.here hpc).postProcess hevent
  | postProcessExpert hpc => exact (hs.here hpc).postProcessExpert
  | finish hpc => exact (hs.here hpc).finish

theorem Inv.of_run {n : ℕ} {s : State} (hrun : Run n s) : Inv s := by
  induction hrun with
  | refl => exact inv_init n
  | tail _ hstep ih => exact ih.step hstep

structure Staged (s : State) : Prop where
  /-- Where the metadata of a batch is packed, every operation that reads what was packed before
  in the same buffer has retired. -/
  pack : ∀ numReqs, s.pc = .pack numReqs →
    s.stream.Quiet (.batchTensorBuffer s.packFlashAttnMetadata.batchTensorBuffer)
  numbers : s.executed.map (·.1.number) = List.range s.executed.length
  /-- The executed batches are post-processed once each and in order, each with its event. -/
  order : s.postProcessed <+: s.executed
  waited : ∀ x ∈ s.postProcessed, x.2 ∈ s.stream.waited
  /-- Between two iterations at most the batch of the last iteration is pending. -/
  pending : s.pc = .top →
    s.executed.map (·.1) = s.postProcessed.map (·.1) ++ s.lastBatch.toList
  /-- The result queue has a batch where one is taken from it. -/
  popleft : s.pc = .collect → s.lastBatch ≠ none → s.resultQueue ≠ []

/-- **Two staging buffers suffice**, in every run. -/
theorem staged_of_run {n : ℕ} {s : State} (hrun : Run n s) : Staged s := by
  have hs := Inv.of_run hrun
  refine
    { pack := fun numReqs hpc => ?_
      numbers := hs.numbers
      order := ⟨_, hs.order.symm⟩
      waited := fun x hx => hs.waited x (List.mem_append_left _ hx)
      pending := fun hpc => ?_
      popleft := fun hpc hlast hnil => ?_ }
  · replace hs := hs.here hpc
    refine hs.stream.quiet fun p hp => ?_
    rcases hs.covered.1 p hp with hpass | ⟨x, hx, -⟩
    · exact hpass
    · cases hx
  · replace hs := hs.here hpc
    have hqueued : s.resultQueue.map (·.1) = s.lastBatch.toList := hs.queued
    rw [hs.order, List.map_append, ← hqueued]
    rfl
  · replace hs := hs.here hpc
    have hqueued : s.resultQueue.map (·.1) = s.lastBatch.toList ++ s.forwardBatch.toList :=
      hs.queued
    rw [hnil] at hqueued
    have hempty := (List.append_eq_nil_iff.1 hqueued.symm).1
    exact hlast (Option.toList_eq_nil_iff.1 hempty)

/-- An attention batch, an expert batch and an attention batch. When a third attention batch is
packed into the buffer of the first, the second is still pending and has not retired. -/
theorem staged_third_attention :
    ∃ s : State, Run 2 s ∧ s.pc = .pack 1 ∧ s.stream.retired < s.stream.ops.length ∧
      s.executed.length = 3 ∧ s.postProcessed.length = 2 ∧ Staged s := by
  have hrun : Relation.ReflTransGen Step (State.init 2) _ := .refl
  replace hrun := hrun.tail (Step.schedule (.attn 1) rfl)
  replace hrun := hrun.tail (Step.pack rfl)
  replace hrun := hrun.tail (Step.stashSlots rfl (by decide))
  replace hrun := hrun.tail (Step.executeAttn [] rfl (by simp))
  replace hrun := hrun.tail (Step.skip rfl rfl)
  replace hrun := hrun.tail (Step.finish rfl)
  replace hrun := hrun.tail (Step.schedule .expert rfl)
  replace hrun := hrun.tail (Step.executeExpert 0 rfl)
  replace hrun := hrun.tail (Step.retire (by decide))
  replace hrun := hrun.tail (Step.retire (by decide))
  replace hrun := hrun.tail (Step.wait rfl rfl rfl (by decide))
  replace hrun := hrun.tail (Step.postProc rfl)
  replace hrun := hrun.tail (Step.retire (by decide))
  replace hrun := hrun.tail (Step.retire (by decide))
  replace hrun := hrun.tail (Step.retire (by decide))
  replace hrun := hrun.tail (Step.postProcess rfl (by decide))
  replace hrun := hrun.tail (Step.finish rfl)
  replace hrun := hrun.tail (Step.schedule (.attn 1) rfl)
  replace hrun := hrun.tail (Step.pack rfl)
  replace hrun := hrun.tail (Step.stashSlots rfl (by decide))
  replace hrun := hrun.tail (Step.executeAttn [] rfl (by simp))
  replace hrun := hrun.tail (Step.wait rfl rfl rfl (by decide))
  replace hrun := hrun.tail (Step.postProc rfl)
  replace hrun := hrun.tail (Step.postProcessExpert rfl)
  replace hrun := hrun.tail (Step.finish rfl)
  replace hrun := hrun.tail (Step.schedule (.attn 1) rfl)
  exact ⟨_, hrun, rfl, by decide, rfl, rfl, staged_of_run hrun⟩

end Overlap

end StreamEP

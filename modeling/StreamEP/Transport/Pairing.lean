import StreamEP.Transport.MuPool
import Mathlib.Data.List.Perm.Subperm
import Mathlib.Tactic.Ring

/-!
# The two halves of a batch meet again

Metadata of all senders share one queue while tensors come over one channel per sender, and
receives complete in an order of their own. What keeps the halves together is an equality of two
lists, kept for every sender:

  tensors in its channel, then the one being sent
    = receives waiting for a tensor, then metadata not yet received.

Both sides list the batches of the sender in the order they were sent, so the oldest tensor in a
channel is always the one the oldest waiting receive asked for. Once a tensor has been received
the order no longer matters, and receives of one sender may indeed be processed out of order.

## Main results

* `Inv.step`, `Inv.of_steps`
* `paired_of_reachable`
-/

namespace StreamEP

namespace Transport

open Relation

variable {ι W V : Type} [DecidableEq ι]

/-! ### The invariant -/

/-- The batch of `p` a local receive is waiting for. -/
def Phase.receiving (p : ι) : Phase ι W V → List ℕ
  | .recvLocal _ q seq _ => if q = p then [seq] else []
  | _ => []

@[simp] theorem Phase.current_next (p : ι) (n : ℕ) : (next n : Phase ι W V).current p = [] := by
  unfold next
  split <;> rfl

@[simp] theorem Phase.receiving_next (p : ι) (n : ℕ) :
    (next n : Phase ι W V).receiving p = [] := by
  unfold next
  split <;> rfl

namespace State

variable (s : State ι W V) (p : ι)

/-- Batches of `p` whose metadata has been received and whose tensor has not. -/
def waiting : List ℕ :=
  (s.pendingRecvs.filterMap fun e =>
    if e.peerId = p ∧ e.tensor = none then some e.seq else none) ++ s.phase.receiving p

/-- Batch number `seq` of `p` was sent with this metadata. -/
def MetadataOf (seq : ℕ) (metadata : BatchMetadata W) : Prop :=
  ∃ b, (s.sent p)[seq]? = some b ∧ b.metadata = metadata

/-- Batch number `seq` of `p` was sent with this tensor. -/
def TensorOf (seq : ℕ) (tensor : List V) : Prop :=
  ∃ b, (s.sent p)[seq]? = some b ∧ b.data = tensor

end State

/-- What the phase of the receiving thread knows about its batch. -/
def State.PhaseOk (isLocal : ι → Bool) (s : State ι W V) : Phase ι W V → Prop
  | .recvLocal _ p seq metadata => isLocal p = true ∧ s.MetadataOf p seq metadata
  | .handLocal _ x => s.MetadataOf x.peerId x.seq x.metadata ∧ s.TensorOf x.peerId x.seq x.tensor
  | _ => True

structure Inv (isLocal : ι → Bool) (s : State ι W V) : Prop where
  rows : ∀ p, ∀ b ∈ s.sent p, b.data.length = b.metadata.numTokens
  /-- Tensors and metadata come in the same order. -/
  aligned : ∀ p, (s.channel p).map (·.1) ++ (s.sending p).toList.map (·.1) =
    s.waiting p ++ s.queued p
  places : ∀ p, (s.done p ++ s.current p ++ s.pending p ++ s.queued p).Perm
    (List.range (s.sent p).length)
  /-- A dispatcher sends the tensor of the batch it announced. -/
  sending : ∀ p seq b, s.sending p = some (seq, b) → (s.sent p)[seq]? = some b
  /-- Metadata on the way are those of their batch. -/
  onWire : ∀ p, ∀ x ∈ s.onWire p, s.MetadataOf p x.1 x.2
  /-- Metadata in the queue are those of their batch. -/
  mq : ∀ x ∈ s.mq, s.MetadataOf x.1 x.2.1 x.2.2
  /-- Tensors in a channel are those of their batch. -/
  channel : ∀ p, ∀ x ∈ s.channel p, s.TensorOf p x.1 x.2
  /-- Only remote receives are posted, with the metadata of their batch. -/
  posted : ∀ e ∈ s.pendingRecvs, isLocal e.peerId = false ∧ s.MetadataOf e.peerId e.seq e.metadata
  /-- A complete receive has the tensor of its batch. -/
  completed : ∀ e ∈ s.pendingRecvs, ∀ tensor, e.tensor = some tensor →
    s.TensorOf e.peerId e.seq tensor
  /-- A local receive is for a local channel. -/
  phase : s.PhaseOk isLocal s.phase
  processed : ∀ x ∈ s.processed,
    s.MetadataOf x.peerId x.seq x.metadata ∧ s.TensorOf x.peerId x.seq x.tensor

/-- What the calls of `process_batch` get, and where every other batch is. -/
structure Paired (s : State ι W V) : Prop where
  /-- Tensor and metadata of a call were sent together, by the sender the metadata names, and
  the tensor has as many rows as the metadata say. -/
  together : ∀ x ∈ s.processed, ∃ b, (s.sent x.peerId)[x.seq]? = some b ∧
    x.metadata = b.metadata ∧ x.tensor = b.data ∧ x.tensor.length = x.metadata.numTokens
  once : (s.processed.map fun x => (x.peerId, x.seq)).Nodup
  /-- The batches of a sender are the processed ones, the one being received or handed over,
  those in `pending_recvs` and those with their metadata still queued. -/
  places : ∀ p, (s.done p ++ s.current p ++ s.pending p ++ s.queued p).Perm
    (List.range (s.sent p).length)

section Lemmas

variable {isLocal : ι → Bool} {s : State ι W V}

theorem mem_of_mem_update_tail {α : Type} {f : ι → List α} {p q : ι} {x y : α} {rest : List α}
    (hp : f p = x :: rest) (hy : y ∈ Function.update f p rest q) : y ∈ f q := by
  by_cases hq : q = p
  · subst hq
    rw [Function.update_self] at hy
    rw [hp]
    exact List.mem_cons_of_mem _ hy
  · rwa [Function.update_of_ne hq] at hy

theorem inv_init (isLocal : ι → Bool) : Inv isLocal (State.init ι W V) where
  rows := by simp [State.init]
  aligned p := rfl
  places p := .refl _
  sending := by simp [State.init]
  onWire := by simp [State.init]
  mq := by simp [State.init]
  channel := by simp [State.init]
  posted := by simp [State.init]
  completed := by simp [State.init]
  phase := trivial
  processed := by simp [State.init]

/-- A tensor is as long as its metadata say, so copying `num_element` elements copies it. -/
theorem Inv.take_eq (hs : Inv isLocal s) {p : ι} {seq : ℕ} {metadata : BatchMetadata W}
    {tensor : List V} (hm : s.MetadataOf p seq metadata) (ht : s.TensorOf p seq tensor) :
    tensor.take metadata.numTokens = tensor := by
  obtain ⟨b, hb, rfl⟩ := hm
  obtain ⟨b', hb', rfl⟩ := ht
  obtain rfl : b = b' := Option.some_injective _ (hb.symm.trans hb')
  exact List.take_of_length_le (hs.rows p b (List.mem_of_getElem? hb)).le

theorem Inv.waiting_local (hs : Inv isLocal s) {p : ι} (hp : isLocal p = true) :
    s.waiting p = s.phase.receiving p := by
  rw [State.waiting, List.filterMap_eq_nil_iff.2, List.nil_append]
  intro e he
  have := (hs.posted e he).1
  rw [if_neg]
  rintro ⟨rfl, -⟩
  simp_all

theorem Inv.head_eq (hs : Inv isLocal s) {p : ι} {x : ℕ × List V} {rest seq seqs}
    (hchannel : s.channel p = x :: rest) (hwaiting : s.waiting p = seq :: seqs) :
    x.1 = seq ∧ rest.map (·.1) ++ (s.sending p).toList.map (·.1) = seqs ++ s.queued p := by
  have h := hs.aligned p
  rw [hchannel, hwaiting] at h
  simpa using h

/-! ### One lemma per action -/

omit [DecidableEq ι] in
theorem State.phaseOk_next (s : State ι W V) (n : ℕ) : s.PhaseOk isLocal (.next n) := by
  unfold Phase.next
  split <;> trivial

/-- A batch sent later does not change what is known about the earlier ones. -/
theorem getElem?_update_append {sent : ι → List (TokenBatch W V)} {p q : ι} {seq : ℕ}
    {b b' : TokenBatch W V} (h : (sent q)[seq]? = some b) :
    (Function.update sent p (sent p ++ [b']) q)[seq]? = some b := by
  by_cases hq : q = p
  · subst hq
    rw [Function.update_self, List.getElem?_append_left (List.getElem?_eq_some_iff.1 h).1, h]
  · rw [Function.update_of_ne hq, h]

theorem Inv.setPhase (hs : Inv isLocal s) {φ : Phase ι W V}
    (hcurrent : ∀ p, φ.current p = s.phase.current p)
    (hreceiving : ∀ p, φ.receiving p = s.phase.receiving p) (hφ : s.PhaseOk isLocal φ) :
    Inv isLocal { s with phase := φ } :=
  { hs with
    aligned := fun p => by
      have h := hs.aligned p
      simp only [State.waiting, State.queued] at h ⊢
      rwa [hreceiving]
    places := fun p => by
      have h := hs.places p
      simp only [State.done, State.current, State.pending, State.queued] at h ⊢
      rwa [hcurrent]
    phase := hφ }

theorem Inv.sendMetadata (hs : Inv isLocal s) {p : ι} {b : TokenBatch W V}
    (hidle : s.sending p = none) (hrows : b.data.length = b.metadata.numTokens) :
    Inv isLocal
      { s with
        sent := Function.update s.sent p (s.sent p ++ [b])
        sending := Function.update s.sending p (some ((s.sent p).length, b))
        onWire := Function.update s.onWire p
          (s.onWire p ++ [((s.sent p).length, b.metadata)]) } := by
  have hmeta : ∀ {q seq m}, s.MetadataOf q seq m →
      ∃ b', (Function.update s.sent p (s.sent p ++ [b]) q)[seq]? = some b' ∧ b'.metadata = m :=
    fun ⟨b', hb', hm⟩ => ⟨b', getElem?_update_append hb', hm⟩
  have htensor : ∀ {q seq x}, s.TensorOf q seq x →
      ∃ b', (Function.update s.sent p (s.sent p ++ [b]) q)[seq]? = some b' ∧ b'.data = x :=
    fun ⟨b', hb', hx⟩ => ⟨b', getElem?_update_append hb', hx⟩
  have hnew : (Function.update s.sent p (s.sent p ++ [b]) p)[(s.sent p).length]? = some b := by
    simp
  refine
    { rows := fun q b' hb' => ?_
      aligned := fun q => ?_
      places := fun q => ?_
      sending := fun q seq b' h => ?_
      onWire := fun q x hx => ?_
      mq := fun x hx => hmeta (hs.mq x hx)
      channel := fun q x hx => htensor (hs.channel q x hx)
      posted := fun e he => ⟨(hs.posted e he).1, hmeta (hs.posted e he).2⟩
      completed := fun e he x hx => htensor (hs.completed e he x hx)
      phase := ?_
      processed := fun x hx => ⟨hmeta (hs.processed x hx).1, htensor (hs.processed x hx).2⟩ }
  · by_cases hq : q = p
    · subst hq
      simp only [Function.update_self, List.mem_append, List.mem_singleton] at hb'
      rcases hb' with hb' | rfl
      exacts [hs.rows q b' hb', hrows]
    · simp only [Function.update_of_ne hq] at hb'
      exact hs.rows q b' hb'
  · have h := hs.aligned q
    by_cases hq : q = p
    · subst hq
      simp only [hidle, Option.toList_none, List.map_nil, List.append_nil] at h
      simp [State.queued, h, State.waiting]
    · simpa [State.queued, State.waiting, Function.update_of_ne hq] using h
  · have h := hs.places q
    by_cases hq : q = p
    · subst hq
      have hr : List.range ((s.sent q).length + 1) =
          List.range (s.sent q).length ++ [(s.sent q).length] := List.range_succ
      simpa [State.queued, State.done, State.current, State.pending, hr]
        using h.append_right [(s.sent q).length]
    · simpa [State.queued, State.done, State.current, State.pending, Function.update_of_ne hq]
        using h
  · by_cases hq : q = p
    · subst hq
      simp only [Function.update_self, Option.some.injEq, Prod.mk.injEq] at h
      obtain ⟨rfl, rfl⟩ := h
      exact hnew
    · simp only [Function.update_of_ne hq] at h
      exact getElem?_update_append (hs.sending q seq b' h)
  · by_cases hq : q = p
    · subst hq
      simp only [Function.update_self, List.mem_append, List.mem_singleton] at hx
      rcases hx with hx | rfl
      exacts [hmeta (hs.onWire q x hx), ⟨b, hnew, rfl⟩]
    · simp only [Function.update_of_ne hq] at hx
      exact hmeta (hs.onWire q x hx)
  · have h := hs.phase
    show State.PhaseOk isLocal _ s.phase
    cases hphase : s.phase with
    | recvLocal n q seq m =>
      rw [hphase] at h
      exact ⟨h.1, hmeta h.2⟩
    | handLocal n x =>
      rw [hphase] at h
      exact ⟨hmeta h.1, htensor h.2⟩
    | _ => trivial

theorem Inv.sendData (hs : Inv isLocal s) {p : ι} {seq : ℕ} {b : TokenBatch W V}
    (hsending : s.sending p = some (seq, b)) :
    Inv isLocal
      { s with
        sending := Function.update s.sending p none
        channel := Function.update s.channel p
          (s.channel p ++ [(seq, b.data.take b.metadata.numTokens)]) } :=
  { hs with
    aligned := fun q => by
      have h := hs.aligned q
      by_cases hq : q = p
      · subst hq
        simpa [State.waiting, State.queued, hsending] using h
      · simpa [State.waiting, State.queued, Function.update_of_ne hq] using h
    sending := fun q seq' b' h => by
      by_cases hq : q = p
      · simp [hq] at h
      · exact hs.sending q seq' b' (by simpa [Function.update_of_ne hq] using h)
    channel := fun q x hx => by
      by_cases hq : q = p
      · subst hq
        have hb := hs.sending q seq b hsending
        simp only [Function.update_self, List.mem_append, List.mem_singleton] at hx
        rcases hx with hx | rfl
        · exact hs.channel q x hx
        · exact ⟨b, hb, (hs.take_eq ⟨b, hb, rfl⟩ ⟨b, hb, rfl⟩).symm⟩
      · exact hs.channel q x (by simpa [Function.update_of_ne hq] using hx) }

theorem Inv.deliver (hs : Inv isLocal s) {p : ι} {x : ℕ × BatchMetadata W} {rest}
    (hwire : s.onWire p = x :: rest) :
    Inv isLocal { s with onWire := Function.update s.onWire p rest, mq := s.mq ++ [(p, x)] } := by
  -- the message moves from the end of the queue to the start of the wire
  have hqueued : ∀ q, State.queued
      { s with onWire := Function.update s.onWire p rest, mq := s.mq ++ [(p, x)] } q =
        s.queued q := by
    intro q
    by_cases hq : q = p
    · subst hq
      simp [State.queued, hwire]
    · simp [State.queued, Function.update_of_ne hq, Ne.symm hq]
  refine
    { hs with
      aligned := fun q => (hs.aligned q).trans (by rw [hqueued]; rfl)
      places := fun q => by rw [hqueued]; exact hs.places q
      onWire := fun q y hy => ?_
      mq := fun y hy => ?_ }
  · by_cases hq : q = p
    · subst hq
      exact hs.onWire q y (by rw [hwire]; exact List.mem_cons_of_mem _ (by simpa using hy))
    · exact hs.onWire q y (by simpa [Function.update_of_ne hq] using hy)
  · simp only [List.mem_append, List.mem_singleton] at hy
    rcases hy with hy | rfl
    · exact hs.mq y hy
    · exact hs.onWire p x (by simp [hwire])

theorem State.queued_of_mq {t : State ι W V} {seq : ℕ} {p : ι} {metadata : BatchMetadata W} {rest}
    (hmq : s.mq = (p, seq, metadata) :: rest) (hmq' : t.mq = rest) (hwire : t.onWire = s.onWire)
    (q : ι) : s.queued q = (if p = q then [seq] else []) ++ t.queued q := by
  unfold State.queued
  rw [hmq, hmq', hwire]
  by_cases hq : p = q <;> simp [hq]

theorem Inv.recvMetadataLocal (hs : Inv isLocal s) {block : Bool} {n seq : ℕ} {p : ι}
    {metadata : BatchMetadata W} {rest} (hphase : s.phase = .drain block n)
    (hmq : s.mq = (p, seq, metadata) :: rest) (hlocal : isLocal p = true) :
    Inv isLocal { s with mq := rest, phase := .recvLocal n p seq metadata } := by
  have hqueued := State.queued_of_mq (t :=
    { s with mq := rest, phase := .recvLocal n p seq metadata }) hmq rfl rfl
  refine
    { hs with
      aligned := fun q => ?_
      places := fun q => ?_
      mq := fun x hx => hs.mq x (by rw [hmq]; exact List.mem_cons_of_mem _ hx)
      phase := ⟨hlocal, hs.mq (p, seq, metadata) (by simp [hmq])⟩ }
  · have h := hs.aligned q
    rw [hqueued, State.waiting, hphase] at h
    simpa [State.waiting, Phase.receiving] using h
  · have h := hs.places q
    rw [hqueued, State.current, hphase] at h
    refine List.Perm.trans ?_ h
    simp only [Phase.current, List.append_nil, List.append_assoc]
    refine List.Perm.append_left _ ?_
    rw [← List.append_assoc, ← List.append_assoc]
    exact List.perm_append_comm.append_right _

theorem Inv.recvMetadataNccl (hs : Inv isLocal s) {block : Bool} {n seq : ℕ} {p : ι}
    {metadata : BatchMetadata W} {rest} (hphase : s.phase = .drain block n)
    (hmq : s.mq = (p, seq, metadata) :: rest) (hlocal : isLocal p = false) :
    Inv isLocal
      { s with
        mq := rest
        pendingRecvs := s.pendingRecvs ++ [⟨p, seq, metadata, none⟩]
        phase := .next n } := by
  have hqueued := State.queued_of_mq (t :=
    { s with
      mq := rest
      pendingRecvs := s.pendingRecvs ++ [⟨p, seq, metadata, none⟩]
      phase := .next n }) hmq rfl rfl
  refine
    { hs with
      aligned := fun q => ?_
      places := fun q => ?_
      mq := fun x hx => hs.mq x (by rw [hmq]; exact List.mem_cons_of_mem _ hx)
      posted := fun e he => ?_
      completed := fun e he tensor htensor => ?_
      phase := s.phaseOk_next n }
  · have h := hs.aligned q
    rw [hqueued, State.waiting, hphase] at h
    rw [State.waiting, Phase.receiving_next]
    by_cases hq : p = q <;> simpa [Phase.receiving, hq] using h
  · have h := hs.places q
    rw [hqueued, State.current, hphase] at h
    rw [State.current, Phase.current_next]
    by_cases hq : p = q <;> simpa [State.done, State.pending, Phase.current, hq] using h
  · simp only [List.mem_append, List.mem_singleton] at he
    rcases he with he | rfl
    exacts [hs.posted e he, ⟨hlocal, hs.mq (p, seq, metadata) (by simp [hmq])⟩]
  · simp only [List.mem_append, List.mem_singleton] at he
    rcases he with he | rfl
    exacts [hs.completed e he tensor htensor, by cases htensor]

theorem Inv.recvLocal (hs : Inv isLocal s) {n seq : ℕ} {p : ι} {metadata : BatchMetadata W}
    {x : ℕ × List V} {rest} (hphase : s.phase = .recvLocal n p seq metadata)
    (hchannel : s.channel p = x :: rest) :
    Inv isLocal
      { s with
        channel := Function.update s.channel p rest
        phase := .handLocal n ⟨p, seq, metadata, x.2.take metadata.numTokens⟩ } := by
  obtain ⟨hlocal, hmeta⟩ : isLocal p = true ∧ s.MetadataOf p seq metadata := by
    have h := hs.phase
    rwa [hphase] at h
  have hwaiting : s.waiting p = [seq] := by
    rw [hs.waiting_local hlocal, hphase]
    simp [Phase.receiving]
  obtain ⟨hseq, hrest⟩ := hs.head_eq hchannel hwaiting
  have htensor : s.TensorOf p seq x.2 := hseq ▸ hs.channel p x (by simp [hchannel])
  refine
    { hs with
      aligned := fun q => ?_
      places := fun q => ?_
      channel := fun q y hy => ?_
      phase := ⟨hmeta, by rw [hs.take_eq hmeta htensor]; exact htensor⟩ }
  · by_cases hq : q = p
    · subst hq
      rw [State.waiting, hphase] at hwaiting
      simp only [Phase.receiving, if_true, List.append_eq_singleton_iff, List.cons_ne_nil,
        and_false, or_false, and_true] at hwaiting
      simpa [State.waiting, State.queued, Phase.receiving, hwaiting] using hrest
    · have h := hs.aligned q
      simpa [State.waiting, State.queued, Phase.receiving, Function.update_of_ne hq, hphase,
        Ne.symm hq] using h
  · have h := hs.places q
    rwa [State.current, hphase] at h
  · exact hs.channel q y (mem_of_mem_update_tail hchannel hy)

theorem Inv.processLocal (hs : Inv isLocal s) {n : ℕ} {batch : Handed ι W V}
    (hphase : s.phase = .handLocal n batch) :
    Inv isLocal { s with phase := .next n, processed := s.processed ++ [batch] } := by
  have hbatch := hs.phase
  rw [hphase] at hbatch
  refine
    { hs with
      aligned := fun q => ?_
      places := fun q => ?_
      phase := s.phaseOk_next n
      processed := fun x hx => ?_ }
  · have h := hs.aligned q
    rw [State.waiting, hphase] at h
    rw [State.waiting, Phase.receiving_next]
    exact h
  · have h := hs.places q
    rw [State.current, hphase] at h
    rw [State.current, Phase.current_next]
    by_cases hq : batch.peerId = q <;>
      simpa [State.done, State.pending, State.queued, Phase.current, hq] using h
  · simp only [List.mem_append, List.mem_singleton] at hx
    rcases hx with hx | rfl
    exacts [hs.processed x hx, hbatch]

/-- **The oldest posted receive gets the tensor of its batch.** -/
theorem Inv.complete (hs : Inv isLocal s) {p : ι} {x : ℕ × List V} {rest before after}
    {e : PendingRecv ι W V} (hchannel : s.channel p = x :: rest)
    (hpending : s.pendingRecvs = before ++ e :: after) (hpeer : e.peerId = p)
    (hposted : e.tensor = none) (holdest : ∀ e' ∈ before, e'.peerId = p → e'.tensor ≠ none) :
    Inv isLocal
      { s with
        channel := Function.update s.channel p rest
        pendingRecvs :=
          before ++ { e with tensor := some (x.2.take e.metadata.numTokens) } :: after } := by
  -- no receive of this sender posted before `e` is waiting
  have hbefore : (before.filterMap fun e' =>
      if e'.peerId = p ∧ e'.tensor = none then some e'.seq else none) = [] := by
    rw [List.filterMap_eq_nil_iff]
    intro e' he'
    exact if_neg fun h => holdest e' he' h.1 h.2
  have hwaiting : s.waiting p = e.seq :: ((after.filterMap fun e' =>
      if e'.peerId = p ∧ e'.tensor = none then some e'.seq else none) ++
        s.phase.receiving p) := by
    rw [State.waiting, hpending, List.filterMap_append, hbefore]
    simp [hpeer, hposted]
  obtain ⟨hseq, hrest⟩ := hs.head_eq hchannel hwaiting
  have he : e ∈ s.pendingRecvs := by simp [hpending]
  have hmeta := (hs.posted e he).2
  have htensor : s.TensorOf e.peerId e.seq x.2 := by
    rw [hpeer, ← hseq]
    exact hs.channel p x (by simp [hchannel])
  have hold : ∀ e' ∈ before ++ { e with tensor := some (x.2.take e.metadata.numTokens) } :: after,
      e' ∈ s.pendingRecvs ∨ e' = { e with tensor := some (x.2.take e.metadata.numTokens) } := by
    intro e' he'
    simp only [List.mem_append, List.mem_cons] at he'
    rw [hpending]
    simp only [List.mem_append, List.mem_cons]
    tauto
  refine
    { hs with
      aligned := fun q => ?_
      places := fun q => ?_
      channel := fun q y hy => ?_
      posted := fun e' he' => ?_
      completed := fun e' he' tensor ht => ?_ }
  · by_cases hq : q = p
    · subst hq
      rw [State.waiting, List.filterMap_append, hbefore]
      simpa [State.queued] using hrest
    · have h := hs.aligned q
      rw [State.waiting, hpending] at h
      simpa [State.waiting, State.queued, Function.update_of_ne hq, hpeer, Ne.symm hq] using h
  · have h := hs.places q
    rw [State.pending, hpending] at h
    by_cases hq : e.peerId = q <;>
      simpa [State.done, State.current, State.pending, State.queued, hq] using h
  · exact hs.channel q y (mem_of_mem_update_tail hchannel hy)
  · rcases hold e' he' with he' | rfl
    exacts [hs.posted e' he', hs.posted e he]
  · rcases hold e' he' with he' | rfl
    · exact hs.completed e' he' tensor ht
    · obtain rfl := Option.some_injective _ ht
      rw [hs.take_eq hmeta htensor]
      exact htensor

theorem Inv.pollProcess (hs : Inv isLocal s) {e : PendingRecv ι W V} {tensor : List V}
    {before after} (hpending : s.pendingRecvs = before ++ e :: after)
    (htensor : e.tensor = some tensor) :
    Inv isLocal
      { s with
        pendingRecvs := before ++ after
        processed := s.processed ++ [⟨e.peerId, e.seq, e.metadata, tensor⟩] } := by
  have he : e ∈ s.pendingRecvs := by simp [hpending]
  have hsub : ∀ e' ∈ before ++ after, e' ∈ s.pendingRecvs := by
    intro e' he'
    rw [hpending]
    simp only [List.mem_append, List.mem_cons] at he' ⊢
    tauto
  refine
    { hs with
      aligned := fun q => ?_
      places := fun q => ?_
      posted := fun e' he' => hs.posted e' (hsub e' he')
      completed := fun e' he' => hs.completed e' (hsub e' he')
      processed := fun x hx => ?_ }
  · have h := hs.aligned q
    rw [State.waiting, hpending] at h
    simpa [State.waiting, State.queued, htensor] using h
  · -- the batch moves from the middle of `pending_recvs` to the end of what is done
    have h := hs.places q
    rw [State.pending, hpending] at h
    refine List.Perm.trans ?_ h
    by_cases hq : e.peerId = q
    · simp only [State.done, State.current, State.pending, State.queued, List.filterMap_append,
        List.filterMap_cons, List.filterMap_nil, hq, if_true, List.append_assoc, List.cons_append,
        List.nil_append]
      refine List.Perm.append_left _ (List.perm_middle.symm.trans ?_)
      exact List.Perm.append_left _ List.perm_middle.symm
    · simp [State.done, State.current, State.pending, State.queued, hq]
  · simp only [List.mem_append, List.mem_singleton] at hx
    rcases hx with hx | rfl
    exacts [hs.processed x hx, ⟨(hs.posted e he).2, hs.completed e he tensor htensor⟩]

/-! ### Runs -/

theorem Inv.step {s' : State ι W V} (hs : Inv isLocal s) (hstep : Step isLocal s s') :
    Inv isLocal s' := by
  cases hstep with
  | sendMetadata hidle hrows => exact hs.sendMetadata hidle hrows
  | sendData hsending => exact hs.sendData hsending
  | deliver hwire => exact hs.deliver hwire
  | beginDrain hphase =>
    exact hs.setPhase (fun p => by rw [hphase]; rfl) (fun p => by rw [hphase]; rfl) trivial
  | endDrain hphase hmq =>
    exact hs.setPhase (fun p => by rw [hphase]; rfl) (fun p => by rw [hphase]; rfl) trivial
  | recvMetadataLocal hphase hmq hlocal => exact hs.recvMetadataLocal hphase hmq hlocal
  | recvMetadataNccl hphase hmq hlocal => exact hs.recvMetadataNccl hphase hmq hlocal
  | recvLocal hphase hchannel => exact hs.recvLocal hphase hchannel
  | processLocal hphase => exact hs.processLocal hphase
  | complete hchannel hpending hpeer hposted holdest =>
    exact hs.complete hchannel hpending hpeer hposted holdest
  | pollSkip hphase hit =>
    exact hs.setPhase (fun p => by rw [hphase]; rfl) (fun p => by rw [hphase]; rfl) trivial
  | pollProcess hphase hpending htensor => exact hs.pollProcess hpending htensor
  | endPoll hphase hit =>
    exact hs.setPhase (fun p => by rw [hphase]; rfl) (fun p => by rw [hphase]; rfl) trivial

theorem Inv.of_steps (hrun : ReflTransGen (Step isLocal) (State.init ι W V) s) :
    Inv isLocal s := by
  induction hrun with
  | refl => exact inv_init isLocal
  | tail _ hstep ih => exact ih.step hstep

/-- Numbers that differ within each sender differ as numbers of their senders. -/
theorem nodup_of_nodup_seqs {l : List (Handed ι W V)}
    (h : ∀ p, (l.filterMap fun x => if x.peerId = p then some x.seq else none).Nodup) :
    (l.map fun x => (x.peerId, x.seq)).Nodup := by
  induction l with
  | nil => exact List.nodup_nil
  | cons x l ih =>
    rw [List.map_cons, List.nodup_cons]
    constructor
    · intro hx
      obtain ⟨y, hy, hxy⟩ := List.mem_map.1 hx
      obtain ⟨hpeer, hseq⟩ := Prod.mk.inj hxy
      have hnodup := h x.peerId
      simp only [List.filterMap_cons, if_true, List.nodup_cons] at hnodup
      exact hnodup.1 (List.mem_filterMap.2 ⟨y, hy, by rw [if_pos hpeer, hseq]⟩)
    · refine ih fun p => (h p).sublist ?_
      exact (List.sublist_cons_self x l).filterMap _

theorem Inv.paired (hs : Inv isLocal s) : Paired s where
  together x hx := by
    obtain ⟨⟨b, hb, hm⟩, ⟨b', hb', ht⟩⟩ := hs.processed x hx
    obtain rfl : b = b' := Option.some_injective _ (hb.symm.trans hb')
    refine ⟨b, hb, hm.symm, ht.symm, ?_⟩
    rw [← ht, ← hm]
    exact hs.rows x.peerId b (List.mem_of_getElem? hb)
  once := by
    refine nodup_of_nodup_seqs fun p => ?_
    have h := (hs.places p).nodup_iff.2 List.nodup_range
    rw [List.append_assoc, List.append_assoc] at h
    exact h.of_append_left
  places := hs.places

end Lemmas

/-- **Metadata and data are paired.** In every run of any dispatchers and one receiver,
`process_batch` is called with the two halves of one batch, at most once for every batch, and
every batch sent is in exactly one place. -/
theorem paired_of_reachable (isLocal : ι → Bool) {s : State ι W V}
    (hrun : ReflTransGen (Step isLocal) (State.init ι W V) s) : Paired s :=
  (Inv.of_steps hrun).paired

def singleRow (v : ℕ) : TokenBatch ℕ ℕ where
  data := [v]
  metadata :=
    { batchTag := .expert
      numTokens := 1
      tokenHiddenDim := 1
      layerId := 0
      reqIds := [v]
      expIds := [0]
      topkWeights := [1]
      attnDpRanks := [0]
      initPrefillLens := [-1] }

/-- A device gets a batch from a peer and one from itself: the receive from the peer is posted
first, and the local batch overtakes it. -/
theorem paired_after_overtaking :
    ∃ s : State Bool ℕ ℕ, ReflTransGen (Step id) (State.init Bool ℕ ℕ) s ∧
      s.processed.map (fun x => (x.peerId, x.tensor)) = [(true, [7]), (false, [5])] ∧
      Paired s := by
  have hrun : ReflTransGen (Step id) (State.init Bool ℕ ℕ) _ := .refl
  replace hrun := hrun.tail (Step.sendMetadata (p := false) (b := singleRow 5) rfl rfl)
  replace hrun := hrun.tail (Step.deliver (p := false) rfl)
  replace hrun := hrun.tail (Step.sendMetadata (p := true) (b := singleRow 7) rfl rfl)
  replace hrun := hrun.tail (Step.deliver (p := true) rfl)
  replace hrun := hrun.tail (Step.beginDrain rfl)
  replace hrun := hrun.tail (Step.recvMetadataNccl rfl rfl rfl)
  replace hrun := hrun.tail (Step.recvMetadataLocal rfl rfl rfl)
  replace hrun := hrun.tail (Step.sendData (p := true) rfl)
  replace hrun := hrun.tail (Step.recvLocal rfl rfl)
  replace hrun := hrun.tail (Step.processLocal rfl)
  replace hrun := hrun.tail (Step.endDrain rfl rfl)
  replace hrun := hrun.tail (Step.sendData (p := false) rfl)
  replace hrun := hrun.tail
    (@Step.complete Bool ℕ ℕ _ id _ false _ _ [] [] _ rfl rfl rfl rfl (by simp))
  replace hrun := hrun.tail (@Step.pollProcess Bool ℕ ℕ _ id _ _ _ [] [] rfl rfl rfl)
  exact ⟨_, hrun, rfl, paired_of_reachable id hrun⟩

end Transport

end StreamEP

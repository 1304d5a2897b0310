import StreamEP.Transport.SendSlots
import StreamEP.Engine.Forward
import StreamEP.Dispatch.Dispatcher
import Mathlib.Logic.Relation
import Mathlib.Order.Interval.Set.Basic

/-!
# Staging a batch for a transfer

`NixlChannel::send_impl` copies a batch into the send slot it acquired and leaves the transfer to
a worker. The copy is as long as the batch. That it fits into a slot is first checked by
`post_write`, on the worker, when the bytes are already there.

## Main results

* `Nixl.sendOnce_one_device` — all rows of a batch may be one piece
* `Nixl.sendImpl_writes_slot` — a copy stays in its slot exactly when the batch fits
-/

namespace StreamEP

open Relation

variable {W V : Type}

/-- `get_datatype_size`: entries are `bf16` -/
def BatchMetadata.getDatatypeSize (_ : BatchMetadata W) : ℕ := 2

namespace Nixl

def bytesToWrite (m : BatchMetadata W) : ℕ := m.numElement * m.getDatatypeSize

theorem numElement_ne_zero {m : BatchMetadata W} (h : 0 < bytesToWrite m) : m.numElement ≠ 0 :=
  (Nat.pos_of_mul_pos_right h).ne'

/-- `send_slot_ptr`, counted from the start of `send_buf_` -/
def sendSlotPtr (slotId : ℕ) : ℕ := slotId * maxBatchBytes

def slotBytes (slotId : ℕ) : Set ℕ :=
  Set.Ico (sendSlotPtr slotId) (sendSlotPtr slotId + maxBatchBytes)

/-- `cudaMemcpyAsync`, done -/
def memcpy (mem : ℕ → UInt8) (dst : ℕ) (src : ℕ → UInt8) (count : ℕ) : ℕ → UInt8 := fun a =>
  if dst ≤ a ∧ a < dst + count then src (a - dst) else mem a

theorem memcpy_of_lt (mem : ℕ → UInt8) (dst : ℕ) (src : ℕ → UInt8) {count i : ℕ}
    (hi : i < count) : memcpy mem dst src count (dst + i) = src i := by
  rw [memcpy, if_pos (by omega), Nat.add_sub_cancel_left]

theorem memcpy_of_notMem (mem : ℕ → UInt8) {dst : ℕ} (src : ℕ → UInt8) {count a : ℕ}
    (ha : a ∉ Set.Ico dst (dst + count)) : memcpy mem dst src count a = mem a := if_neg ha

/-- `post_write`: the checks of the length, against a slot of the receiver of `remoteLen` bytes. -/
def postWrite (bytes remoteLen : ℕ) : Except String Unit := do
  ensure (0 < bytes) "post_write: bytes_to_write must be > 0"
  ensure (bytes ≤ remoteLen) "post_write: bytes_to_write exceeds remote slot size"

structure Staged where
  /-- `send_slot` -/
  slot : ℕ
  /-- `bytes_to_write` -/
  bytes : ℕ
  /-- The bytes of the batch, at `data_ptr`. -/
  data : ℕ → UInt8

/-- The bytes the copy of a batch writes. -/
def Staged.written (x : Staged) : Set ℕ :=
  Set.Ico (sendSlotPtr x.slot) (sendSlotPtr x.slot + x.bytes)

structure Staging where
  sendBuf : ℕ → UInt8
  ring : SendRing
  /-- The queue of the workers: staged and not yet posted. -/
  queued : List Staged
  /-- `pending_xfers_`: posted, and the network may still read the slot. -/
  inFlight : List Staged

namespace Staging

def init : Staging := ⟨fun _ => 0, .init, [], []⟩

/-- The batches whose slot is not released. -/
def staged (s : Staging) : List Staged := s.queued ++ s.inFlight

/-- The part of `send_impl` that concerns the send slot: waits while there is none. -/
def sendImpl (s : Staging) (m : BatchMetadata W) (data : ℕ → UInt8) : Option Staging :=
  if m.numElement = 0 then some s
  else
    match s.ring.acquireSendSlot with
    | none => none
    | some (sendSlot, ring) =>
      some { s with
        sendBuf := memcpy s.sendBuf (sendSlotPtr sendSlot) data (bytesToWrite m)
        ring := ring
        queued := ⟨sendSlot, bytesToWrite m, data⟩ :: s.queued }

/-- A step, where the dispatcher sends batches that are `Sent`. Several workers post, so the order
of the queue does not matter. -/
inductive Step (Sent : BatchMetadata W → Prop) : Staging → Staging → Prop
  /-- `send_impl` -/
  | send {s s' : Staging} (m : BatchMetadata W) (data : ℕ → UInt8) (hm : Sent m)
      (h : s.sendImpl m data = some s') : Step Sent s s'
  /-- A worker posts a transfer. -/
  | post {s : Staging} (x : Staged) (rest : List Staged) (hx : s.queued.Perm (x :: rest))
      (hok : postWrite x.bytes maxBatchBytes = .ok ()) :
      Step Sent s { s with queued := rest, inFlight := x :: s.inFlight }
  /-- `drain_pending_xfers` finds a transfer finished. -/
  | drain {s : Staging} (x : Staged) (rest : List Staged) (hx : s.inFlight.Perm (x :: rest)) :
      Step Sent s { s with ring := s.ring.releaseSendSlot x.slot, inFlight := rest }

/-- Every slot in use holds the batch staged in it. -/
def Intact (s : Staging) : Prop :=
  ∀ x ∈ s.staged, ∀ i < x.bytes, s.sendBuf (sendSlotPtr x.slot + i) = x.data i

/-- From `s` to `s'` a slot in flight has changed. -/
def Overwritten (s s' : Staging) : Prop :=
  ∃ x ∈ s.inFlight, x ∈ s'.inFlight ∧ 0 < x.bytes ∧ s.sendBuf (sendSlotPtr x.slot) = x.data 0 ∧
    s'.sendBuf (sendSlotPtr x.slot) ≠ x.data 0

theorem sendImpl_eq_some {s s' : Staging} {m : BatchMetadata W} {data : ℕ → UInt8}
    (hm : m.numElement ≠ 0) (h : s.sendImpl m data = some s') :
    ∃ slot ring, s.ring.acquireSendSlot = some (slot, ring) ∧
      s' = { s with
        sendBuf := memcpy s.sendBuf (sendSlotPtr slot) data (bytesToWrite m)
        ring := ring
        queued := ⟨slot, bytesToWrite m, data⟩ :: s.queued } := by
  rw [sendImpl, if_neg hm] at h
  split at h
  · cases h
  · next slot ring hget => exact ⟨slot, ring, hget, (Option.some.inj h).symm⟩

theorem sendImpl_of_acquire {s : Staging} {m : BatchMetadata W} (data : ℕ → UInt8)
    (hm : m.numElement ≠ 0) {slot : ℕ} {ring : SendRing}
    (hget : s.ring.acquireSendSlot = some (slot, ring)) :
    s.sendImpl m data = some { s with
      sendBuf := memcpy s.sendBuf (sendSlotPtr slot) data (bytesToWrite m)
      ring := ring
      queued := ⟨slot, bytesToWrite m, data⟩ :: s.queued } := by
  rw [sendImpl, if_neg hm, hget]

/-! ### Batches that fit -/

/-- A run in which every batch fits: the slots are held by the batches staged in them, which are
intact. -/
structure Inv (s : Staging) : Prop where
  holds : s.ring.Holds (s.staged.map (·.slot))
  fits : ∀ x ∈ s.staged, x.bytes ≤ maxBatchBytes
  intact : s.Intact

theorem Inv.init : Inv .init :=
  ⟨.init, by simp [staged, Staging.init], by simp [Intact, staged, Staging.init]⟩

theorem notMem_of_slot_ne {slot slot' n i : ℕ} (hne : slot ≠ slot') (hn : n ≤ maxBatchBytes)
    (hi : i < maxBatchBytes) :
    sendSlotPtr slot + i ∉ Set.Ico (sendSlotPtr slot') (sendSlotPtr slot' + n) := by
  rintro ⟨hle, hlt⟩
  rw [sendSlotPtr, sendSlotPtr] at hle hlt
  rcases Nat.lt_or_gt_of_ne hne with h | h
  · have := Nat.mul_le_mul_right maxBatchBytes (Nat.succ_le_of_lt h)
    rw [Nat.succ_mul] at this
    omega
  · have := Nat.mul_le_mul_right maxBatchBytes (Nat.succ_le_of_lt h)
    rw [Nat.succ_mul] at this
    omega

theorem Inv.send {s s' : Staging} (hs : s.Inv) {m : BatchMetadata W} {data : ℕ → UInt8}
    (hm : bytesToWrite m ≤ maxBatchBytes) (h : s.sendImpl m data = some s') : s'.Inv := by
  by_cases hzero : m.numElement = 0
  · rw [sendImpl, if_pos hzero] at h
    exact Option.some.inj h ▸ hs
  · obtain ⟨slot, ring, hget, rfl⟩ := sendImpl_eq_some hzero h
    have hnew := hs.holds.notMem hget
    refine ⟨hs.holds.acquire hget, List.forall_mem_cons.mpr ⟨hm, hs.fits⟩,
      List.forall_mem_cons.mpr ⟨fun i hi => memcpy_of_lt _ _ _ hi, fun x hx i hi => ?_⟩⟩
    have hne : x.slot ≠ slot := fun heq => hnew (heq ▸ List.mem_map_of_mem hx)
    have hlt : i < maxBatchBytes := Nat.lt_of_lt_of_le hi (hs.fits x hx)
    exact (memcpy_of_notMem _ _ (notMem_of_slot_ne hne hm hlt)).trans (hs.intact x hx i hi)

theorem Inv.of_perm {s s' : Staging} (hs : s.Inv) (gone : List Staged)
    (hperm : s.staged.Perm (gone ++ s'.staged)) (hbuf : s'.sendBuf = s.sendBuf)
    (hholds : s'.ring.Holds (s'.staged.map (·.slot))) : s'.Inv := by
  have hmem : ∀ x ∈ s'.staged, x ∈ s.staged := fun x hx =>
    hperm.mem_iff.mpr (List.mem_append_right _ hx)
  refine ⟨hholds, fun x hx => hs.fits x (hmem x hx), fun x hx i hi => ?_⟩
  rw [hbuf]
  exact hs.intact x (hmem x hx) i hi

theorem Inv.step {s s' : Staging} (hs : s.Inv)
    (h : Step (fun m : BatchMetadata W => bytesToWrite m ≤ maxBatchBytes) s s') : s'.Inv := by
  cases h with
  | send m data hm h => exact hs.send hm h
  | post x rest hx hok =>
    have hperm : s.staged.Perm (rest ++ x :: s.inFlight) :=
      (hx.append_right _).trans List.perm_middle.symm
    exact hs.of_perm [] hperm rfl (hs.holds.perm (hperm.map _))
  | drain x rest hx =>
    have hperm : s.staged.Perm (x :: (s.queued ++ rest)) :=
      (hx.append_left _).trans List.perm_middle
    exact hs.of_perm [x] hperm rfl (hs.holds.perm (hperm.map _)).release

theorem Inv.of_run {s : Staging}
    (h : ReflTransGen (Step fun m : BatchMetadata W => bytesToWrite m ≤ maxBatchBytes) .init s) :
    s.Inv := by
  induction h with
  | refl => exact .init
  | tail _ hstep ih => exact ih.step hstep

end Staging

/-- The bytes of a batch are bytes of its slot exactly when there are not too many. -/
theorem Staged.written_subset_iff (x : Staged) :
    x.written ⊆ slotBytes x.slot ↔ x.bytes ≤ maxBatchBytes := by
  constructor
  · intro hsub
    by_contra! hlt
    have hin : sendSlotPtr x.slot + maxBatchBytes ∈ x.written :=
      ⟨Nat.le_add_right _ _, Nat.add_lt_add_left hlt _⟩
    exact Nat.lt_irrefl _ (hsub hin).2
  · intro hle a ha
    exact ⟨ha.1, Nat.lt_of_lt_of_le ha.2 (Nat.add_le_add_left hle _)⟩

/-! ### All rows in one piece -/

section Dispatcher

variable [Inhabited W] [TensorRow V] (P : Deployment) {b : TokenBatch W V} {k rank d d' : ℕ}
  {hiddens : List V} {ids : List ℕ} {weights : List W}

/-- **One expert device** for all choices of a batch: all its rows are sent in one piece. -/
theorem sendOnce_one_device (hd : d < P.cfg.numDevices) (hk : 0 < k) (hb : b.Wf)
    (htag : b.metadata.batchTag = .attention) (hn : 0 < b.metadata.numTokens)
    (hhiddens : hiddens.length = b.metadata.numTokens)
    (hids : ids.length = b.metadata.numTokens * k)
    (hweights : weights.length = b.metadata.numTokens * k)
    (howner : ∀ e ∈ ids, e < P.cfg.numExperts ∧ P.owner e = d') :
    ∃ b' c piece, postprocessBatchAttn k rank b.metadata hiddens ids weights = .ok b' ∧
      (P.dispatcher d).sendOnce b' = [(c, piece)] ∧ P.peer d c = some d' ∧
      bytesToWrite piece.metadata = b.metadata.numTokens * k * TensorRow.size V * 2 := by
  have hexp : ∀ e ∈ ids, e < maxNumExperts := fun e he =>
    Nat.lt_of_lt_of_le (howner e he).1 P.numExperts_le
  obtain ⟨b', hok, hfull, htag', -, hrows⟩ :=
    @postprocessBatchAttn_spec W V _ _ k rank b hiddens ids weights hk hb hn hhiddens hids
      hweights hexp
  have hnum : b'.metadata.numTokens = b.metadata.numTokens * k := by
    rw [← TokenBatch.length_rows, hrows.length_eq, List.length_map, List.length_range]
  have hpos : 0 < b'.metadata.numTokens := hnum ▸ Nat.mul_pos hn hk
  -- the experts of the rows are the ones chosen
  have hmem : ∀ e ∈ b'.metadata.expIds, e ∈ ids := by
    intro e he
    have hsome : some e ∈ b'.rows.map (·.expId) :=
      hfull.map_expId ▸ List.mem_map_of_mem he
    obtain ⟨r, hr, hre⟩ := List.mem_map.mp hsome
    obtain ⟨i, -, rfl⟩ := List.mem_map.mp (hrows.mem_iff.mp hr)
    exact List.mem_of_getElem? hre
  have hchannel : ∀ e ∈ b'.metadata.expIds,
      (P.dispatcher d).expertGetChannelId e = (P.dispatcher d).attnGetChannelId d' := by
    intro e he
    obtain ⟨hlt, rfl⟩ := howner e (hmem e he)
    exact P.toColocation.expertGetChannelId_eq hd hlt
  obtain ⟨e, he⟩ := List.exists_mem_of_length_pos (hfull.expIds_length ▸ hpos)
  have hpeer := P.peer_expertGetChannelId hd (howner e (hmem e he)).1
  rw [hchannel e he, (howner e (hmem e he)).2] at hpeer
  refine ⟨b', _, _, hok, UnifiedDispatcher.sendOnce_one_channel _ hfull (htag'.trans htag) hpos
    hchannel, hpeer, ?_⟩
  rw [bytesToWrite, BatchMetadata.numElement, TokenBatch.chunk_metadata,
    BatchMetadata.chunk_numTokens, BatchMetadata.chunk_tokenHiddenDim, hfull.hiddenDim, hnum]
  rfl

end Dispatcher

/-! ### A batch that does not fit -/

namespace Staging

/-- The slots are taken in order, so all of them can be in flight. -/
theorem exists_inFlight {Sent : BatchMetadata W → Prop} {m : BatchMetadata W} (hm : Sent m)
    (data : ℕ → UInt8) (hpos : 0 < bytesToWrite m) (hle : bytesToWrite m ≤ maxBatchBytes) {n : ℕ}
    (hn : n ≤ sendRingSize) :
    ∃ s, ReflTransGen (Step Sent) .init s ∧
      s.ring = ⟨fun slot => decide (slot < n), n % sendRingSize⟩ ∧ s.queued = [] ∧
      ∀ slot < n, ⟨slot, bytesToWrite m, data⟩ ∈ s.inFlight := by
  induction n with
  | zero => exact ⟨.init, .refl, by simp [init, SendRing.init], rfl, by simp⟩
  | succ n ih =>
    obtain ⟨s, hrun, hring, hqueued, hall⟩ := ih (Nat.le_of_succ_le hn)
    have hlt : n < sendRingSize := hn
    have hbusy : Function.update (fun slot => decide (slot < n)) n true =
        fun slot => decide (slot < n + 1) := by
      funext slot
      by_cases hslot : slot = n
      · simp [hslot]
      · simp only [Function.update_of_ne hslot, decide_eq_decide]
        omega
    have hget : s.ring.acquireSendSlot =
        some (n, ⟨fun slot => decide (slot < n + 1), (n + 1) % sendRingSize⟩) := by
      rw [hring, SendRing.acquireSendSlot_of_free (Nat.mod_eq_of_lt hlt) hlt (by simp), hbusy]
    have hsend := sendImpl_of_acquire data (numElement_ne_zero hpos) hget
    have hpost : postWrite (bytesToWrite m) maxBatchBytes = .ok () := by
      simp [postWrite, hpos, hle]
    refine ⟨_, (hrun.tail (.send m data hm hsend)).tail (.post _ s.queued .rfl hpost), rfl,
      hqueued, fun slot hslot => ?_⟩
    rcases Nat.lt_succ_iff_lt_or_eq.mp hslot with hslot | rfl
    · exact List.mem_cons_of_mem _ (hall slot hslot)
    · exact List.mem_cons_self

end Staging

end Nixl

/-- Rows of `n` entries. -/
instance (n : ℕ) : TensorRow (Fin n → UInt16) where
  default := fun _ => 0
  size := n

/-- Two devices, one layer and eight experts on each device. -/
def ColocateConfig.wide : ColocateConfig where
  numLayers := 1
  numExperts := 16
  numDevices := 2
  epSize := 2
  dpSize := 2
  expertAllocation := none

set_option maxRecDepth 2000 in
def Deployment.wide : Deployment where
  cfg := .wide
  place :=
    let expert := (List.range 16).foldl ColocateConfig.wide.placeUniform fun _ => []
    { ColocateConfig.wide.addEdges (ColocateConfig.wide.unconnected expert) with
      expertRanks := ColocateConfig.wide.updateExpertRank expert
      attnDpRanks := fun dev => dev }
  solved := rfl
  numLayers_pos := by decide
  dpSize := rfl
  numExperts_le := by decide
  hosts := by decide

namespace Nixl

/-- `n` decoding tokens with rows of 4096 entries. -/
def decodeBatch (W : Type) (n : ℕ) : TokenBatch W (Fin 4096 → UInt16) where
  data := List.replicate n default
  metadata :=
    { batchTag := .attention
      numTokens := n
      tokenHiddenDim := 4096
      layerId := 0
      reqIds := List.range n
      expIds := []
      topkWeights := []
      attnDpRanks := []
      initPrefillLens := List.replicate n (-1) }

theorem decodeBatch_wf (W : Type) (n : ℕ) : (decodeBatch W n).Wf where
  reqIds := List.length_range
  initPrefillLens := List.length_replicate
  expIds := .inl rfl
  topkWeights := .inl rfl
  attnDpRanks := .inl rfl
  data := List.length_replicate
  hiddenDim := rfl

/-- A batch longer than a slot can overwrite a slot in flight. -/
theorem Staging.exists_overwritten {m : BatchMetadata W} (hm : maxBatchBytes < bytesToWrite m) :
    ∃ s s', ReflTransGen (Step fun m : BatchMetadata W => bytesToWrite m ≤ maxBatchBytes) .init s ∧
      s.sendImpl m (fun _ => 1) = some s' ∧ s.Overwritten s' := by
  -- one token in every slot
  have hbytes : bytesToWrite (decodeBatch W 1).metadata = 8192 := by
    simp [bytesToWrite, decodeBatch, BatchMetadata.numElement, BatchMetadata.getDatatypeSize]
  have hfits : bytesToWrite (decodeBatch W 1).metadata ≤ maxBatchBytes := hbytes ▸ by decide
  have hpos : 0 < bytesToWrite (decodeBatch W 1).metadata := hbytes ▸ by decide
  obtain ⟨s, hrun, hring, -, hall⟩ := @exists_inFlight W (fun m => bytesToWrite m ≤ maxBatchBytes)
    _ hfits (fun _ => 0) hpos hfits sendRingSize (Nat.le_refl _)
  -- slot 0 is drained, slot 1 is not
  obtain ⟨before, after, hsplit⟩ := List.append_of_mem (hall 0 (by decide))
  have hperm : s.inFlight.Perm
      (⟨0, bytesToWrite (decodeBatch W 1).metadata, fun _ => 0⟩ :: (before ++ after)) := by
    rw [hsplit]
    exact List.perm_middle
  have hrun' := hrun.tail (.drain _ _ hperm)
  have hone : ⟨1, bytesToWrite (decodeBatch W 1).metadata, fun _ => 0⟩ ∈ before ++ after :=
    (List.mem_cons.mp (hperm.mem_iff.mp (hall 1 (by decide)))).resolve_left (by simp)
  have hget := @SendRing.acquireSendSlot_of_free (s.ring.releaseSendSlot 0) 0 (by rw [hring]; rfl)
    (by decide) rfl
  have hzero := numElement_ne_zero (Nat.lt_of_le_of_lt (Nat.zero_le _) hm)
  have hintact := (Inv.of_run hrun').intact _ (List.mem_append_right _ hone) 0 hpos
  rw [Nat.add_zero] at hintact
  refine ⟨_, _, hrun', sendImpl_of_acquire (fun _ => 1) hzero hget, _, hone, hone, hpos, hintact,
    ?_⟩
  -- byte 0 of slot 1 is byte `maxBatchBytes` of the copy
  have hbyte := memcpy_of_lt s.sendBuf (sendSlotPtr 0) (fun _ => 1) hm
  rw [show sendSlotPtr 0 + maxBatchBytes = sendSlotPtr 1 by decide] at hbyte
  dsimp only
  rw [hbyte]
  decide

theorem sendOnce_wide {n : ℕ} (hn : 0 < n) :
    ∃ b' c piece,
      postprocessBatchAttn 8 0 (decodeBatch ℕ n).metadata (decodeBatch ℕ n).data
        (List.replicate n (List.range' 8 8)).flatten (List.replicate (n * 8) 1) = .ok b' ∧
      (Deployment.wide.dispatcher 0).sendOnce b' = [(c, piece)] ∧
      Deployment.wide.peer 0 c = some 1 ∧ bytesToWrite piece.metadata = n * 8 * 4096 * 2 := by
  have howner : ∀ e ∈ List.range' 8 8,
      e < Deployment.wide.cfg.numExperts ∧ Deployment.wide.owner e = 1 := by decide
  have hids : ∀ e ∈ (List.replicate n (List.range' 8 8)).flatten, e ∈ List.range' 8 8 := by
    intro e he
    obtain ⟨l, hl, he⟩ := List.mem_flatten.mp he
    exact List.eq_of_mem_replicate hl ▸ he
  exact sendOnce_one_device Deployment.wide (by decide) (by decide) (decodeBatch_wf ℕ n) rfl hn
    List.length_replicate (by simp [decodeBatch]) List.length_replicate
    fun e he => howner e (hids e he)

/-- With 160 tokens, eight experts per token and rows of 4096 entries, all experts chosen on the
other device, the rows are one piece of ten megabytes. Its copy into slot 0 overwrites slot 1,
whose transfer is in flight. -/
theorem sendImpl_overwrites_in_flight :
    ∃ (b' : TokenBatch ℕ (Fin 4096 → UInt16)) (c : ℤ) (piece : TokenBatch ℕ (Fin 4096 → UInt16))
      (s s' : Staging),
      postprocessBatchAttn 8 0 (decodeBatch ℕ 160).metadata (decodeBatch ℕ 160).data
        (List.replicate 160 (List.range' 8 8)).flatten (List.replicate (160 * 8) 1) = .ok b' ∧
      (Deployment.wide.dispatcher 0).sendOnce b' = [(c, piece)] ∧
      Deployment.wide.peer 0 c = some 1 ∧ bytesToWrite piece.metadata = 10485760 ∧
      ReflTransGen (Staging.Step fun m : BatchMetadata ℕ => bytesToWrite m ≤ maxBatchBytes)
        .init s ∧
      s.sendImpl piece.metadata (fun _ => 1) = some s' ∧ s.Overwritten s' := by
  obtain ⟨b', c, piece, hok, hsend, hpeer, hbytes⟩ := sendOnce_wide (show 0 < 160 by decide)
  have hlong : maxBatchBytes < bytesToWrite piece.metadata := by
    rw [hbytes]
    decide
  obtain ⟨s, s', hrun, hs', hover⟩ := Staging.exists_overwritten hlong
  exact ⟨b', c, piece, s, s', hok, hsend, hpeer, hbytes, hrun, hs', hover⟩

/-- **A copy stays in its slot** exactly when the batch is no longer than a slot. In every run in
which each batch sent is no longer, every slot still in use holds the batch staged in it; a longer
one can overwrite a slot in flight. -/
theorem sendImpl_writes_slot :
    (∀ (s s' : Staging) (m : BatchMetadata W) (data : ℕ → UInt8), m.numElement ≠ 0 →
      s.sendImpl m data = some s' →
      ∃ x, s'.queued = x :: s.queued ∧ x.slot < sendRingSize ∧ x.bytes = bytesToWrite m ∧
        x.data = data ∧
        (∀ i < x.bytes, s'.sendBuf (sendSlotPtr x.slot + i) = data i) ∧
        (∀ a ∉ x.written, s'.sendBuf a = s.sendBuf a) ∧
        (x.written ⊆ slotBytes x.slot ↔ bytesToWrite m ≤ maxBatchBytes)) ∧
    (∀ s, ReflTransGen (Staging.Step fun m : BatchMetadata W => bytesToWrite m ≤ maxBatchBytes)
      .init s → s.Intact) ∧
    ∀ m : BatchMetadata W, maxBatchBytes < bytesToWrite m →
      ∃ s s', ReflTransGen
        (Staging.Step fun m : BatchMetadata W => bytesToWrite m ≤ maxBatchBytes) .init s ∧
        s.sendImpl m (fun _ => 1) = some s' ∧ s.Overwritten s' := by
  refine ⟨?_, fun s h => (Staging.Inv.of_run h).intact,
    fun m hm => Staging.exists_overwritten hm⟩
  intro s s' m data hm h
  obtain ⟨slot, ring, hget, rfl⟩ := Staging.sendImpl_eq_some hm h
  exact ⟨_, rfl, (SendRing.acquireSendSlot_eq_some hget).1, rfl, rfl,
    fun i hi => memcpy_of_lt _ _ _ hi, fun a ha => memcpy_of_notMem _ _ ha,
    Staged.written_subset_iff _⟩

/-- One token fits. -/
theorem sendImpl_writes_slot_one_token :
    ∃ s', Staging.init.sendImpl (decodeBatch ℕ 1).metadata (fun _ => 1) = some s' ∧ s'.Intact ∧
      ∃ x, s'.queued = [x] ∧ x.written ⊆ slotBytes x.slot := by
  have hget := @SendRing.acquireSendSlot_of_free .init 0 rfl (by decide) rfl
  have hsend := @Staging.sendImpl_of_acquire ℕ .init (decodeBatch ℕ 1).metadata (fun _ => 1)
    (by decide) 0 _ hget
  obtain ⟨hcopy, hrun, -⟩ := @sendImpl_writes_slot ℕ
  obtain ⟨x, hx, -, -, -, -, -, hiff⟩ := hcopy _ _ _ _ (by decide) hsend
  exact ⟨_, hsend, hrun _ (.single (.send _ _ (by decide) hsend)), x, hx, hiff.mpr (by decide)⟩

end Nixl

end StreamEP

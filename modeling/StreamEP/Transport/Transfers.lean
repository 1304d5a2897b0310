import StreamEP.Transport.CreditSafety
import StreamEP.Transport.SendSlots

/-!
# Transfers that fail

A transfer of `NixlContext` holds two slots: a send slot of its own device, which
`drain_pending_xfers` releases when the transfer has ended, and a receive slot of the peer, which
only the peer's credit gives back. A transfer that ends with an error delivers no notification, so
the peer sends no credit for it. The send slot is released on that path too; the receive slot is
not.

## Two layers

The credit protocol is run as in `StreamEP.Transport.NixlContext`, and `Transfers` adds the send
slots and the status of every transfer. A transfer that fails is a post that is never written. So
all that is known of the protocol holds here too, and what is new is only which send slot goes with
which use.

## Main results

* `Nixl.Transfers.Linked.of_run` — who holds which slot
* `Nixl.Transfers.slots_of_drained` — what is free when nothing is under way
-/

namespace StreamEP

namespace Nixl

open Relation

inductive XferStatus
  | success
  | inProg
  | error
deriving DecidableEq, Repr

/-- A transfer that was posted, as in `PendingXfer`. -/
structure Xfer where
  /-- `recv_slot` and `seq` -/
  use : Use
  sendSlot : ℕ
  /-- The status of `handle`. -/
  status : XferStatus
  /-- The worker has put it into `pending_xfers_`. -/
  enqueued : Bool

/-- A pair of devices. The lists say how far every send and transfer has come. -/
structure Transfers where
  run : Run
  ring : SendRing
  unstaged : List ℤ
  /-- Sends that have a receive slot and a send slot. -/
  staged : List (ℤ × ℕ)
  numbered : List (Use × ℕ)
  postQueue : List (Use × ℕ)
  /-- Transfers that were posted, in `pending_xfers_` or on their way there. -/
  xfers : List Xfer
  /-- The transfers that ended with an error. -/
  failed : List Use

namespace Transfers

def init : Transfers := ⟨.init, .init, [], [], [], [], [], []⟩

/-- One call of a send, of a worker or of the drain, the end of a transfer, or a step at the peer or
of a notification. -/
inductive Step : Transfers → Transfers → Prop
  /-- `acquire_recv_slot` -/
  | acquireRecv {t : Transfers} {slot : ℤ} {sender : PeerState}
      (h : t.run.sender.acquireRecvSlot = some (slot, sender)) :
      Step t { t with
        run := { t.run with sender := sender, acquired := slot :: t.run.acquired }
        unstaged := slot :: t.unstaged }
  /-- `acquire_send_slot`, and the copy -/
  | acquireSend {t : Transfers} {slot : ℤ} {rest : List ℤ} {sendSlot : ℕ} {ring : SendRing}
      (hx : t.unstaged.Perm (slot :: rest)) (h : t.ring.acquireSendSlot = some (sendSlot, ring)) :
      Step t { t with ring := ring, unstaged := rest, staged := (slot, sendSlot) :: t.staged }
  /-- `next_send_seq` -/
  | number {t : Transfers} {x : ℤ × ℕ} {rest : List (ℤ × ℕ)} (hx : t.staged.Perm (x :: rest)) :
      Step t { t with
        run := { t.run with
          sender := t.run.sender.nextSendSeq.2
          acquired := t.run.acquired.erase x.1
          numbered := (x.1, t.run.sender.nextSendSeq.1) :: t.run.numbered
          sends := t.run.sends + 1 }
        staged := rest
        numbered := ((x.1, t.run.sender.nextSendSeq.1), x.2) :: t.numbered }
  /-- `note_send_posted` and `enqueue_post` -/
  | note {t : Transfers} {x : Use × ℕ} {rest : List (Use × ℕ)} {sender : PeerState}
      (hx : t.numbered.Perm (x :: rest))
      (hnote : t.run.sender.noteSendPosted x.1.1 x.1.2 = .ok sender) :
      Step t { t with
        run := { t.run with
          sender := sender
          numbered := t.run.numbered.erase x.1
          posts := x.1 :: t.run.posts
          noted := x.1 :: t.run.noted }
        numbered := rest
        postQueue := t.postQueue ++ [x] }
  /-- A worker takes a post and calls `post_write`. -/
  | post {t : Transfers} {x : Use × ℕ} {rest : List (Use × ℕ)} (hx : t.postQueue = x :: rest) :
      Step t { t with postQueue := rest, xfers := ⟨x.1, x.2, .inProg, false⟩ :: t.xfers }
  /-- `enqueue_pending_xfer` -/
  | enqueue {t : Transfers} {x : Xfer} {rest : List Xfer} (hx : t.xfers.Perm (x :: rest)) :
      Step t { t with xfers := { x with enqueued := true } :: rest }
  /-- A transfer completes: the slot is written and the notification on its way. -/
  | succeed {t : Transfers} {x : Xfer} {rest : List Xfer} (hx : t.xfers.Perm (x :: rest))
      (hprog : x.status = .inProg) :
      Step t { t with
        run := { t.run with posts := t.run.posts.erase x.use, written := x.use :: t.run.written }
        xfers := { x with status := .success } :: rest }
  /-- A transfer ends with an error. -/
  | fail {t : Transfers} {x : Xfer} {rest : List Xfer} (hx : t.xfers.Perm (x :: rest))
      (hprog : x.status = .inProg) :
      Step t { t with
        xfers := { x with status := .error } :: rest
        failed := x.use :: t.failed }
  /-- `drain_pending_xfers` takes out a transfer: after a success and after an error it releases
  the send slot. -/
  | drain {t : Transfers} {x : Xfer} {rest : List Xfer} (hx : t.xfers.Perm (x :: rest))
      (hpending : x.enqueued = true) (hdone : x.status ≠ .inProg) :
      Step t { t with ring := t.ring.releaseSendSlot x.sendSlot, xfers := rest }
  /-- A notification or a credit is delivered, or the peer goes on with a slot. -/
  | peer {t : Transfers} {run : Run} (h : Nixl.Step t.run run)
      (hacquired : run.acquired = t.run.acquired) (hnumbered : run.numbered = t.run.numbered)
      (hposts : run.posts = t.run.posts) : Step t { t with run := run }

def inProgress (t : Transfers) : List Use :=
  (t.xfers.filter (·.status = .inProg)).map (·.use)

def held (t : Transfers) : List ℕ :=
  t.staged.map (·.2) ++
    (t.numbered.map (·.2) ++ (t.postQueue.map (·.2) ++ t.xfers.map (·.sendSlot)))

/-- No transfer is queued or pending and every credit that the peer sent was processed. A call of
`send_impl` that has taken a slot counts as queued, whether or not it has reached `post_queue_`. -/
structure Drained (t : Transfers) : Prop where
  unstaged : t.unstaged = []
  staged : t.staged = []
  numbered : t.numbered = []
  postQueue : t.postQueue = []
  xfers : t.xfers = []
  freed : ∀ x ∈ t.run.credited, x ∈ t.run.freed

/-- The transfers that were written and for which the peer has sent no credit. -/
def uncredited (t : Transfers) : List Use := t.run.written.filter (· ∉ t.run.credited)

/-! ### Who holds what -/

/-- The sends and transfers account for the slots of both rings. -/
structure Linked (t : Transfers) : Prop where
  run : ReflTransGen Nixl.Step .init t.run
  acquired : t.run.acquired.Perm (t.unstaged ++ t.staged.map (·.1))
  numbered : t.run.numbered.Perm (t.numbered.map (·.1))
  /-- A receive slot that was noted and not written belongs to a transfer that has not ended, or to
  one that failed. -/
  posts : t.run.posts.Perm (t.postQueue.map (·.1) ++ (t.inProgress ++ t.failed))
  holds : t.ring.Holds t.held

theorem perm_shift {α : Type} {l l' m : List α} {x : α} (h : l.Perm (x :: l')) :
    (l ++ m).Perm (l' ++ x :: m) :=
  (h.append_right m).trans List.perm_middle.symm

theorem perm_snoc {α : Type} {l m : List α} {x : α} : (x :: (l ++ m)).Perm ((l ++ [x]) ++ m) := by
  rw [List.append_assoc]
  exact List.perm_middle.symm

theorem perm_erase {α : Type} [BEq α] [LawfulBEq α] {l l' : List α} {x : α}
    (h : l.Perm (x :: l')) : (l.erase x).Perm l' := by
  simpa using h.erase x

theorem Linked.init : Linked .init where
  run := .refl
  acquired := .nil
  numbered := .nil
  posts := .nil
  holds := .init

variable {t : Transfers}

theorem inProgress_perm {x : Xfer} {rest : List Xfer} (hx : t.xfers.Perm (x :: rest))
    (hprog : x.status = .inProg) :
    t.inProgress.Perm (x.use :: (rest.filter (·.status = .inProg)).map (·.use)) := by
  have hperm := (hx.filter (·.status = .inProg)).map (·.use)
  rwa [List.filter_cons_of_pos (by simpa using hprog)] at hperm

theorem held_perm {x x' : Xfer} {rest : List Xfer} (hx : t.xfers.Perm (x :: rest))
    (hslot : x.sendSlot = x'.sendSlot) :
    t.held.Perm { t with xfers := x' :: rest }.held := by
  have hperm := hx.map (·.sendSlot)
  rw [List.map_cons, hslot] at hperm
  exact ((hperm.append_left _).append_left _).append_left _

theorem held_cons (x : Xfer) (rest : List Xfer) :
    { t with xfers := x :: rest }.held.Perm (x.sendSlot :: { t with xfers := rest }.held) := by
  refine List.Perm.trans ?_ List.perm_middle
  refine List.Perm.append_left _ (List.Perm.trans ?_ List.perm_middle)
  exact List.Perm.append_left _ List.perm_middle

theorem Linked.step (ht : t.Linked) {t' : Transfers} (h : Step t t') : t'.Linked := by
  cases h with
  | acquireRecv h =>
    exact { ht with run := ht.run.tail (.acquire h), acquired := ht.acquired.cons _ }
  | acquireSend hx h =>
    exact { ht with
      acquired := ht.acquired.trans (perm_shift hx)
      holds := ht.holds.acquire h }
  | @number x rest hx =>
    have hperm : t.run.acquired.Perm (x.1 :: (t.unstaged ++ rest.map (·.1))) :=
      ht.acquired.trans (((hx.map (·.1)).append_left _).trans List.perm_middle)
    exact { ht with
      run := ht.run.tail (.number (hperm.mem_iff.mpr List.mem_cons_self))
      acquired := perm_erase hperm
      numbered := ht.numbered.cons _
      holds := ht.holds.perm (perm_shift (hx.map (·.2))) }
  | @note x rest _ hx hnote =>
    have hperm := ht.numbered.trans (hx.map (·.1))
    have hholds := ht.holds.perm ((perm_shift (hx.map (·.2))).append_left _)
    exact { ht with
      run := ht.run.tail (.note (hperm.mem_iff.mpr List.mem_cons_self) hnote)
      numbered := perm_erase hperm
      posts := by
        rw [List.map_append]
        exact (ht.posts.cons _).trans perm_snoc
      holds := by
        refine hholds.perm (List.Perm.append_left _ (List.Perm.append_left _ ?_))
        rw [List.map_append]
        exact perm_snoc }
  | @post x rest hx =>
    have hposts := ht.posts
    have hholds := ht.holds
    rw [hx] at hposts
    rw [held, hx] at hholds
    exact { ht with
      posts := hposts.trans (perm_shift .rfl)
      holds := hholds.perm (((perm_shift .rfl).append_left _).append_left _) }
  | @enqueue x rest hx =>
    have hprogress := (hx.filter (·.status = .inProg)).map (·.use)
    exact { ht with
      posts := by
        refine ht.posts.trans (List.Perm.append_left _ (List.Perm.append_right _ ?_))
        refine hprogress.trans (List.Perm.of_eq ?_)
        by_cases hprog : x.status = .inProg <;> simp [inProgress, hprog]
      holds := ht.holds.perm (held_perm hx rfl) }
  | @succeed x rest hx hprog =>
    have hperm : t.run.posts.Perm (x.use :: (t.postQueue.map (·.1) ++
        ((rest.filter (·.status = .inProg)).map (·.use) ++ t.failed))) :=
      ht.posts.trans ((((inProgress_perm hx hprog).append_right _).append_left _).trans
        List.perm_middle)
    exact { ht with
      run := ht.run.tail (.write (hperm.mem_iff.mpr List.mem_cons_self))
      posts := by
        refine (perm_erase hperm).trans (List.Perm.of_eq ?_)
        simp [inProgress]
      holds := ht.holds.perm (held_perm hx rfl) }
  | @fail x rest hx hprog =>
    exact { ht with
      posts := by
        refine ht.posts.trans (List.Perm.append_left _ ?_)
        refine (perm_shift (inProgress_perm hx hprog)).trans (List.Perm.of_eq ?_)
        simp [inProgress]
      holds := ht.holds.perm (held_perm hx rfl) }
  | @drain x rest hx hpending hdone =>
    have hprogress : t.inProgress.Perm ((rest.filter (·.status = .inProg)).map (·.use)) := by
      have hperm := (hx.filter (·.status = .inProg)).map (·.use)
      rwa [List.filter_cons_of_neg (by simpa using hdone)] at hperm
    have hheld := held_perm hx rfl
    exact { ht with
      posts := ht.posts.trans ((hprogress.append_right _).append_left _)
      holds := (ht.holds.perm (hheld.trans (held_cons ..))).release }
  | peer h hacquired hnumbered hposts =>
    exact { ht with
      run := ht.run.tail h
      acquired := hacquired ▸ ht.acquired
      numbered := hnumbered ▸ ht.numbered
      posts := hposts ▸ ht.posts }

theorem Linked.of_run (h : ReflTransGen Step .init t) : t.Linked := by
  induction h with
  | refl => exact .init
  | tail _ hstep ih => exact ih.step hstep

/-! ### A slot waits only for the credit of a use -/

/-- The slot state of the sender is kept, is set by a note or is cleared by a credit. -/
theorem expected_noted {r : Run} (h : ReflTransGen Nixl.Step .init r) {s : ℤ}
    (hs : (r.sender.slotState s).expectedCreditSeq ≠ -1) :
    (s, (r.sender.slotState s).expectedCreditSeq) ∈ r.noted := by
  induction h with
  | refl => exact absurd rfl hs
  | @tail r r' _ hstep ih =>
    cases hstep with
    | acquire hget =>
      rw [PeerState.acquireRecvSlot] at hget
      split at hget
      · cases hget
      · obtain ⟨-, rfl⟩ := Prod.mk.inj (Option.some.inj hget)
        exact ih hs
    | @note x sender hx hnote =>
      rw [PeerState.noteSendPosted] at hnote
      obtain ⟨-, hnote⟩ := ensure_bind_eq_ok.mp hnote
      obtain ⟨-, hnote⟩ := ensure_bind_eq_ok.mp hnote
      obtain rfl := Except.ok.inj hnote
      dsimp only at hs ⊢
      by_cases heq : s = x.1
      · rw [heq, PeerState.slotState_modifySlot_self]
        exact List.mem_cons_self
      · rw [PeerState.slotState_modifySlot_of_ne heq] at hs ⊢
        exact List.mem_cons_of_mem _ (ih hs)
    | @deliverCredit x hx =>
      dsimp only at hs ⊢
      rw [PeerState.onRecvCredit] at hs ⊢
      split_ifs at hs ⊢ with hrange hseq
      · exact ih hs
      · dsimp only at hs ⊢
        by_cases heq : s = wire x.1
        · rw [heq, PeerState.slotState_modifySlot_self] at hs
          exact absurd rfl hs
        · rw [PeerState.slotState_modifySlot_of_ne heq] at hs ⊢
          exact ih hs
      · exact ih hs
    | _ => exact ih hs

/-! ### Nothing under way -/

theorem Drained.posts_perm (hd : t.Drained) (ht : t.Linked) : t.run.posts.Perm t.failed := by
  have hposts := ht.posts
  rw [hd.postQueue, inProgress, hd.xfers] at hposts
  exact hposts

/-- In a drained state the uses that failed and those without a credit are the ones that were noted
and not freed, so each waits for its credit at a slot of its own. -/
theorem Drained.mem_iff (hd : t.Drained) (ht : t.Linked) (hsends : t.run.sends < 2 ^ 31) {x : Use} :
    x ∈ t.failed ++ t.uncredited ↔ x ∈ t.run.noted ∧ x ∉ t.run.credited := by
  have hinv := Inv.of_run ht.run hsends
  rw [hinv.noted_perm.mem_iff, List.mem_append, List.mem_append, ← (hd.posts_perm ht).mem_iff,
    uncredited, List.mem_filter, decide_eq_true_iff, or_and_right]
  exact or_congr_left ⟨fun hx => ⟨hx, hinv.not_credited_of_post hx⟩, And.left⟩

theorem Drained.nodup (hd : t.Drained) (ht : t.Linked) (hsends : t.run.sends < 2 ^ 31) :
    ((t.failed ++ t.uncredited).map (·.1)).Nodup := by
  have hinv := Inv.of_run ht.run hsends
  have hnodup : (t.failed ++ t.uncredited).Nodup := by
    have hnoted := hinv.noted_perm.nodup_iff.mp hinv.noted_nodup
    exact (((hd.posts_perm ht).append_right _).nodup_iff.mp hnoted).sublist
      (List.filter_sublist.append_left _)
  refine List.Nodup.map_on (fun x hx y hy hxy => ?_) hnodup
  obtain ⟨hx, hopen⟩ := (hd.mem_iff ht hsends).mp hx
  obtain ⟨hy, hopen'⟩ := (hd.mem_iff ht hsends).mp hy
  have hlatest := (hinv.latest hx hopen).1
  have hlatest' := (hinv.latest hy hopen').1
  rw [← hxy, hlatest] at hlatest'
  exact Prod.ext hxy hlatest'

/-- The receive slots that wait for a credit are the ones of these uses. -/
theorem Drained.outstanding_perm (hd : t.Drained) (ht : t.Linked)
    (hsends : t.run.sends < 2 ^ 31) :
    t.run.sender.outstanding.Perm ((t.failed ++ t.uncredited).map (·.1)) := by
  have hinv := Inv.of_run ht.run hsends
  refine (List.perm_ext_iff_of_nodup (nodup_ring.filter _) (hd.nodup ht hsends)).mpr
    fun s => ⟨fun hs => ?_, fun hs => ?_⟩
  · have hwaits : (t.run.sender.slotState s).expectedCreditSeq ≠ -1 := by
      simpa using (List.mem_filter.mp hs).2
    have hnoted := expected_noted ht.run hwaits
    refine List.mem_map.mpr ⟨_, (hd.mem_iff ht hsends).mpr ⟨hnoted, fun hcredited => ?_⟩, rfl⟩
    exact absurd rfl (hinv.sender.freed_noted _ (hd.freed _ hcredited)).2
  · obtain ⟨x, hx, rfl⟩ := List.mem_map.mp hs
    obtain ⟨hnoted, hopen⟩ := (hd.mem_iff ht hsends).mp hx
    obtain ⟨hring, hge, -⟩ := hinv.sender.noted_range x hnoted
    have hwaits := (hinv.latest hnoted hopen).1
    refine List.mem_filter.mpr ⟨hring, ?_⟩
    simp only [hwaits, ne_eq, decide_not, Bool.not_eq_true', decide_eq_false_iff_not]
    omega

/-- **A failed transfer keeps its receive slot.** When no transfer is queued or pending and every
credit was processed, every send slot is free. The receive slots that are not available are those
of the transfers that failed, which nothing will give back, and those that the peer has not
answered yet. So all are available exactly when no transfer failed and all were answered. -/
theorem slots_of_drained (h : ReflTransGen Step .init t) (hsends : t.run.sends < 2 ^ 31)
    (hd : t.Drained) :
    (∀ slot, t.ring.sendSlotBusy slot = false) ∧
      (t.run.sender.availableRecvSlots ++ (t.failed ++ t.uncredited).map (·.1)).Perm Nixl.ring ∧
      (t.run.sender.availableRecvSlots.Perm Nixl.ring ↔
        t.failed = [] ∧ ∀ x ∈ t.run.written, x ∈ t.run.credited) := by
  have ht := Linked.of_run h
  have hpartition := (Inv.of_run ht.run hsends).partition
  have hacquired : t.run.acquired = [] := by
    have hperm := ht.acquired
    rw [hd.unstaged, hd.staged] at hperm
    exact hperm.eq_nil
  have hnumbered : t.run.numbered = [] := by
    have hperm := ht.numbered
    rw [hd.numbered] at hperm
    exact hperm.eq_nil
  rw [hacquired, hnumbered, List.map_nil, List.append_nil, List.append_nil] at hpartition
  have hslots := ((hd.outstanding_perm ht hsends).append_left _).symm.trans hpartition
  have hanswered : t.failed ++ t.uncredited = [] ↔
      t.failed = [] ∧ ∀ x ∈ t.run.written, x ∈ t.run.credited := by
    simp [uncredited, List.filter_eq_nil_iff]
  refine ⟨fun slot => ?_, hslots, ?_⟩
  · have hbusy := ht.holds.busy slot
    rw [held, hd.staged, hd.numbered, hd.postQueue, hd.xfers] at hbusy
    simpa using hbusy
  · rw [← hanswered]
    constructor
    · intro hall
      have hlen := hslots.length_eq
      rw [List.length_append, hall.length_eq, List.length_map] at hlen
      exact List.length_eq_zero_iff.mp (by omega)
    · intro hnone
      rwa [hnone, List.map_nil, List.append_nil] at hslots

/-- One transfer that was answered. -/
theorem slots_of_drained_answered :
    ∃ t, ReflTransGen Step .init t ∧ t.run.written = [(0, 0)] ∧
      t.run.sender.availableRecvSlots.Perm Nixl.ring := by
  have hrun : ReflTransGen Step .init _ :=
    (((((((((((((ReflTransGen.refl.tail (.acquireRecv rfl)).tail (.acquireSend .rfl rfl)).tail
      (.number .rfl)).tail (.note .rfl rfl)).tail (.post rfl)).tail (.enqueue .rfl)).tail
      (.succeed .rfl rfl)).tail (.drain .rfl rfl (by decide))).tail
      (.peer (.deliverData List.mem_cons_self) rfl rfl rfl)).tail
      (.peer (.consume List.mem_cons_self) rfl rfl rfl)).tail
      (.peer (.complete List.mem_cons_self) rfl rfl rfl)).tail
      (.peer (.sendCredit List.mem_cons_self) rfl rfl rfl)).tail
      (.peer (.deliverCredit List.mem_cons_self) rfl rfl rfl))
  exact ⟨_, hrun, rfl, (slots_of_drained hrun (by decide)
    ⟨rfl, rfl, rfl, rfl, rfl, by decide⟩).2.2.mpr ⟨rfl, by decide⟩⟩

/-- One transfer that failed, drained: its receive slot is not available, though nothing is under
way and no credit is missing. -/
theorem recv_slot_lost :
    ∃ t, ReflTransGen Step .init t ∧ t.Drained ∧ t.uncredited = [] ∧ t.failed = [(0, 0)] ∧
      t.run.sender.availableRecvSlots = [1, 2, 3, 4, 5, 6, 7] := by
  have hrun : ReflTransGen Step .init _ :=
    (((((((ReflTransGen.refl.tail (.acquireRecv rfl)).tail (.acquireSend .rfl rfl)).tail
      (.number .rfl)).tail (.note .rfl rfl)).tail (.post rfl)).tail (.enqueue .rfl)).tail
      (.fail .rfl rfl)).tail (.drain .rfl rfl (by decide))
  exact ⟨_, hrun, ⟨rfl, rfl, rfl, rfl, rfl, by decide⟩, rfl, rfl, rfl⟩

end Transfers

end Nixl

end StreamEP

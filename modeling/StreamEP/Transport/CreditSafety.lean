import StreamEP.Transport.NixlContext
import Mathlib.Data.List.Count
import Mathlib.Data.List.Nodup
import Mathlib.Data.List.Perm.Basic

/-!
# Slots are not reused before their credit

The invariant has one part for each device and one for the way of a use between them. At the sender
every slot is in one place: free, acquired, or waiting for the credit of its latest use. At the
receiver a slot remembers the use that is being read and the latest one that was marked. A use goes
its way once, from the post to the credit, and a slot is acquired again only after the credit of
its last use was sent. Hence the numbers of the uses of a slot increase, which is what makes both
devices recognise a notification they have seen.

## The bound on the number of sends

A use is known to the devices by its number, which goes over the wire as a signed 32-bit integer.
The counter wraps after that, and both devices compare numbers as integers: a use after the wrap
would look older than all uses before it. The bound is on the sends of one pair of devices.

## Main results

* `Nixl.safe_of_run` — every run with fewer than `2 ^ 31` sends is safe
-/

namespace StreamEP

namespace Nixl

theorem mem_ring {s : ℤ} : s ∈ ring ↔ 0 ≤ s ∧ s < recvRingSize := by
  simp only [ring, List.mem_cons, List.not_mem_nil, or_false, recvRingSize]
  omega

theorem nodup_ring : ring.Nodup := by decide

/-! ### The sender -/

namespace PeerState

/-- How many credits slot `s` waits for. -/
def waits (p : PeerState) (s : ℤ) : ℕ := if (p.slotState s).expectedCreditSeq = -1 then 0 else 1

variable {p : PeerState} {s : ℤ}

theorem waits_eq_zero (h : (p.slotState s).expectedCreditSeq = -1) : p.waits s = 0 := if_pos h

theorem waits_eq_one (h : (p.slotState s).expectedCreditSeq ≠ -1) : p.waits s = 1 := if_neg h

@[simp] theorem slotState_modifySlot_self (f : SlotState → SlotState) :
    (p.modifySlot s f).slotState s = f (p.slotState s) := Function.update_self ..

theorem slotState_modifySlot_of_ne {slot : ℤ} (h : s ≠ slot) (f : SlotState → SlotState) :
    (p.modifySlot slot f).slotState s = p.slotState s := Function.update_of_ne h ..

theorem waits_modifySlot_of_ne {slot : ℤ} (h : s ≠ slot) (f : SlotState → SlotState) :
    (p.modifySlot slot f).waits s = p.waits s := by
  rw [waits, slotState_modifySlot_of_ne h, waits]

end PeerState

/-- Taking one entry out of a list takes it from the count. -/
theorem count_map_erase {α β : Type} [BEq α] [LawfulBEq α] [DecidableEq β] {l : List α} {x : α}
    (hx : x ∈ l) (f : α → β) (b : β) :
    (l.map f).count b = ((l.erase x).map f).count b + if f x = b then 1 else 0 := by
  rw [((List.perm_cons_erase hx).map f).count_eq b, List.map_cons, List.count_cons]
  simp only [beq_iff_eq]

structure SenderInv (p : PeerState) (acquired : List ℤ) (numbered noted freed : List Use)
    (sends : ℕ) : Prop where
  nextSeq : p.nextSeq = sends
  /-- A slot is free, acquired, or waiting for a credit. -/
  slots : ∀ s, p.availableRecvSlots.count s + acquired.count s + (numbered.map (·.1)).count s +
    p.waits s = ring.count s
  /-- A send has a newer number than every noted use of its slot. -/
  numbered_new : ∀ x ∈ numbered, (0 ≤ x.2 ∧ x.2 < sends) ∧ ∀ y ∈ noted, y.1 = x.1 → y.2 < x.2
  /-- Noted uses are of existing slots, with numbers handed out before. -/
  noted_range : ∀ x ∈ noted, x.1 ∈ ring ∧ 0 ≤ x.2 ∧ x.2 < sends
  /-- A slot waits for the credit of its latest use. -/
  current : ∀ s, (p.slotState s).expectedCreditSeq ≠ -1 →
    ∀ y ∈ noted, y.1 = s → y.2 ≤ (p.slotState s).expectedCreditSeq
  /-- A noted use is freed, or its credit is waited for. -/
  outstanding : ∀ x ∈ noted, x ∈ freed ∨ (p.slotState x.1).expectedCreditSeq = x.2
  freed_noted : ∀ x ∈ freed, x ∈ noted ∧ (p.slotState x.1).expectedCreditSeq ≠ x.2
  freed_nodup : freed.Nodup

namespace SenderInv

variable {p : PeerState} {acquired : List ℤ} {numbered noted freed : List Use} {sends : ℕ}

theorem init : SenderInv .init [] [] [] [] 0 where
  nextSeq := rfl
  slots s := by simp [PeerState.init, PeerState.waits]
  numbered_new := by simp
  noted_range := by simp
  current := by simp
  outstanding := by simp
  freed_noted := by simp
  freed_nodup := List.nodup_nil

theorem acquire (h : SenderInv p acquired numbered noted freed sends) {slot : ℤ} {p' : PeerState}
    (hget : p.acquireRecvSlot = some (slot, p')) :
    SenderInv p' (slot :: acquired) numbered noted freed sends := by
  rw [PeerState.acquireRecvSlot] at hget
  split at hget
  · cases hget
  · next slot' rest havail =>
    obtain ⟨rfl, rfl⟩ := Prod.mk.inj (Option.some.inj hget)
    refine ⟨h.nextSeq, fun s => ?_, h.numbered_new, h.noted_range, h.current, h.outstanding,
      h.freed_noted,
      h.freed_nodup⟩
    have hslots := h.slots s
    rw [havail, List.count_cons] at hslots
    show rest.count s + (slot' :: acquired).count s + _ + p.waits s = _
    rw [List.count_cons]
    omega

theorem number (h : SenderInv p acquired numbered noted freed sends) (hlt : sends + 1 < 2 ^ 31)
    {slot : ℤ} (hslot : slot ∈ acquired) :
    SenderInv p.nextSendSeq.2 (acquired.erase slot) ((slot, p.nextSendSeq.1) :: numbered) noted
      freed (sends + 1) := by
  have hseq : p.nextSendSeq.1 = sends := h.nextSeq
  refine ⟨?_, fun s => ?_, fun x hx => ?_, fun x hx => ?_, h.current, h.outstanding,
    h.freed_noted, h.freed_nodup⟩
  · show (p.nextSeq + 1).bmod (2 ^ 32) = _
    rw [h.nextSeq, Int.bmod_eq_of_le (by omega) (by omega)]
    push_cast
    rfl
  · have hslots := h.slots s
    have hcount := count_map_erase hslot (fun s => s) s
    rw [List.map_id', List.map_id'] at hcount
    show p.availableRecvSlots.count s + _ + (slot :: numbered.map (·.1)).count s + p.waits s = _
    rw [List.count_cons]
    simp only [beq_iff_eq]
    omega
  · rcases List.mem_cons.mp hx with rfl | hx
    · rw [hseq]
      exact ⟨⟨by omega, by push_cast; omega⟩, fun y hy _ => (h.noted_range y hy).2.2⟩
    · obtain ⟨⟨hge, hlt⟩, hnew⟩ := h.numbered_new x hx
      exact ⟨⟨hge, by push_cast; omega⟩, hnew⟩
  · obtain ⟨hs, hge, hlt⟩ := h.noted_range x hx
    exact ⟨hs, hge, by push_cast; omega⟩

theorem expected_of_numbered (h : SenderInv p acquired numbered noted freed sends) {x : Use}
    (hx : x ∈ numbered) : x.1 ∈ ring ∧ (p.slotState x.1).expectedCreditSeq = -1 := by
  have hslots := h.slots x.1
  have hcount := count_map_erase hx (·.1) x.1
  rw [if_pos rfl] at hcount
  have hring : ring.count x.1 ≤ 1 := List.nodup_iff_count_le_one.mp nodup_ring _
  refine ⟨List.count_pos_iff.mp (by omega), ?_⟩
  by_contra hne
  rw [PeerState.waits_eq_one hne] at hslots
  omega

theorem noteSendPosted_eq (h : SenderInv p acquired numbered noted freed sends) {x : Use}
    (hx : x ∈ numbered) : p.noteSendPosted x.1 x.2 =
      .ok (p.modifySlot x.1 fun st => { st with expectedCreditSeq := x.2 }) := by
  obtain ⟨hring, hfree⟩ := h.expected_of_numbered hx
  rw [PeerState.noteSendPosted, ensure_of_true (mem_ring.mp hring), ok_bind,
    ensure_of_true hfree, ok_bind]
  rfl

theorem note (h : SenderInv p acquired numbered noted freed sends) {x : Use} (hx : x ∈ numbered) :
    SenderInv (p.modifySlot x.1 fun st => { st with expectedCreditSeq := x.2 }) acquired
      (numbered.erase x) (x :: noted) freed sends := by
  obtain ⟨hring, hfree⟩ := h.expected_of_numbered hx
  obtain ⟨⟨hge, hlt⟩, hnew⟩ := h.numbered_new x hx
  refine ⟨h.nextSeq, fun s => ?_, fun y hy => ?_, fun y hy => ?_, fun s hs y hy hys => ?_,
    fun y hy => ?_, fun y hy => ?_, h.freed_nodup⟩
  · have hslots := h.slots s
    have hcount := count_map_erase hx (·.1) s
    show p.availableRecvSlots.count s + _ + _ + _ = _
    by_cases hs : s = x.1
    · subst hs
      rw [PeerState.waits_eq_zero hfree] at hslots
      rw [PeerState.waits_eq_one (by simp; omega)]
      rw [if_pos rfl] at hcount
      omega
    · rw [PeerState.waits_modifySlot_of_ne hs]
      rw [if_neg (Ne.symm hs)] at hcount
      omega
  · obtain ⟨hrange, hnewer⟩ := h.numbered_new y (List.mem_of_mem_erase hy)
    refine ⟨hrange, fun z hz hzy => ?_⟩
    rcases List.mem_cons.mp hz with rfl | hz
    · -- no other send has the slot
      have hslots := h.slots z.1
      have hcount := count_map_erase hx (·.1) z.1
      have hother := count_map_erase hy (·.1) z.1
      have honce : ring.count z.1 ≤ 1 := List.nodup_iff_count_le_one.mp nodup_ring _
      rw [if_pos rfl] at hcount
      rw [if_pos hzy.symm] at hother
      omega
    · exact hnewer z hz hzy
  · rcases List.mem_cons.mp hy with rfl | hy
    · exact ⟨hring, hge, hlt⟩
    · exact h.noted_range y hy
  · by_cases hsx : s = x.1
    · subst hsx
      rw [PeerState.slotState_modifySlot_self]
      rcases List.mem_cons.mp hy with rfl | hy
      · exact Int.le_refl _
      · exact Int.le_of_lt (hnew y hy hys)
    · rw [PeerState.slotState_modifySlot_of_ne hsx] at hs ⊢
      rcases List.mem_cons.mp hy with rfl | hy
      · exact absurd hys.symm hsx
      · exact h.current s hs y hy hys
  · rcases List.mem_cons.mp hy with rfl | hy
    · exact .inr (by rw [PeerState.slotState_modifySlot_self])
    · rcases h.outstanding y hy with hfreed | hexpected
      · exact .inl hfreed
      · by_cases hyx : y.1 = x.1
        · -- the slot waited for nothing
          rw [hyx, hfree] at hexpected
          have := (h.noted_range y hy).2.1
          omega
        · exact .inr (by rwa [PeerState.slotState_modifySlot_of_ne hyx])
  · obtain ⟨hnoted, hne⟩ := h.freed_noted y hy
    refine ⟨List.mem_cons_of_mem _ hnoted, ?_⟩
    by_cases hyx : y.1 = x.1
    · have hlt := hnew y hnoted hyx
      rw [hyx, PeerState.slotState_modifySlot_self]
      exact fun heq => by simp only at heq; omega
    · rwa [PeerState.slotState_modifySlot_of_ne hyx]

/-- **A credit frees its slot** only while the slot waits for it. -/
theorem onRecvCredit_eq {x : Use} (hring : x.1 ∈ ring) : p.onRecvCredit x.1 x.2 =
    if (p.slotState x.1).expectedCreditSeq = x.2 then
      (true, { p.modifySlot x.1 fun st => { st with expectedCreditSeq := -1 } with
        availableRecvSlots := p.availableRecvSlots ++ [x.1] })
    else (false, p) := by
  have hrange := mem_ring.mp hring
  rw [PeerState.onRecvCredit, if_neg (by omega)]

theorem free (h : SenderInv p acquired numbered noted freed sends) {x : Use} (hx : x ∈ noted)
    (hexpected : (p.slotState x.1).expectedCreditSeq = x.2) :
    SenderInv { p.modifySlot x.1 fun st => { st with expectedCreditSeq := -1 } with
        availableRecvSlots := p.availableRecvSlots ++ [x.1] }
      acquired numbered noted (x :: freed) sends := by
  have hge := (h.noted_range x hx).2.1
  obtain ⟨p', hp'⟩ : ∃ p', p' =
    { p.modifySlot x.1 fun st => { st with expectedCreditSeq := -1 } with
    availableRecvSlots := p.availableRecvSlots ++ [x.1] } := ⟨_, rfl⟩
  have hself : (p'.slotState x.1).expectedCreditSeq = -1 := by simp [hp']
  have hother : ∀ s, s ≠ x.1 → p'.slotState s = p.slotState s := by
    intro s hs
    rw [hp']
    exact PeerState.slotState_modifySlot_of_ne (p := p) hs
      fun st => { st with expectedCreditSeq := -1 }
  rw [← hp']
  refine ⟨by rw [hp']; exact h.nextSeq, fun s => ?_, h.numbered_new, h.noted_range,
    fun s hs y hy hys => ?_, fun y hy => ?_, fun y hy => ?_,
    List.nodup_cons.mpr ⟨fun hfreed => (h.freed_noted x hfreed).2 hexpected, h.freed_nodup⟩⟩
  · have hslots := h.slots s
    have havail : p'.availableRecvSlots = p.availableRecvSlots ++ [x.1] := by rw [hp']
    rw [havail, List.count_append, List.count_singleton]
    by_cases hs : s = x.1
    · subst hs
      rw [PeerState.waits_eq_one (by omega)] at hslots
      rw [PeerState.waits_eq_zero hself]
      simp only [beq_self_eq_true, if_true]
      omega
    · rw [PeerState.waits, hother s hs, ← PeerState.waits, if_neg (by simpa using Ne.symm hs)]
      omega
  · have hsx : s ≠ x.1 := by
      rintro rfl
      exact hs hself
    rw [hother s hsx] at hs ⊢
    exact h.current s hs y hy hys
  · rcases h.outstanding y hy with hfreed | hwaits
    · exact .inl (List.mem_cons_of_mem _ hfreed)
    · by_cases hyx : y.1 = x.1
      · left
        rw [hyx, hexpected] at hwaits
        rw [Prod.ext hyx hwaits.symm]
        exact List.mem_cons_self
      · exact .inr (by rwa [hother _ hyx])
  · have hnoted : y ∈ noted := by
      rcases List.mem_cons.mp hy with rfl | hy
      · exact hx
      · exact (h.freed_noted y hy).1
    refine ⟨hnoted, ?_⟩
    by_cases hyx : y.1 = x.1
    · have := (h.noted_range y hnoted).2.1
      rw [hyx, hself]
      omega
    · rw [hother _ hyx]
      rcases List.mem_cons.mp hy with rfl | hy
      · exact absurd rfl hyx
      · exact (h.freed_noted y hy).2

end SenderInv

/-! ### The receiver -/

/-- What holds at the receiver: `pending` are the uses accepted and not marked, `done` those
marked. -/
structure ReceiverInv (p : PeerState) (pending done : List Use) : Prop where
  /-- A slot remembers a use that is pending. -/
  inflight_mem : ∀ s, (p.slotState s).inflightRecvSeq ≠ -1 →
    (s, (p.slotState s).inflightRecvSeq) ∈ pending
  inflight_eq : ∀ x ∈ pending, (p.slotState x.1).inflightRecvSeq = x.2
  /-- A slot remembers a use that is done. -/
  completed_mem : ∀ s, (p.slotState s).completedRecvSeq ≠ -1 →
    (s, (p.slotState s).completedRecvSeq) ∈ done
  completed_le : ∀ x ∈ done, x.2 ≤ (p.slotState x.1).completedRecvSeq

namespace ReceiverInv

variable {p : PeerState} {pending done : List Use}

theorem init : ReceiverInv .init [] [] :=
  ⟨by simp [PeerState.init], by simp, by simp [PeerState.init], by simp⟩

theorem congr (h : ReceiverInv p pending done) {pending' done' : List Use}
    (hpending : ∀ x, x ∈ pending' ↔ x ∈ pending) (hdone : ∀ x, x ∈ done' ↔ x ∈ done) :
    ReceiverInv p pending' done' :=
  ⟨fun s hs => (hpending _).mpr (h.inflight_mem s hs),
    fun x hx => h.inflight_eq x ((hpending x).mp hx),
    fun s hs => (hdone _).mpr (h.completed_mem s hs),
    fun x hx => h.completed_le x ((hdone x).mp hx)⟩

theorem refuse (h : ReceiverInv p pending done) {x : Use} (hx : x ∈ pending ∨ x ∈ done) :
    p.acceptDataNotif x.1 x.2 = (false, p) := by
  rw [PeerState.acceptDataNotif]
  split_ifs with hrange hseen
  · rfl
  · rfl
  · refine absurd ?_ hseen
    rcases hx with hx | hx
    · exact .inl (h.inflight_eq x hx)
    · exact .inr (h.completed_le x hx)

/-- A use that is newer than those done of its slot has not been completed. -/
theorem completed_lt (h : ReceiverInv p pending done) {x : Use} (hge : 0 ≤ x.2)
    (hnew : ∀ y ∈ done, y.1 = x.1 → y.2 < x.2) : (p.slotState x.1).completedRecvSeq < x.2 := by
  by_cases hnone : (p.slotState x.1).completedRecvSeq = -1
  · omega
  · exact hnew _ (h.completed_mem x.1 hnone) rfl

/-- **A new notification is accepted** when its slot is not being read and its number is newer than
those done. -/
theorem accept (h : ReceiverInv p pending done) {x : Use} (hring : x.1 ∈ ring) (hge : 0 ≤ x.2)
    (hidle : (p.slotState x.1).inflightRecvSeq = -1) (hpending : ∀ y ∈ pending, 0 ≤ y.2)
    (hnew : ∀ y ∈ done, y.1 = x.1 → y.2 < x.2) :
    p.acceptDataNotif x.1 x.2 =
        (true, p.modifySlot x.1 fun st => { st with inflightRecvSeq := x.2 }) ∧
      ReceiverInv (p.modifySlot x.1 fun st => { st with inflightRecvSeq := x.2 })
        (x :: pending) done := by
  have hrange := mem_ring.mp hring
  have hcompleted := h.completed_lt hge hnew
  refine ⟨?_, fun s hs => ?_, fun y hy => ?_, fun s hs => ?_, fun y hy => ?_⟩
  · rw [PeerState.acceptDataNotif, if_neg (by omega), if_neg (by omega)]
  · by_cases hsx : s = x.1
    · subst hsx
      rw [PeerState.slotState_modifySlot_self]
      exact List.mem_cons_self
    · rw [PeerState.slotState_modifySlot_of_ne hsx] at hs ⊢
      exact List.mem_cons_of_mem _ (h.inflight_mem s hs)
  · rcases List.mem_cons.mp hy with rfl | hy
    · rw [PeerState.slotState_modifySlot_self]
    · have hyeq := h.inflight_eq y hy
      by_cases hyx : y.1 = x.1
      · have := hpending y hy
        rw [hyx, hidle] at hyeq
        omega
      · rwa [PeerState.slotState_modifySlot_of_ne hyx]
  · by_cases hsx : s = x.1
    · subst hsx
      rw [PeerState.slotState_modifySlot_self] at hs ⊢
      exact h.completed_mem _ hs
    · rw [PeerState.slotState_modifySlot_of_ne hsx] at hs ⊢
      exact h.completed_mem s hs
  · by_cases hyx : y.1 = x.1
    · rw [hyx, PeerState.slotState_modifySlot_self, ← hyx]
      exact h.completed_le y hy
    · rw [PeerState.slotState_modifySlot_of_ne hyx]
      exact h.completed_le y hy

theorem mark (h : ReceiverInv p pending done) {x : Use} (hx : x ∈ pending) (hring : x.1 ∈ ring)
    (hge : 0 ≤ x.2) (hnodup : pending.Nodup) (hnew : ∀ y ∈ done, y.1 = x.1 → y.2 < x.2) :
    ReceiverInv (p.markRecvCompleted x.1 x.2) (pending.erase x) (x :: done) := by
  have hrange := mem_ring.mp hring
  have hcompleted := h.completed_lt hge hnew
  have hinflight := h.inflight_eq x hx
  rw [PeerState.markRecvCompleted, if_neg (by omega), if_neg (by omega)]
  refine ⟨fun s hs => ?_, fun y hy => ?_, fun s hs => ?_, fun y hy => ?_⟩
  · by_cases hsx : s = x.1
    · subst hsx
      rw [PeerState.slotState_modifySlot_self, if_pos hinflight] at hs
      exact absurd rfl hs
    · rw [PeerState.slotState_modifySlot_of_ne hsx] at hs ⊢
      refine (List.mem_erase_of_ne ?_).mpr (h.inflight_mem s hs)
      exact fun heq => hsx (congrArg Prod.fst heq)
  · obtain ⟨hne, hmem⟩ := (hnodup.mem_erase_iff).mp hy
    have hyeq := h.inflight_eq y hmem
    by_cases hyx : y.1 = x.1
    · rw [hyx, hinflight] at hyeq
      exact absurd (Prod.ext hyx hyeq.symm) hne
    · rwa [PeerState.slotState_modifySlot_of_ne hyx]
  · by_cases hsx : s = x.1
    · subst hsx
      rw [PeerState.slotState_modifySlot_self, if_pos hcompleted]
      exact List.mem_cons_self
    · rw [PeerState.slotState_modifySlot_of_ne hsx] at hs ⊢
      exact List.mem_cons_of_mem _ (h.completed_mem s hs)
  · by_cases hyx : y.1 = x.1
    · rw [hyx, PeerState.slotState_modifySlot_self, if_pos hcompleted]
      rcases List.mem_cons.mp hy with rfl | hy
      · exact Int.le_refl _
      · exact Int.le_of_lt (hnew y hy hyx)
    · rw [PeerState.slotState_modifySlot_of_ne hyx]
      rcases List.mem_cons.mp hy with rfl | hy
      · exact absurd rfl hyx
      · exact h.completed_le y hy

end ReceiverInv

/-! ### The pair -/

theorem perm_move {α : Type} [BEq α] [LawfulBEq α] {l m : List α} {x : α} (hx : x ∈ l) :
    (l.erase x ++ x :: m).Perm (l ++ m) :=
  List.perm_middle.trans ((List.perm_cons_erase hx).symm.append_right m)

structure Inv (r : Run) : Prop where
  sender : SenderInv r.sender r.acquired r.numbered r.noted r.freed r.sends
  receiver : ReceiverInv r.receiver (r.arrived ++ r.consumed) (r.marked ++ r.credited)
  noted_perm : r.noted.Perm (r.posts ++ r.written)
  noted_nodup : r.noted.Nodup
  accepted_perm : r.accepted.Perm ((r.arrived ++ r.consumed) ++ (r.marked ++ r.credited))
  accepted_nodup : r.accepted.Nodup
  accepted_written : ∀ x ∈ r.accepted, x ∈ r.written
  delivered : ∀ x ∈ r.delivered, x ∈ r.accepted
  freed_credited : ∀ x ∈ r.freed, x ∈ r.credited

namespace Inv

variable {r : Run}

theorem init : Inv .init where
  sender := .init
  receiver := .init
  noted_perm := .nil
  noted_nodup := List.nodup_nil
  accepted_perm := .nil
  accepted_nodup := List.nodup_nil
  accepted_written := by simp [Run.init]
  delivered := by simp [Run.init]
  freed_credited := by simp [Run.init]

theorem noted_of_written (h : Inv r) {x : Use} (hx : x ∈ r.written) : x ∈ r.noted :=
  h.noted_perm.mem_iff.mpr (List.mem_append_right _ hx)

theorem accepted_of_credited (h : Inv r) {x : Use} (hx : x ∈ r.credited) : x ∈ r.accepted :=
  h.accepted_perm.mem_iff.mpr (List.mem_append_right _ (List.mem_append_right _ hx))

theorem noted_of_accepted (h : Inv r) {x : Use} (hx : x ∈ r.accepted) : x ∈ r.noted :=
  h.noted_of_written (h.accepted_written x hx)

theorem wire_eq_of_noted (h : Inv r) (hsends : r.sends < 2 ^ 31) {x : Use} (hx : x ∈ r.noted) :
    wire x.1 = x.1 ∧ wire x.2 = x.2 := by
  obtain ⟨hring, hge, hlt⟩ := h.sender.noted_range x hx
  have hrange := mem_ring.mp hring
  rw [recvRingSize] at hrange
  exact ⟨wire_eq (by omega) (by omega), wire_eq hge (by omega)⟩

/-- A use whose credit was not sent is the latest use of its slot. -/
theorem latest (h : Inv r) {x : Use} (hx : x ∈ r.noted) (hcredit : x ∉ r.credited) :
    (r.sender.slotState x.1).expectedCreditSeq = x.2 ∧ ∀ y ∈ r.noted, y.1 = x.1 → y.2 ≤ x.2 := by
  have hexpected : (r.sender.slotState x.1).expectedCreditSeq = x.2 :=
    (h.sender.outstanding x hx).resolve_left fun hfreed => hcredit (h.freed_credited x hfreed)
  refine ⟨hexpected, fun y hy hyx => ?_⟩
  have hge := (h.sender.noted_range x hx).2.1
  have hle := h.sender.current x.1 (by omega) y hy hyx
  omega

theorem not_credited_of_pending (h : Inv r) {x : Use} (hx : x ∈ r.arrived ++ r.consumed) :
    x ∉ r.marked ++ r.credited := by
  have hnodup := h.accepted_perm.nodup_iff.mp h.accepted_nodup
  exact fun hdone => (List.nodup_append.mp hnodup).2.2 x hx x hdone rfl

/-- What is done at the slot of a use without a credit is older, unless it is the use itself. -/
theorem older_of_done (h : Inv r) {x : Use} (hx : x ∈ r.noted) (hdone : x ∉ r.marked ++ r.credited)
    {y : Use} (hy : y ∈ r.marked ++ r.credited) (hyx : y.1 = x.1) : y.2 < x.2 := by
  have hcredit : x ∉ r.credited := fun hc => hdone (List.mem_append_right _ hc)
  have hnoted := h.noted_of_accepted (h.accepted_perm.mem_iff.mpr (List.mem_append_right _ hy))
  have hle := (h.latest hx hcredit).2 y hnoted hyx
  refine Int.lt_iff_le_and_ne.mpr ⟨hle, fun heq => hdone ?_⟩
  rwa [← Prod.ext hyx heq]

/-- **A delivery of a notification**: the first one is accepted, every other refused. -/
theorem acceptDataNotif_cases (h : Inv r) {x : Use} (hx : x ∈ r.written) :
    (x ∈ r.accepted ∧ r.receiver.acceptDataNotif x.1 x.2 = (false, r.receiver)) ∨
      (x ∉ r.accepted ∧ ∃ receiver, r.receiver.acceptDataNotif x.1 x.2 = (true, receiver) ∧
        ReceiverInv receiver (x :: (r.arrived ++ r.consumed)) (r.marked ++ r.credited)) := by
  have hnoted := h.noted_of_written hx
  obtain ⟨hring, hge, -⟩ := h.sender.noted_range x hnoted
  by_cases hacc : x ∈ r.accepted
  · refine .inl ⟨hacc, h.receiver.refuse ?_⟩
    exact List.mem_append.mp (h.accepted_perm.mem_iff.mp hacc)
  · refine .inr ⟨hacc, _, h.receiver.accept hring hge ?_ (fun y hy => ?_) fun y hy hyx => ?_⟩
    · -- another use being read would be the latest, so it would be this one
      by_contra hbusy
      have hpending := h.receiver.inflight_mem x.1 hbusy
      have hother : (x.1, (r.receiver.slotState x.1).inflightRecvSeq) ∈ r.accepted :=
        h.accepted_perm.mem_iff.mpr (List.mem_append_left _ hpending)
      have hcredit : x ∉ r.credited := fun hc => hacc (h.accepted_of_credited hc)
      have hlatest := (h.latest hnoted hcredit).1
      have hsame := (h.latest (h.noted_of_accepted hother) fun hc =>
        h.not_credited_of_pending hpending (List.mem_append_right _ hc)).1
      simp only at hsame
      rw [hlatest] at hsame
      rw [← hsame] at hother
      exact hacc hother
    · have hmem := h.accepted_perm.mem_iff.mpr (List.mem_append_left _ hy)
      exact (h.sender.noted_range y (h.noted_of_accepted hmem)).2.1
    · refine h.older_of_done hnoted (fun hdone => hacc ?_) hy hyx
      exact h.accepted_perm.mem_iff.mpr (List.mem_append_right _ hdone)

theorem note (h : Inv r) {x : Use} (hx : x ∈ r.numbered) {sender : PeerState}
    (hnote : r.sender.noteSendPosted x.1 x.2 = .ok sender) :
    Inv { r with
      sender := sender
      numbered := r.numbered.erase x
      posts := x :: r.posts
      noted := x :: r.noted } := by
  rw [h.sender.noteSendPosted_eq hx] at hnote
  obtain rfl := Except.ok.inj hnote
  refine ⟨h.sender.note hx, h.receiver, h.noted_perm.cons x, List.nodup_cons.mpr ⟨fun hold => ?_,
    h.noted_nodup⟩, h.accepted_perm, h.accepted_nodup, h.accepted_written, h.delivered,
    h.freed_credited⟩
  have := (h.sender.numbered_new x hx).2 x hold rfl
  omega

theorem write (h : Inv r) {x : Use} (hx : x ∈ r.posts) :
    Inv { r with posts := r.posts.erase x, written := x :: r.written } :=
  ⟨h.sender, h.receiver, h.noted_perm.trans (perm_move hx).symm, h.noted_nodup, h.accepted_perm,
    h.accepted_nodup, fun y hy => List.mem_cons_of_mem _ (h.accepted_written y hy), h.delivered,
    h.freed_credited⟩

theorem deliverData (h : Inv r) (hsends : r.sends < 2 ^ 31) {x : Use} (hx : x ∈ r.written) :
    Inv { r with
      receiver := (r.receiver.acceptDataNotif (wire x.1) (wire x.2)).2
      delivered := x :: r.delivered
      arrived := if (r.receiver.acceptDataNotif (wire x.1) (wire x.2)).1 then
        (wire x.1, wire x.2) :: r.arrived else r.arrived
      accepted := if (r.receiver.acceptDataNotif (wire x.1) (wire x.2)).1 then
        (wire x.1, wire x.2) :: r.accepted else r.accepted } := by
  obtain ⟨hslot, hseq⟩ := h.wire_eq_of_noted hsends (h.noted_of_written hx)
  rw [hslot, hseq]
  rcases h.acceptDataNotif_cases hx with ⟨hacc, heq⟩ | ⟨hacc, receiver, heq, hreceiver⟩
  · rw [heq]
    exact ⟨h.sender, h.receiver, h.noted_perm, h.noted_nodup, h.accepted_perm, h.accepted_nodup,
      h.accepted_written, List.forall_mem_cons.mpr ⟨hacc, h.delivered⟩, h.freed_credited⟩
  · rw [heq]
    exact ⟨h.sender, hreceiver, h.noted_perm, h.noted_nodup, h.accepted_perm.cons x,
      List.nodup_cons.mpr ⟨hacc, h.accepted_nodup⟩,
      List.forall_mem_cons.mpr ⟨hx, h.accepted_written⟩, List.forall_mem_cons.mpr
        ⟨List.mem_cons_self, fun y hy => List.mem_cons_of_mem _ (h.delivered y hy)⟩,
      h.freed_credited⟩

theorem consume (h : Inv r) {x : Use} (hx : x ∈ r.arrived) :
    Inv { r with arrived := r.arrived.erase x, consumed := x :: r.consumed } :=
  ⟨h.sender, h.receiver.congr (fun _ => (perm_move hx).mem_iff) fun _ => .rfl, h.noted_perm,
    h.noted_nodup, h.accepted_perm.trans ((perm_move hx).symm.append_right _), h.accepted_nodup,
    h.accepted_written, h.delivered, h.freed_credited⟩

theorem complete (h : Inv r) {x : Use} (hx : x ∈ r.consumed) :
    Inv { r with
      receiver := r.receiver.markRecvCompleted x.1 x.2
      consumed := r.consumed.erase x
      marked := x :: r.marked } := by
  have hpending : x ∈ r.arrived ++ r.consumed := List.mem_append_right _ hx
  have hnoted := h.noted_of_accepted (h.accepted_perm.mem_iff.mpr (List.mem_append_left _ hpending))
  obtain ⟨hring, hge, -⟩ := h.sender.noted_range x hnoted
  have hnodup := List.nodup_append.mp (h.accepted_perm.nodup_iff.mp h.accepted_nodup)
  have hmark := h.receiver.mark hpending hring hge hnodup.1 fun y hy hyx =>
    h.older_of_done hnoted (h.not_credited_of_pending hpending) hy hyx
  have herase : ((r.arrived ++ r.consumed).erase x).Perm (r.arrived ++ r.consumed.erase x) := by
    refine List.Perm.cons_inv (a := x) ?_
    refine (List.perm_cons_erase hpending).symm.trans ?_
    exact ((List.perm_cons_erase hx).append_left _).trans List.perm_middle
  refine ⟨h.sender, hmark.congr (fun _ => herase.symm.mem_iff) fun _ => .rfl, h.noted_perm,
    h.noted_nodup, h.accepted_perm.trans ?_, h.accepted_nodup, h.accepted_written, h.delivered,
    h.freed_credited⟩
  refine ((List.perm_cons_erase hpending).append_right _).trans ?_
  exact (@List.perm_middle _ _ ((r.arrived ++ r.consumed).erase x) _).symm.trans
    (herase.append_right _)

theorem sendCredit (h : Inv r) {x : Use} (hx : x ∈ r.marked) :
    Inv { r with marked := r.marked.erase x, credited := x :: r.credited } :=
  ⟨h.sender, h.receiver.congr (fun _ => .rfl) fun _ => (perm_move hx).mem_iff, h.noted_perm,
    h.noted_nodup, h.accepted_perm.trans ((perm_move hx).symm.append_left _), h.accepted_nodup,
    h.accepted_written, h.delivered, fun y hy => List.mem_cons_of_mem _ (h.freed_credited y hy)⟩

theorem deliverCredit (h : Inv r) (hsends : r.sends < 2 ^ 31) {x : Use} (hx : x ∈ r.credited) :
    Inv { r with
      sender := (r.sender.onRecvCredit (wire x.1) (wire x.2)).2
      freed := if (r.sender.onRecvCredit (wire x.1) (wire x.2)).1 then x :: r.freed
        else r.freed } := by
  have hnoted := h.noted_of_accepted (h.accepted_of_credited hx)
  obtain ⟨hslot, hseq⟩ := h.wire_eq_of_noted hsends hnoted
  rw [hslot, hseq, SenderInv.onRecvCredit_eq (h.sender.noted_range x hnoted).1]
  by_cases hexpected : (r.sender.slotState x.1).expectedCreditSeq = x.2
  · rw [if_pos hexpected]
    exact ⟨h.sender.free hnoted hexpected, h.receiver, h.noted_perm, h.noted_nodup,
      h.accepted_perm, h.accepted_nodup, h.accepted_written, h.delivered,
      List.forall_mem_cons.mpr ⟨hx, h.freed_credited⟩⟩
  · rw [if_neg hexpected]
    exact h

theorem step (h : Inv r) {r' : Run} (hstep : Step r r') (hsends : r'.sends < 2 ^ 31) : Inv r' := by
  cases hstep with
  | acquire hget =>
    exact ⟨h.sender.acquire hget, h.receiver, h.noted_perm, h.noted_nodup, h.accepted_perm,
      h.accepted_nodup, h.accepted_written, h.delivered, h.freed_credited⟩
  | number hslot =>
    exact ⟨h.sender.number hsends hslot, h.receiver, h.noted_perm, h.noted_nodup, h.accepted_perm,
      h.accepted_nodup, h.accepted_written, h.delivered, h.freed_credited⟩
  | note hx hnote => exact h.note hx hnote
  | write hx => exact h.write hx
  | deliverData hx => exact h.deliverData hsends hx
  | consume hx => exact h.consume hx
  | complete hx => exact h.complete hx
  | sendCredit hx => exact h.sendCredit hx
  | deliverCredit hx => exact h.deliverCredit hsends hx

theorem of_run {r : Run} (hrun : Relation.ReflTransGen Step .init r) (hsends : r.sends < 2 ^ 31) :
    Inv r := by
  induction hrun with
  | refl => exact init
  | tail _ hstep ih => exact (ih (Nat.lt_of_le_of_lt hstep.sends_le hsends)).step hstep hsends

end Inv

/-! ### Safety -/

/-- **What the credit protocol promises.** -/
structure Safe (r : Run) : Prop where
  /-- Free, acquired and outstanding slots are the slots of the ring, without repetition. -/
  partition : (r.sender.availableRecvSlots ++ (r.acquired ++ r.numbered.map (·.1)) ++
    r.sender.outstanding).Perm ring
  /-- The assertion of `note_send_posted` holds for every send that is about to call it. -/
  note : ∀ x ∈ r.numbered, ∃ sender, r.sender.noteSendPosted x.1 x.2 = .ok sender
  /-- When a slot is about to be written, the credits of all its earlier writes were sent. -/
  write : ∀ x ∈ r.posts, ∀ y ∈ r.written, y.1 = x.1 → y ∈ r.credited
  /-- No two writes of a slot are under way together. -/
  posts : (r.posts.map (·.1)).Nodup
  accept : ∀ x, r.accepted.count x ≤ 1
  delivered : ∀ x ∈ r.delivered, r.accepted.count x = 1
  /-- A slot is freed at most once for every use. -/
  free : ∀ x, r.freed.count x ≤ 1
  /-- A credit that was accepted before, or that is older than a later use of its slot, changes
  nothing. -/
  stale : ∀ x ∈ r.credited, (x ∈ r.freed ∨ ∃ y ∈ r.noted, y.1 = x.1 ∧ x.2 < y.2) →
    r.sender.onRecvCredit (wire x.1) (wire x.2) = (false, r.sender)

theorem count_outstanding (p : PeerState) {s : ℤ} (hs : s ∈ ring) :
    p.outstanding.count s = p.waits s := by
  by_cases hfree : (p.slotState s).expectedCreditSeq = -1
  · rw [PeerState.waits_eq_zero hfree]
    refine List.count_eq_zero.mpr fun h => ?_
    simp [PeerState.outstanding, hfree] at h
  · rw [PeerState.waits_eq_one hfree]
    refine List.count_eq_one_of_mem (nodup_ring.filter _) (List.mem_filter.mpr ⟨hs, ?_⟩)
    simpa using hfree

namespace Inv

variable {r : Run}

theorem partition (h : Inv r) :
    (r.sender.availableRecvSlots ++ (r.acquired ++ r.numbered.map (·.1)) ++
      r.sender.outstanding).Perm ring := by
  refine List.perm_iff_count.mpr fun s => ?_
  have hslots := h.sender.slots s
  rw [List.count_append, List.count_append, List.count_append]
  by_cases hs : s ∈ ring
  · rw [count_outstanding _ hs]
    omega
  · have hnone : r.sender.outstanding.count s = 0 :=
      List.count_eq_zero.mpr fun hmem => hs (List.mem_filter.mp hmem).1
    rw [List.count_eq_zero.mpr hs] at hslots ⊢
    omega

theorem not_credited_of_post (h : Inv r) {x : Use} (hx : x ∈ r.posts) : x ∉ r.credited := by
  intro hcredit
  have hnodup := h.noted_perm.nodup_iff.mp h.noted_nodup
  exact (List.nodup_append.mp hnodup).2.2 x hx x
    (h.accepted_written x (h.accepted_of_credited hcredit)) rfl

theorem noted_of_post (h : Inv r) {x : Use} (hx : x ∈ r.posts) : x ∈ r.noted :=
  h.noted_perm.mem_iff.mpr (List.mem_append_left _ hx)

theorem credited_of_rewrite (h : Inv r) {x : Use} (hx : x ∈ r.posts) {y : Use}
    (hy : y ∈ r.written) (hyx : y.1 = x.1) : y ∈ r.credited := by
  -- two uses of a slot without credits would both be the latest
  by_contra hcredit
  have hnodup := h.noted_perm.nodup_iff.mp h.noted_nodup
  have hlatest := (h.latest (h.noted_of_post hx) (h.not_credited_of_post hx)).1
  have hlatest' := (h.latest (h.noted_of_written hy) hcredit).1
  rw [hyx, hlatest] at hlatest'
  exact (List.nodup_append.mp hnodup).2.2 x hx y hy (Prod.ext hyx.symm hlatest')

theorem posts_nodup (h : Inv r) : (r.posts.map (·.1)).Nodup := by
  have hnodup := (List.nodup_append.mp (h.noted_perm.nodup_iff.mp h.noted_nodup)).1
  refine List.Nodup.map_on (fun x hx y hy hxy => ?_) hnodup
  have hlatest := (h.latest (h.noted_of_post hx) (h.not_credited_of_post hx)).1
  have hlatest' := (h.latest (h.noted_of_post hy) (h.not_credited_of_post hy)).1
  rw [← hxy, hlatest] at hlatest'
  exact Prod.ext hxy hlatest'

theorem stale (h : Inv r) (hsends : r.sends < 2 ^ 31) {x : Use} (hx : x ∈ r.credited)
    (hstale : x ∈ r.freed ∨ ∃ y ∈ r.noted, y.1 = x.1 ∧ x.2 < y.2) :
    r.sender.onRecvCredit (wire x.1) (wire x.2) = (false, r.sender) := by
  have hnoted := h.noted_of_accepted (h.accepted_of_credited hx)
  obtain ⟨hring, hge, -⟩ := h.sender.noted_range x hnoted
  obtain ⟨hslot, hseq⟩ := h.wire_eq_of_noted hsends hnoted
  rw [hslot, hseq, SenderInv.onRecvCredit_eq hring, if_neg]
  rcases hstale with hfreed | ⟨y, hy, hyx, hlt⟩
  · exact (h.sender.freed_noted x hfreed).2
  · intro hexpected
    have hle := h.sender.current x.1 (by omega) y hy hyx
    omega

end Inv

/-- **The credit protocol is safe** in every run with fewer than `2 ^ 31` sends. -/
theorem safe_of_run {r : Run} (hrun : Relation.ReflTransGen Step .init r)
    (hsends : r.sends < 2 ^ 31) : Safe r := by
  have h := Inv.of_run hrun hsends
  constructor
  · exact h.partition
  · intro x hx
    exact ⟨_, h.sender.noteSendPosted_eq hx⟩
  · intro x hx y hy hyx
    exact h.credited_of_rewrite hx hy hyx
  · exact h.posts_nodup
  · exact List.nodup_iff_count_le_one.mp h.accepted_nodup
  · intro x hx
    exact List.count_eq_one_of_mem h.accepted_nodup (h.delivered x hx)
  · exact List.nodup_iff_count_le_one.mp h.sender.freed_nodup
  · intro x hx hstale
    exact h.stale hsends hx hstale

theorem safe_after_duplicates : ∃ r : Run, Relation.ReflTransGen Step .init r ∧
    r.delivered = [(0, 0), (0, 0)] ∧ r.freed = [(0, 0)] ∧ Safe r := by
  have hrun : Relation.ReflTransGen Step .init _ :=
    ((((((((((Relation.ReflTransGen.refl.tail (.acquire rfl)).tail
      (.number List.mem_cons_self)).tail (.note List.mem_cons_self rfl)).tail
      (.write List.mem_cons_self)).tail (.deliverData List.mem_cons_self)).tail
      (.deliverData List.mem_cons_self)).tail (.consume List.mem_cons_self)).tail
      (.complete List.mem_cons_self)).tail (.sendCredit List.mem_cons_self)).tail
      (.deliverCredit List.mem_cons_self)).tail (.deliverCredit List.mem_cons_self)
  exact ⟨_, hrun, rfl, rfl, safe_of_run hrun (by decide)⟩

end Nixl

end StreamEP

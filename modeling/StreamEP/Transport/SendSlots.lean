import StreamEP.Batch.Metadata
import Mathlib.Logic.Function.Basic

/-!
# Send slots

The sending side of `NixlContext` has one buffer, `send_buf_`, cut into `NIXL_SEND_RING_SIZE` slots
of `NIXL_MAX_BATCH_BYTES`. A send acquires the next slot that is not busy, and waits while all of
them are; draining the transfer releases it.
-/

namespace StreamEP

namespace Nixl

/-- `NIXL_SEND_RING_SIZE` -/
def sendRingSize : ℕ := 32

/-- `NIXL_MAX_BATCH_BYTES` -/
def maxBatchBytes : ℕ := 4 * 1024 * 1024

structure SendRing where
  sendSlotBusy : ℕ → Bool
  nextSendSlot : ℕ

namespace SendRing

def init : SendRing := ⟨fun _ => false, 0⟩

/-- `acquire_send_slot`: waits while every slot is busy. -/
def acquireSendSlot (r : SendRing) : Option (ℕ × SendRing) :=
  match ((List.range sendRingSize).map fun offset =>
      (r.nextSendSlot + offset) % sendRingSize).find? fun slot => !r.sendSlotBusy slot with
  | none => none
  | some slot =>
    some (slot, ⟨Function.update r.sendSlotBusy slot true, (slot + 1) % sendRingSize⟩)

def releaseSendSlot (r : SendRing) (slotId : ℕ) : SendRing :=
  { r with sendSlotBusy := Function.update r.sendSlotBusy slotId false }

variable {r r' : SendRing} {slot : ℕ}

theorem acquireSendSlot_eq_some (h : r.acquireSendSlot = some (slot, r')) :
    slot < sendRingSize ∧ r.sendSlotBusy slot = false ∧
      r' = ⟨Function.update r.sendSlotBusy slot true, (slot + 1) % sendRingSize⟩ := by
  rw [acquireSendSlot] at h
  split at h
  · cases h
  · next found hfound =>
    obtain ⟨rfl, rfl⟩ := Prod.mk.inj (Option.some.inj h)
    obtain ⟨offset, -, hslot⟩ := List.mem_map.mp (List.mem_of_find?_eq_some hfound)
    refine ⟨hslot ▸ Nat.mod_lt _ (by decide), ?_, rfl⟩
    simpa using List.find?_some hfound

theorem acquireSendSlot_of_free (hnext : r.nextSendSlot = slot) (hlt : slot < sendRingSize)
    (hfree : r.sendSlotBusy slot = false) :
    r.acquireSendSlot = some (slot,
      ⟨Function.update r.sendSlotBusy slot true, (slot + 1) % sendRingSize⟩) := by
  have hrange : List.range sendRingSize = 0 :: (List.range 31).map Nat.succ :=
    List.range_succ_eq_map
  have hfind : ((List.range sendRingSize).map fun offset =>
      (r.nextSendSlot + offset) % sendRingSize).find? (fun slot => !r.sendSlotBusy slot) =
      some slot := by
    rw [hrange, List.map_cons, Nat.add_zero, hnext, Nat.mod_eq_of_lt hlt,
      List.find?_cons_of_pos (by simp [hfree])]
  rw [acquireSendSlot, hfind]

/-! ### Who holds the slots -/

/-- The busy slots are the ones held, and each is held once. -/
structure Holds (r : SendRing) (held : List ℕ) : Prop where
  nodup : held.Nodup
  lt : ∀ slot ∈ held, slot < sendRingSize
  busy : ∀ slot, r.sendSlotBusy slot = true ↔ slot ∈ held

variable {held : List ℕ}

theorem Holds.init : Holds .init [] := ⟨List.nodup_nil, by simp, by simp [SendRing.init]⟩

theorem Holds.perm {held' : List ℕ} (h : Holds r held) (hperm : held.Perm held') :
    Holds r held' :=
  ⟨hperm.nodup_iff.mp h.nodup, fun slot hslot => h.lt slot (hperm.mem_iff.mpr hslot),
    fun slot => (h.busy slot).trans hperm.mem_iff⟩

theorem Holds.notMem (h : Holds r held) (hget : r.acquireSendSlot = some (slot, r')) :
    slot ∉ held := by
  intro hmem
  have hfree := (acquireSendSlot_eq_some hget).2.1
  rw [(h.busy slot).mpr hmem] at hfree
  cases hfree

theorem Holds.acquire (h : Holds r held) (hget : r.acquireSendSlot = some (slot, r')) :
    Holds r' (slot :: held) := by
  have hnew := h.notMem hget
  obtain ⟨hlt, -, rfl⟩ := acquireSendSlot_eq_some hget
  refine ⟨List.nodup_cons.mpr ⟨hnew, h.nodup⟩, List.forall_mem_cons.mpr ⟨hlt, h.lt⟩, fun s => ?_⟩
  by_cases hs : s = slot
  · subst hs
    simp
  · rw [List.mem_cons, or_iff_right hs, ← h.busy s]
    simp [hs]

theorem Holds.release (h : Holds r (slot :: held)) : Holds (r.releaseSendSlot slot) held := by
  obtain ⟨hnew, hnodup⟩ := List.nodup_cons.mp h.nodup
  refine ⟨hnodup, fun s hs => h.lt s (List.mem_cons_of_mem _ hs), fun s => ?_⟩
  by_cases hs : s = slot
  · subst hs
    simp [releaseSendSlot, hnew]
  · have hbusy := h.busy s
    rw [List.mem_cons, or_iff_right hs] at hbusy
    rw [← hbusy]
    simp [releaseSendSlot, hs]

end SendRing

end Nixl

end StreamEP

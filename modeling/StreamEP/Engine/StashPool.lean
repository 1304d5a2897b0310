import StreamEP.Lib.Checked
import StreamEP.Lib.TableSum
import Mathlib.Data.List.Perm.Basic
import Mathlib.Data.List.Nodup

/-!
# The rows of the residual stash

An attention engine keeps the residual of every running request in a row of a shared tensor.
`_stash_slot_of` of `disagmoe/frontend/engine.py` gives a request a free row when it first sees
the request, and `release_seqs` takes the rows of finished requests back. A released row goes to
the end of the deque of free rows.

## One statement about rows

That no row has two requests and that none is lost is stated once, as `Partitioned`: the free rows
and the assigned ones together are a permutation of all rows. The order in which rows are used
again is that of the source, but no result depends on it.
-/

namespace StreamEP

/-- `stash_free_slots` and `stash_slot_map`. -/
structure StashPool where
  stashFreeSlots : List ℕ
  stashSlotMap : AList fun _ : ℕ => ℕ

namespace StashPool

/-- The pool of `max_running_reqs` rows. -/
def create (maxRunningReqs : ℕ) : StashPool := ⟨List.range maxRunningReqs, ∅⟩

def stashSlotOf (p : StashPool) (reqId : ℕ) : Except String (ℕ × StashPool) :=
  match p.stashSlotMap.lookup reqId with
  | some slot => .ok (slot, p)
  | none =>
    match p.stashFreeSlots with
    | [] => .error "IndexError: pop from an empty deque"
    | slot :: rest => .ok (slot, ⟨rest, p.stashSlotMap.insert reqId slot⟩)

/-- `[self._stash_slot_of(rid) for rid in req_ids]` -/
def stashSlotsOf (p : StashPool) : List ℕ → Except String (List ℕ × StashPool)
  | [] => .ok ([], p)
  | reqId :: reqIds => do
    let (slot, p) ← p.stashSlotOf reqId
    let (slots, p) ← p.stashSlotsOf reqIds
    return (slot :: slots, p)

/-- The body of the loop of `release_seqs`. -/
def releaseSeq (p : StashPool) (reqId : ℕ) : StashPool :=
  match p.stashSlotMap.lookup reqId with
  | some slot => ⟨p.stashFreeSlots ++ [slot], p.stashSlotMap.erase reqId⟩
  | none => p

/-- `release_seqs`, as far as the stash is concerned. -/
def releaseSeqs (p : StashPool) (seqIds : List ℕ) : StashPool := seqIds.foldl releaseSeq p

def assigned (p : StashPool) : List ℕ := p.stashSlotMap.entries.map (·.2)

/-- Free and assigned rows are the rows below `n`, each once. -/
def Partitioned (n : ℕ) (p : StashPool) : Prop :=
  (p.stashFreeSlots ++ p.assigned).Perm (List.range n)

theorem partitioned_create (n : ℕ) : Partitioned n (create n) := by
  simp [Partitioned, create, assigned]

theorem assigned_insert {p : StashPool} {reqId slot : ℕ} {rest : List ℕ}
    (hnone : p.stashSlotMap.lookup reqId = none) :
    assigned ⟨rest, p.stashSlotMap.insert reqId slot⟩ = slot :: p.assigned := by
  have herase := erase_of_lookup_eq_none hnone
  show slot :: (p.stashSlotMap.erase reqId).entries.map (·.2) = slot :: p.assigned
  rw [herase]
  rfl

theorem assigned_erase {p : StashPool} {reqId slot : ℕ} {rest : List ℕ}
    (hslot : p.stashSlotMap.lookup reqId = some slot) :
    p.assigned.Perm (slot :: assigned ⟨rest, p.stashSlotMap.erase reqId⟩) :=
  (perm_cons_erase hslot).map fun e : (_ : ℕ) × ℕ => e.2

namespace Partitioned

variable {n : ℕ} {p p' : StashPool}

theorem nodup_assigned (h : Partitioned n p) : p.assigned.Nodup :=
  (List.nodup_append.1 (h.nodup_iff.2 List.nodup_range)).2.1

theorem mem_of_lookup {reqId slot : ℕ} (hslot : p.stashSlotMap.lookup reqId = some slot) :
    slot ∈ p.assigned :=
  List.mem_map.2 ⟨⟨reqId, slot⟩, AList.mem_lookup_iff.1 hslot, rfl⟩

theorem lt_of_lookup (h : Partitioned n p) {reqId slot : ℕ}
    (hslot : p.stashSlotMap.lookup reqId = some slot) : slot < n :=
  List.mem_range.1 (h.mem_iff.1 (List.mem_append_right _ (mem_of_lookup hslot)))

theorem injective (h : Partitioned n p) {r r' slot : ℕ} (hr : p.stashSlotMap.lookup r = some slot)
    (hr' : p.stashSlotMap.lookup r' = some slot) : r = r' := by
  have heq := List.inj_on_of_nodup_map h.nodup_assigned (AList.mem_lookup_iff.1 hr)
    (AList.mem_lookup_iff.1 hr') rfl
  exact congrArg Sigma.fst heq

theorem stashSlotOf (h : Partitioned n p) {reqId slot : ℕ}
    (hok : p.stashSlotOf reqId = .ok (slot, p')) :
    Partitioned n p' ∧ p'.stashSlotMap.lookup reqId = some slot ∧
      (∀ r ≠ reqId, p'.stashSlotMap.lookup r = p.stashSlotMap.lookup r) ∧
      ∀ i, p.stashSlotMap.lookup reqId = some i → i = slot := by
  unfold StashPool.stashSlotOf at hok
  cases hlookup : p.stashSlotMap.lookup reqId with
  | some i =>
    rw [hlookup] at hok
    obtain ⟨rfl, rfl⟩ := Prod.mk.inj (Except.ok.inj hok)
    exact ⟨h, hlookup, fun _ _ => rfl, fun j hj => (Option.some.inj hj).symm⟩
  | none =>
    rw [hlookup] at hok
    cases hfree : p.stashFreeSlots with
    | nil => simp only [hfree] at hok; cases hok
    | cons i rest =>
      simp only [hfree] at hok
      obtain ⟨rfl, rfl⟩ := Prod.mk.inj (Except.ok.inj hok)
      refine ⟨?_, AList.lookup_insert _, fun r hr => AList.lookup_insert_ne hr, fun j hj => by
        cases hj⟩
      unfold Partitioned at h ⊢
      rw [assigned_insert hlookup]
      rw [hfree] at h
      exact List.perm_middle.trans h

/-- **What a batch gets.** Requests that have a row keep it, and only requests of the batch get
one. -/
theorem stashSlotsOf (h : Partitioned n p) {reqIds slots : List ℕ}
    (hok : p.stashSlotsOf reqIds = .ok (slots, p')) :
    Partitioned n p' ∧ List.Forall₂ (fun r i => p'.stashSlotMap.lookup r = some i) reqIds slots ∧
      (∀ r i, p.stashSlotMap.lookup r = some i → p'.stashSlotMap.lookup r = some i) ∧
      ∀ r ∉ reqIds, p'.stashSlotMap.lookup r = p.stashSlotMap.lookup r := by
  induction reqIds generalizing p slots with
  | nil =>
    obtain ⟨rfl, rfl⟩ := Prod.mk.inj (Except.ok.inj hok)
    exact ⟨h, .nil, fun _ _ hr => hr, fun _ _ => rfl⟩
  | cons reqId reqIds ih =>
    rw [StashPool.stashSlotsOf, bind_eq_ok] at hok
    obtain ⟨⟨slot, p₁⟩, hone, hok⟩ := hok
    rw [bind_eq_ok] at hok
    obtain ⟨⟨slots', p₂⟩, hrest, hok⟩ := hok
    obtain ⟨rfl, rfl⟩ := Prod.mk.inj (Except.ok.inj hok)
    obtain ⟨hpart, hslot, hothers, hsame⟩ := h.stashSlotOf hone
    obtain ⟨hpart', hall, hkeep, hnew⟩ := ih hpart hrest
    refine ⟨hpart', .cons (hkeep _ _ hslot) hall, fun r i hr => hkeep r i ?_, fun r hr => ?_⟩
    · by_cases heq : r = reqId
      · subst heq
        rw [hslot, hsame i hr]
      · rw [hothers r heq, hr]
    · simp only [List.mem_cons, not_or] at hr
      rw [hnew r hr.2, hothers r hr.1]

theorem releaseSeq (h : Partitioned n p) (reqId : ℕ) : Partitioned n (p.releaseSeq reqId) := by
  unfold StashPool.releaseSeq
  cases hlookup : p.stashSlotMap.lookup reqId with
  | none => exact h
  | some slot =>
    refine List.Perm.trans ?_ h
    show ((p.stashFreeSlots ++ [slot]) ++ _).Perm (p.stashFreeSlots ++ p.assigned)
    rw [List.append_assoc]
    exact (assigned_erase hlookup).symm.append_left _

end Partitioned

theorem lookup_releaseSeq (p : StashPool) (reqId r : ℕ) :
    (p.releaseSeq reqId).stashSlotMap.lookup r =
      if r = reqId then none else p.stashSlotMap.lookup r := by
  by_cases hr : r = reqId
  · subst hr
    rw [if_pos rfl, releaseSeq]
    cases hlookup : p.stashSlotMap.lookup r with
    | none => exact hlookup
    | some slot => exact AList.lookup_erase _ _
  · rw [if_neg hr, releaseSeq]
    cases p.stashSlotMap.lookup reqId with
    | none => rfl
    | some slot => exact AList.lookup_erase_ne hr

theorem Partitioned.releaseSeqs {n : ℕ} {p : StashPool} (h : Partitioned n p) (seqIds : List ℕ) :
    Partitioned n (p.releaseSeqs seqIds) ∧
      ∀ r, (p.releaseSeqs seqIds).stashSlotMap.lookup r =
        if r ∈ seqIds then none else p.stashSlotMap.lookup r := by
  induction seqIds generalizing p with
  | nil => exact ⟨h, fun r => by simp [StashPool.releaseSeqs]⟩
  | cons reqId seqIds ih =>
    obtain ⟨hpart, hlookup⟩ := ih (h.releaseSeq reqId)
    refine ⟨hpart, fun r => (hlookup r).trans ?_⟩
    rw [lookup_releaseSeq]
    by_cases hr : r ∈ seqIds <;> by_cases heq : r = reqId <;> simp [hr, heq]

/-- What an engine does to its pool, one request at a time. -/
inductive Step : StashPool → StashPool → Prop
  /-- A request of a batch gets its row. -/
  | assign {p p' : StashPool} {reqId slot : ℕ} (h : p.stashSlotOf reqId = .ok (slot, p')) :
      Step p p'
  | release (p : StashPool) (reqId : ℕ) : Step p (p.releaseSeq reqId)

theorem Partitioned.of_steps {n : ℕ} {p : StashPool}
    (hrun : Relation.ReflTransGen Step (create n) p) : Partitioned n p := by
  induction hrun with
  | refl => exact partitioned_create n
  | tail _ hstep ih =>
    cases hstep with
    | assign h => exact (ih.stashSlotOf h).1
    | release reqId => exact ih.releaseSeq reqId

end StashPool

end StreamEP

import StreamEP.Engine.Staging

/-!
# When a ring is lapped

The rings of the engine have no fence. Their documentation relies on the CPU not being ahead of
the GPU by as many slots as a ring has. `State.ahead` is that lead: the slots handed out whose
readers the CPU has not waited for. As long as it is smaller than the ring, a slot is handed out
again only when its last reader has retired.

Nothing in the overlapped loop bounds the lead. An iteration that samples hands out a slot and
records no event, and an iteration without an executed batch before it waits for none. A sequence
of sampling iterations laps a ring of any size.

## Main results

* `Overlap.quiet_of_ahead_lt` — a slot is free when the lead is smaller than the ring
* `Overlap.exists_lapped` — sampling laps every ring
-/

namespace StreamEP

namespace Overlap

namespace State

/-- The slots a ring has handed out, with the place of the stream at that time. -/
def takes (s : State) (ring : Ring) : List (ℕ × ℕ) :=
  s.stream.writes.filterMap fun x =>
    match x.1 with
    | .slot ring' i => if ring' = ring then some (i, x.2) else none
    | .batchTensorBuffer _ => none

/-- How many of them the CPU has not waited for. -/
def ahead (s : State) (ring : Ring) : ℕ :=
  (s.takes ring).countP fun x => ¬ s.stream.Passed x.2

theorem mem_takes {s : State} {ring : Ring} {i p : ℕ} (h : (.slot ring i, p) ∈ s.stream.writes) :
    (i, p) ∈ s.takes ring :=
  List.mem_filterMap.2 ⟨_, h, by simp⟩

end State

structure RingInv (n : ℕ) (ring : GdrRingBuffer) (takes : List (ℕ × ℕ)) : Prop where
  size : ring.n = n
  /-- The index follows the number of slots handed out. -/
  idx : (ring.idx + 1) % n = takes.length % n
  slots : ∀ m x, takes[m]? = some x → x.1 = m % n
  sorted : takes.Pairwise (·.2 ≤ ·.2)

namespace RingInv

variable {n : ℕ} {ring : GdrRingBuffer} {takes : List (ℕ × ℕ)}

theorem getOneHandle_fst (h : RingInv n ring takes) : ring.getOneHandle.1 = takes.length % n := by
  show ((ring.idx + 1) % ring.n).toNat = _
  rw [h.size, h.idx]
  rfl

theorem take (h : RingInv n ring takes) {p : ℕ} (hp : ∀ x ∈ takes, x.2 ≤ p) :
    RingInv n ring.getOneHandle.2 (takes ++ [(ring.getOneHandle.1, p)]) := by
  refine ⟨h.size, ?_, fun m x hx => ?_, ?_⟩
  · show ((ring.idx + 1) % ring.n + 1) % n = _
    rw [h.size, h.idx, Int.emod_add_emod, List.length_append, List.length_singleton]
    rfl
  · rcases Nat.lt_or_ge m takes.length with hlt | hge
    · rw [List.getElem?_append_left hlt] at hx
      exact h.slots m x hx
    · obtain ⟨hm, -⟩ := List.getElem?_eq_some_iff.1 hx
      rw [List.length_append, List.length_singleton] at hm
      obtain rfl : m = takes.length := by omega
      rw [List.getElem?_append_right (Nat.le_refl _), Nat.sub_self] at hx
      obtain rfl := Option.some.inj hx
      exact h.getOneHandle_fst
  · refine List.pairwise_append.2 ⟨h.sorted, List.pairwise_singleton _ _, ?_⟩
    intro x hx y hy
    rw [List.mem_singleton.1 hy]
    exact hp x hx

/-- **A lead smaller than the ring.** The last user of the slot is `n` slots back; were it not
passed, neither would be the `n` slots since. -/
theorem passed_of_countP_lt (h : RingInv n ring takes) {stream : AsyncStream Cell}
    (hlt : takes.countP (fun x => ¬ stream.Passed x.2) < n) {p : ℕ}
    (hmem : (takes.length % n, p) ∈ takes) : stream.Passed p := by
  by_contra hnot
  obtain ⟨m, hm⟩ := List.mem_iff_getElem?.1 hmem
  obtain ⟨hlen, hget⟩ := List.getElem?_eq_some_iff.1 hm
  have hslot : takes.length % n = m % n := h.slots m _ hm
  have hback : n ≤ takes.length - m := by
    have hdvd : n ∣ takes.length - m :=
      Nat.dvd_of_mod_eq_zero (Nat.sub_mod_eq_zero_of_mod_eq hslot)
    exact Nat.le_of_dvd (by omega) hdvd
  have hdrop : ∀ x ∈ takes.drop m, ¬ stream.Passed x.2 := by
    intro x hx hpass
    refine hnot (hpass.mono ?_)
    obtain ⟨k, hk⟩ := List.mem_iff_getElem?.1 hx
    rw [List.getElem?_drop] at hk
    obtain ⟨hlen', hget'⟩ := List.getElem?_eq_some_iff.1 hk
    rcases Nat.eq_zero_or_pos k with rfl | hpos
    · obtain rfl : (takes.length % n, p) = x := Option.some.inj (hm.symm.trans hk)
      exact Nat.le_refl _
    · have hle := List.pairwise_iff_getElem.1 h.sorted m (m + k) hlen hlen' (by omega)
      rwa [hget, hget'] at hle
  have hall : (takes.drop m).countP (fun x => ¬ stream.Passed x.2) = (takes.drop m).length :=
    List.countP_eq_length.2 (by simpa using hdrop)
  have hsub := (List.drop_sublist m takes).countP_le (p := fun x => ¬ stream.Passed x.2)
  rw [hall, List.length_drop] at hsub
  omega

end RingInv

/-! ### Runs -/

def RingsInv (n : ℕ) (s : State) : Prop := ∀ ring, RingInv n (s.rings ring) (s.takes ring)

theorem ringsInv_init (n : ℕ) : RingsInv n (State.init n) := by
  intro ring
  exact ⟨rfl, by simp [State.init, GdrRingBuffer.create, State.takes, AsyncStream.init],
    by simp [State.takes, State.init, AsyncStream.init],
    by simp [State.takes, State.init, AsyncStream.init]⟩

theorem rings_copyToSlot (s : State) (ring : Ring) :
    (s.copyToSlot ring).rings = Function.update s.rings ring (s.rings ring).getOneHandle.2 := rfl

theorem takes_copyToSlot (s : State) (ring ring' : Ring) :
    (s.copyToSlot ring).takes ring' = s.takes ring' ++
      if ring = ring' then [(s.nextSlot ring, s.stream.ops.length)] else [] := by
  by_cases h : ring = ring'
  · simp [State.takes, State.copyToSlot, List.filterMap_append, h]
  · simp [State.takes, State.copyToSlot, List.filterMap_append, h]

theorem takes_packFlashAttnMetadata (s : State) (ring : Ring) :
    s.packFlashAttnMetadata.takes ring = s.takes ring := by
  simp [State.takes, State.packFlashAttnMetadata, List.filterMap_append]

theorem RingsInv.copyToSlot {n : ℕ} {s : State} (h : RingsInv n s) (hs : s.stream.Disciplined)
    (ring : Ring) : RingsInv n (s.copyToSlot ring) := by
  intro ring'
  rw [takes_copyToSlot]
  by_cases heq : ring = ring'
  · subst heq
    rw [if_pos rfl, rings_copyToSlot, Function.update_self]
    refine (h ring).take fun x hx => ?_
    obtain ⟨y, hy, hyx⟩ := List.mem_filterMap.1 hx
    have hle := hs.writes_le y hy
    split at hyx
    · split at hyx
      · obtain rfl := Option.some.inj hyx
        exact hle
      · cases hyx
    · cases hyx
  · rw [if_neg heq, List.append_nil, rings_copyToSlot, Function.update_of_ne (Ne.symm heq)]
    exact h ring'

theorem RingsInv.step {n : ℕ} {s s' : State} (h : RingsInv n s) (hs : s.stream.Disciplined)
    (hstep : Step s s') : RingsInv n s' := by
  cases hstep with
  | pack hpc =>
    intro ring
    have hring := h ring
    rw [← takes_packFlashAttnMetadata] at hring
    exact hring
  | stashSlots hpc hpos => exact h.copyToSlot hs .stashSlots
  | sample hpc hpos => exact h.copyToSlot hs .stashSlots
  | continueIds hpc hpos => exact h.copyToSlot hs .sampleContinueIds
  | postProc hpc =>
    rename_i batch event
    intro ring
    have hring := h ring
    unfold State.postProcFunc
    cases batch.isAttn <;> exact hring
  | _ => exact h

theorem RingsInv.of_run {n : ℕ} {s : State} (hrun : Run n s) : RingsInv n s := by
  induction hrun with
  | refl => exact ringsInv_init n
  | tail hrun hstep ih => exact ih.step (Inv.of_run hrun).stream hstep

/-- **A slot is free when the lead is smaller than the ring**, in every run. -/
theorem quiet_of_ahead_lt {n : ℕ} {s : State} (hrun : Run n s) {ring : Ring}
    (hahead : s.ahead ring < n) : s.stream.Quiet (.slot ring (s.nextSlot ring)) := by
  have hrings := RingsInv.of_run hrun ring
  refine (Inv.of_run hrun).stream.quiet fun p hp => ?_
  refine hrings.passed_of_countP_lt hahead ?_
  rw [← hrings.getOneHandle_fst]
  exact State.mem_takes hp

/-- A ring of two slots: both are handed out, an expert batch is executed and waited for, and the
first slot is handed out again. -/
theorem quiet_after_expert :
    ∃ s : State, Run 2 s ∧ s.pc = .sample 1 0 ∧ (s.takes .stashSlots).length = 2 ∧
      s.nextSlot .stashSlots = 0 ∧ s.ahead .stashSlots < 2 ∧
      s.stream.Quiet (.slot .stashSlots 0) := by
  have hrun : Relation.ReflTransGen Step (State.init 2) _ := .refl
  replace hrun := hrun.tail (Step.schedule (.sampling 1 0 (by decide)) rfl)
  replace hrun := hrun.tail (Step.sample rfl (by decide))
  replace hrun := hrun.tail (Step.noContinueIds rfl)
  replace hrun := hrun.tail (Step.skip rfl rfl)
  replace hrun := hrun.tail (Step.finish rfl)
  replace hrun := hrun.tail (Step.schedule (.sampling 1 0 (by decide)) rfl)
  replace hrun := hrun.tail (Step.sample rfl (by decide))
  replace hrun := hrun.tail (Step.noContinueIds rfl)
  replace hrun := hrun.tail (Step.skip rfl rfl)
  replace hrun := hrun.tail (Step.finish rfl)
  replace hrun := hrun.tail (Step.schedule .expert rfl)
  replace hrun := hrun.tail (Step.executeExpert 0 rfl)
  replace hrun := hrun.tail (Step.skip rfl rfl)
  replace hrun := hrun.tail (Step.finish rfl)
  replace hrun := hrun.tail (Step.schedule .idle rfl)
  replace hrun := hrun.tail (Step.retire (by decide))
  replace hrun := hrun.tail (Step.retire (by decide))
  replace hrun := hrun.tail (Step.retire (by decide))
  replace hrun := hrun.tail (Step.wait rfl rfl rfl (by decide))
  replace hrun := hrun.tail (Step.postProc rfl)
  replace hrun := hrun.tail (Step.postProcessExpert rfl)
  replace hrun := hrun.tail (Step.finish rfl)
  replace hrun := hrun.tail (Step.schedule (.sampling 1 0 (by decide)) rfl)
  exact ⟨_, hrun, rfl, rfl, rfl, by decide, quiet_of_ahead_lt hrun (by decide)⟩

/-! ### Sampling laps a ring -/

theorem exists_sampling (n k : ℕ) :
    ∃ s : State, Run n s ∧ s.pc = .top ∧ s.lastBatch = none ∧ s.stream.retired = 0 ∧
      s.stream.ops.length = k ∧ (s.takes .stashSlots).length = k ∧
      (0 < k → s.stream.ops.head? = some [.slot .stashSlots 0]) := by
  induction k with
  | zero => exact ⟨State.init n, .refl, rfl, rfl, rfl, rfl, rfl, fun h => absurd h (by decide)⟩
  | succ k ih =>
    obtain ⟨s, hrun, hpc, hlast, hretired, hops, htakes, hhead⟩ := ih
    have hslot : s.nextSlot .stashSlots = k % n := by
      rw [State.nextSlot, (RingsInv.of_run hrun .stashSlots).getOneHandle_fst, htakes]
    replace hrun : Relation.ReflTransGen Step (State.init n) s := hrun
    replace hrun := hrun.tail (Step.schedule (.sampling 1 0 (by decide)) hpc)
    replace hrun := hrun.tail (Step.sample rfl (by decide))
    replace hrun := hrun.tail (Step.noContinueIds rfl)
    replace hrun := hrun.tail (Step.skip rfl hlast)
    replace hrun := hrun.tail (Step.finish rfl)
    refine ⟨_, hrun, rfl, rfl, hretired, ?_, ?_, fun _ => ?_⟩
    · show (s.stream.ops ++ [_]).length = k + 1
      rw [List.length_append, hops]
      rfl
    · show ((s.copyToSlot .stashSlots).takes .stashSlots).length = k + 1
      rw [takes_copyToSlot, if_pos rfl, List.length_append, htakes]
      rfl
    · show (s.stream.ops ++ [[Cell.slot .stashSlots (s.nextSlot .stashSlots)]]).head? = _
      rcases Nat.eq_zero_or_pos k with rfl | hpos
      · rw [List.length_eq_zero_iff.1 hops, hslot, Nat.zero_mod]
        rfl
      · rw [List.head?_append_of_ne_nil _ (List.ne_nil_of_length_pos (hops ▸ hpos)), hhead hpos]

/-- **Sampling laps every ring.** After as many sampling iterations as the ring has slots, the
next one overwrites a slot that no operation has read yet. -/
theorem exists_lapped {n : ℕ} (hn : 0 < n) :
    ∃ s : State, Run n s ∧ s.pc = .sample 1 0 ∧
      ¬ s.stream.Quiet (.slot .stashSlots (s.nextSlot .stashSlots)) := by
  obtain ⟨s, hrun, hpc, hlast, hretired, hops, htakes, hhead⟩ := exists_sampling n n
  have hslot : s.nextSlot .stashSlots = 0 := by
    rw [State.nextSlot, (RingsInv.of_run hrun .stashSlots).getOneHandle_fst, htakes, Nat.mod_self]
  replace hrun : Relation.ReflTransGen Step (State.init n) s := hrun
  replace hrun := hrun.tail (Step.schedule (.sampling 1 0 (by decide)) hpc)
  refine ⟨_, hrun, rfl, fun hquiet => ?_⟩
  have hmem : [Cell.slot .stashSlots 0] ∈ s.stream.ops.drop s.stream.retired := by
    rw [hretired, List.drop_zero]
    exact List.mem_of_mem_head? (hhead hn)
  refine hquiet _ hmem ?_
  show Cell.slot .stashSlots (s.nextSlot .stashSlots) ∈ _
  rw [hslot]
  exact List.mem_singleton.2 rfl

/-- A ring of the default size. -/
theorem lapped_default :
    ∃ s : State, Run 256 s ∧ s.pc = .sample 1 0 ∧
      ¬ s.stream.Quiet (.slot .stashSlots (s.nextSlot .stashSlots)) :=
  exists_lapped (by decide)

end Overlap

end StreamEP

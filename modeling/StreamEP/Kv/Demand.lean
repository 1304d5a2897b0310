import StreamEP.Kv.Isolation
import Mathlib.Algebra.Order.BigOperators.Group.List

/-!
# When a batch gets its blocks

A batch at the first layer takes blocks in two loops: the prompts of new requests get theirs from
`allocate`, and then every request whose length is a multiple of the block size gets one more from
`append_tokens`. `allocate` asks for at least as many free blocks as it takes. `append_tokens` asks
for more than it takes, so a batch that needs it leaves a block unused. That decides exactly when a
batch fails.

## Why the demand of a batch

The condition is about the whole batch. A loop that fails in the middle keeps the blocks it took
before, and what the first loop takes is not there for the second one, so conditions on single
requests do not add up to one on the batch.
-/

namespace StreamEP

open Attempt

variable {W : Type}

namespace BlockManager

variable {s s' : BlockManager} {m : BatchMetadata W}

/-! ### The two loops -/

/-- The blocks that the first loop takes for the request at position `i`. -/
def prefillDemand (s : BlockManager) (m : BatchMetadata W) (i : ℕ) : ℕ :=
  match m.reqIds[i]?, m.initPrefillLens[i]? with
  | some r, some p => if s.hasSeqBlockList r then 0 else blocksNeeded s.blockSize p
  | _, _ => 0

/-- The blocks that the second loop takes for the request at position `i`. -/
def appendDemand (blockSize : ℕ) (contextLens : List ℤ) (i : ℕ) : ℕ :=
  match contextLens[i]? with
  | some n => if n % blockSize = 0 then 1 else 0
  | none => 0

theorem prefillDemand_eq {i r : ℕ} {p : ℤ} (hr : m.reqIds[i]? = some r)
    (hp : m.initPrefillLens[i]? = some p) :
    s.prefillDemand m i = if s.hasSeqBlockList r then 0 else blocksNeeded s.blockSize p := by
  rw [prefillDemand, hr, hp]

theorem appendDemand_eq {bs i n : ℕ} {contextLens : List ℤ}
    (hn : contextLens[i]? = some (n : ℤ)) :
    appendDemand bs contextLens i = if n % bs = 0 then 1 else 0 := by
  have hmod : (n : ℤ) % (bs : ℤ) = 0 ↔ n % bs = 0 := by norm_cast
  simp only [appendDemand, hn, hmod]

theorem exists_allocatePrefill_iff {i r : ℕ} {p : ℤ} (hr : m.reqIds[i]? = some r)
    (hp : m.initPrefillLens[i]? = some p) (hreserved : s.reservedBlocks = 0) :
    (∃ s', (allocatePrefill m i).Returns s () s') ↔
      s.prefillDemand m i = 0 ∨ s.prefillDemand m i + 0 ≤ s.freeBlocks.length := by
  rw [prefillDemand_eq hr hp]
  simp only [returns_allocatePrefill, hr, Option.some.injEq, exists_eq_left']
  cases hhas : s.hasSeqBlockList r with
  | true => simp
  | false =>
    have hnone := hasSeqBlockList_eq_false.1 hhas
    simp only [hp, Option.some.injEq, exists_eq_left', returns_allocate, hnone, hreserved,
      Bool.false_eq_true, false_and, false_or, if_false, true_and, exists_and_left, exists_eq,
      and_true]
    omega

theorem allocatePrefill_free {i r : ℕ} {p : ℤ} {u : Unit} (hr : m.reqIds[i]? = some r)
    (hp : m.initPrefillLens[i]? = some p) (h : (allocatePrefill m i).Returns s u s') :
    s'.freeBlocks.length + s.prefillDemand m i = s.freeBlocks.length ∧
      s'.hasSeqBlockList r = true := by
  rw [prefillDemand_eq hr hp]
  obtain ⟨r', hr', h⟩ := returns_allocatePrefill.1 h
  obtain rfl := Option.some.inj (hr.symm.trans hr')
  rcases h with ⟨hhas, rfl⟩ | ⟨hhas, p', hp', h⟩
  · exact ⟨by rw [if_pos hhas, Nat.add_zero], hhas⟩
  · obtain rfl : p = p' := Option.some.inj (hp.symm.trans hp')
    obtain ⟨-, hle, rfl⟩ := returns_allocate.1 h
    rw [if_neg (by simp [hhas]), List.length_drop]
    exact ⟨by omega, hasSeqBlockList_eq_true.2 ⟨_, AList.lookup_insert _⟩⟩

theorem exists_appendToken_iff (hbs : 0 < s.blockSize) {contextLens : List ℤ} {i r : ℕ} {n : ℤ}
    (hr : m.reqIds[i]? = some r) (hn : contextLens[i]? = some n) (hnonneg : 0 ≤ n)
    (hhas : s.hasSeqBlockList r = true) :
    (∃ s', (appendToken m contextLens i).Returns s () s') ↔
      appendDemand s.blockSize contextLens i = 0 ∨
        appendDemand s.blockSize contextLens i + 1 ≤ s.freeBlocks.length := by
  obtain ⟨l, hl⟩ := hasSeqBlockList_eq_true.1 hhas
  simp only [returns_appendToken, hr, hn, hhas, Option.some.injEq, exists_eq_left', true_and,
    appendDemand, returns_appendTokens_one hbs, hl, hnonneg]
  by_cases hboundary : n % (s.blockSize : ℤ) = 0
  · simp only [hboundary, ne_eq, not_true_eq_false, false_and, true_and, false_or, if_true,
      Nat.one_ne_zero]
    constructor
    · rintro ⟨s', hlt, -⟩
      exact hlt
    · intro hlt
      obtain ⟨b, rest, hfree⟩ := List.exists_cons_of_length_pos (Nat.lt_of_succ_lt hlt)
      exact ⟨_, hlt, b, rest, hfree, rfl⟩
  · simp [hboundary]

theorem appendToken_free (hbs : 0 < s.blockSize) {contextLens : List ℤ} {i r : ℕ} {u : Unit}
    (hr : m.reqIds[i]? = some r) (h : (appendToken m contextLens i).Returns s u s') :
    s'.freeBlocks.length + appendDemand s.blockSize contextLens i = s.freeBlocks.length := by
  obtain ⟨r', hr', -, n, hn, h⟩ := returns_appendToken.1 h
  obtain rfl := Option.some.inj (hr.symm.trans hr')
  obtain ⟨l, -, -, h⟩ := (returns_appendTokens_one hbs).1 h
  rw [appendDemand, hn]
  rcases h with ⟨hmid, rfl⟩ | ⟨hboundary, -, b, rest, hfree, rfl⟩
  · simp [hmid]
  · simp [hboundary, hfree]

/-- The state in the first loop: requests before position `i` have blocks, those from `i` on have
what they had. -/
structure Prefilling (s : BlockManager) (m : BatchMetadata W) (i : ℕ) (t : BlockManager) :
    Prop where
  moves : Moves s t
  done : ∀ (j r : ℕ), j < i → m.reqIds[j]? = some r → t.hasSeqBlockList r = true
  pending : ∀ (j r : ℕ), i ≤ j → m.reqIds[j]? = some r →
    t.blockTables.lookup r = s.blockTables.lookup r

theorem Prefilling.prefillDemand {t : BlockManager} {i r : ℕ} {p : ℤ} (h : Prefilling s m i t)
    (hr : m.reqIds[i]? = some r) (hp : m.initPrefillLens[i]? = some p) :
    t.prefillDemand m i = s.prefillDemand m i := by
  rw [prefillDemand_eq hr hp, prefillDemand_eq hr hp, h.moves.blockSize, hasSeqBlockList,
    h.pending i r le_rfl hr, ← hasSeqBlockList]

theorem Prefilling.step {t t' : BlockManager} {i r : ℕ} {p : ℤ} {u : Unit}
    (h : Prefilling s m i t) (hnodup : m.reqIds.Nodup) (hr : m.reqIds[i]? = some r)
    (hp : m.initPrefillLens[i]? = some p) (hround : (allocatePrefill m i).Returns t u t') :
    Prefilling s m (i + 1) t' := by
  obtain ⟨hmoves, -, hothers⟩ := allocatePrefill_spec hround hr
  have hne : ∀ (j r' : ℕ), j ≠ i → m.reqIds[j]? = some r' → r' ≠ r := by
    rintro j r' hj hr' rfl
    exact hj ((List.getElem?_inj (List.getElem?_eq_some_iff.1 hr').1 hnodup).1 (hr'.trans hr.symm))
  refine ⟨h.moves.trans hmoves, fun j r' hj hr' => ?_, fun j r' hj hr' => ?_⟩
  · rcases Nat.lt_succ_iff_lt_or_eq.1 hj with hj | rfl
    · rw [hasSeqBlockList, hothers r' (hne j r' hj.ne hr')]
      exact h.done j r' hj hr'
    · obtain rfl : r = r' := Option.some.inj (hr.symm.trans hr')
      exact (allocatePrefill_free hr hp hround).2
  · rw [hothers r' (hne j r' (by omega) hr')]
    exact h.pending j r' (by omega) hr'

theorem exists_prefillLoop_iff (hreserved : s.reservedBlocks = 0) {q : ℕ}
    (hqle : q ≤ m.reqIds.length) (hnodup : m.reqIds.Nodup)
    (hprefill : ∀ i < q, ∃ p, m.initPrefillLens[i]? = some p) :
    ((∃ t, ((List.range q).forM (allocatePrefill m)).Returns s () t) ↔
        ((List.range q).map (s.prefillDemand m)).sum = 0 ∨
          ((List.range q).map (s.prefillDemand m)).sum + 0 ≤ s.freeBlocks.length) ∧
      ∀ t, ((List.range q).forM (allocatePrefill m)).Returns s () t → Prefilling s m q t ∧
        t.freeBlocks.length + ((List.range q).map (s.prefillDemand m)).sum =
          s.freeBlocks.length := by
  have hget : ∀ i < q, ∃ r p, m.reqIds[i]? = some r ∧ m.initPrefillLens[i]? = some p := by
    intro i hi
    obtain ⟨p, hp⟩ := hprefill i hi
    exact ⟨_, p, List.getElem?_eq_getElem (by omega), hp⟩
  refine exists_returns_forM_range_iff (I := Prefilling s m) (F := fun t => t.freeBlocks.length)
    ⟨.refl s, fun j r hj => absurd hj (Nat.not_lt_zero j), fun _ _ _ _ => rfl⟩ ?_ ?_
  · intro i hi t ht
    obtain ⟨r, p, hr, hp⟩ := hget i hi
    rw [← ht.prefillDemand hr hp]
    exact exists_allocatePrefill_iff hr hp (ht.moves.reservedBlocks.trans hreserved)
  · intro i hi t t' ht hround
    obtain ⟨r, p, hr, hp⟩ := hget i hi
    rw [← ht.prefillDemand hr hp]
    exact ⟨ht.step hnodup hr hp hround, (allocatePrefill_free hr hp hround).1⟩

theorem exists_appendLoop_iff (hbs : 0 < s.blockSize) {contextLens : List ℤ}
    (hlen : m.reqIds.length = m.numTokens)
    (hctx : ∀ i < m.reqIds.length, ∃ n, contextLens[i]? = some n ∧ 0 ≤ n)
    (hhas : ∀ (i r : ℕ), m.reqIds[i]? = some r → s.hasSeqBlockList r = true) :
    (∃ s', ((List.range m.numTokens).forM (appendToken m contextLens)).Returns s () s') ↔
      ((List.range m.numTokens).map (appendDemand s.blockSize contextLens)).sum = 0 ∨
        ((List.range m.numTokens).map (appendDemand s.blockSize contextLens)).sum + 1 ≤
          s.freeBlocks.length := by
  refine (exists_returns_forM_range_iff
    (I := fun _ (t : BlockManager) => t.blockSize = s.blockSize ∧
      ∀ (j r : ℕ), m.reqIds[j]? = some r → t.hasSeqBlockList r = true)
    (F := fun t : BlockManager => t.freeBlocks.length) ⟨rfl, hhas⟩ ?_ ?_).1
  · rintro i hi t ⟨hsize, hhas⟩
    rw [← hlen] at hi
    obtain ⟨n, hn, hnonneg⟩ := hctx i hi
    have hr := List.getElem?_eq_getElem hi
    rw [← hsize]
    exact exists_appendToken_iff (by rwa [hsize]) hr hn hnonneg (hhas i _ hr)
  · rintro i hi t t' ⟨hsize, hhas⟩ hround
    rw [← hlen] at hi
    have hr := List.getElem?_eq_getElem hi
    obtain ⟨hmoves, ⟨n, hn, l, -, -, hl⟩, hothers⟩ :=
      appendToken_spec (by rwa [hsize]) hround hr
    refine ⟨⟨hmoves.blockSize.trans hsize, fun j r hj => ?_⟩, ?_⟩
    · by_cases heq : r = m.reqIds[i]
      · subst heq
        rcases hl with ⟨-, hl⟩ | ⟨-, b, hl⟩
        · exact hasSeqBlockList_eq_true.2 ⟨l, hl⟩
        · exact hasSeqBlockList_eq_true.2 ⟨l ++ [b], hl⟩
      · rw [hasSeqBlockList, hothers r heq]
        exact hhas j r hj
    · rw [← hsize]
      exact appendToken_free (by rwa [hsize]) hr hround

/-- **When a batch gets its blocks.** The prompts of its new requests have to fit, and if any of its
requests is at a block boundary, a block has to stay free. -/
theorem exists_updateBlockTable_iff (hbs : 0 < s.blockSize) (hreserved : s.reservedBlocks = 0)
    {contextLens : List ℤ} {q d : ℕ} (hq : m.numPrefillTokens = some q)
    (hd : m.numDecodeTokens = some d) (hqle : q ≤ m.reqIds.length)
    (hlen : m.reqIds.length = m.numTokens) (hnodup : m.reqIds.Nodup)
    (hprefill : ∀ i < q, ∃ p, m.initPrefillLens[i]? = some p)
    (hctx : ∀ i < m.reqIds.length, ∃ n, contextLens[i]? = some n ∧ 0 ≤ n)
    (hold : ∀ (i r : ℕ), q ≤ i → m.reqIds[i]? = some r → s.hasSeqBlockList r = true) :
    (∃ s', (updateBlockTable m contextLens).Returns s () s') ↔
      ((List.range q).map (s.prefillDemand m)).sum ≤ s.freeBlocks.length ∧
        (((List.range m.numTokens).map (appendDemand s.blockSize contextLens)).sum = 0 ∨
          ((List.range q).map (s.prefillDemand m)).sum +
            ((List.range m.numTokens).map (appendDemand s.blockSize contextLens)).sum <
              s.freeBlocks.length) := by
  obtain ⟨hfirst, hpost⟩ := exists_prefillLoop_iff hreserved hqle hnodup hprefill
  have hsecond : ∀ t, Prefilling s m q t → _ := fun t ht =>
    exists_appendLoop_iff (s := t) (by rwa [ht.moves.blockSize]) hlen hctx fun i r hr => by
      rcases lt_or_ge i q with hi | hi
      · exact ht.done i r hi hr
      · rw [hasSeqBlockList, ht.pending i r hi hr]
        exact hold i r hi hr
  simp only [updateBlockTable, returns_optionalValue_bind, hq, hd, Option.some.injEq,
    exists_eq_left']
  simp only [returns_bind]
  constructor
  · rintro ⟨s', _, t, ht, hs'⟩
    obtain ⟨hI, hfree⟩ := hpost t ht
    have h₁ := hfirst.1 ⟨t, ht⟩
    have h₂ := (hsecond t hI).1 ⟨s', hs'⟩
    rw [hI.moves.blockSize] at h₂
    omega
  · rintro ⟨h₁, h₂⟩
    obtain ⟨t, ht⟩ := hfirst.2 (by omega)
    obtain ⟨hI, hfree⟩ := hpost t ht
    obtain ⟨s', hs'⟩ := (hsecond t hI).2 (by rw [hI.moves.blockSize]; omega)
    exact ⟨s', ⟨⟩, t, ht, hs'⟩

end BlockManager

namespace CPUBlockManager

variable {s : CPUBlockManager} {m : BatchMetadata W}

theorem exists_startSeqLens {q : ℕ} (hqle : q ≤ m.reqIds.length) (hq : m.numPrefillSeqs = some q)
    (hprefill : ∀ i < q, ∃ p, m.initPrefillLens[i]? = some p) :
    ∃ t, ((List.range (initReqIds m).length).forM (startSeqLen m)).Returns s () t := by
  have hids : initReqIds m = m.reqIds.take q := by rw [initReqIds, hq]
  have hlength : (initReqIds m).length = q := by rw [hids, List.length_take_of_le hqle]
  obtain ⟨t, ht, -⟩ := exists_returns_forM_range (f := startSeqLen m) (P := fun _ _ => True)
    (n := (initReqIds m).length) (s := s) trivial (by
      intro i hi t _
      obtain ⟨p, hp⟩ := hprefill i (hlength ▸ hi)
      simp only [startSeqLen, returns_nth_bind, List.getElem?_eq_getElem hi, hp,
        Option.some.injEq, exists_eq_left', updateDecodeSeqLens, returns_modify, and_true,
        exists_eq'])
  exact ⟨t, ht⟩

theorem exists_incrementSeqLens {ctx : List ℤ} (hctx : ctx.length = m.reqIds.length) :
    ∃ t, ((List.range m.reqIds.length).forM (incrementSeqLen m ctx)).Returns s () t := by
  obtain ⟨t, ht, -⟩ := exists_returns_forM_range (f := incrementSeqLen m ctx)
    (P := fun _ _ => True) (n := m.reqIds.length) (s := s) trivial (by
      intro i hi t _
      simp only [incrementSeqLen, returns_nth_bind, List.getElem?_eq_getElem hi,
        List.getElem?_eq_getElem (hctx ▸ hi), Option.some.injEq, exists_eq_left',
        updateDecodeSeqLens, returns_modify, and_true, exists_eq'])
  exact ⟨t, ht⟩

/-- A batch at the first layer succeeds when the C++ block manager does, on the lengths before the
pass. -/
theorem exists_updateBlockTable_iff {q : ℕ} (hlayer : m.layerId = s.firstLayer)
    (hnodup : m.reqIds.Nodup) (hq : m.numPrefillSeqs = some q) (hqle : q ≤ m.reqIds.length)
    (hprefill : ∀ i < q, ∃ p, m.initPrefillLens[i]? = some p)
    (hold : ∀ (i r : ℕ), q ≤ i → m.reqIds[i]? = some r → ∃ n, s.decodeSeqLens.lookup r = some n) :
    ∃ ctx : List ℤ, ctx.length = m.reqIds.length ∧
      (∀ (i r : ℕ), m.reqIds[i]? = some r →
        ctx[i]? = if i < q then m.initPrefillLens[i]? else s.decodeSeqLens.lookup r) ∧
      ((∃ lens s', (updateBlockTable m).Returns s lens s') ↔
        ∃ b, (BlockManager.updateBlockTable m ctx).Returns s.blockMgr () b) := by
  obtain ⟨t, ht⟩ := exists_startSeqLens (s := s) hqle hq hprefill
  obtain ⟨⟨hmgr, -⟩, hnew, hkept⟩ := startSeqLens_spec hnodup hq ht
  have hlookup : ∀ (i r : ℕ), m.reqIds[i]? = some r → t.decodeSeqLens.lookup r =
      if i < q then m.initPrefillLens[i]? else s.decodeSeqLens.lookup r := by
    intro i r hr
    split
    · next hi => exact hnew i r hi hr
    · next hi => exact hkept r (notMem_take_of_nodup hnodup hr (not_lt.1 hi))
  have hsome : ∀ r ∈ m.reqIds, ∃ n, t.decodeSeqLens.lookup r = some n := by
    intro r hr
    obtain ⟨i, hi⟩ := List.mem_iff_getElem?.1 hr
    rw [hlookup i r hi]
    split
    · next hlt => exact hprefill i hlt
    · next hlt => exact hold i r (not_lt.1 hlt) hi
  obtain ⟨ctx, hctx⟩ : ∃ ctx : List ℤ, m.reqIds.map t.decodeSeqLens.lookup = ctx.map some := by
    refine ⟨m.reqIds.map fun r => (t.decodeSeqLens.lookup r).getD 0, ?_⟩
    rw [List.map_map]
    refine List.map_congr_left fun r hr => ?_
    obtain ⟨n, hn⟩ := hsome r hr
    simp [hn]
  have hlength : ctx.length = m.reqIds.length := by
    simpa using (congrArg List.length hctx).symm
  refine ⟨ctx, hlength, fun i r hr => ?_, ?_⟩
  · rw [← hlookup i r hr]
    have hi := congrArg (·[i]?) hctx
    simp only [List.getElem?_map, hr, Option.map_some] at hi
    cases hci : ctx[i]? with
    | none => simp [hci] at hi
    | some n =>
      rw [hci] at hi
      exact (Option.some.inj hi).symm
  · simp only [updateBlockTable, returns_get_bind, if_pos hlayer]
    simp only [returns_bind, returns_pure]
    constructor
    · rintro ⟨_, _, _, t', ht', ctx', _, hctx', _, u, hu, -⟩
      obtain ⟨-, rfl⟩ := ht.unique ht'
      obtain ⟨hmap, rfl⟩ := returns_getDecodeSeqLens.1 hctx'
      obtain rfl : ctx = ctx' :=
        List.map_injective_iff.2 (Option.some_injective ℤ) (hctx.symm.trans hmap)
      obtain ⟨b, hb, -⟩ := returns_onBlockMgr.1 hu
      exact ⟨b, hmgr ▸ hb⟩
    · rintro ⟨b, hb⟩
      obtain ⟨u, hu⟩ := exists_incrementSeqLens (s := { t with blockMgr := b }) hlength
      exact ⟨_, u, (), t, ht, ctx, t, returns_getDecodeSeqLens.2 ⟨hctx, rfl⟩, (), _,
        returns_onBlockMgr.2 ⟨b, hmgr ▸ hb, rfl⟩, (), u, hu, rfl, rfl⟩

end CPUBlockManager

/-! ### A batch of a run -/

theorem sum_map_range_ite {q n : ℕ} (h : q ≤ n) (f : ℕ → ℕ) :
    ((List.range n).map fun i => if i < q then f i else 0).sum = ((List.range q).map f).sum := by
  induction n, h using Nat.le_induction with
  | base =>
    congr 1
    exact List.map_congr_left fun i hi => if_pos (List.mem_range.1 hi)
  | succ n hle ih =>
    rw [List.range_succ, List.map_append, List.sum_append, ih]
    simp [not_lt.2 hle]

theorem map_eq_map_range {α β : Type} {l : List α} {f : α → β} {g : ℕ → β}
    (h : ∀ i a, l[i]? = some a → f a = g i) : l.map f = (List.range l.length).map g := by
  refine List.ext_getElem (by simp) fun i hi _ => ?_
  rw [List.length_map] at hi
  simp [h i l[i] (List.getElem?_eq_getElem hi)]

namespace KvRun

/-- The blocks for the tokens of a request. -/
def need (bs : ℕ) (reqs : ℕ → Option (ℕ × ℕ)) (r : ℕ) : ℕ :=
  match reqs r with
  | some (p, k) => (p + k) ⌈/⌉ bs
  | none => 0

namespace State

def held (s : State W) (r : ℕ) : ℕ := ((s.mgr.blockMgr.blockTables.lookup r).getD []).length

/-- The blocks that a batch at the first layer adds to the lists of its requests. -/
def demand (s : State W) (m : BatchMetadata W) : ℕ :=
  (m.reqIds.map fun r => need s.mgr.blockMgr.blockSize (countPass s.reqs m) r - s.held r).sum

/-- The length of a request before it passes the first layer in this batch. -/
def lenBefore (s : State W) (m : BatchMetadata W) (r : ℕ) : ℕ :=
  match countPass s.reqs m r with
  | some (p, k) => p + k - 1
  | none => 0

/-- No request of the batch starts a block, or a block stays free. -/
def HasSpare (s : State W) (m : BatchMetadata W) : Prop :=
  (∀ r ∈ m.reqIds, s.lenBefore m r % s.mgr.blockMgr.blockSize ≠ 0) ∨
    s.demand m < s.mgr.blockMgr.numFreeBlocks

end State

variable {bs numBlocks : ℕ} {s : State W} {m : BatchMetadata W}

theorem Inv.held_eq (hs : Inv bs numBlocks s) (r : ℕ) : s.held r = need bs s.reqs r := by
  unfold State.held need
  cases hr : s.reqs r with
  | none => simp [hs.absent r hr]
  | some pk =>
    obtain ⟨l, hl, hlen⟩ := hs.blocks r pk.1 pk.2 hr
    simp [hl, hlen]

/-- What the two loops add to the list of the request at position `i`. -/
theorem Inv.need_eq (hs : Inv bs numBlocks s) (hbs : 0 < bs) {q : ℕ}
    (hbatch : FirstBatch s.reqs m q) {ctx : List ℤ} {i r : ℕ} (hr : m.reqIds[i]? = some r)
    (hctx : ctx[i]? = if i < q then m.initPrefillLens[i]? else s.mgr.decodeSeqLens.lookup r) :
    ctx[i]? = some (s.lenBefore m r : ℤ) ∧
      need bs (countPass s.reqs m) r - s.held r =
        (if i < q then s.mgr.blockMgr.prefillDemand m i else 0) +
          if s.lenBefore m r % bs = 0 then 1 else 0 := by
  have hmem := List.mem_of_getElem? hr
  suffices h : ∃ p k, countPass s.reqs m r = some (p, k + 1) ∧ ctx[i]? = some ((p + k : ℕ) : ℤ) ∧
      (if i < q then s.mgr.blockMgr.prefillDemand m i else 0) + s.held r = (p + k) ⌈/⌉ bs by
    obtain ⟨p, k, hcount, hget, hblocks⟩ := h
    have hlen : s.lenBefore m r = p + k := by simp [State.lenBefore, hcount]
    refine ⟨by rw [hget, hlen], ?_⟩
    rw [need, hcount, hlen]
    show (p + k + 1) ⌈/⌉ bs - s.held r = _
    rw [ceilDiv_succ hbs]
    omega
  rcases lt_or_ge i q with hi | hi
  · obtain ⟨p, hp, hreq⟩ := hbatch.new i r hi hr
    rw [if_pos hi, hp] at hctx
    rw [if_pos hi, BlockManager.prefillDemand_eq hr hp, hs.held_eq, need, hs.blockSize]
    rcases hreq with hreq | hreq
    · have hnot := BlockManager.hasSeqBlockList_eq_false.2 (hs.absent r hreq)
      exact ⟨p, 0, countPass_of_none hbatch.nodup hr hp hreq, hctx, by
        simp [hreq, hnot, blocksNeeded_natCast hbs]⟩
    · obtain ⟨l, hl, -⟩ := hs.blocks r p 0 hreq
      have hhas := BlockManager.hasSeqBlockList_eq_true.2 ⟨l, hl⟩
      exact ⟨p, 0, countPass_of_some hmem hreq, hctx, by simp [hreq, hhas]⟩
  · obtain ⟨p, k, hreq⟩ := hbatch.old i r hi hr
    rw [if_neg (not_lt.2 hi), hs.seqLens r p k hreq] at hctx
    rw [if_neg (not_lt.2 hi), hs.held_eq, need, hreq]
    exact ⟨p, k + 1, countPass_of_some hmem hreq, hctx, Nat.zero_add _⟩

/-- **When a batch whose demand can be met succeeds.** -/
theorem Inv.exists_updateBlockTable_iff (hs : Inv bs numBlocks s) (hbs : 0 < bs)
    (hreserved : s.mgr.blockMgr.reservedBlocks = 0) (hlayer : m.layerId = s.mgr.firstLayer)
    {q d : ℕ} (hbatch : FirstBatch s.reqs m q) (hd : m.numDecodeTokens = some d)
    (hfits : s.demand m ≤ s.mgr.blockMgr.numFreeBlocks) :
    (∃ lens mgr, (CPUBlockManager.updateBlockTable m).Returns s.mgr lens mgr) ↔ s.HasSpare m := by
  have hprefill : ∀ i < q, ∃ p, m.initPrefillLens[i]? = some p := by
    intro i hi
    have hlt : i < m.reqIds.length := hbatch.reqIds ▸ hi.trans_le hbatch.le
    obtain ⟨p, hp, -⟩ := hbatch.new i _ hi (List.getElem?_eq_getElem hlt)
    exact ⟨p, hp⟩
  have hqle : q ≤ m.reqIds.length := hbatch.reqIds ▸ hbatch.le
  obtain ⟨ctx, hlength, hctx, hiff⟩ := CPUBlockManager.exists_updateBlockTable_iff hlayer
    hbatch.nodup hbatch.numPrefillSeqs hqle hprefill (by
      intro i r hi hr
      obtain ⟨p, k, hreq⟩ := hbatch.old i r hi hr
      exact ⟨_, hs.seqLens r p k hreq⟩)
  have hneed : ∀ (i r : ℕ), m.reqIds[i]? = some r → _ := fun i r hr =>
    hs.need_eq hbs hbatch hr (hctx i r hr)
  rw [hiff, BlockManager.exists_updateBlockTable_iff (by rwa [hs.blockSize]) hreserved
    hbatch.numPrefillTokens hd hqle hbatch.reqIds hbatch.nodup hprefill (by
      intro i hi
      exact ⟨_, (hneed i _ (List.getElem?_eq_getElem hi)).1, Int.natCast_nonneg _⟩) (by
      intro i r hi hr
      obtain ⟨p, k, hreq⟩ := hbatch.old i r hi hr
      obtain ⟨l, hl, -⟩ := hs.blocks r p (k + 1) hreq
      exact BlockManager.hasSeqBlockList_eq_true.2 ⟨l, hl⟩)]
  rw [hs.blockSize, ← hbatch.reqIds]
  -- the sums over positions as sums over requests
  have happend : (List.range m.reqIds.length).map (BlockManager.appendDemand bs ctx) =
      m.reqIds.map fun r => if s.lenBefore m r % bs = 0 then 1 else 0 := by
    refine (map_eq_map_range fun i r hr => ?_).symm
    rw [BlockManager.appendDemand_eq (hneed i r hr).1]
  have hdemand : s.demand m = ((List.range q).map (s.mgr.blockMgr.prefillDemand m)).sum +
      (m.reqIds.map fun r => if s.lenBefore m r % bs = 0 then 1 else 0).sum := by
    rw [State.demand, hs.blockSize, ← happend, ← sum_map_range_ite hqle, ← List.sum_map_add]
    congr 1
    refine map_eq_map_range fun i r hr => ?_
    rw [(hneed i r hr).2, BlockManager.appendDemand_eq (hneed i r hr).1]
  have hzero : (m.reqIds.map fun r => if s.lenBefore m r % bs = 0 then 1 else 0).sum = 0 ↔
      ∀ r ∈ m.reqIds, s.lenBefore m r % bs ≠ 0 := by
    rw [List.sum_eq_zero_iff]
    simp
  rw [happend, State.HasSpare, hs.blockSize, ← hzero, hdemand]
  rw [hdemand] at hfits
  unfold BlockManager.numFreeBlocks at hfits ⊢
  omega

end KvRun

end StreamEP

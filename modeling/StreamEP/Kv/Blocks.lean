import StreamEP.Kv.BlockManager
import StreamEP.Lib.TableSum
import Mathlib.Algebra.Order.Floor.Div
import Mathlib.Data.Multiset.AddSub

/-!
# What the block manager does to its blocks

Every operation only moves blocks between the free queue and the lists of the requests it is
given. `pool` counts all of them, with multiplicity, and no operation changes it.

## Why a multiset

That no block has two owners could be stated for every pair of lists. A multiset says it once: the
blocks are `Multiset.range numBlocks` at the start, operations move them, and a multiset without
duplicates stays one. A leak and a double hand-out are excluded by the same equation.
-/

namespace StreamEP

namespace BlockManager

open Attempt

variable {W : Type} {s s' : BlockManager}

/-- All blocks, free or held by a request. -/
def pool (s : BlockManager) : Multiset ℕ :=
  (s.freeBlocks : Multiset ℕ) +
    tableSum (fun (_ : ℕ) (blocks : List ℕ) => (blocks : Multiset ℕ)) s.blockTables

/-- From `s` to `s'` blocks were only moved. -/
structure Moves (s s' : BlockManager) : Prop where
  blockSize : s'.blockSize = s.blockSize
  numBlocks : s'.numBlocks = s.numBlocks
  reservedBlocks : s'.reservedBlocks = s.reservedBlocks
  pool : s'.pool = s.pool

theorem Moves.refl (s : BlockManager) : Moves s s := ⟨rfl, rfl, rfl, rfl⟩

theorem Moves.trans {s₁ s₂ s₃ : BlockManager} (h : Moves s₁ s₂) (h' : Moves s₂ s₃) :
    Moves s₁ s₃ :=
  ⟨h'.blockSize.trans h.blockSize, h'.numBlocks.trans h.numBlocks,
    h'.reservedBlocks.trans h.reservedBlocks, h'.pool.trans h.pool⟩

@[simp] theorem pool_create (blockSize numBlocks reservedBlocks : ℕ) :
    (create blockSize numBlocks reservedBlocks).pool =
      Multiset.range (numBlocks + reservedBlocks) := by
  simp [pool, create, Multiset.range]

theorem hasSeqBlockList_eq_true {r : ℕ} :
    s.hasSeqBlockList r = true ↔ ∃ l, s.blockTables.lookup r = some l := by
  rw [hasSeqBlockList, Option.isSome_iff_exists]

theorem hasSeqBlockList_eq_false {r : ℕ} :
    s.hasSeqBlockList r = false ↔ s.blockTables.lookup r = none := by
  rw [hasSeqBlockList, Option.isSome_eq_false_iff, Option.isNone_iff_eq_none]

/-! ### Success of each operation -/

theorem returns_getOneFreeBlock {b : ℕ} :
    getOneFreeBlock.Returns s b s' ↔
      ∃ rest, s.freeBlocks = b :: rest ∧ s' = { s with freeBlocks := rest } := by
  unfold getOneFreeBlock
  rw [returns_get_bind]
  cases hfree : s.freeBlocks with
  | nil => simp
  | cons b' rest =>
    simp only [returns_set_bind, returns_pure, List.cons.injEq]
    constructor
    · rintro ⟨rfl, rfl⟩
      exact ⟨rest, ⟨rfl, rfl⟩, rfl⟩
    · rintro ⟨_, ⟨rfl, rfl⟩, rfl⟩
      exact ⟨rfl, rfl⟩

theorem returns_takeFreeBlocks {n : ℕ} {l : List ℕ} :
    (takeFreeBlocks n).Returns s l s' ↔
      ∃ rest, s.freeBlocks = l ++ rest ∧ l.length = n ∧ s' = { s with freeBlocks := rest } := by
  induction n generalizing s s' l with
  | zero =>
    simp only [takeFreeBlocks, returns_pure]
    constructor
    · rintro ⟨rfl, rfl⟩
      exact ⟨s.freeBlocks, rfl, rfl, rfl⟩
    · rintro ⟨rest, hfree, hl, rfl⟩
      obtain rfl := List.length_eq_zero_iff.1 hl
      obtain rfl : s.freeBlocks = rest := by simpa using hfree
      exact ⟨rfl, rfl⟩
  | succ n ih =>
    simp only [takeFreeBlocks, returns_bind, returns_getOneFreeBlock, ih, returns_pure]
    constructor
    · rintro ⟨b, _, ⟨rest, hfree, rfl⟩, l', _, ⟨rest', hrest, rfl, rfl⟩, rfl, rfl⟩
      exact ⟨rest', by rw [hfree, show rest = l' ++ rest' from hrest, List.cons_append], rfl, rfl⟩
    · rintro ⟨rest, hfree, hl, rfl⟩
      obtain ⟨b, l', rfl⟩ := List.exists_cons_of_length_eq_add_one hl
      exact ⟨b, _, ⟨l' ++ rest, hfree, rfl⟩, l', _,
        ⟨rest, rfl, by simpa using hl, rfl⟩, rfl, rfl⟩

/-- **`allocate`** gives an unknown request the blocks it needs, when there are enough. -/
theorem returns_allocate {r : ℕ} {len : ℤ} {u : Unit} :
    (allocate r len).Returns s u s' ↔
      s.blockTables.lookup r = none ∧
      blocksNeeded s.blockSize len + s.reservedBlocks ≤ s.freeBlocks.length ∧
      s' = { s with
        freeBlocks := s.freeBlocks.drop (blocksNeeded s.blockSize len)
        blockTables := s.blockTables.insert r
          (s.freeBlocks.take (blocksNeeded s.blockSize len)) } := by
  simp only [allocate, returns_get_bind, returns_check_bind, hasSeqBlockList_eq_false]
  refine and_congr_right fun _ => and_congr_right fun hfree => ?_
  simp only [returns_bind, returns_takeFreeBlocks, returns_modify]
  constructor
  · rintro ⟨l, _, ⟨rest, hl, hlen, rfl⟩, rfl⟩
    rw [← hlen, hl, List.take_left, List.drop_left]
  · rintro rfl
    refine ⟨_, _, ⟨_, (List.take_append_drop _ _).symm, ?_, rfl⟩, rfl⟩
    rw [List.length_take]
    exact min_eq_left (le_trans (Nat.le_add_right _ _) hfree)

theorem remainSlots_of_emod_eq_zero {bs : ℕ} {len : ℤ} (h : len % bs = 0) :
    remainSlots bs len = 0 := by
  simp [remainSlots, h]

theorem one_le_remainSlots {bs : ℕ} (hbs : 0 < bs) {len : ℤ} (h : len % bs ≠ 0) :
    1 ≤ remainSlots bs len := by
  have hbs' : (0 : ℤ) < bs := by exact_mod_cast hbs
  have hmod := Int.emod_nonneg len hbs'.ne'
  have hlt := Int.emod_lt_of_pos len hbs'
  rw [remainSlots, if_neg (by omega)]
  omega

/-- **`append_tokens`** for one token: a request at a block boundary gets a block, when at least
one more stays free. -/
theorem returns_appendTokens_one (hbs : 0 < s.blockSize) {r : ℕ} {len : ℤ} {u : Unit} :
    (appendTokens r len 1).Returns s u s' ↔
      ∃ l, s.blockTables.lookup r = some l ∧ 0 ≤ len ∧
        ((len % s.blockSize ≠ 0 ∧ s' = s) ∨
          (len % s.blockSize = 0 ∧ 1 < s.freeBlocks.length ∧
            ∃ b rest, s.freeBlocks = b :: rest ∧
              s' = { s with
                freeBlocks := rest
                blockTables := s.blockTables.insert r (l ++ [b]) })) := by
  simp only [appendTokens, returns_get_bind, returns_check_bind, hasSeqBlockList_eq_true]
  by_cases hboundary : len % s.blockSize = 0
  · have hremain := remainSlots_of_emod_eq_zero hboundary
    have hadd : (1 - remainSlots s.blockSize len - 1) / s.blockSize + 1 = 1 := by simp [hremain]
    have hone : (1 : ℤ) > remainSlots s.blockSize len := by simp [hremain]
    simp only [if_pos hone, returns_check_bind, hadd, Int.toNat_one]
    simp only [numFreeBlocks, gt_iff_lt, ge_iff_le, le_refl, appendFreeBlocks,
      returns_bind, returns_getOneFreeBlock, returns_modify, returns_pure, hboundary, ne_eq,
      not_true_eq_false, false_and, true_and, false_or]
    constructor
    · rintro ⟨⟨l, hl⟩, hlen, hfree, b, _, ⟨rest, hb, rfl⟩, _, _, rfl, rfl⟩
      exact ⟨l, hl, hlen, by exact_mod_cast hfree, b, rest, hb, by simp [hl]⟩
    · rintro ⟨l, hl, hlen, hfree, b, rest, hb, rfl⟩
      exact ⟨⟨l, hl⟩, hlen, by exact_mod_cast hfree, b, _, ⟨rest, hb, rfl⟩, ⟨⟩, _, rfl,
        by simp [hl]⟩
  · have hremain : ¬ (1 : ℤ) > remainSlots s.blockSize len :=
      not_lt.2 (one_le_remainSlots hbs hboundary)
    simp only [if_neg hremain, hboundary, ge_iff_le, le_refl, returns_pure, ne_eq,
      not_false_eq_true, true_and, false_and, or_false]
    constructor
    · rintro ⟨⟨l, hl⟩, hlen, rfl⟩
      exact ⟨l, hl, hlen, rfl⟩
    · rintro ⟨l, hl, hlen, rfl⟩
      exact ⟨⟨l, hl⟩, hlen, rfl⟩

theorem returns_release {r : ℕ} {u : Unit} :
    (release r).Returns s u s' ↔
      ∃ l, s.blockTables.lookup r = some l ∧
        s' = { s with
          freeBlocks := s.freeBlocks ++ l
          blockTables := s.blockTables.erase r } := by
  rw [release, returns_get_bind]
  cases hl : s.blockTables.lookup r with
  | none => simp
  | some l =>
    simp only [returns_set, Option.some.injEq]
    constructor
    · rintro rfl
      exact ⟨l, rfl, rfl⟩
    · rintro ⟨_, rfl, rfl⟩
      rfl

/-! ### Blocks are only moved -/

theorem moves_allocate {r n : ℕ} (hnone : s.blockTables.lookup r = none) :
    Moves s { s with
      freeBlocks := s.freeBlocks.drop n
      blockTables := s.blockTables.insert r (s.freeBlocks.take n) } := by
  refine ⟨rfl, rfl, rfl, ?_⟩
  simp only [pool]
  rw [tableSum_insert_new _ hnone, ← add_assoc, Multiset.coe_add, add_left_inj, Multiset.coe_eq_coe]
  exact List.perm_append_comm.trans (.of_eq (List.take_append_drop n _))

theorem moves_append {r b : ℕ} {l rest : List ℕ} (hl : s.blockTables.lookup r = some l)
    (hfree : s.freeBlocks = b :: rest) :
    Moves s { s with
      freeBlocks := rest
      blockTables := s.blockTables.insert r (l ++ [b]) } := by
  refine ⟨rfl, rfl, rfl, ?_⟩
  simp only [pool]
  rw [tableSum_insert, ← tableSum_erase _ hl, hfree, ← add_assoc, ← add_assoc, add_left_inj,
    Multiset.coe_add, Multiset.coe_add, Multiset.coe_eq_coe, ← List.append_assoc]
  exact List.perm_append_singleton b (rest ++ l)

theorem moves_release {r : ℕ} {l : List ℕ} (hl : s.blockTables.lookup r = some l) :
    Moves s { s with
      freeBlocks := s.freeBlocks ++ l
      blockTables := s.blockTables.erase r } := by
  refine ⟨rfl, rfl, rfl, ?_⟩
  simp only [pool]
  rw [← tableSum_erase _ hl, ← add_assoc, Multiset.coe_add]

theorem batchRelease_spec {reqIds : List ℕ} {u : Unit}
    (h : (batchRelease reqIds).Returns s u s') :
    Moves s s' ∧ (∀ r ∈ reqIds, s'.blockTables.lookup r = none) ∧
      ∀ r ∉ reqIds, s'.blockTables.lookup r = s.blockTables.lookup r := by
  unfold batchRelease at h
  induction reqIds generalizing s with
  | nil =>
    obtain rfl := returns_forM_nil.1 h
    exact ⟨.refl s, by simp, by simp⟩
  | cons r reqIds ih =>
    obtain ⟨t, hr, hrest⟩ := returns_forM_cons.1 h
    obtain ⟨l, hl, rfl⟩ := returns_release.1 hr
    obtain ⟨hmoves, hgone, hkept⟩ := ih hrest
    refine ⟨(moves_release hl).trans hmoves, ?_, ?_⟩
    · intro r' hr'
      by_cases hmem : r' ∈ reqIds
      · exact hgone r' hmem
      · obtain rfl : r' = r := by simpa [hmem] using hr'
        rw [hkept r' hmem]
        exact AList.lookup_erase r' _
    · intro r' hr'
      rw [List.mem_cons, not_or] at hr'
      rw [hkept r' hr'.2]
      exact AList.lookup_erase_ne hr'.1

/-! ### A batch at the first layer -/

/-- What the first loop makes of the list of a new request. -/
def Allocated (blockSize : ℕ) (initPrefillLen : ℤ) (v v' : Option (List ℕ)) : Prop :=
  (v' = v ∧ ∃ l, v = some l) ∨
    (v = none ∧ ∃ l, v' = some l ∧ l.length = blocksNeeded blockSize initPrefillLen)

/-- What the second loop makes of the list of a request. -/
def Extended (blockSize : ℕ) (contextLen : ℤ) (v v' : Option (List ℕ)) : Prop :=
  ∃ l, v = some l ∧ 0 ≤ contextLen ∧
    ((contextLen % blockSize ≠ 0 ∧ v' = some l) ∨
      (contextLen % blockSize = 0 ∧ ∃ b, v' = some (l ++ [b])))

/-- **A round of the first loop**: the request has a list, or it is given one. -/
theorem returns_allocatePrefill {m : BatchMetadata W} {i : ℕ} {u : Unit} :
    (allocatePrefill m i).Returns s u s' ↔ ∃ r, m.reqIds[i]? = some r ∧
      (s.hasSeqBlockList r = true ∧ s = s' ∨
        s.hasSeqBlockList r = false ∧
          ∃ p, m.initPrefillLens[i]? = some p ∧ (allocate r p).Returns s u s') := by
  simp only [allocatePrefill, returns_nth_bind, returns_get_bind]
  refine exists_congr fun r => and_congr_right fun _ => ?_
  cases s.hasSeqBlockList r with
  | true => simp [returns_pure]
  | false => simp

/-- **A round of the second loop**: the request has a list, and a token is appended. -/
theorem returns_appendToken {m : BatchMetadata W} {contextLens : List ℤ} {i : ℕ} {u : Unit} :
    (appendToken m contextLens i).Returns s u s' ↔ ∃ r, m.reqIds[i]? = some r ∧
      s.hasSeqBlockList r = true ∧
        ∃ n, contextLens[i]? = some n ∧ (appendTokens r n 1).Returns s u s' := by
  simp only [appendToken, returns_nth_bind, returns_get_bind, returns_check_bind]

theorem allocatePrefill_spec {m : BatchMetadata W} {i r : ℕ} {u : Unit}
    (h : (allocatePrefill m i).Returns s u s') (hr : m.reqIds[i]? = some r) :
    Moves s s' ∧
      (∀ p, m.initPrefillLens[i]? = some p →
        Allocated s.blockSize p (s.blockTables.lookup r) (s'.blockTables.lookup r)) ∧
      ∀ r' ≠ r, s'.blockTables.lookup r' = s.blockTables.lookup r' := by
  obtain ⟨r', hr', h⟩ := returns_allocatePrefill.1 h
  obtain rfl := Option.some.inj (hr.symm.trans hr')
  rcases h with ⟨hhas, rfl⟩ | ⟨-, p, hp, h⟩
  · exact ⟨.refl s, fun p _ => .inl ⟨rfl, hasSeqBlockList_eq_true.1 hhas⟩, fun _ _ => rfl⟩
  · obtain ⟨hnone, hfree, rfl⟩ := returns_allocate.1 h
    refine ⟨moves_allocate hnone, fun p' hp' => .inr ⟨hnone, _, AList.lookup_insert _, ?_⟩,
      fun r' hr' => AList.lookup_insert_ne hr'⟩
    obtain rfl : p = p' := by simpa [hp] using hp'
    rw [List.length_take]
    omega

theorem appendToken_spec (hbs : 0 < s.blockSize) {m : BatchMetadata W} {contextLens : List ℤ}
    {i r : ℕ} {u : Unit} (h : (appendToken m contextLens i).Returns s u s')
    (hr : m.reqIds[i]? = some r) :
    Moves s s' ∧
      (∃ n, contextLens[i]? = some n ∧
        Extended s.blockSize n (s.blockTables.lookup r) (s'.blockTables.lookup r)) ∧
      ∀ r' ≠ r, s'.blockTables.lookup r' = s.blockTables.lookup r' := by
  obtain ⟨r', hr', -, n, hn, h⟩ := returns_appendToken.1 h
  obtain rfl := Option.some.inj (hr.symm.trans hr')
  obtain ⟨l, hl, hlen, h⟩ := (returns_appendTokens_one hbs).1 h
  rcases h with ⟨hmid, rfl⟩ | ⟨hboundary, -, b, rest, hfree, rfl⟩
  · exact ⟨.refl s', ⟨n, hn, l, hl, hlen, .inl ⟨hmid, hl⟩⟩, fun _ _ => rfl⟩
  · exact ⟨moves_append hl hfree,
      ⟨n, hn, l, hl, hlen, .inr ⟨hboundary, b, AList.lookup_insert _⟩⟩,
      fun r' hr' => AList.lookup_insert_ne hr'⟩

theorem returns_optionalValue_bind {α β : Type} {o : Option α} {f : α → Attempt BlockManager β}
    {b : β} : (optionalValue o >>= f).Returns s b s' ↔ ∃ a, o = some a ∧ (f a).Returns s b s' := by
  cases o with
  | none => simp [optionalValue]
  | some a => simp [optionalValue]

/-- **A batch at the first layer.** New requests get their blocks, every request gets room for one
token, and no other request is touched. -/
theorem updateBlockTable_spec (hbs : 0 < s.blockSize) {m : BatchMetadata W}
    {contextLens : List ℤ} {q : ℕ} {u : Unit}
    (h : (updateBlockTable m contextLens).Returns s u s') (hq : m.numPrefillTokens = some q)
    (hqle : q ≤ m.reqIds.length) (hlen : m.reqIds.length = m.numTokens)
    (hnodup : m.reqIds.Nodup) :
    Moves s s' ∧
      (∀ i r, m.reqIds[i]? = some r → ∃ n v, contextLens[i]? = some n ∧
        (i < q → ∀ p, m.initPrefillLens[i]? = some p →
          Allocated s.blockSize p (s.blockTables.lookup r) v) ∧
        (q ≤ i → v = s.blockTables.lookup r) ∧
        Extended s.blockSize n v (s'.blockTables.lookup r)) ∧
      ∀ r ∉ m.reqIds, s'.blockTables.lookup r = s.blockTables.lookup r := by
  simp only [updateBlockTable, returns_optionalValue_bind, hq, Option.some.injEq,
    exists_eq_left'] at h
  obtain ⟨_, -, h⟩ := h
  obtain ⟨_, t, h₁, h₂⟩ := returns_bind.1 h
  have htake : (m.reqIds.take q).length = q := List.length_take_of_le hqle
  rw [← htake] at h₁
  rw [← hlen] at h₂
  -- the first loop runs over the new requests
  obtain ⟨hmoves, hnew, hold⟩ := h₁.forM_keys
    (L := fun s r => s.blockTables.lookup r) (I := Moves s)
    (R := fun i v v' => ∀ p, m.initPrefillLens[i]? = some p → Allocated s.blockSize p v v')
    (hnodup.sublist (List.take_sublist q _)) (.refl s) (by
      intro i r t t' hr hinv hf
      have hi : i < q := htake ▸ (List.getElem?_eq_some_iff.1 hr).1
      have hr' : m.reqIds[i]? = some r := by rwa [List.getElem?_take_of_lt hi] at hr
      obtain ⟨hm, ha, ho⟩ := allocatePrefill_spec hf hr'
      rw [hinv.blockSize] at ha
      exact ⟨hinv.trans hm, ha, ho⟩)
  -- and the second one over all of them
  obtain ⟨hmoves', hall, hold'⟩ := h₂.forM_keys
    (L := fun s r => s.blockTables.lookup r) (I := Moves s)
    (R := fun i v v' => ∃ n, contextLens[i]? = some n ∧ Extended s.blockSize n v v')
    hnodup hmoves (by
      intro i r t t' hr hinv hf
      obtain ⟨hm, he, ho⟩ := appendToken_spec (by rwa [hinv.blockSize]) hf hr
      rw [hinv.blockSize] at he
      exact ⟨hinv.trans hm, he, ho⟩)
  refine ⟨hmoves', fun i r hr => ?_, fun r hr => ?_⟩
  · obtain ⟨n, hn, he⟩ := hall i r hr
    refine ⟨n, t.blockTables.lookup r, hn, fun hi => ?_, fun hi => ?_, he⟩
    · exact hnew i r (by rw [List.getElem?_take_of_lt hi, hr])
    · exact hold r (notMem_take_of_nodup hnodup hr hi)
  · rw [hold' r hr]
    exact hold r fun hmem => hr (List.mem_of_mem_take hmem)

end BlockManager

end StreamEP

import StreamEP.Kv.Blocks
import StreamEP.Lib.TableSum
import Mathlib.Tactic.Linarith

/-!
# What a failed call leaves behind

The calls of `BlockManager` that Python can make, and the state they leave when an assertion
fails. `allocate`, `append_tokens` and `release` check everything before they change anything.
`append_block` takes a block from the free list first and looks the request up afterwards, so a
block is lost when there is no such request. `update_block_table` and `batch_release` are loops
over calls, and what the rounds before the failed one did stays.

## Main results

* `BlockManager.allocate_traceless`, `appendTokens_traceless`, `release_traceless`
* `BlockManager.call_unchanged_iff` — which failed calls leave the state as it was
-/

namespace StreamEP

open Attempt

variable {W : Type}

namespace BlockManager

variable {s t : BlockManager}

/-! ### Calls that check first -/

theorem exists_returns_takeFreeBlocks {n : ℕ} (h : n ≤ s.freeBlocks.length) :
    ∃ l t, (takeFreeBlocks n).Returns s l t := by
  refine ⟨s.freeBlocks.take n, _, returns_takeFreeBlocks.mpr
    ⟨s.freeBlocks.drop n, (List.take_append_drop n _).symm, ?_, rfl⟩⟩
  rw [List.length_take]
  omega

theorem exists_returns_appendFreeBlocks (r : ℕ) {n : ℕ} (h : n ≤ s.freeBlocks.length) :
    ∃ t, (appendFreeBlocks r n).Returns s () t := by
  induction n generalizing s with
  | zero => exact ⟨s, by simp [appendFreeBlocks]⟩
  | succ n ih =>
    obtain ⟨b, rest, hfree⟩ := List.exists_cons_of_length_pos (Nat.zero_lt_of_lt h)
    obtain ⟨t, ht⟩ := @ih { s with
      freeBlocks := rest
      blockTables := s.blockTables.insert r ((s.blockTables.lookup r).getD [] ++ [b]) }
      (by rw [hfree] at h; simpa using h)
    refine ⟨t, returns_bind.mpr ⟨b, _, returns_getOneFreeBlock.mpr ⟨rest, hfree, rfl⟩,
      returns_bind.mpr ⟨⟨⟩, _, returns_modify.mpr rfl, ht⟩⟩⟩

theorem allocate_traceless (r : ℕ) (len : ℤ) (s : BlockManager) :
    (allocate r len).Traceless s := by
  refine traceless_get_bind (traceless_check_bind fun _ => traceless_check_bind fun hfree => ?_)
  obtain ⟨l, t, ht⟩ := @exists_returns_takeFreeBlocks s (blocksNeeded s.blockSize len)
    (le_trans (Nat.le_add_right _ _) hfree)
  exact Returns.traceless (a := ()) (returns_bind.mpr ⟨l, t, ht, returns_modify.mpr rfl⟩)

theorem appendTokens_traceless (r : ℕ) (contextLen numTokens : ℤ) (s : BlockManager) :
    (appendTokens r contextLen numTokens).Traceless s := by
  refine traceless_get_bind (traceless_check_bind fun _ => traceless_check_bind fun _ =>
    traceless_check_bind fun _ => ?_)
  split_ifs
  · refine traceless_check_bind fun hfree => ?_
    rw [numFreeBlocks] at hfree
    obtain ⟨t, ht⟩ := @exists_returns_appendFreeBlocks s r
      ((numTokens - remainSlots s.blockSize contextLen - 1) / s.blockSize + 1).toNat (by omega)
    exact ht.traceless
  · exact Returns.traceless (a := ()) (returns_pure.mpr ⟨rfl, rfl⟩)

theorem release_traceless (r : ℕ) (s : BlockManager) : (release r).Traceless s := by
  refine traceless_get_bind ?_
  cases s.blockTables.lookup r with
  | none => exact traceless_throw _ s
  | some l => exact Returns.traceless (a := ()) (returns_set.mpr rfl)

/-- **`append_block`** takes a block and then looks the request up. -/
theorem exec_appendBlock {r b : ℕ} {rest : List ℕ} (hfree : s.freeBlocks = b :: rest)
    (hnone : s.blockTables.lookup r = none) :
    (appendBlock r).exec s =
      (.error "seq_block_list != block_tables_.end()", { s with freeBlocks := rest }) := by
  have hget : getOneFreeBlock.exec s = (.ok b, { s with freeBlocks := rest }) :=
    returns_getOneFreeBlock.mpr ⟨rest, hfree, rfl⟩
  have hpos : s.numFreeBlocks > 0 := by simp [numFreeBlocks, hfree]
  simp only [appendBlock, exec_bind, exec_get, exec_check, if_pos hpos, hget, hnone, exec_throw]

theorem returns_appendBlock {r b : ℕ} {rest l : List ℕ} (hfree : s.freeBlocks = b :: rest)
    (hl : s.blockTables.lookup r = some l) : ∃ t, (appendBlock r).Returns s () t := by
  have hget : getOneFreeBlock.exec s = (.ok b, { s with freeBlocks := rest }) :=
    returns_getOneFreeBlock.mpr ⟨rest, hfree, rfl⟩
  have hpos : s.numFreeBlocks > 0 := by simp [numFreeBlocks, hfree]
  simp only [Returns, appendBlock, exec_bind, exec_get, exec_check, if_pos hpos, hget, hl,
    exec_set]
  exact ⟨_, rfl⟩

/-- A failed `append_block` left no trace exactly when there was no free block. -/
theorem appendBlock_unchanged_iff {r : ℕ} {e : String}
    (h : (appendBlock r).exec s = (.error e, t)) : t = s ↔ s.freeBlocks = [] := by
  cases hfree : s.freeBlocks with
  | nil =>
    have hstop : (appendBlock r).Traceless s :=
      traceless_get_bind (traceless_check_bind fun hpos => by simp [numFreeBlocks, hfree] at hpos)
    simp [hstop e t h]
  | cons b rest =>
    cases hl : s.blockTables.lookup r with
    | none =>
      rw [exec_appendBlock hfree hl] at h
      obtain rfl := congrArg Prod.snd h
      simp only [reduceCtorEq, iff_false]
      intro heq
      have hlen := congrArg (·.freeBlocks.length) heq
      simp [hfree] at hlen
    | some l =>
      obtain ⟨t', ht'⟩ := returns_appendBlock hfree hl
      rw [Returns, h] at ht'
      cases ht'

/-! ### Loops -/

/-- The free blocks less the number of requests with a list: every call that takes blocks lowers
it, every call that returns some raises it. -/
def slack (s : BlockManager) : ℤ := s.freeBlocks.length - s.blockTables.keys.length

theorem slack_release {r : ℕ} {u : Unit} (h : (release r).Returns s u t) : -t.slack < -s.slack := by
  obtain ⟨l, hl, rfl⟩ := returns_release.mp h
  have hkeys := length_keys_erase hl
  simp only [slack, List.length_append]
  push_cast
  omega

/-- A failed `batch_release` left no trace exactly when its first request has no list. -/
theorem batchRelease_unchanged_iff {ids : List ℕ} {e : String}
    (h : (batchRelease ids).exec s = (.error e, t)) :
    t = s ↔ ∃ r, ids.head? = some r ∧ s.blockTables.lookup r = none := by
  rw [batchRelease] at h
  rw [traceless_forM_iff (I := fun _ => True) (μ := fun s => -s.slack)
    (fun r s _ => release_traceless r s) (fun r s t _ hr => ⟨trivial, .inr (slack_release hr)⟩)
    trivial h]
  cases ids with
  | nil => cases h
  | cons r ids =>
    have hloud : ¬(release r).Returns s ⟨⟩ s := fun hr => lt_irrefl _ (slack_release hr)
    rw [firstFails_cons]
    simp only [hloud, false_and, or_false, List.head?_cons, Option.some.injEq, exists_eq_left']
    constructor
    · intro hnone
      cases hl : s.blockTables.lookup r with
      | none => rfl
      | some l => exact absurd (returns_release.mpr ⟨l, hl, rfl⟩) (hnone _)
    · intro hnone t ht
      obtain ⟨l, hl, -⟩ := returns_release.mp ht
      rw [hnone] at hl
      cases hl

/-- A round of `update_block_table`: blocks for a new request, or room for a token. -/
inductive Round
  | prefill (i : ℕ)
  | append (i : ℕ)
deriving DecidableEq, Repr

/-- The rounds of `update_block_table` in their order. -/
def rounds (numPrefillTokens numTokens : ℕ) : List Round :=
  (List.range numPrefillTokens).map .prefill ++ (List.range numTokens).map .append

namespace Round

section

variable (m : BatchMetadata W) (contextLens : List ℤ)

def run : Round → Attempt BlockManager Unit
  | prefill i => allocatePrefill m i
  | append i => appendToken m contextLens i

/-- The request of the round has what it needs: a list, or a place in its last block. -/
def Idle (s : BlockManager) : Round → Prop
  | prefill i => ∃ r, m.reqIds[i]? = some r ∧ s.hasSeqBlockList r = true
  | append i => ∃ r n, m.reqIds[i]? = some r ∧ s.hasSeqBlockList r = true ∧
      contextLens[i]? = some n ∧ 0 ≤ n ∧ n % s.blockSize ≠ 0

/-- The request of the round can be given the blocks it lacks. -/
def Feasible (s : BlockManager) : Round → Prop
  | prefill i => ∃ r p, m.reqIds[i]? = some r ∧ s.hasSeqBlockList r = false ∧
      m.initPrefillLens[i]? = some p ∧
      blocksNeeded s.blockSize p + s.reservedBlocks ≤ s.numFreeBlocks
  | append i => ∃ r n, m.reqIds[i]? = some r ∧ s.hasSeqBlockList r = true ∧
      contextLens[i]? = some n ∧ 0 ≤ n ∧ n % s.blockSize = 0 ∧ 1 < s.numFreeBlocks

end

variable {m : BatchMetadata W} {contextLens : List ℤ}

theorem returns_prefill {i : ℕ} : (run m contextLens (prefill i)).Returns s () t ↔
    (prefill i).Idle m contextLens s ∧ t = s ∨
      ∃ r p, m.reqIds[i]? = some r ∧ s.hasSeqBlockList r = false ∧
        m.initPrefillLens[i]? = some p ∧ (allocate r p).Returns s () t := by
  rw [run, returns_allocatePrefill, Idle]
  constructor
  · rintro ⟨r, hr, ⟨hhas, rfl⟩ | ⟨hhas, p, hp, h⟩⟩
    · exact .inl ⟨⟨r, hr, hhas⟩, rfl⟩
    · exact .inr ⟨r, p, hr, hhas, hp, h⟩
  · rintro (⟨⟨r, hr, hhas⟩, rfl⟩ | ⟨r, p, hr, hhas, hp, h⟩)
    · exact ⟨r, hr, .inl ⟨hhas, rfl⟩⟩
    · exact ⟨r, hr, .inr ⟨hhas, p, hp, h⟩⟩

theorem returns_append {i : ℕ} : (run m contextLens (append i)).Returns s () t ↔
    ∃ r n, m.reqIds[i]? = some r ∧ s.hasSeqBlockList r = true ∧ contextLens[i]? = some n ∧
      (appendTokens r n 1).Returns s () t := by
  rw [run, returns_appendToken]
  constructor
  · rintro ⟨r, hr, hhas, n, hn, h⟩
    exact ⟨r, n, hr, hhas, hn, h⟩
  · rintro ⟨r, n, hr, hhas, hn, h⟩
    exact ⟨r, hr, hhas, n, hn, h⟩

/-- A round that succeeds was idle and did nothing, or took blocks. -/
theorem slack_run (hbs : 0 < s.blockSize) {x : Round} (h : (x.run m contextLens).Returns s () t) :
    x.Idle m contextLens s ∧ t = s ∨
      x.Feasible m contextLens s ∧ t.slack < s.slack ∧ t.blockSize = s.blockSize := by
  cases x with
  | prefill i =>
    refine (returns_prefill.mp h).imp_right ?_
    rintro ⟨r, p, hr, hhas, hp, h⟩
    obtain ⟨hnone, hfree, rfl⟩ := returns_allocate.mp h
    refine ⟨⟨r, p, hr, hhas, hp, hfree⟩, ?_, rfl⟩
    simp only [slack, length_keys_insert_new _ hnone, List.length_drop]
    omega
  | append i =>
    obtain ⟨r, n, hr, hhas, hn, h⟩ := returns_append.mp h
    obtain ⟨l, hl, hnonneg, hcase⟩ := (returns_appendTokens_one hbs).mp h
    rcases hcase with ⟨hmid, rfl⟩ | ⟨hboundary, hfree, b, rest, hrest, rfl⟩
    · exact .inl ⟨⟨r, n, hr, hhas, hn, hnonneg, hmid⟩, rfl⟩
    · refine .inr ⟨⟨r, n, hr, hhas, hn, hnonneg, hboundary, hfree⟩, ?_, rfl⟩
      simp only [slack, length_keys_insert_old _ hl, hrest, List.length_cons]
      omega

theorem run_of_idle (hbs : 0 < s.blockSize) {x : Round} (h : x.Idle m contextLens s) :
    (x.run m contextLens).Returns s () s := by
  cases x with
  | prefill i => exact returns_prefill.mpr (.inl ⟨h, rfl⟩)
  | append i =>
    obtain ⟨r, n, hr, hhas, hn, hnonneg, hmid⟩ := h
    obtain ⟨l, hl⟩ := hasSeqBlockList_eq_true.mp hhas
    exact returns_append.mpr ⟨r, n, hr, hhas, hn,
      (returns_appendTokens_one hbs).mpr ⟨l, hl, hnonneg, .inl ⟨hmid, rfl⟩⟩⟩

theorem run_of_feasible (hbs : 0 < s.blockSize) {x : Round} (h : x.Feasible m contextLens s) :
    ∃ t, (x.run m contextLens).Returns s () t := by
  cases x with
  | prefill i =>
    obtain ⟨r, p, hr, hhas, hp, hfree⟩ := h
    exact ⟨_, returns_prefill.mpr (.inr ⟨r, p, hr, hhas, hp,
      returns_allocate.mpr ⟨hasSeqBlockList_eq_false.mp hhas, hfree, rfl⟩⟩)⟩
  | append i =>
    obtain ⟨r, n, hr, hhas, hn, hnonneg, hboundary, hfree⟩ := h
    obtain ⟨l, hl⟩ := hasSeqBlockList_eq_true.mp hhas
    obtain ⟨b, rest, hrest⟩ := List.exists_cons_of_length_pos (Nat.zero_lt_of_lt hfree)
    exact ⟨_, returns_append.mpr ⟨r, n, hr, hhas, hn, (returns_appendTokens_one hbs).mpr
      ⟨l, hl, hnonneg, .inr ⟨hboundary, hfree, b, rest, hrest, rfl⟩⟩⟩⟩

theorem idle_iff (hbs : 0 < s.blockSize) {x : Round} :
    (x.run m contextLens).Returns s () s ↔ x.Idle m contextLens s := by
  refine ⟨fun h => ?_, run_of_idle hbs⟩
  rcases slack_run hbs h with ⟨hidle, -⟩ | ⟨-, hlt, -⟩
  · exact hidle
  · omega

theorem fails_iff (hbs : 0 < s.blockSize) {x : Round} :
    (∀ t, ¬(x.run m contextLens).Returns s () t) ↔
      ¬x.Idle m contextLens s ∧ ¬x.Feasible m contextLens s := by
  constructor
  · intro h
    refine ⟨fun hidle => h s (run_of_idle hbs hidle), fun hfeasible => ?_⟩
    obtain ⟨t, ht⟩ := run_of_feasible hbs hfeasible
    exact h t ht
  · rintro ⟨hidle, hfeasible⟩ t h
    rcases slack_run hbs h with ⟨h, -⟩ | ⟨h, -⟩
    · exact hidle h
    · exact hfeasible h

theorem run_traceless (x : Round) (s : BlockManager) : (x.run m contextLens).Traceless s := by
  cases x with
  | prefill i =>
    refine traceless_nth_bind fun r _ => traceless_get_bind ?_
    split_ifs
    · exact Returns.traceless (a := ()) (returns_pure.mpr ⟨rfl, rfl⟩)
    · exact traceless_nth_bind fun p _ => allocate_traceless r p s
  | append i =>
    exact traceless_nth_bind fun r _ => traceless_get_bind <| traceless_check_bind fun _ =>
      traceless_nth_bind fun n _ => appendTokens_traceless r n 1 s

end Round

theorem updateBlockTable_eq {m : BatchMetadata W} {p d : ℕ} (hp : m.numPrefillTokens = some p)
    (hd : m.numDecodeTokens = some d) (contextLens : List ℤ) :
    updateBlockTable m contextLens = (rounds p m.numTokens).forM (Round.run m contextLens) := by
  simp only [updateBlockTable, hp, hd, optionalValue, pure_bind, rounds, List.forM_eq_forM,
    List.forM_append, List.forM_map]
  rfl

/-- A failed `update_block_table` left no trace exactly when the batch has no counts, or the first
round that is not idle is the one that failed. -/
theorem updateBlockTable_unchanged_iff (hbs : 0 < s.blockSize) {m : BatchMetadata W}
    {contextLens : List ℤ} {e : String}
    (h : (updateBlockTable m contextLens).exec s = (.error e, t)) :
    t = s ↔ ∀ p d, m.numPrefillTokens = some p → m.numDecodeTokens = some d →
      ∃ before x after, rounds p m.numTokens = before ++ x :: after ∧
        (∀ y ∈ before, y.Idle m contextLens s) ∧ ¬x.Idle m contextLens s ∧
        ¬x.Feasible m contextLens s := by
  cases hp : m.numPrefillTokens with
  | none =>
    simp only [updateBlockTable, hp, optionalValue, exec_bind, exec_throw] at h
    exact iff_of_true (congrArg Prod.snd h).symm (by simp)
  | some p =>
    cases hd : m.numDecodeTokens with
    | none =>
      simp only [updateBlockTable, hp, hd, optionalValue, pure_bind, exec_bind, exec_throw] at h
      exact iff_of_true (congrArg Prod.snd h).symm (by simp)
    | some d =>
      rw [updateBlockTable_eq hp hd] at h
      have hrun : ∀ (x : Round) (s t : BlockManager), 0 < s.blockSize →
          (x.run m contextLens).Returns s ⟨⟩ t →
            0 < t.blockSize ∧ (t = s ∨ t.slack < s.slack) := by
        intro x s t hbs hx
        rcases Round.slack_run hbs hx with ⟨-, rfl⟩ | ⟨-, hlt, hsize⟩
        · exact ⟨hbs, .inl rfl⟩
        · exact ⟨hsize ▸ hbs, .inr hlt⟩
      rw [traceless_forM_iff (I := fun s => 0 < s.blockSize) (μ := slack)
        (fun x s _ => Round.run_traceless x s) hrun hbs h]
      simp only [FirstFails, Round.idle_iff hbs, Round.fails_iff hbs]
      constructor
      · rintro hfirst _ _ ⟨rfl⟩ ⟨rfl⟩
        exact hfirst
      · intro hfirst
        exact hfirst p d rfl rfl

/-! ### All calls -/

inductive Call (W : Type)
  | allocate (reqId : ℕ) (seqLen : ℤ)
  | appendBlock (reqId : ℕ)
  | appendTokens (reqId : ℕ) (contextLen numTokens : ℤ)
  | updateBlockTable (m : BatchMetadata W) (contextLens : List ℤ)
  | release (reqId : ℕ)
  | batchRelease (reqIds : List ℕ)

namespace Call

def run : Call W → Attempt BlockManager Unit
  | allocate reqId seqLen => BlockManager.allocate reqId seqLen
  | appendBlock reqId => BlockManager.appendBlock reqId
  | appendTokens reqId contextLen numTokens =>
    BlockManager.appendTokens reqId contextLen numTokens
  | updateBlockTable m contextLens => BlockManager.updateBlockTable m contextLens
  | release reqId => BlockManager.release reqId
  | batchRelease reqIds => BlockManager.batchRelease reqIds

/-- Nothing is done before the assertion that fails. -/
def Clean (s : BlockManager) : Call W → Prop
  -- a block is taken before the request is looked up
  | appendBlock _ => s.freeBlocks = []
  -- the first request of the list is the one without blocks
  | batchRelease reqIds => ∃ r, reqIds.head? = some r ∧ s.blockTables.lookup r = none
  -- the first request of the batch that lacks anything cannot get it
  | updateBlockTable m contextLens => ∀ p d, m.numPrefillTokens = some p →
      m.numDecodeTokens = some d → ∃ before x after, rounds p m.numTokens = before ++ x :: after ∧
        (∀ y ∈ before, y.Idle m contextLens s) ∧ ¬x.Idle m contextLens s ∧
        ¬x.Feasible m contextLens s
  | _ => True

end Call

/-- **Which failed calls leave no trace**: `allocate`, `append_tokens` and `release` always, the
others when nothing was done before the assertion that failed. -/
theorem call_unchanged_iff (hbs : 0 < s.blockSize) (c : Call W) {e : String}
    (h : c.run.exec s = (.error e, t)) : t = s ↔ c.Clean s := by
  cases c with
  | allocate r len => exact iff_of_true (allocate_traceless r len s e t h) trivial
  | appendBlock r => exact appendBlock_unchanged_iff h
  | appendTokens r contextLen numTokens =>
    exact iff_of_true (appendTokens_traceless r contextLen numTokens s e t h) trivial
  | updateBlockTable m contextLens => exact updateBlockTable_unchanged_iff hbs h
  | release r => exact iff_of_true (release_traceless r s e t h) trivial
  | batchRelease ids => exact batchRelease_unchanged_iff h

/-- Three blocks of two tokens, none in use: too few for seven tokens. -/
theorem allocate_seven_unchanged :
    ((Call.allocate 5 7 : Call ℕ).run.exec (create 2 3 0)).2 = create 2 3 0 := by
  have hfail : (Call.allocate 5 7 : Call ℕ).run.exec (create 2 3 0) =
      (.error "num_free_blocks() >= blocks_needed + reserved_blocks_",
        ((Call.allocate 5 7 : Call ℕ).run.exec (create 2 3 0)).2) := rfl
  exact (call_unchanged_iff (by decide) (Call.allocate 5 7 : Call ℕ) hfail).mpr trivial

/-- A new request of two tokens next to a request `8` that has no blocks. -/
def newAndLost : BatchMetadata ℕ where
  batchTag := .attention
  numTokens := 2
  tokenHiddenDim := 1
  layerId := 0
  reqIds := [7, 8]
  expIds := []
  topkWeights := []
  attnDpRanks := []
  initPrefillLens := [2, -1]
  numPrefillSeqs := some 1
  numPrefillTokens := some 1
  numDecodeTokens := some 1

/-- Request `7` has a block and request `8` has none. -/
def oneTable : BlockManager where
  blockSize := 2
  numBlocks := 3
  reservedBlocks := 0
  freeBlocks := [1, 2]
  blockTables := AList.insert 7 [0] ∅

/-- A block that is neither free nor owned after a failed `append_block`, blocks of a new request
after a failed `update_block_table`, and a request that is gone after a failed `batch_release`. -/
theorem failed_calls_leave_traces :
    (Call.appendBlock 8 : Call ℕ).run.exec oneTable =
        (.error "seq_block_list != block_tables_.end()", { oneTable with freeBlocks := [2] }) ∧
      ((Call.updateBlockTable newAndLost [2, 2]).run.exec (create 2 3 0)).1 =
        .error "has_seq_block_list(req_id)" ∧
      ((Call.updateBlockTable newAndLost [2, 2]).run.exec (create 2 3 0)).2.freeBlocks = [2] ∧
      (Call.batchRelease [7, 8] : Call ℕ).run.exec oneTable =
        (.error "block_tables_.find(req_ids) != block_tables_.end()",
          { oneTable with freeBlocks := [1, 2, 0], blockTables := ∅ }) :=
  ⟨rfl, rfl, rfl, rfl⟩

end BlockManager

end StreamEP

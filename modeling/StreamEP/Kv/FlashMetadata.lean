import StreamEP.Kv.Tables
import Mathlib.Algebra.Order.Floor.Div

/-!
# Packing the attention metadata

`pack_flash_attn_metadata` of `disagmoe/block_manager/block_manager.py`: how the tables of the
block manager reach the attention kernels. Without GDR staging they come in two flat vectors that
are sliced by hand, some of them from the end. With it they are copied to the front of buffers
that are kept between batches, and the kernels get views of those.

The fields of `FlashAttentionMetadata` that are constants in both variants are left out.

## Main results

* `BlockManager.packFlashAttnMetadata_agree` — all variants pack the same metadata
-/

namespace StreamEP

variable {W : Type}

/-! ### Buffers and views -/

/-- A device buffer of `size` entries that is mapped for writing from the host. -/
structure GdrBuffer (size : ℕ) where
  cells : List ℤ
  length_cells : cells.length = size

namespace GdrBuffer

variable {size : ℕ}

/-- `GdrContext::copy_from_host` at offset `0`: overwrite the first entries. -/
def copyFromHost (buf : GdrBuffer size) (src : List ℤ) : Except String (GdrBuffer size) :=
  if src = [] then .error "GdrContext::copy_from_host: src == nullptr"
  else if h : src.length > size then .error "GdrContext::copy_from_host overflow"
  else .ok ⟨src ++ buf.cells.drop src.length, by
    rw [List.length_append, List.length_drop, buf.length_cells]
    omega⟩

theorem copyFromHost_eq (buf : GdrBuffer size) (src : List ℤ) (hne : 0 < src.length)
    (hle : src.length ≤ size) : ∃ buf', buf.copyFromHost src = .ok buf' ∧
      buf'.cells = src ++ buf.cells.drop src.length := by
  rw [copyFromHost, if_neg (List.ne_nil_of_length_pos hne), dif_neg (by omega)]
  exact ⟨_, rfl, rfl⟩

theorem copyFromHost_overflow (buf : GdrBuffer size) {src : List ℤ} (h : size < src.length) :
    buf.copyFromHost src = .error "GdrContext::copy_from_host overflow" := by
  have hne : src ≠ [] := List.ne_nil_of_length_pos (by omega)
  rw [copyFromHost, if_neg hne, dif_pos h]

end GdrBuffer

/-- `rebind_1d_tensor` at offset `0` -/
def rebind1dTensor (base : List ℤ) (length : ℕ) : List ℤ := base.take length

/-- `rebind_2d_tensor` at offset `0` with column stride `1` -/
def rebind2dTensor (base : List ℤ) (rows cols rowStride : ℕ) : List (List ℤ) :=
  (List.range rows).map fun i => (base.drop (i * rowStride)).take cols

/-- The slice `xs[-n:]`; with `n = 0` it is all of `xs`. -/
def sliceLast (xs : List ℤ) (n : ℕ) : List ℤ := if n = 0 then xs else xs.drop (xs.length - n)

/-- The slice `xs[:-n]`; with `n = 0` it is empty. -/
def sliceInit (xs : List ℤ) (n : ℕ) : List ℤ := if n = 0 then [] else xs.take (xs.length - n)

/-- `xs.view(n, -1)` -/
def view (xs : List ℤ) (n : ℕ) : Except String (List (List ℤ)) := do
  ensure (0 < n ∧ xs.length % n = 0) "shape is invalid for input"
  return rebind2dTensor xs n (xs.length / n) (xs.length / n)

structure BatchTensorBuffer (maxBatchSize maxNumPages : ℕ) where
  blockTable : GdrBuffer (maxBatchSize * maxNumPages)
  slotMapping : GdrBuffer maxBatchSize
  seqLens : GdrBuffer maxBatchSize
  contextLens : GdrBuffer maxBatchSize
  seqStartLoc : GdrBuffer (maxBatchSize + 1)

/-- `query_start_loc`: never written after its creation. -/
def queryStartLoc (maxBatchSize : ℕ) : List ℤ := (List.range (maxBatchSize + 1)).map (↑)

/-- What packing reads of an `AttentionScheduleBatch`. -/
structure AttentionScheduleBatch where
  numPrefillSeqs : ℕ
  numPrefillTokens : ℕ
  numDecodeTokens : ℕ
  seqLens : List ℤ
deriving DecidableEq, Repr

structure FlashAttentionMetadata where
  numDecodeTokens : ℕ
  maxDecodeSeqLen : ℤ
  seqLens : List ℤ
  blockTables : List (List ℤ)
  slotMapping : List ℤ
  seqLensTensor : List ℤ
  contextLensTensor : List ℤ
  seqStartLoc : List ℤ
  queryStartLoc : List ℤ
deriving DecidableEq, Repr

/-- `max(batch.seq_lens)`, or `0` for an empty batch. -/
def maxDecodeSeqLen (seqLens : List ℤ) : ℤ := seqLens.max?.getD 0

namespace BlockManager

/-! ### Packing -/

section Pack

variable {maxBatchSize maxNumPages : ℕ} (s : BlockManager) (m : BatchMetadata W)
  (batch : AttentionScheduleBatch) (buf : BatchTensorBuffer maxBatchSize maxNumPages)

/-- `prepare_block_table_gdr` with the copies it ends with. -/
def stageBlockTable : Except String (ℕ × BatchTensorBuffer maxBatchSize maxNumPages) := do
  let (numPages, table, slots) ← s.prepareBlockTableGdr m batch.seqLens
  let blockTable ← buf.blockTable.copyFromHost table
  let slotMapping ← buf.slotMapping.copyFromHost slots
  return (numPages, { buf with blockTable := blockTable, slotMapping := slotMapping })

/-- `prepare_seq_info_gdr` with the copies it ends with. -/
def stageSeqInfo : Except String (BatchTensorBuffer maxBatchSize maxNumPages) := do
  let (lens, contexts, starts) ← prepareSeqInfoGdr m batch.seqLens
  let seqLens ← buf.seqLens.copyFromHost lens
  let contextLens ← buf.contextLens.copyFromHost contexts
  let seqStartLoc ← buf.seqStartLoc.copyFromHost starts
  return { buf with seqLens := seqLens, contextLens := contextLens, seqStartLoc := seqStartLoc }

def packFlashAttnMetadataOpt :
    Except String (FlashAttentionMetadata × BatchTensorBuffer maxBatchSize maxNumPages) := do
  let numTokens := batch.numDecodeTokens + batch.numPrefillTokens
  let (numPagesPerToken, buf) ← stageBlockTable s m batch buf
  let buf ← stageSeqInfo m batch buf
  return ({
    numDecodeTokens := numTokens
    maxDecodeSeqLen := maxDecodeSeqLen batch.seqLens
    seqLens := batch.seqLens
    blockTables := rebind2dTensor buf.blockTable.cells numTokens numPagesPerToken numPagesPerToken
    slotMapping := rebind1dTensor buf.slotMapping.cells numTokens
    seqLensTensor := rebind1dTensor buf.seqLens.cells numTokens
    contextLensTensor := rebind1dTensor buf.contextLens.cells numTokens
    seqStartLoc := rebind1dTensor buf.seqStartLoc.cells (numTokens + 1)
    queryStartLoc := rebind1dTensor (queryStartLoc maxBatchSize) (numTokens + 1) }, buf)

/-- The first part of `pack_flash_attn_metadata_naive`: block tables and slots. -/
def naiveBlockTable (useGdrCopy dummyCache : Bool) : Except String
    (List (List ℤ) × List ℤ × BatchTensorBuffer maxBatchSize maxNumPages) := do
  let numTokens := batch.numDecodeTokens + batch.numPrefillTokens
  if dummyCache then
    -- warm-up: block `0` for everyone
    match batch.seqLens.max? with
    | none => .error "max() arg is an empty sequence"
    | some longest =>
      let maxNumBlocks := ((longest - 1).fdiv s.blockSize + 1).toNat
      let blockTables ← view (List.replicate (numTokens * maxNumBlocks) 0) numTokens
      return (blockTables, List.replicate numTokens 0, buf)
  else if useGdrCopy then
    let (numPagesPerToken, buf) ← stageBlockTable s m batch buf
    let blockTables ← view (buf.blockTable.cells.take (numPagesPerToken * numTokens)) numTokens
    return (blockTables, buf.slotMapping.cells.take numTokens, buf)
  else
    let blockTable1d ← s.prepareBlockTable m batch.seqLens
    let slotMapping := sliceLast blockTable1d numTokens
    let blockTables ← view (sliceInit blockTable1d numTokens) numTokens
    return (blockTables, slotMapping, buf)

/-- The second part of `pack_flash_attn_metadata_naive`: lengths and start locations. -/
def naiveSeqInfo (useGdrCopy : Bool) : Except String
    (List ℤ × List ℤ × List ℤ × BatchTensorBuffer maxBatchSize maxNumPages) := do
  let numSeqs := batch.numPrefillSeqs + batch.numDecodeTokens
  if useGdrCopy then
    let buf ← stageSeqInfo m batch buf
    return (buf.seqLens.cells.take numSeqs, buf.contextLens.cells.take numSeqs,
      buf.seqStartLoc.cells.take (numSeqs + 1), buf)
  else
    let batchInfos ← prepareSeqInfo m batch.seqLens
    return (batchInfos.take numSeqs, (batchInfos.drop numSeqs).take numSeqs,
      batchInfos.drop (numSeqs + numSeqs), buf)

def packFlashAttnMetadataNaive (useGdrCopy dummyCache : Bool) :
    Except String (FlashAttentionMetadata × BatchTensorBuffer maxBatchSize maxNumPages) := do
  let numTokens := batch.numDecodeTokens + batch.numPrefillTokens
  let (blockTables, slotMapping, buf) ← naiveBlockTable s m batch buf useGdrCopy dummyCache
  let (lens, contexts, starts, buf) ← naiveSeqInfo m batch buf useGdrCopy
  return ({
    numDecodeTokens := numTokens
    maxDecodeSeqLen := maxDecodeSeqLen batch.seqLens
    seqLens := batch.seqLens
    blockTables := blockTables
    slotMapping := slotMapping
    seqLensTensor := lens
    contextLensTensor := contexts
    seqStartLoc := starts
    queryStartLoc := (queryStartLoc maxBatchSize).take (numTokens + 1) }, buf)

/-- `pack_flash_attn_metadata`, on the buffer that is in use after the swap. -/
def packFlashAttnMetadata (useRebind useGdrCopy dummyCache : Bool) :
    Except String (FlashAttentionMetadata × BatchTensorBuffer maxBatchSize maxNumPages) :=
  if useRebind && useGdrCopy && !dummyCache then packFlashAttnMetadataOpt s m batch buf
  else packFlashAttnMetadataNaive s m batch buf useGdrCopy dummyCache

end Pack

/-! ### Agreement -/

/-- A batch of the tokens of `m`: every token is a prefill of one sequence or a decode. -/
structure Schedules (batch : AttentionScheduleBatch) (m : BatchMetadata W) (lens : List ℕ) :
    Prop where
  prefill : batch.numPrefillSeqs = batch.numPrefillTokens
  tokens : batch.numDecodeTokens + batch.numPrefillTokens = m.numTokens
  seqLens : batch.seqLens = lens.map (↑)

/-- The metadata of a batch whose requests have the block lists `lists` and the lengths `lens`. -/
def packed (maxBatchSize blockSize : ℕ) (lists : List (List ℕ)) (lens : List ℕ) :
    FlashAttentionMetadata where
  numDecodeTokens := lens.length
  maxDecodeSeqLen := maxDecodeSeqLen (lens.map (↑))
  seqLens := lens.map (↑)
  blockTables := lists.map fun l =>
    l.map (↑) ++ List.replicate (numPages lists - l.length) (-1)
  slotMapping := List.zipWith (fun l n => (slotAt blockSize l (n - 1) : ℤ)) lists lens
  seqLensTensor := lens.map (↑)
  contextLensTensor := lens.map fun (n : ℕ) => (n : ℤ) - 1
  seqStartLoc := (lens.map ((↑) : ℕ → ℤ)).scanl (· + ·) 0
  queryStartLoc := (queryStartLoc maxBatchSize).take (lens.length + 1)

section Agree

variable {maxBatchSize maxNumPages : ℕ} {s : BlockManager} {m : BatchMetadata W}
  {batch : AttentionScheduleBatch} {lists : List (List ℕ)} {lens : List ℕ}

theorem length_flatten_rows {rows : List (List ℤ)} {k : ℕ} (h : ∀ row ∈ rows, row.length = k) :
    rows.flatten.length = rows.length * k := by
  rw [List.length_flatten, List.map_congr_left h]
  simp

theorem view_eq {rows : List (List ℤ)} {k : ℕ} (hne : 0 < rows.length)
    (h : ∀ row ∈ rows, row.length = k) : view rows.flatten rows.length = .ok rows := by
  have hrows := Scatter.map_range_rows h []
  rw [List.append_nil] at hrows
  rw [view, length_flatten_rows h, ensure_of_true ⟨hne, Nat.mul_mod_right _ _⟩, ok_bind,
    Nat.mul_div_cancel_left k hne, rebind2dTensor, hrows]
  rfl

theorem packed_eq (blockSize : ℕ) (lists : List (List ℕ)) {lens : List ℕ} {n : ℕ}
    (hn : lens.length = n) : packed maxBatchSize blockSize lists lens =
      { numDecodeTokens := n
        maxDecodeSeqLen := maxDecodeSeqLen (lens.map (↑))
        seqLens := lens.map (↑)
        blockTables := tableRows lists
        slotMapping := newestSlots blockSize lists lens
        seqLensTensor := lens.map (↑)
        contextLensTensor := lens.map fun (n : ℕ) => (n : ℤ) - 1
        seqStartLoc := (lens.map ((↑) : ℕ → ℤ)).scanl (· + ·) 0
        queryStartLoc := (queryStartLoc maxBatchSize).take (n + 1) } := by
  subst hn
  simp [packed, tableRows, newestSlots, Scatter.padRow]

theorem Holds.numPages_pos (h : Holds s m lists lens) (hpos : 0 < m.numTokens) :
    0 < numPages lists := by
  obtain ⟨l, hl⟩ : ∃ l, lists[0]? = some l := ⟨_, List.getElem?_eq_getElem (h.lists_length ▸ hpos)⟩
  obtain ⟨n, hn⟩ : ∃ n, lens[0]? = some n := ⟨_, List.getElem?_eq_getElem (h.lens_length ▸ hpos)⟩
  exact (Nat.zero_lt_of_lt (h.covered 0 l n hl hn).2).trans_le
    (le_numPages (List.mem_of_getElem? hl))

theorem Holds.length_newestSlots (h : Holds s m lists lens) :
    (newestSlots s.blockSize lists lens).length = m.numTokens := by
  simp [newestSlots, h.lists_length, h.lens_length]

/-- The table and the slots are copied to the front of their buffers. -/
theorem Holds.stageBlockTable_eq (h : Holds s m lists lens) (hb : Schedules batch m lens)
    (hpos : 0 < m.numTokens) (hfit : m.numTokens ≤ maxBatchSize)
    (hpages : m.numTokens * numPages lists ≤ maxBatchSize * maxNumPages)
    (buf : BatchTensorBuffer maxBatchSize maxNumPages) :
    ∃ (buf' : BatchTensorBuffer maxBatchSize maxNumPages) (t u : List ℤ),
      stageBlockTable s m batch buf = .ok (numPages lists, buf') ∧
      buf'.blockTable.cells = (tableRows lists).flatten ++ t ∧
      buf'.slotMapping.cells = newestSlots s.blockSize lists lens ++ u := by
  have hslots := h.length_newestSlots
  have htable := length_tableRows_flatten lists
  rw [h.lists_length] at htable
  have hcells : 0 < m.numTokens * numPages lists := Nat.mul_pos hpos (h.numPages_pos hpos)
  obtain ⟨table, htableCopy, htableCells⟩ := buf.blockTable.copyFromHost_eq
    (tableRows lists).flatten (by omega) (by omega)
  obtain ⟨slots, hslotsCopy, hslotsCells⟩ := buf.slotMapping.copyFromHost_eq
    (newestSlots s.blockSize lists lens) (by omega) (by omega)
  refine ⟨{ buf with blockTable := table, slotMapping := slots }, _, _, ?_, htableCells,
    hslotsCells⟩
  rw [stageBlockTable, hb.seqLens, h.prepareBlockTableGdr_eq, ok_bind]
  show (GdrBuffer.copyFromHost _ _ >>= _) = _
  rw [htableCopy, ok_bind, hslotsCopy]
  rfl

/-- The three vectors of lengths are copied to the front of their buffers. -/
theorem Holds.stageSeqInfo_eq (h : Holds s m lists lens) (hb : Schedules batch m lens)
    (hpos : 0 < m.numTokens) (hfit : m.numTokens ≤ maxBatchSize)
    (buf : BatchTensorBuffer maxBatchSize maxNumPages) :
    ∃ (buf' : BatchTensorBuffer maxBatchSize maxNumPages) (t u v : List ℤ),
      stageSeqInfo m batch buf = .ok buf' ∧ buf'.blockTable = buf.blockTable ∧
      buf'.slotMapping = buf.slotMapping ∧ buf'.seqLens.cells = lens.map (↑) ++ t ∧
      buf'.contextLens.cells = (lens.map fun (n : ℕ) => (n : ℤ) - 1) ++ u ∧
      buf'.seqStartLoc.cells = (lens.map ((↑) : ℕ → ℤ)).scanl (· + ·) 0 ++ v := by
  have hlen := h.lens_length
  obtain ⟨seqLens, hseq, hseqCells⟩ := buf.seqLens.copyFromHost_eq (lens.map (↑))
    (by rw [List.length_map]; omega) (by rw [List.length_map]; omega)
  obtain ⟨contexts, hcontexts, hcontextsCells⟩ := buf.contextLens.copyFromHost_eq
    (lens.map fun (n : ℕ) => (n : ℤ) - 1) (by rw [List.length_map]; omega)
    (by rw [List.length_map]; omega)
  obtain ⟨starts, hstarts, hstartsCells⟩ := buf.seqStartLoc.copyFromHost_eq
    ((lens.map ((↑) : ℕ → ℤ)).scanl (· + ·) 0) (by rw [List.length_scanl]; omega)
    (by rw [List.length_scanl, List.length_map]; omega)
  refine ⟨{ buf with seqLens := seqLens, contextLens := contexts, seqStartLoc := starts },
    _, _, _, ?_, rfl, rfl, hseqCells, hcontextsCells, hstartsCells⟩
  rw [stageSeqInfo, hb.seqLens, h.prepareSeqInfoGdr_eq, ok_bind]
  show (GdrBuffer.copyFromHost _ _ >>= _) = _
  rw [hseq, ok_bind, hcontexts, ok_bind, hstarts]
  rfl

theorem Holds.naiveBlockTable_eq (h : Holds s m lists lens) (hb : Schedules batch m lens)
    (hpos : 0 < m.numTokens) (hfit : m.numTokens ≤ maxBatchSize)
    (hpages : m.numTokens * numPages lists ≤ maxBatchSize * maxNumPages)
    (buf : BatchTensorBuffer maxBatchSize maxNumPages) (useGdrCopy : Bool) :
    ∃ buf', naiveBlockTable s m batch buf useGdrCopy false =
      .ok (tableRows lists, newestSlots s.blockSize lists lens, buf') := by
  have hrows : (tableRows lists).length = m.numTokens := by
    rw [tableRows, List.length_map, h.lists_length]
  have hview := view_eq (hrows ▸ hpos) fun row => length_of_mem_tableRows
  have htable := length_tableRows_flatten lists
  rw [h.lists_length] at htable
  rw [hrows] at hview
  have hslots := h.length_newestSlots
  simp only [naiveBlockTable, Bool.false_eq_true, if_false, hb.tokens]
  cases useGdrCopy with
  | true =>
    obtain ⟨buf', t, u, hstage, htcells, hscells⟩ := h.stageBlockTable_eq hb hpos hfit hpages buf
    refine ⟨buf', ?_⟩
    rw [if_pos rfl, hstage, ok_bind]
    show (view (buf'.blockTable.cells.take _) _ >>= _) = _
    rw [htcells, Nat.mul_comm, List.take_left' htable, hview, hscells, List.take_left' hslots]
    rfl
  | false =>
    refine ⟨buf, ?_⟩
    have hlen : ((tableRows lists).flatten ++ newestSlots s.blockSize lists lens).length -
        m.numTokens = m.numTokens * numPages lists := by
      rw [List.length_append, htable, hslots, Nat.add_sub_cancel]
    rw [if_neg (by simp), hb.seqLens, h.prepareBlockTable_eq, ok_bind]
    simp only [sliceLast, sliceInit, if_neg hpos.ne', hlen, List.take_left' htable,
      List.drop_left' htable, hview]
    rfl

theorem Holds.naiveSeqInfo_eq (h : Holds s m lists lens) (hb : Schedules batch m lens)
    (hpos : 0 < m.numTokens) (hfit : m.numTokens ≤ maxBatchSize)
    (buf : BatchTensorBuffer maxBatchSize maxNumPages) (useGdrCopy : Bool) :
    ∃ buf', naiveSeqInfo m batch buf useGdrCopy =
      .ok (lens.map (↑), lens.map fun (n : ℕ) => (n : ℤ) - 1,
        (lens.map ((↑) : ℕ → ℤ)).scanl (· + ·) 0, buf') := by
  have hseqs : batch.numPrefillSeqs + batch.numDecodeTokens = lens.length := by
    rw [hb.prefill, Nat.add_comm, hb.tokens, h.lens_length]
  have hlen : (lens.map ((↑) : ℕ → ℤ)).length = lens.length := List.length_map _
  have hcontext : (lens.map fun (n : ℕ) => (n : ℤ) - 1).length = lens.length := List.length_map _
  have hstart : ((lens.map ((↑) : ℕ → ℤ)).scanl (· + ·) 0).length = lens.length + 1 := by
    rw [List.length_scanl, List.length_map]
  simp only [naiveSeqInfo, hseqs]
  cases useGdrCopy with
  | true =>
    obtain ⟨buf', t, u, v, hstage, -, -, hseq, hcontexts, hstarts⟩ :=
      h.stageSeqInfo_eq hb hpos hfit buf
    refine ⟨buf', ?_⟩
    rw [if_pos rfl, hstage, ok_bind, hseq, hcontexts, hstarts, List.take_left' hlen,
      List.take_left' hcontext, List.take_left' hstart]
    rfl
  | false =>
    refine ⟨buf, ?_⟩
    rw [if_neg (by simp), hb.seqLens, h.prepareSeqInfo_eq, ok_bind, List.append_assoc,
      List.take_left' hlen, List.drop_left' hlen, List.take_left' hcontext,
      ← List.drop_drop, List.drop_left' hlen, List.drop_left' hcontext]
    rfl

theorem div_lt_of_ceilDiv_le {bs n k : ℕ} (hbs : 0 < bs) (hn : 1 ≤ n) (h : n ⌈/⌉ bs ≤ k) :
    (n - 1) / bs < k := by
  have hle : n ≤ bs * k := (ceilDiv_le_iff_le_mul hbs).mp h
  exact Nat.div_lt_of_lt_mul (by omega)

/-- **All variants pack the same metadata**: the block lists filled up with `-1`, the slots of
the newest tokens, the lengths, the context lengths and the prefix sums of the lengths, whatever
the buffers held before. -/
theorem packFlashAttnMetadata_agree (hbs : 0 < s.blockSize) (hpos : 0 < m.numTokens)
    (hreq : m.reqIds.length = m.numTokens)
    (hlists : m.reqIds.map s.blockTables.lookup = lists.map some)
    (hlens : lens.length = m.numTokens)
    (hcover : ∀ (i : ℕ) (l : List ℕ) (n : ℕ), lists[i]? = some l → lens[i]? = some n →
      1 ≤ n ∧ n ⌈/⌉ s.blockSize ≤ l.length)
    (hb : Schedules batch m lens) (hfit : m.numTokens ≤ maxBatchSize)
    (hpages : m.numTokens * numPages lists ≤ maxBatchSize * maxNumPages)
    (buf : BatchTensorBuffer maxBatchSize maxNumPages) (useRebind useGdrCopy : Bool) :
    ∃ buf', packFlashAttnMetadata s m batch buf useRebind useGdrCopy false =
      .ok (packed maxBatchSize s.blockSize lists lens, buf') := by
  have h : Holds s m lists lens := ⟨hbs, hreq, hlists, hlens, fun i l n hl hn =>
    ⟨(hcover i l n hl hn).1, div_lt_of_ceilDiv_le hbs (hcover i l n hl hn).1
      (hcover i l n hl hn).2⟩⟩
  rw [packFlashAttnMetadata]
  split_ifs with hopt
  · -- the views start where the copies start
    obtain ⟨buf₁, t, u, hstage, htable, hslots⟩ := h.stageBlockTable_eq hb hpos hfit hpages buf
    obtain ⟨buf₂, t', u', v', hinfo, htable', hslots', hseq, hcontexts, hstarts⟩ :=
      h.stageSeqInfo_eq hb hpos hfit buf₁
    refine ⟨buf₂, ?_⟩
    have hrows := Scatter.map_range_rows (fun row => @length_of_mem_tableRows lists row) t
    have hlen : (tableRows lists).length = m.numTokens := by
      rw [tableRows, List.length_map, h.lists_length]
    have hstart : ((lens.map ((↑) : ℕ → ℤ)).scanl (· + ·) 0).length = m.numTokens + 1 := by
      rw [List.length_scanl, List.length_map, hlens]
    rw [hlen] at hrows
    rw [packFlashAttnMetadataOpt, hstage, ok_bind]
    show (stageSeqInfo m batch buf₁ >>= _) = _
    rw [hinfo, ok_bind, packed_eq _ _ hlens, hb.tokens, hb.seqLens, htable', hslots', htable,
      hslots, hseq, hcontexts, hstarts]
    simp only [rebind2dTensor, rebind1dTensor, hrows, List.take_left' h.length_newestSlots,
      List.take_left' ((List.length_map _).trans hlens), List.take_left' hstart]
    rfl
  · obtain ⟨buf₁, htable⟩ := h.naiveBlockTable_eq hb hpos hfit hpages buf useGdrCopy
    obtain ⟨buf₂, hinfo⟩ := h.naiveSeqInfo_eq hb hpos hfit buf₁ useGdrCopy
    refine ⟨buf₂, ?_⟩
    rw [packFlashAttnMetadataNaive, htable, ok_bind]
    show (naiveSeqInfo m batch buf₁ useGdrCopy >>= _) = _
    rw [hinfo, ok_bind, packed_eq _ _ hlens, hb.tokens, hb.seqLens]
    rfl

end Agree

/-- Blocks of two tokens; request `7` has one of them and request `8` has two. -/
def twoTables : BlockManager where
  blockSize := 2
  numBlocks := 4
  reservedBlocks := 0
  freeBlocks := [3]
  blockTables := AList.insert 8 [0, 2] (AList.insert 7 [1] ∅)

/-- One token for each of the two. -/
def twoDecodes : BatchMetadata ℕ where
  batchTag := .attention
  numTokens := 2
  tokenHiddenDim := 1
  layerId := 0
  reqIds := [7, 8]
  expIds := []
  topkWeights := []
  attnDpRanks := []
  initPrefillLens := [-1, -1]

def staleBuffers : BatchTensorBuffer 2 2 where
  blockTable := ⟨[9, 9, 9, 9], rfl⟩
  slotMapping := ⟨[9, 9], rfl⟩
  seqLens := ⟨[9, 9], rfl⟩
  contextLens := ⟨[9, 9], rfl⟩
  seqStartLoc := ⟨[9, 9, 9], rfl⟩

theorem packFlashAttnMetadata_agree_two : ∃ buf',
    packFlashAttnMetadata twoTables twoDecodes ⟨0, 0, 2, [2, 3]⟩ staleBuffers true true false =
      .ok (packed 2 2 [[1], [0, 2]] [2, 3], buf') := by
  refine @packFlashAttnMetadata_agree ℕ 2 2 twoTables twoDecodes ⟨0, 0, 2, [2, 3]⟩ [[1], [0, 2]]
    [2, 3] (by decide) (by decide) rfl (by decide) rfl ?_ ⟨rfl, rfl, rfl⟩ (by decide) (by decide)
    staleBuffers true true
  intro i l n hl hn
  match i, hl, hn with
  | 0, hl, hn => cases hl; cases hn; decide
  | 1, hl, hn => cases hl; cases hn; decide

end BlockManager

end StreamEP

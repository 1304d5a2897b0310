import StreamEP.Batch.Metadata
import StreamEP.Lib.Attempt
import StreamEP.Lib.Scatter
import Mathlib.Data.List.AList

/-!
# Blocks of the key-value cache

`BlockManager` of `csrc/engine/block_manager.cpp`: a queue of free blocks and a list of blocks per
request. A request has no blocks of its own until it enters its first batch; then it gets enough
for the tokens it starts with, and one more whenever its length reaches a multiple of the block
size.

An operation that throws keeps what it has done so far, so operations are `Attempt`s. Request ids
and block ids are natural numbers; lengths are integers, as a batch carries `-1` for requests that
are decoding. Reading a vector past its end is undefined in the source and an error here.
-/

namespace StreamEP

structure BlockManager where
  blockSize : ℕ
  numBlocks : ℕ
  reservedBlocks : ℕ
  freeBlocks : List ℕ
  blockTables : AList fun _ : ℕ => List ℕ

namespace BlockManager

open Attempt

variable {W : Type}

/-- The constructor: all blocks are free. -/
def create (blockSize numBlocks reservedBlocks : ℕ) : BlockManager where
  blockSize := blockSize
  numBlocks := numBlocks
  reservedBlocks := reservedBlocks
  freeBlocks := List.range (numBlocks + reservedBlocks)
  blockTables := ∅

def numFreeBlocks (s : BlockManager) : ℕ := s.freeBlocks.length

def hasSeqBlockList (s : BlockManager) (reqId : ℕ) : Bool := (s.blockTables.lookup reqId).isSome

def getOneFreeBlock : Attempt BlockManager ℕ := do
  let s ← get
  match s.freeBlocks with
  | [] => throw "free_blocks_.size() > 0"
  | blockId :: rest => do
    set { s with freeBlocks := rest }
    return blockId

def release (reqId : ℕ) : Attempt BlockManager Unit := do
  let s ← get
  match s.blockTables.lookup reqId with
  | none => throw "block_tables_.find(req_ids) != block_tables_.end()"
  | some blocks =>
    set { s with
      freeBlocks := s.freeBlocks ++ blocks
      blockTables := s.blockTables.erase reqId }

def batchRelease (reqIds : List ℕ) : Attempt BlockManager Unit := reqIds.forM release

/-- The loop of `allocate`: `n` free blocks. -/
def takeFreeBlocks : ℕ → Attempt BlockManager (List ℕ)
  | 0 => pure []
  | n + 1 => do
    let newBlockId ← getOneFreeBlock
    let blockList ← takeFreeBlocks n
    return newBlockId :: blockList

def blocksNeeded (blockSize : ℕ) (seqLen : ℤ) : ℕ :=
  if seqLen > 0 then ((seqLen - 1) / blockSize + 1).toNat else 0

def allocate (reqId : ℕ) (seqLen : ℤ) : Attempt BlockManager Unit := do
  let s ← get
  check (s.hasSeqBlockList reqId = false) "block_tables_.find(req_id) == block_tables_.end()"
  check (s.numFreeBlocks ≥ blocksNeeded s.blockSize seqLen + s.reservedBlocks)
    "num_free_blocks() >= blocks_needed + reserved_blocks_"
  let blockList ← takeFreeBlocks (blocksNeeded s.blockSize seqLen)
  modify fun s => { s with blockTables := s.blockTables.insert reqId blockList }

/-- `append_block`: the block is taken before the request is looked up. -/
def appendBlock (reqId : ℕ) : Attempt BlockManager Unit := do
  let s ← get
  check (s.numFreeBlocks > 0) "num_free_blocks() > 0"
  let newBlockId ← getOneFreeBlock
  let s ← get
  match s.blockTables.lookup reqId with
  | none => throw "seq_block_list != block_tables_.end()"
  | some blocks =>
    set { s with blockTables := s.blockTables.insert reqId (blocks ++ [newBlockId]) }

/-- The loop of `append_tokens`: append free blocks to the list of a request. -/
def appendFreeBlocks (reqId : ℕ) : ℕ → Attempt BlockManager Unit
  | 0 => pure ()
  | n + 1 => do
    let blockToAppend ← getOneFreeBlock
    modify fun s => { s with
      blockTables := s.blockTables.insert reqId
        ((s.blockTables.lookup reqId).getD [] ++ [blockToAppend]) }
    appendFreeBlocks reqId n

/-- `remain_slots`: the free places in the last block of a request. -/
def remainSlots (blockSize : ℕ) (contextLen : ℤ) : ℤ :=
  if blockSize - contextLen % blockSize = blockSize then 0
  else blockSize - contextLen % blockSize

def appendTokens (reqId : ℕ) (contextLen numTokens : ℤ) : Attempt BlockManager Unit := do
  let s ← get
  check (numTokens ≥ 1) "num_tokens >= 1"
  check (s.hasSeqBlockList reqId = true) "has_seq_block_list(req_id)"
  check (contextLen ≥ 0) "context_len >= 0"
  if numTokens > remainSlots s.blockSize contextLen then do
    let blocksToAdd := (numTokens - remainSlots s.blockSize contextLen - 1) / s.blockSize + 1
    check (s.numFreeBlocks > blocksToAdd) "num_free_blocks() > blocks_to_add"
    appendFreeBlocks reqId blocksToAdd.toNat
  else pure ()

/-- `std::optional::value`. -/
def optionalValue {σ α : Type} : Option α → Attempt σ α
  | some a => pure a
  | none => throw "bad optional access"

/-- `update_block_table`, the first loop: blocks for the new requests. A request that was given
blocks when its cache was loaded keeps them. -/
def allocatePrefill (m : BatchMetadata W) (i : ℕ) : Attempt BlockManager Unit := do
  let reqId ← nth m.reqIds i
  let s ← get
  if s.hasSeqBlockList reqId then pure ()
  else do
    let initPrefillLen ← nth m.initPrefillLens i
    allocate reqId initPrefillLen

/-- `update_block_table`, the second loop: room for one token. -/
def appendToken (m : BatchMetadata W) (contextLens : List ℤ) (i : ℕ) :
    Attempt BlockManager Unit := do
  let reqId ← nth m.reqIds i
  let s ← get
  check (s.hasSeqBlockList reqId = true) "has_seq_block_list(req_id)"
  let contextLen ← nth contextLens i
  appendTokens reqId contextLen 1

def updateBlockTable (m : BatchMetadata W) (contextLens : List ℤ) :
    Attempt BlockManager Unit := do
  let numPrefillTokens ← optionalValue m.numPrefillTokens
  let _ ← optionalValue m.numDecodeTokens
  (List.range numPrefillTokens).forM (allocatePrefill m)
  (List.range m.numTokens).forM (appendToken m contextLens)

/-! ### Tables for the kernels -/

/-- Read a vector at a signed index. -/
def readAt {α : Type} (l : List α) (i : ℤ) : Except String α :=
  if i < 0 then .error "index out of range"
  else match l[i.toNat]? with
    | some a => .ok a
    | none => .error "index out of range"

/-- The block list of request `i` of a batch. -/
def seqBlockList (s : BlockManager) (m : BatchMetadata W) (i : ℕ) : Except String (List ℕ) := do
  let id ← readAt m.reqIds i
  match s.blockTables.lookup id with
  | none => .error "has_seq_block_list(id)"
  | some list => .ok list

def seqBlockLists (s : BlockManager) (m : BatchMetadata W) : Except String (List (List ℕ)) :=
  (List.range m.numTokens).mapM (s.seqBlockList m)

def numPages (lists : List (List ℕ)) : ℕ := (lists.map List.length).foldl max 0

/-- A table of `size` entries: entry `j` of list `i` is written to place `i * m + j`, and `-1`
stays elsewhere. -/
def blockTable (size m : ℕ) (lists : List (List ℕ)) : List ℤ :=
  Scatter.scatter (List.replicate size (-1)) (Scatter.rowPositions m lists 0)
    (lists.flatten.map (↑))

/-- The slot of the last token of row `i`, read from the table. -/
def slotOf (blockSize m : ℕ) (table : List ℤ) (decodeSeqLens : List ℤ) (i : ℕ) :
    Except String ℤ := do
  let decodeSeqLen ← readAt decodeSeqLens i
  let lastIdx := decodeSeqLen - 1
  let block ← readAt table (i * m + lastIdx.tdiv blockSize)
  return block * blockSize + lastIdx.tmod blockSize

/-- `prepare_block_table`: the table, then the slots, in one vector. -/
def prepareBlockTable (s : BlockManager) (m : BatchMetadata W) (decodeSeqLens : List ℤ) :
    Except String (List ℤ) := do
  let lists ← s.seqBlockLists m
  let n := m.numTokens
  let pages := numPages lists
  (List.range n).foldlM
    (fun table i => do
      let slot ← slotOf s.blockSize pages table decodeSeqLens i
      return table.set (n * pages + i) slot)
    (blockTable (n * pages + n) pages lists)

/-- `prepare_block_table_gdr`: the number of pages, and the table and the slots it copies. -/
def prepareBlockTableGdr (s : BlockManager) (m : BatchMetadata W) (decodeSeqLens : List ℤ) :
    Except String (ℕ × List ℤ × List ℤ) := do
  let lists ← s.seqBlockLists m
  let n := m.numTokens
  let pages := numPages lists
  let table := blockTable (n * pages) pages lists
  let slotMapping ← (List.range n).mapM (slotOf s.blockSize pages table decodeSeqLens)
  return (pages, table, slotMapping)

/-- The first `num_tokens` lengths. -/
def seqLens (m : BatchMetadata W) (decodeSeqLens : List ℤ) : Except String (List ℤ) :=
  (List.range m.numTokens).mapM fun (i : ℕ) => readAt decodeSeqLens i

/-- `prepare_seq_info`: lengths, context lengths and start locations, in one vector. The source
copies all of `decode_seq_lens`, which has an entry per token. -/
def prepareSeqInfo (m : BatchMetadata W) (decodeSeqLens : List ℤ) : Except String (List ℤ) := do
  let lens ← seqLens m decodeSeqLens
  return lens ++ lens.map (· - 1) ++ lens.scanl (· + ·) 0

/-- `prepare_seq_info_gdr`: the three vectors it copies. -/
def prepareSeqInfoGdr (m : BatchMetadata W) (decodeSeqLens : List ℤ) :
    Except String (List ℤ × List ℤ × List ℤ) := do
  let lens ← seqLens m decodeSeqLens
  return (lens, lens.map (· - 1), lens.scanl (· + ·) 0)

end BlockManager

end StreamEP

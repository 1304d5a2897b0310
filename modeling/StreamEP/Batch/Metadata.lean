import StreamEP.Lib.Checked
import StreamEP.Lib.CountingSort
import StreamEP.Lib.StdSort
import Mathlib.Data.List.SplitLengths

/-!
# Batch metadata

`BatchMetadata` of `csrc/include/metadata.hpp`, with the column operations of
`csrc/include/vector_utils.hpp`. A batch stores one list per attribute. A list is either empty
(the attribute is absent) or has one entry per token; the operations below are translated with
that convention and do not check it.

Request, expert, layer and rank ids are natural numbers, `init_prefill_len` is an integer with
`-1` for "decoding", and a gate weight has an arbitrary type `W` whose default stands for the
`0.0f` of a freshly sized vector. An `ASSERT` is an `ensure`. `dtype` is left out: no operation
reads it.
-/

namespace StreamEP

variable {α W V : Type}

/-! ### `vector_utils.hpp` -/

/-- `repeat_vector`: every entry `times` times in a row. -/
def repeatVector (a : List α) (times : ℕ) : List α :=
  a.flatMap fun x => List.replicate times x

/-- `permute_vector`: entry `i` goes to place `positions[i]`. -/
def permuteVector [Inhabited α] (data : List α) (positions : List ℕ) : List α :=
  if data.isEmpty then [] else Scatter.scatter (List.replicate data.length default) positions data

def indexSelectVector [Inhabited α] (data : List α) (indices : List ℕ) : List α :=
  if data.isEmpty then [] else indices.map fun i => data.getD i default

/-- `split_vector_by_size`: consecutive chunks of the given sizes; an absent column splits into
absent columns. -/
def splitVectorBySize (vec : List α) (sizes : List ℕ) : List (List α) :=
  if vec.isEmpty then List.replicate sizes.length [] else sizes.splitLengths vec

/-! ### The record -/

/-- `BatchTag`: which kind of worker produced the batch. -/
inductive BatchTag
  | attention
  | expert
  | tokenizer
deriving DecidableEq, Repr

def maxNumExperts : ℕ := 128

@[ext]
structure BatchMetadata (W : Type) where
  batchTag : BatchTag
  /-- `shape[0]` -/
  numTokens : ℕ
  /-- `shape[1]` -/
  tokenHiddenDim : ℕ
  layerId : ℕ
  reqIds : List ℕ
  expIds : List ℕ
  topkWeights : List W
  attnDpRanks : List ℕ
  /-- `init_prefill_lens`: `-1` for tokens past the first decoding step. -/
  initPrefillLens : List ℤ
  /-- `num_prefill_seqs`, only present in attention batches. -/
  numPrefillSeqs : Option ℕ := none
  /-- `num_prefill_tokens`, only present in attention batches. -/
  numPrefillTokens : Option ℕ := none
  /-- `num_decode_tokens`, only present in attention batches. -/
  numDecodeTokens : Option ℕ := none
deriving DecidableEq, Repr

namespace BatchMetadata

def isAttention (m : BatchMetadata W) : Bool := m.batchTag = .attention

def isExpert (m : BatchMetadata W) : Bool := m.batchTag = .expert

def numElement (m : BatchMetadata W) : ℕ := m.numTokens * m.tokenHiddenDim

def stepLayer (m : BatchMetadata W) : BatchMetadata W := { m with layerId := m.layerId + 1 }

/-- `attention_batch_safe_check`: the three counts are present and the prefill counts agree. -/
def attentionBatchSafeCheck (m : BatchMetadata W) : Bool :=
  m.numPrefillTokens.isSome && m.numPrefillSeqs.isSome && m.numDecodeTokens.isSome &&
    m.numPrefillTokens = m.numPrefillSeqs

/-! ### Reordering -/

variable [Inhabited W]

/-- `permute_token_infos`: all five columns move together. -/
def permuteTokenInfos (m : BatchMetadata W) (positions : List ℕ) :
    Except String (BatchMetadata W) := do
  if positions.isEmpty then
    return m
  ensure (m.numTokens = positions.length) "num_tokens() == positions.size()"
  return { m with
    reqIds := permuteVector m.reqIds positions
    expIds := permuteVector m.expIds positions
    attnDpRanks := permuteVector m.attnDpRanks positions
    initPrefillLens := permuteVector m.initPrefillLens positions
    topkWeights := permuteVector m.topkWeights positions }

/-- The comparison of `sort_by_attention`: by rank, then new requests before decoding ones, then
new requests by id. Decoding tokens of one rank are not ordered among themselves. -/
def attentionLess (m : BatchMetadata W) (i j : ℕ) : Bool :=
  if m.attnDpRanks.getD i 0 ≠ m.attnDpRanks.getD j 0 then
    m.attnDpRanks.getD i 0 < m.attnDpRanks.getD j 0
  else if m.initPrefillLens.getD i 0 = -1 ∨ m.initPrefillLens.getD j 0 = -1 then
    m.initPrefillLens.getD i 0 > m.initPrefillLens.getD j 0
  else
    m.reqIds.getD i 0 < m.reqIds.getD j 0

/-- `sort_by_attention`: sort the indices, invert them into positions, permute the columns. -/
def sortByAttention (S : StdSort) (m : BatchMetadata W) :
    Except String (List ℕ × BatchMetadata W) := do
  let rank := S.sort m.attentionLess (List.range m.reqIds.length)
  let positions := Scatter.invPos m.reqIds.length rank
  let m' ← m.permuteTokenInfos positions
  return (positions, m')

/-- `sort_by_expert`: counting sort on the expert ids. -/
def sortByExpert (m : BatchMetadata W) : Except String (List ℕ × BatchMetadata W) := do
  let positions := CountingSort.positions maxNumExperts m.expIds
  let m' ← m.permuteTokenInfos positions
  return (positions, m')

/-! ### Expansion, selection and splitting -/

/-- `duplicate_topk`: one copy of every token per chosen expert, copies of a token adjacent. The
expert ids are assigned by the caller. -/
def duplicateTopk (m : BatchMetadata W) (topk : ℕ) : BatchMetadata W :=
  if topk = 1 then m
  else { m with
    reqIds := repeatVector m.reqIds topk
    initPrefillLens := repeatVector m.initPrefillLens topk
    attnDpRanks := repeatVector m.attnDpRanks topk
    topkWeights := repeatVector m.topkWeights topk
    numTokens := m.numTokens * topk }

def indexSelect (m : BatchMetadata W) (indices : List ℕ) : BatchMetadata W where
  batchTag := m.batchTag
  numTokens := indices.length
  tokenHiddenDim := m.tokenHiddenDim
  layerId := m.layerId
  reqIds := indexSelectVector m.reqIds indices
  expIds := indexSelectVector m.expIds indices
  topkWeights := indexSelectVector m.topkWeights indices
  attnDpRanks := indexSelectVector m.attnDpRanks indices
  initPrefillLens := indexSelectVector m.initPrefillLens indices

/-- `split_with_sizes`: an attention batch recounts its prefill and decode tokens per piece. -/
def splitWithSizes (m : BatchMetadata W) (sizes : List ℕ) : List (BatchMetadata W) :=
  let splitReqIds := splitVectorBySize m.reqIds sizes
  let splitExpIds := splitVectorBySize m.expIds sizes
  let splitAttnDpRanks := splitVectorBySize m.attnDpRanks sizes
  let splitInitPrefillLens := splitVectorBySize m.initPrefillLens sizes
  let splitTopkWeights := splitVectorBySize m.topkWeights sizes
  (List.range sizes.length).map fun i =>
    let piece : BatchMetadata W :=
      { batchTag := m.batchTag
        numTokens := sizes.getD i 0
        tokenHiddenDim := m.tokenHiddenDim
        layerId := m.layerId
        reqIds := splitReqIds.getD i []
        expIds := splitExpIds.getD i []
        topkWeights := splitTopkWeights.getD i []
        attnDpRanks := splitAttnDpRanks.getD i []
        initPrefillLens := splitInitPrefillLens.getD i [] }
    if m.isAttention then
      let numPrefillTokens := piece.initPrefillLens.countP (· ≠ -1)
      { piece with
        numPrefillSeqs := some numPrefillTokens
        numPrefillTokens := some numPrefillTokens
        numDecodeTokens := some (sizes.getD i 0 - numPrefillTokens) }
    else piece

/-! ### Merging -/

/-- `merge_by_expert`: counting sort over the tokens of all batches. Also returns the positions,
by which the caller gathers the data rows. A batch without weights leaves the default in the
merged column. -/
def mergeByExpert (metas : List (BatchMetadata W)) :
    Except String (List ℕ × BatchMetadata W) := do
  let totalTokens := (metas.map (·.numTokens)).sum
  ensure (∀ m ∈ metas, m.numTokens = m.expIds.length) "meta->num_tokens() == meta->exp_ids.size()"
  let positions := CountingSort.positions maxNumExperts (metas.flatMap (·.expIds))
  let weights := metas.flatMap fun m =>
    if m.topkWeights.isEmpty then List.replicate m.numTokens default else m.topkWeights
  let place {β : Type} [Inhabited β] (column : List β) : List β :=
    Scatter.scatter (List.replicate totalTokens default) positions column
  return (positions,
    { batchTag := .expert
      numTokens := totalTokens
      tokenHiddenDim := (metas.head?.map (·.tokenHiddenDim)).getD 0
      layerId := (metas.head?.map (·.layerId)).getD 0
      reqIds := place (metas.flatMap (·.reqIds))
      expIds := place (metas.flatMap (·.expIds))
      topkWeights := place weights
      attnDpRanks := place (metas.flatMap (·.attnDpRanks))
      initPrefillLens := place (metas.flatMap (·.initPrefillLens)) })

/-- The first loop of `merge_by_attention`: the entries of the new requests of every batch. -/
def prefillEntries (metas : List (BatchMetadata W)) (column : BatchMetadata W → List α) :
    List α :=
  metas.flatMap fun m => (column m).take (m.numPrefillSeqs.getD 0)

/-- The second loop of `merge_by_attention`: the entries of the decoding tokens. -/
def decodeEntries (metas : List (BatchMetadata W)) (column : BatchMetadata W → List α) : List α :=
  metas.flatMap fun m =>
    ((column m).drop (m.numPrefillSeqs.getD 0)).take (m.numDecodeTokens.getD 0)

/-- `merge_by_attention`: the prefill tokens of all batches, then their decode tokens. Expert ids,
weights and ranks are dropped. -/
def mergeByAttention (metas : List (BatchMetadata W)) : Except String (BatchMetadata W) := do
  ensure (∀ m ∈ metas, m.attentionBatchSafeCheck) "meta->attention_batch_safe_check()"
  let newReqIds := prefillEntries metas (·.reqIds) ++ decodeEntries metas (·.reqIds)
  return {
    batchTag := .attention
    numTokens := newReqIds.length
    tokenHiddenDim := (metas.head?.map (·.tokenHiddenDim)).getD 0
    layerId := (metas.head?.map (·.layerId)).getD 0
    reqIds := newReqIds
    expIds := []
    topkWeights := []
    attnDpRanks := []
    initPrefillLens :=
      prefillEntries metas (·.initPrefillLens) ++ decodeEntries metas (·.initPrefillLens)
    numPrefillSeqs := some (metas.map fun m => m.numPrefillSeqs.getD 0).sum
    numPrefillTokens := some (metas.map fun m => m.numPrefillTokens.getD 0).sum
    numDecodeTokens := some (metas.map fun m => m.numDecodeTokens.getD 0).sum }

end BatchMetadata

/-! ### Gathered tokens -/

/-- A row of a token tensor: all rows have the same number of entries. -/
class TensorRow (V : Type) extends Inhabited V where
  /-- `size(-1)` of a tensor of such rows -/
  size : ℕ

instance : TensorRow ℕ where
  size := 1

/-- `TokenTopKInfo`: a request and the expert outputs gathered for it so far. -/
structure TokenTopKInfo (V : Type) where
  seqId : ℕ
  initPrefillLen : ℤ
  attnDpRank : ℕ
  topkTensors : List V
deriving DecidableEq, Repr

namespace TokenTopKInfo

def count (t : TokenTopKInfo V) : ℕ := t.topkTensors.length

def appendTensor (t : TokenTopKInfo V) (tensor : V) : TokenTopKInfo V :=
  { t with topkTensors := t.topkTensors ++ [tensor] }

/-- The comparison of `pack_topk_tokens`: new requests before decoding ones, new requests by
id. -/
def packLess (a b : TokenTopKInfo V) : Bool :=
  if a.initPrefillLen = -1 ∨ b.initPrefillLen = -1 then a.initPrefillLen > b.initPrefillLen
  else a.seqId < b.seqId

end TokenTopKInfo

/-- `BatchMetadata::pack_topk_tokens`: one row per gathered token. -/
def BatchMetadata.packTopkTokens (W : Type) [TensorRow V] (layerId : ℕ)
    (tokens : List (TokenTopKInfo V)) : BatchMetadata W where
  batchTag := .attention
  numTokens := tokens.length
  tokenHiddenDim := TensorRow.size V
  layerId := layerId
  reqIds := tokens.map (·.seqId)
  expIds := []
  topkWeights := []
  attnDpRanks := tokens.map (·.attnDpRank)
  initPrefillLens := tokens.map (·.initPrefillLen)
  numPrefillSeqs := some (tokens.countP (·.initPrefillLen ≠ -1))
  numPrefillTokens := some (tokens.countP (·.initPrefillLen ≠ -1))
  numDecodeTokens := some (tokens.countP (·.initPrefillLen = -1))

end StreamEP

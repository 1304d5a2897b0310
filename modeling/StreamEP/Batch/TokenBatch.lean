import StreamEP.Batch.Metadata

/-!
# Token batches

`TokenBatch` of `csrc/include/batch.hpp`: the rows of a data tensor together with their metadata.
A gather on the device is a pure function on rows here, so the pointer tables the source builds
become the lists of rows they point to.

`TokenBatch {}` has a null metadata pointer; it is `none` in the results below. Reading the
first token of an empty vector is undefined in the source and an error here.
-/

namespace StreamEP

variable {W V : Type}

structure TokenBatch (W V : Type) where
  /-- The rows of `data`. -/
  data : List V
  metadata : BatchMetadata W
deriving DecidableEq, Repr

namespace TokenBatch

/-- `split_with_sizes`: metadata and rows are cut at the same places. -/
def splitWithSizes (b : TokenBatch W V) (sizes : List ℕ) : List (TokenBatch W V) :=
  (sizes.splitLengths b.data).zipWith (fun data metadata => ⟨data, metadata⟩)
    (b.metadata.splitWithSizes sizes)

variable [Inhabited W] [TensorRow V]

/-- `merge_by_expert`: the rows follow the positions of the merged metadata. -/
def mergeByExpert (batches : List (TokenBatch W V)) : Except String (Option (TokenBatch W V)) :=
  match batches with
  | [] => .ok none
  | [b] => .ok (some b)
  | batches => do
    let (mappings, mergedMeta) ← BatchMetadata.mergeByExpert (batches.map (·.metadata))
    let mergedTokens := Scatter.scatter (List.replicate mergedMeta.numTokens default) mappings
      (batches.flatMap (·.data))
    return some ⟨mergedTokens, mergedMeta⟩

/-- `merge_by_attention`: prefill rows are numbered from `0`, decode rows from the merged number
of prefill tokens. -/
def mergeByAttention (batches : List (TokenBatch W V)) :
    Except String (Option (TokenBatch W V)) :=
  match batches with
  | [] => .ok none
  | [b] => .ok (some b)
  | batches => do
    let mergedMeta ← BatchMetadata.mergeByAttention (batches.map (·.metadata))
    let prefillRows := batches.flatMap fun b =>
      b.data.take (b.metadata.numPrefillTokens.getD 0)
    let decodeRows := batches.flatMap fun b =>
      (b.data.drop (b.metadata.numPrefillTokens.getD 0)).take (b.metadata.numDecodeTokens.getD 0)
    return some ⟨prefillRows ++ decodeRows, mergedMeta⟩

/-- `merge`: by the tag of the first batch. -/
def merge (batches : List (TokenBatch W V)) : Except String (Option (TokenBatch W V)) :=
  match batches with
  | [] => .ok none
  | [b] => .ok (some b)
  | b :: rest =>
    if b.metadata.isExpert then mergeByExpert (b :: rest)
    else if b.metadata.isAttention then mergeByAttention (b :: rest)
    else .error "Invalid batch metadata"

/-- `pack_topk_tokens`: sort the gathered tokens, then add up the rows of each. The number of
rows per token is read off the first one. -/
def packTopkTokens (S : StdSort) (gatherSum : List V → V) (layerId : ℕ)
    (tokens : List (TokenTopKInfo V)) : Except String (TokenBatch W V) :=
  match S.sort TokenTopKInfo.packLess tokens with
  | [] => .error "tokens[0] of an empty vector"
  | t :: ts =>
    let rows := (t :: ts).map fun u => gatherSum (u.topkTensors.take t.count)
    .ok ⟨rows, BatchMetadata.packTopkTokens W layerId (t :: ts)⟩

end TokenBatch

end StreamEP

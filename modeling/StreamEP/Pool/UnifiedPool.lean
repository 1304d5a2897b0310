import StreamEP.Pool.Agreement
import StreamEP.Pool.TopKPool

/-!
# The unified pool

`UnifiedPool` of `csrc/muhelper/pool.cpp`: what a device does with a batch it received. Batches
from the tokenizer and replies of experts become attention work of their layer, replies being
gathered first when `top_k > 1`; batches from attention become expert work. The tag of a batch
says who produced it, so the pool rewrites the tag to the kind of worker that will consume it.
-/

namespace StreamEP

variable {W V : Type}

structure UnifiedPool (W V : Type) where
  topK : ℕ
  numGroups : ℕ
  layerScheduler : LayerScheduler W V
  /-- `topk_pools`: one per attention layer, none without gathering -/
  topkPools : List (TokenTopKPool V)
  attnScheduleTokenThreshold : ℤ
  expertScheduleTokenThreshold : ℤ

namespace UnifiedPool

/-- The constructor: one attention layer more than expert layers, for sampling. -/
def create (schedulerType : SchedulerType) (numLayers numGroups topK : ℕ) : UnifiedPool W V where
  topK := topK
  numGroups := numGroups
  layerScheduler := .create schedulerType (numLayers + 1) numLayers topK
  topkPools := if topK > 1 then List.replicate (numLayers + 1) (.create topK) else []
  attnScheduleTokenThreshold := -1
  expertScheduleTokenThreshold := -1

/-- `set_attn_schedule_token_threshold` and `set_expert_schedule_token_threshold`, which the
scheduler calls together. -/
def setScheduleTokenThreshold (p : UnifiedPool W V) (attn expert : ℤ) : UnifiedPool W V :=
  { p with attnScheduleTokenThreshold := attn, expertScheduleTokenThreshold := expert }

/-- The metadata `process_attn_batch` queues: tagged as attention work, prefill and decode tokens
counted. -/
def attnMetadata (m : BatchMetadata W) : BatchMetadata W :=
  let isNew (i : ℕ) : Bool := m.initPrefillLens.getD i 0 ≠ -1
  let numPrefillTokens := (List.range m.reqIds.length).countP isNew
  { m with
    batchTag := .attention
    numPrefillSeqs := some numPrefillTokens
    numPrefillTokens := some numPrefillTokens
    numDecodeTokens := some ((List.range m.reqIds.length).countP fun i => !isNew i) }

def processAttnBatch (p : UnifiedPool W V) (b : TokenBatch W V) :
    Except String (UnifiedPool W V) := do
  let s ← p.layerScheduler.addBatch { b with metadata := attnMetadata b.metadata }
  return { p with layerScheduler := s }

def processAttnBatchTopk [TensorRow V] (p : UnifiedPool W V) (b : TokenBatch W V) :
    Except String (UnifiedPool W V) :=
  match p.topkPools[b.metadata.layerId]? with
  | none => .error "topk_pools[layer_id] out of range"
  | some pool => do
    let pool ← pool.putBatch b
    let (readyTokens, pool) := pool.fetchReadyTokens
    let p := { p with topkPools := p.topkPools.set b.metadata.layerId pool }
    if readyTokens.length = 0 then
      return p
    let s ← p.layerScheduler.attnAddTokens b.metadata.layerId readyTokens
    return { p with layerScheduler := s }

def processExpertBatch (p : UnifiedPool W V) (b : TokenBatch W V) :
    Except String (UnifiedPool W V) := do
  let b := { b with metadata := { b.metadata with batchTag := .expert } }
  ensure (¬ p.numGroups > 1) "Expert pool does not support multiple groups at this time"
  let s ← p.layerScheduler.addBatch b
  return { p with layerScheduler := s }

def processBatch [TensorRow V] (p : UnifiedPool W V) (b : TokenBatch W V) :
    Except String (UnifiedPool W V) :=
  match b.metadata.batchTag with
  | .tokenizer => p.processAttnBatch b
  | .expert =>
    if p.topK > 1 ∧ b.metadata.layerId > 0 then p.processAttnBatchTopk b
    else p.processAttnBatch b
  | .attention => p.processExpertBatch b

/-- `put_batch`: only used for the first attention layer. -/
def putBatch [TensorRow V] (p : UnifiedPool W V) (b : TokenBatch W V) :
    Except String (UnifiedPool W V) :=
  p.processBatch { b with metadata := { b.metadata with batchTag := .tokenizer } }

/-- `get_batch_from_layer`: restricted by the threshold of the kind of layer. -/
def getBatchFromLayer [Inhabited W] [TensorRow V] (S : StdSort) (gatherSum : List V → V)
    (p : UnifiedPool W V) (layerId : ℤ) :
    UnifiedPool W V × Except String (Option (TokenBatch W V)) :=
  let tokenThreshold := if p.layerScheduler.isAttnLayer layerId then p.attnScheduleTokenThreshold
    else p.expertScheduleTokenThreshold
  let (s, result) :=
    p.layerScheduler.getBatchFromLayerRestricted S gatherSum layerId tokenThreshold
  ({ p with layerScheduler := s }, result)

end UnifiedPool

end StreamEP

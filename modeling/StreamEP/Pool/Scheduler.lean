import StreamEP.Pool.Layer
import Mathlib.Data.Rat.Floor

/-!
# The layer schedulers

`UnifiedLayerSchedulerBase` of `csrc/muhelper/layer.cpp` and its two policies. All layers are
kept in one vector, attention layers first. `UnifiedLayerScheduler` serves the first layer that
has work; `UnifiedDefraggingLayerScheduler` scores every layer by its own tokens and by what lies
ahead of it in the circular pipeline `A0, E0, A1, E1, …`, with a sliding window of past loads.
Scores are floats in the source and rationals here.

`scheduler_mutex` is taken and released by hand in the getters, so a getter that throws in
between leaves it held. `locked` records that.
-/

namespace StreamEP

variable {W V : Type}

/-- The parameters of `UnifiedDefraggingLayerScheduler`. -/
structure DefragConfig where
  lookbackSteps : ℕ
  lookaheadSteps : ℤ
  weightDecay : ℚ
deriving DecidableEq, Repr

/-- `unified_scheduler_type`: first-layer-first-serve, or defragging. -/
inductive SchedulerType
  | flfs
  | defrag (cfg : DefragConfig)
deriving DecidableEq, Repr

structure LayerScheduler (W V : Type) where
  /-- Which policy `schedule` runs. -/
  schedulerType : SchedulerType
  numAttnLayers : ℕ
  numExpertLayers : ℕ
  /-- `top_k`, at least one -/
  topK : ℕ
  attnUseTokenQueue : Bool
  /-- `layers`: attention layers, then expert layers -/
  layers : List (UnifiedLayer W V)
  /-- `history_tokens_in_layer` (defragging only) -/
  historyTokensInLayer : List (List ℤ)
  /-- `sum_history_tokens_in_layer` (defragging only) -/
  sumHistoryTokensInLayer : List ℤ
  /-- `scheduler_mutex` is held by a call that has already thrown. -/
  locked : Bool

namespace LayerScheduler

def create (schedulerType : SchedulerType) (numAttnLayers numExpertLayers topk : ℕ) :
    LayerScheduler W V where
  schedulerType := schedulerType
  numAttnLayers := numAttnLayers
  numExpertLayers := numExpertLayers
  topK := if topk > 0 then topk else 1
  attnUseTokenQueue := topk > 1
  layers := (List.range numAttnLayers).map UnifiedLayer.createAttentionLayer ++
    (List.range numExpertLayers).map UnifiedLayer.createExpertLayer
  historyTokensInLayer := match schedulerType with
    | .flfs => []
    | .defrag cfg => if cfg.lookbackSteps > 0 then
        List.replicate (numAttnLayers + numExpertLayers) [] else []
  sumHistoryTokensInLayer := match schedulerType with
    | .flfs => []
    | .defrag cfg => if cfg.lookbackSteps > 0 then
        List.replicate (numAttnLayers + numExpertLayers) 0 else []
  locked := false

def numLayers (s : LayerScheduler W V) : ℕ := s.numAttnLayers + s.numExpertLayers

def isAttnLayer (s : LayerScheduler W V) (layerId : ℤ) : Bool := layerId < s.numAttnLayers

def isExpertLayer (s : LayerScheduler W V) (layerId : ℤ) : Bool := layerId ≥ s.numAttnLayers

def layerUsesTokenQueue (s : LayerScheduler W V) (layerId : ℤ) : Bool :=
  s.attnUseTokenQueue && s.isAttnLayer layerId && layerId > 0

/-- `layers[i]`; an empty layer past the end. -/
def layerAt (s : LayerScheduler W V) (i : ℕ) : UnifiedLayer W V :=
  s.layers[i]?.getD (UnifiedLayer.createAttentionLayer i)

/-- Replace `layers[i]` by its image under `f`. -/
def modifyLayer (s : LayerScheduler W V) (i : ℕ) (f : UnifiedLayer W V → UnifiedLayer W V) :
    LayerScheduler W V :=
  { s with layers := s.layers.modify i f }

/-! ### Adding work -/

def attnAddTokens (s : LayerScheduler W V) (layerId : ℕ) (ts : List (TokenTopKInfo V)) :
    Except String (LayerScheduler W V) :=
  if layerId < s.numAttnLayers then .ok (s.modifyLayer layerId (·.addTokens ts))
  else .error "attn_layers[layer_id] out of range"

/-- `add_batch`: to the attention or expert layer named by the metadata. -/
def addBatch (s : LayerScheduler W V) (b : TokenBatch W V) : Except String (LayerScheduler W V) :=
  if b.metadata.isAttention then
    if b.metadata.layerId < s.numAttnLayers then
      .ok (s.modifyLayer b.metadata.layerId (·.addBatch b))
    else .error "attn_layers[layer_id] out of range"
  else if b.metadata.isExpert then
    if b.metadata.layerId < s.numExpertLayers then
      .ok (s.modifyLayer (s.numAttnLayers + b.metadata.layerId) (·.addBatch b))
    else .error "expert_layers[layer_id] out of range"
  else .error "Invalid batch metadata"

/-! ### Taking work -/

section Get

variable [Inhabited W] [TensorRow V]

/-- `get_batch_from_layer`: everything that is queued. -/
def getBatchFromLayer (S : StdSort) (gatherSum : List V → V) (s : LayerScheduler W V)
    (layerId : ℤ) : LayerScheduler W V × Except String (Option (TokenBatch W V)) :=
  if layerId < 0 ∨ layerId ≥ s.numLayers then (s, .ok none)
  else
    let i := layerId.toNat
    if s.layerUsesTokenQueue layerId then
      let (tokens, layer) := (s.layerAt i).getAllTokens
      (s.modifyLayer i fun _ => layer,
        (TokenBatch.packTopkTokens S gatherSum i tokens).map some)
    else
      let (batches, layer) := (s.layerAt i).getAllBatches
      (s.modifyLayer i fun _ => layer, TokenBatch.merge batches)

/-- `get_batch_from_layer_restricted`: at most `tokenThreshold` tokens. The mutex is released
after the queue was read and before the batches are merged. -/
def getBatchFromLayerRestricted (S : StdSort) (gatherSum : List V → V) (s : LayerScheduler W V)
    (layerId tokenThreshold : ℤ) :
    LayerScheduler W V × Except String (Option (TokenBatch W V)) :=
  if layerId < 0 ∨ layerId ≥ s.numLayers then (s, .ok none)
  else
    let i := layerId.toNat
    if s.layerUsesTokenQueue layerId then
      let (tokens, layer) := (s.layerAt i).getTokensRestricted tokenThreshold
      (s.modifyLayer i fun _ => layer,
        (TokenBatch.packTopkTokens S gatherSum i tokens).map some)
    else
      let (layer, result) := (s.layerAt i).getBatchesRestricted tokenThreshold
      let s' := s.modifyLayer i fun _ => layer
      match result with
      -- thrown between `lock` and `unlock`
      | .error e => ({ s' with locked := true }, .error e)
      | .ok batches => (s', TokenBatch.merge batches)

end Get

/-! ### First layer first -/

/-- `UnifiedLayerScheduler::schedule` -/
def scheduleFlfs (s : LayerScheduler W V) : ℤ :=
  ((List.range s.numAttnLayers).findSome? fun i =>
    if (s.layerAt i).numTokens > 0 then some ((s.layerAt i).layerId : ℤ)
    else if i < s.numExpertLayers ∧ (s.layerAt (s.numAttnLayers + i)).numTokens > 0 then
      some ((s.layerAt (s.numAttnLayers + i)).layerId + s.numAttnLayers)
    else none).getD (-1)

/-! ### Defragging -/

/-- `get_effective_tokens`: expert tokens count for `1 / top_k`. -/
def getEffectiveTokens (s : LayerScheduler W V) (layerIdx : ℕ) (rawTokens : ℤ) : ℚ :=
  if rawTokens ≤ 0 then 0
  else if layerIdx < s.numAttnLayers ∨ s.topK ≤ 1 then rawTokens
  else rawTokens / s.topK

/-- `to_pipeline_pos`: `A_i` is at `2 i`, `E_i` at `2 i + 1`. -/
def toPipelinePos (s : LayerScheduler W V) (unifiedIdx : ℕ) : ℕ :=
  if unifiedIdx < s.numAttnLayers then 2 * unifiedIdx
  else 2 * (unifiedIdx - s.numAttnLayers) + 1

def fromPipelinePos (s : LayerScheduler W V) (pos : ℕ) : ℕ :=
  if pos % 2 = 0 then pos / 2 else s.numAttnLayers + pos / 2

/-- `effective_tokens[i]` -/
def effectiveTokens (s : LayerScheduler W V) (i : ℕ) : ℚ :=
  s.getEffectiveTokens i (s.layerAt i).numTokens

/-- `history_score` of a layer: the mean load over the window, when there is one. -/
def historyScore (cfg : DefragConfig) (s : LayerScheduler W V) (curLayer : ℕ) : ℚ :=
  let window := s.historyTokensInLayer.getD curLayer []
  let sum := s.sumHistoryTokensInLayer.getD curLayer 0
  if cfg.lookbackSteps > 0 ∧ s.historyTokensInLayer ≠ [] ∧ window ≠ [] ∧ sum > 0 then
    sum / window.length
  else 0

/-- One round of the lookahead loop, on `(lookahead_score, decay)`. -/
def lookaheadStep (cfg : DefragConfig) (s : LayerScheduler W V) (pipePos : ℕ) (acc : ℚ × ℚ)
    (k : ℕ) : ℚ × ℚ :=
  let curLayer := s.fromPipelinePos ((pipePos + k) % s.numLayers)
  (acc.1 + (s.effectiveTokens curLayer + historyScore cfg s curLayer) * acc.2,
    acc.2 * cfg.weightDecay)

/-- `scores[i]`: an empty layer scores nothing, whatever lies ahead of it. -/
def score (cfg : DefragConfig) (s : LayerScheduler W V) (i : ℕ) : ℚ :=
  let immediate := s.effectiveTokens i
  if immediate ≤ 0 then 0
  else
    let steps := List.range' 1 (cfg.lookaheadSteps - 1).toNat
    (steps.foldl (lookaheadStep cfg s (s.toPipelinePos i)) (0, cfg.weightDecay)).1 + immediate

/-- One round of the selection loop, on `(max_score, best_layer)`. -/
def selectStep (scores : ℕ → ℚ) (acc : ℚ × ℤ) (i : ℕ) : ℚ × ℤ :=
  if scores i > acc.1 then (scores i, i) else acc

/-- The new window of one layer in `step_end`. -/
def pushHistory (cfg : DefragConfig) (window : List ℤ) (sum : ℤ) (x : ℤ) : List ℤ × ℤ :=
  if cfg.lookbackSteps ≤ window.length then (window.tail ++ [x], sum - window.headD 0 + x)
  else (window ++ [x], sum + x)

/-- `step_end`: advance every window by the snapshot. -/
def stepEnd (cfg : DefragConfig) (s : LayerScheduler W V) (snapshot : List ℤ) :
    LayerScheduler W V :=
  if cfg.lookbackSteps = 0 then s
  else
    let windows := if s.historyTokensInLayer = [] then List.replicate s.numLayers []
      else s.historyTokensInLayer
    let sums := if s.historyTokensInLayer = [] then List.replicate s.numLayers 0
      else s.sumHistoryTokensInLayer
    let next (i : ℕ) := pushHistory cfg (windows.getD i []) (sums.getD i 0) (snapshot.getD i 0)
    { s with
      historyTokensInLayer := (List.range s.numLayers).map fun i => (next i).1
      sumHistoryTokensInLayer := (List.range s.numLayers).map fun i => (next i).2 }

/-- `_schedule_impl`: the best layer, or `-1` when there is no work. The history only advances
when there is work. -/
def scheduleImpl (cfg : DefragConfig) (s : LayerScheduler W V) : ℤ × LayerScheduler W V :=
  let rawTokens := (List.range s.numLayers).map fun i => (s.layerAt i).numTokens
  if rawTokens.sum = 0 then (-1, s)
  else
    let best := ((List.range s.numLayers).foldl (selectStep (score cfg s)) (0, -1)).2
    -- the history keeps the truncated effective tokens
    let snapshot := (List.range s.numLayers).map fun i => ⌊s.effectiveTokens i⌋
    (best, stepEnd cfg s snapshot)

def schedule (s : LayerScheduler W V) : ℤ × LayerScheduler W V :=
  match s.schedulerType with
  | .flfs => (s.scheduleFlfs, s)
  | .defrag cfg => s.scheduleImpl cfg

end LayerScheduler

end StreamEP

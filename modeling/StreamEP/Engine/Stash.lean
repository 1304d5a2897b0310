import StreamEP.Engine.StashPool
import Mathlib.Logic.Function.Basic
import Mathlib.Logic.Relation

/-!
# The residual stash

Experts return the sum of their outputs only; the residual stream stays on the attention engine.
A layer of `disagmoe/models/attention.py` writes the residual of every token of a batch to the row
of its request, and the next layer reads it there and adds it to what the experts returned. The
sampler does the same after the last layer. The first layer starts a new stream and reads nothing.

With CUDA graphs a batch is padded to the size of a captured graph. The rows of the batch are
copied to a static buffer whose other entries point to a scratch row, and the graph reads and
writes the rows of the whole padded batch.

All of this is enqueued on one stream and is modelled in the order of the stream, where the CPU
assigns and releases rows in the same order. The residuals that a layer computes are arbitrary. A
request is in one place at a time: it goes through the layers one after another, then to the
sampler, and starts again or has finished. The pool never hands out an empty batch.
-/

namespace StreamEP

variable {V : Type}

/-- `index_select` of rows. -/
def indexSelect (stash : ℕ → V) (rows : List ℕ) : List V := rows.map stash

/-- `index_copy_` to rows, in the order of the list. -/
def indexCopy (stash : ℕ → V) (rows : List ℕ) (values : List V) : ℕ → V :=
  (rows.zip values).foldl (fun stash x => Function.update stash x.1 x.2) stash

namespace StashRun

structure Config where
  maxRunningReqs : ℕ
  /-- `model_total_num_layers` -/
  numLayers : ℕ
  numLayers_pos : 0 < numLayers
  graphBatchSizes : List ℕ
deriving DecidableEq, Repr

def Config.stashScratchSlot (cfg : Config) : ℕ := cfg.maxRunningReqs

def Config.getBucketByNumTokens (cfg : Config) (batchSize : ℕ) : Option ℕ :=
  cfg.graphBatchSizes.find? (batchSize ≤ ·)

/-- A value that was read or written for a request. -/
structure Access (V : Type) where
  reqId : ℕ
  /-- How many tokens the request had sampled. -/
  decodeStep : ℕ
  /-- The layer, with the sampler as the last one. -/
  layer : ℕ
  value : V
deriving DecidableEq, Repr

structure State (V : Type) where
  /-- `stash_free_slots` and `stash_slot_map` -/
  pool : StashPool
  residualStash : ℕ → V
  staticStashSlots : List ℕ
  /-- The decode step and the next layer of a request that is not finished. -/
  stage : ℕ → Option (ℕ × ℕ)
  admitted : List ℕ
  reads : List (Access V)
  writes : List (Access V)
  /-- The rows that padded rows of a batch read or wrote. -/
  paddedRows : List ℕ

variable {cfg : Config}

/-- An engine that has just started. The stash starts with some content. -/
def State.init (cfg : Config) (stash : ℕ → V) (staticSize : ℕ) : State V where
  pool := .create cfg.maxRunningReqs
  residualStash := stash
  staticStashSlots := List.replicate staticSize cfg.stashScratchSlot
  stage _ := none
  admitted := []
  reads := []
  writes := []
  paddedRows := []

namespace State

/-- What is logged for the requests of a batch. Values beyond the requests belong to padding. -/
def accesses (s : State V) (layer : ℕ) (reqIds : List ℕ) (values : List V) : List (Access V) :=
  (reqIds.zip values).map fun x => ⟨x.1, ((s.stage x.1).map (·.1)).getD 0, layer, x.2⟩

def advance (s : State V) (reqIds : List ℕ) : ℕ → Option (ℕ × ℕ) := fun r =>
  if r ∈ reqIds then (s.stage r).map fun x => (x.1, x.2 + 1) else s.stage r

/-- `MoEAttention.forward` on the stash, with `stash_read = not first_layer`. -/
def forward (s : State V) (layerId : ℕ) (reqIds stashSlots : List ℕ) (residual : List V) :
    State V :=
  let read := if layerId = 0 then [] else indexSelect s.residualStash stashSlots
  { s with
    residualStash := indexCopy s.residualStash stashSlots residual
    stage := s.advance reqIds
    reads := s.reads ++ s.accesses layerId reqIds read
    writes := s.writes ++ s.accesses layerId reqIds residual
    paddedRows := s.paddedRows ++ stashSlots.drop reqIds.length }

/-- `static_stash_slots` before the replay of a graph of the given size. -/
def copyStashSlots (s : State V) (cfg : Config) (stashSlots : List ℕ) (batchSize : ℕ) : State V :=
  { s with
    staticStashSlots := stashSlots ++
      List.replicate (batchSize - stashSlots.length) cfg.stashScratchSlot ++
      s.staticStashSlots.drop batchSize }

/-- `sample_results` on the stash: the rows are read, the requests that finish are released and the
others start over. -/
def sampleResults (s : State V) (cfg : Config) (reqIds stashSlots finishReqIds : List ℕ) :
    State V :=
  { s with
    pool := s.pool.releaseSeqs finishReqIds
    stage := fun r =>
      if r ∈ finishReqIds then none
      else if r ∈ reqIds then (s.stage r).map fun x => (x.1 + 1, 0) else s.stage r
    reads := s.reads ++
      s.accesses cfg.numLayers reqIds (indexSelect s.residualStash stashSlots) }

end State

/-- The requests of a batch for a layer: different requests, each at that layer. -/
def Batch (s : State V) (layer : ℕ) (reqIds : List ℕ) : Prop :=
  reqIds ≠ [] ∧ reqIds.Nodup ∧ ∀ r ∈ reqIds, ∃ t, s.stage r = some (t, layer)

inductive Step (cfg : Config) : State V → State V → Prop
  | admitRequest {s : State V} {r : ℕ} (hnew : r ∉ s.admitted) :
      Step cfg s { s with
        stage := Function.update s.stage r (some (0, 0))
        admitted := s.admitted ++ [r] }
  | executeNormal {s : State V} {layerId : ℕ} {reqIds slots : List ℕ} {pool : StashPool}
      {residual : List V} (hlayer : layerId < cfg.numLayers) (hbatch : Batch s layerId reqIds)
      (hslots : s.pool.stashSlotsOf reqIds = .ok (slots, pool))
      (hresidual : residual.length = reqIds.length) :
      Step cfg s ({ s with pool := pool }.forward layerId reqIds slots residual)
  | executeGraph {s s₁ : State V} {layerId batchSize : ℕ} {reqIds slots : List ℕ}
      {pool : StashPool} {residual : List V} (hlayer : layerId < cfg.numLayers)
      (hbatch : Batch s layerId reqIds)
      (hslots : s.pool.stashSlotsOf reqIds = .ok (slots, pool))
      (hbucket : cfg.getBucketByNumTokens reqIds.length = some batchSize)
      (hcopy : s₁ = { s with pool := pool }.copyStashSlots cfg slots batchSize)
      (hresidual : residual.length = batchSize) :
      Step cfg s (s₁.forward layerId reqIds (s₁.staticStashSlots.take batchSize) residual)
  | sampleResults {s : State V} {reqIds slots finishReqIds : List ℕ} {pool : StashPool}
      (hbatch : Batch s cfg.numLayers reqIds)
      (hslots : s.pool.stashSlotsOf reqIds = .ok (slots, pool))
      (hfinish : finishReqIds.Sublist reqIds) :
      Step cfg s ({ s with pool := pool }.sampleResults cfg reqIds slots finishReqIds)

end StashRun

end StreamEP

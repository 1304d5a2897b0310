import StreamEP.Kv.Blocks
import StreamEP.Kv.Tables

/-!
# The block manager of an engine

`CPUBlockManager` of `disagmoe/block_manager/block_manager.py` keeps the length of every request
next to the C++ block manager. Both change only at the first attention layer of the worker; the
other layers of the same pass read the lengths again.

A run of one engine calls it in four ways: a cache load allocates the blocks of a request before
it is admitted, a batch passes the first layer, a batch passes another layer, finished requests
are released. The run remembers for every request how many tokens it started with and how often it
has passed the first layer, and for the last batch the lengths `seq_lens` its tables are made from.
-/

namespace StreamEP

variable {W : Type}

structure CPUBlockManager where
  blockMgr : BlockManager
  decodeSeqLens : AList fun _ : ℕ => ℤ
  /-- `model_config.layer_ids[0]` -/
  firstLayer : ℕ

namespace CPUBlockManager

open Attempt

/-- The constructor. No block is reserved. -/
def create (blockSize numGpuBlocks firstLayer : ℕ) : CPUBlockManager where
  blockMgr := .create blockSize numGpuBlocks 0
  decodeSeqLens := ∅
  firstLayer := firstLayer

/-- `batch.req_ids[:batch.num_prefill_seqs]`. -/
def initReqIds (m : BatchMetadata W) : List ℕ :=
  match m.numPrefillSeqs with
  | some n => m.reqIds.take n
  | none => m.reqIds

/-- `req_manager.update_decode_seq_lens`. -/
def updateDecodeSeqLens (reqId : ℕ) (seqLen : ℤ) : Attempt CPUBlockManager Unit :=
  modify fun s => { s with decodeSeqLens := s.decodeSeqLens.insert reqId seqLen }

/-- `[req_manager.get_decode_seq_lens(req_id) for req_id in req_ids]`. -/
def getDecodeSeqLens (reqIds : List ℕ) : Attempt CPUBlockManager (List ℤ) := do
  let s ← get
  match reqIds.mapM s.decodeSeqLens.lookup with
  | some lens => pure lens
  | none => throw "KeyError"

/-- A computation of the C++ block manager. -/
def onBlockMgr {α : Type} (x : Attempt BlockManager α) : Attempt CPUBlockManager α :=
  zoom blockMgr (fun b s => { s with blockMgr := b }) x

def startSeqLen (m : BatchMetadata W) (i : ℕ) : Attempt CPUBlockManager Unit := do
  let reqId ← nth (initReqIds m) i
  let initPrefillLen ← nth m.initPrefillLens i
  updateDecodeSeqLens reqId initPrefillLen

/-- The loop over all requests, after their blocks have been updated. -/
def incrementSeqLen (m : BatchMetadata W) (decodeSeqLens : List ℤ) (i : ℕ) :
    Attempt CPUBlockManager Unit := do
  let reqId ← nth m.reqIds i
  let seqLen ← nth decodeSeqLens i
  updateDecodeSeqLens reqId (seqLen + 1)

/-- `update_block_table`. The result is `batch.seq_lens`. -/
def updateBlockTable (m : BatchMetadata W) : Attempt CPUBlockManager (List ℤ) := do
  let s ← get
  if m.layerId = s.firstLayer then do
    (List.range (initReqIds m).length).forM (startSeqLen m)
    let decodeSeqLens ← getDecodeSeqLens m.reqIds
    onBlockMgr (BlockManager.updateBlockTable m decodeSeqLens)
    (List.range m.reqIds.length).forM (incrementSeqLen m decodeSeqLens)
    return decodeSeqLens.map (· + 1)
  else getDecodeSeqLens m.reqIds

/-- `req_manager.release_reqs`, for one request. -/
def popSeqLen (reqId : ℕ) : Attempt CPUBlockManager Unit := do
  let s ← get
  check ((s.decodeSeqLens.lookup reqId).isSome = true) "KeyError"
  set { s with decodeSeqLens := s.decodeSeqLens.erase reqId }

def releaseSeqs (reqIds : List ℕ) : Attempt CPUBlockManager Unit := do
  onBlockMgr (BlockManager.batchRelease reqIds)
  reqIds.forM popSeqLen

end CPUBlockManager

/-! ### Runs of one engine -/

namespace KvRun

/-- An engine, and what it has been given. -/
structure State (W : Type) where
  mgr : CPUBlockManager
  /-- For every request that has blocks, the number of tokens it started with and the number of
  passes it has made through the first layer. -/
  reqs : ℕ → Option (ℕ × ℕ)
  /-- The batch at hand, with its `seq_lens`. -/
  current : Option (BatchMetadata W × List ℤ)

def State.init (W : Type) (blockSize numBlocks firstLayer : ℕ) : State W where
  mgr := .create blockSize numBlocks firstLayer
  reqs := fun _ => none
  current := none

/-- A batch for the first layer: `q` requests without a pass, whose blocks have been allocated for
as many tokens as the batch says or not at all, then requests that have made a pass before. -/
structure FirstBatch (reqs : ℕ → Option (ℕ × ℕ)) (m : BatchMetadata W) (q : ℕ) : Prop where
  nodup : m.reqIds.Nodup
  reqIds : m.reqIds.length = m.numTokens
  numPrefillSeqs : m.numPrefillSeqs = some q
  numPrefillTokens : m.numPrefillTokens = some q
  le : q ≤ m.numTokens
  /-- The first `q` requests are new. -/
  new : ∀ i r, i < q → m.reqIds[i]? = some r → ∃ p : ℕ, m.initPrefillLens[i]? = some (p : ℤ) ∧
    (reqs r = none ∨ reqs r = some (p, 0))
  old : ∀ i r, q ≤ i → m.reqIds[i]? = some r → ∃ p k, reqs r = some (p, k + 1)

/-- Count a pass for every request of a batch. -/
def countPass (reqs : ℕ → Option (ℕ × ℕ)) (m : BatchMetadata W) : ℕ → Option (ℕ × ℕ) :=
  fun r =>
    if r ∈ m.reqIds then
      match reqs r with
      | none => some ((m.initPrefillLens.getD (m.reqIds.idxOf r) 0).toNat, 1)
      | some (p, k) => some (p, k + 1)
    else reqs r

inductive Step : State W → State W → Prop
  /-- A cache load allocates the blocks of a request. -/
  | install {s : State W} {r p : ℕ} {b : BlockManager} (hnew : s.reqs r = none)
      (h : (BlockManager.allocate r p).Returns s.mgr.blockMgr () b) :
      Step s
        { mgr := { s.mgr with blockMgr := b }
          reqs := Function.update s.reqs r (some (p, 0))
          current := none }
  /-- A batch at the first layer. -/
  | firstLayer {s : State W} {m : BatchMetadata W} {q : ℕ} {lens : List ℤ} {mgr : CPUBlockManager}
      (hlayer : m.layerId = s.mgr.firstLayer) (hbatch : FirstBatch s.reqs m q)
      (h : (CPUBlockManager.updateBlockTable m).Returns s.mgr lens mgr) :
      Step s { mgr := mgr, reqs := countPass s.reqs m, current := some (m, lens) }
  /-- A batch at another layer, of requests that have passed the first one. -/
  | laterLayer {s : State W} {m : BatchMetadata W} {lens : List ℤ} {mgr : CPUBlockManager}
      (hlayer : m.layerId ≠ s.mgr.firstLayer) (hreqIds : m.reqIds.length = m.numTokens)
      (hpassed : ∀ r ∈ m.reqIds, ∃ p k, s.reqs r = some (p, k + 1))
      (h : (CPUBlockManager.updateBlockTable m).Returns s.mgr lens mgr) :
      Step s { s with mgr := mgr, current := some (m, lens) }
  | release {s : State W} {ids : List ℕ} {mgr : CPUBlockManager} (hnodup : ids.Nodup)
      (hlive : ∀ r ∈ ids, ∃ p k, s.reqs r = some (p, k + 1))
      (h : (CPUBlockManager.releaseSeqs ids).Returns s.mgr () mgr) :
      Step s
        { mgr := mgr
          reqs := fun r => if r ∈ ids then none else s.reqs r
          current := none }

end KvRun

end StreamEP

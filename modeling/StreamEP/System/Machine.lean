import StreamEP.Pool.UnifiedPool
import StreamEP.Dispatch.Dispatcher
import StreamEP.Engine.Forward

/-!
# The running system

All devices of a colocated deployment and the network between them. A device has its pool, the
layer its scheduling thread has picked, the batches its engine is working on, the send queue of
its dispatcher, the pieces the dispatcher has yet to send, and the receives that have been posted
and not yet completed. Messages between two devices arrive in the order they were sent; posted
receives complete in any order.

A step is one action of one thread, and any sequence of steps is a run. What attention, the gate
and the sampler compute is left open: any hidden rows that `attends` allows, any experts and
weights, any continuing rows with data that `samples` allows.

Next to the program state there is a record of what happened: the requests admitted and finished,
for every request the work its last attention pass sent out (until it is gathered), and the
tokens the gathering pools emitted, each with that work.

## The size of a step

A step is what one thread does between two uses of a queue that another thread uses. What a thread
computes from a batch it has in hand is part of the step that passes the batch on: nobody else sees
the batch in between. Sending is cut finer, piece by piece, because messages of different devices
interleave on the way to one receiver.
-/

namespace StreamEP

structure Setup (W V : Type) where
  deploy : Deployment
  topK : ℕ
  kernels : Kernels W V
  sort : StdSort
  /-- What attention of a layer may make of a row. -/
  attends : ℕ → V → V → Prop
  /-- What the sampler may loop back for a row. -/
  samples : V → V → Prop

namespace Setup

variable {W V : Type} (M : Setup W V)

abbrev numDevices : ℕ := M.deploy.cfg.numDevices

abbrev numLayers : ℕ := M.deploy.cfg.numLayers

abbrev numExperts : ℕ := M.deploy.cfg.numExperts

/-- Two devices with one expert each, two copies per token, and numbers for rows. -/
def pair : Setup ℕ ℕ where
  deploy := .pair
  topK := 2
  kernels := { expert := fun l e x => x + l + e, scale := (· * ·), gatherSum := List.sum, one := 1 }
  sort := .stable
  attends := fun _ _ _ => True
  samples := fun _ _ => True

def fst : Fin pair.numDevices := ⟨0, by decide⟩

def snd : Fin pair.numDevices := ⟨1, by decide⟩

end Setup

variable {W V : Type}

structure Device (W V : Type) where
  pool : UnifiedPool W V
  /-- The layer its scheduling thread has picked and not yet served. -/
  picked : Option ℤ
  /-- The batches its engine is working on. -/
  running : List (TokenBatch W V)
  /-- `send_queue` of its dispatcher. -/
  sendQueue : List (TokenBatch W V)
  /-- The pieces its dispatcher is sending, with their channels. -/
  sending : List (ℤ × TokenBatch W V)
  /-- `pending_recvs` of its pool. -/
  pending : List (TokenBatch W V)

/-- The work an attention pass sent out for one token. -/
structure Job (W V : Type) where
  layer : ℕ
  hidden : V
  gates : List (ℕ × W)
  initPrefillLen : ℤ
  attnDpRank : ℕ

/-- A token emitted by a gathering pool. -/
structure Emission (W V : Type) where
  device : ℕ
  /-- The attention layer the token goes to. -/
  layer : ℕ
  token : TokenTopKInfo V
  /-- The work that was out for the request. -/
  job : Option (Job W V)

/-- All devices, the network, and what happened so far. -/
structure System (W V : Type) (D : ℕ) where
  device : Fin D → Device W V
  /-- The messages from one device to another, in order. -/
  net : Fin D × Fin D → List (TokenBatch W V)
  admitted : List ℕ
  finished : List ℕ
  /-- The work that is out for a request. -/
  job : ℕ → Option (Job W V)
  /-- The tokens emitted by the gathering pools. -/
  emitted : List (Emission W V)

/-- The tokens a pool emits when it is given a batch. -/
def UnifiedPool.emits [TensorRow V] (p : UnifiedPool W V) (b : TokenBatch W V) :
    List (TokenTopKInfo V) :=
  if b.metadata.isExpert ∧ p.topK > 1 ∧ b.metadata.layerId > 0 then
    match p.topkPools[b.metadata.layerId]? with
    | none => []
    | some pool =>
      match pool.putBatch b with
      | .ok pool => pool.readyTokens
      | .error _ => []
  else []

/-- The batch `_admit_request` puts into the pool. -/
def admission [TensorRow V] (one : W) (rank reqId : ℕ) (prefillLen : ℤ) (data : V) :
    TokenBatch W V where
  data := [data]
  metadata :=
    { batchTag := .tokenizer
      numTokens := 1
      tokenHiddenDim := TensorRow.size V
      layerId := 0
      reqIds := [reqId]
      expIds := [0]
      topkWeights := [one]
      attnDpRanks := [rank]
      initPrefillLens := [prefillLen] }

/-- The work row `i` of a batch sends out. -/
def jobAt [TensorRow V] (k rank : ℕ) (b : TokenBatch W V) (hiddens : List V) (ids : List ℕ)
    (weights : List W) (i : ℕ) : Job W V where
  layer := b.metadata.layerId
  hidden := hiddens[i]?.getD default
  gates := (ids.zip weights).drop (i * k) |>.take k
  initPrefillLen := (b.rowAt i).initPrefillLen
  attnDpRank := rank

/-- Record the work of every row of a batch. -/
def recordJobs [TensorRow V] (b : TokenBatch W V) (jobs : ℕ → Job W V)
    (job : ℕ → Option (Job W V)) : ℕ → Option (Job W V) :=
  (List.range b.metadata.numTokens).foldl
    (fun job i => Function.update job (b.rowAt i).reqId (some (jobs i))) job

namespace System

variable {D : ℕ}

def setDevice (s : System W V D) (d : Fin D) (dev : Device W V) : System W V D :=
  { s with device := Function.update s.device d dev }

def setNet (s : System W V D) (x : Fin D × Fin D) (msgs : List (TokenBatch W V)) :
    System W V D :=
  { s with net := Function.update s.net x msgs }

def newPool (M : Setup W V) (ty : SchedulerType) (attn expert : ℤ) : UnifiedPool W V :=
  (UnifiedPool.create ty M.numLayers 1 M.topK).setScheduleTokenThreshold attn expert

/-- Empty queues everywhere, and the attention batches `inFlight` in the engines. -/
def init [TensorRow V] (M : Setup W V) (ty : Fin M.numDevices → SchedulerType)
    (attn expert : Fin M.numDevices → ℤ) (inFlight : Fin M.numDevices → List (TokenBatch W V)) :
    System W V M.numDevices where
  device d :=
    { pool := newPool M (ty d) (attn d) (expert d)
      picked := none
      running := inFlight d
      sendQueue := []
      sending := []
      pending := [] }
  net := fun _ => []
  admitted := (List.finRange M.numDevices).flatMap fun d =>
    (inFlight d).flatMap fun b => b.rows.map (·.reqId)
  finished := []
  job := fun _ => none
  emitted := []

/-- No thread has anything to do: no layer counts a token, and there is no batch in an engine, with
a dispatcher, in the network or in a posted receive. -/
structure Quiescent (s : System W V D) : Prop where
  numTokens : ∀ d, ∀ i < (s.device d).pool.layerScheduler.numLayers,
    ((s.device d).pool.layerScheduler.layerAt i).numTokens = 0
  running : ∀ d, (s.device d).running = []
  sendQueue : ∀ d, (s.device d).sendQueue = []
  sending : ∀ d, (s.device d).sending = []
  pending : ∀ d, (s.device d).pending = []
  net : ∀ x, s.net x = []

variable [Inhabited W] [TensorRow V]

inductive Step (M : Setup W V) : System W V M.numDevices → System W V M.numDevices → Prop
  /-- The engine admits a new request. -/
  | admitRequest {s : System W V M.numDevices} {d : Fin M.numDevices} {r : ℕ} {len : ℤ} {v : V}
      {p : UnifiedPool W V} (hr : r ∉ s.admitted) (hlen : 0 ≤ len)
      (hput : (s.device d).pool.putBatch (admission M.kernels.one d r len v) = .ok p) :
      Step M s { s.setDevice d { s.device d with pool := p } with admitted := r :: s.admitted }
  /-- The token thresholds of a pool are set. -/
  | setThreshold {s : System W V M.numDevices} {d : Fin M.numDevices} {attn expert : ℤ}
      (ha : 1 ≤ attn) (he : 1 ≤ expert) :
      Step M s (s.setDevice d { s.device d with
        pool := (s.device d).pool.setScheduleTokenThreshold attn expert })
  /-- The scheduling thread picks a layer, or finds no work. -/
  | schedule {s : System W V M.numDevices} {d : Fin M.numDevices}
      (hp : (s.device d).picked = none) :
      Step M s (s.setDevice d { s.device d with
        pool := { (s.device d).pool with
          layerScheduler := (s.device d).pool.layerScheduler.schedule.2 }
        picked := if (s.device d).pool.layerScheduler.schedule.1 = -1 then none
          else some (s.device d).pool.layerScheduler.schedule.1 })
  /-- The scheduling thread takes a batch from the layer it picked. -/
  | take {s : System W V M.numDevices} {d : Fin M.numDevices} {l : ℤ} {p : UnifiedPool W V}
      {b : TokenBatch W V} (hp : (s.device d).picked = some l)
      (hget : (s.device d).pool.getBatchFromLayer M.sort M.kernels.gatherSum l =
        (p, .ok (some b))) :
      Step M s (s.setDevice d { s.device d with
        pool := p
        picked := none
        running := (s.device d).running ++ [b] })
  /-- The engine finishes the attention of a batch and queues it for the experts. -/
  | attend {s : System W V M.numDevices} {d : Fin M.numDevices}
      {before after : List (TokenBatch W V)} {b b' : TokenBatch W V} {hiddens : List V}
      {ids : List ℕ} {weights : List W} (hrun : (s.device d).running = before ++ b :: after)
      (hattn : b.metadata.isAttention) (hlayer : b.metadata.layerId < M.numLayers)
      (hhiddens : hiddens.length = b.metadata.numTokens)
      (hids : ids.length = b.metadata.numTokens * M.topK)
      (hweights : weights.length = b.metadata.numTokens * M.topK)
      (hattends : ∀ x ∈ b.data.zip hiddens, M.attends b.metadata.layerId x.1 x.2)
      (hexp : ∀ e ∈ ids, e < M.numExperts)
      (hpost : postprocessBatchAttn M.topK d b.metadata hiddens ids weights = .ok b') :
      Step M s { s.setDevice d { s.device d with
          running := before ++ after
          sendQueue := (s.device d).sendQueue ++ [b'] } with
        job := recordJobs b (jobAt M.topK d b hiddens ids weights) s.job }
  /-- The engine samples a batch at the final pseudo-layer and loops the continuing rows back. -/
  | sample {s : System W V M.numDevices} {d : Fin M.numDevices}
      {before after : List (TokenBatch W V)} {b : TokenBatch W V} {continueIds : List ℕ}
      {continuedData : List V} {p : UnifiedPool W V}
      (hrun : (s.device d).running = before ++ b :: after) (hattn : b.metadata.isAttention)
      (hlayer : b.metadata.layerId = M.numLayers)
      (hids : continueIds.Sublist (List.range b.metadata.numTokens))
      (hdata : continuedData.length = continueIds.length)
      (hsamples : ∀ x ∈ (continueIds.map fun i => (b.rowAt i).data).zip continuedData,
        M.samples x.1 x.2)
      (hput : (s.device d).pool.putBatch (sampleResults d b continueIds continuedData) = .ok p) :
      Step M s { s.setDevice d { s.device d with pool := p, running := before ++ after } with
        finished := finishReqIds b continueIds ++ s.finished }
  /-- The engine runs the experts on a batch and queues the replies. -/
  | expert {s : System W V M.numDevices} {d : Fin M.numDevices}
      {before after : List (TokenBatch W V)} {b b' : TokenBatch W V}
      (hrun : (s.device d).running = before ++ b :: after) (hexp : b.metadata.isExpert)
      (hexec : executeBatchExpert M.sort M.kernels true b = .ok b') :
      Step M s (s.setDevice d { s.device d with
        running := before ++ after
        sendQueue := (s.device d).sendQueue ++ [b'] })
  /-- The dispatcher takes the next batch and cuts it into pieces. -/
  | dispatch {s : System W V M.numDevices} {d : Fin M.numDevices} {b : TokenBatch W V}
      {rest : List (TokenBatch W V)} (hqueue : (s.device d).sendQueue = b :: rest)
      (hidle : (s.device d).sending = []) :
      Step M s (s.setDevice d { s.device d with
        sendQueue := rest
        sending := (M.deploy.dispatcher d).sendOnce b })
  /-- The dispatcher sends the next piece. -/
  | send {s : System W V M.numDevices} {d e : Fin M.numDevices} {c : ℤ} {b : TokenBatch W V}
      {rest : List (ℤ × TokenBatch W V)} (hsending : (s.device d).sending = (c, b) :: rest)
      (hpeer : M.deploy.peer d c = some e) :
      Step M s ((s.setDevice d { s.device d with sending := rest }).setNet (d, e)
        (s.net (d, e) ++ [b]))
  /-- A pool posts the receive of the next message of a sender. -/
  | receive {s : System W V M.numDevices} {d e : Fin M.numDevices} {b : TokenBatch W V}
      {rest : List (TokenBatch W V)} (hnet : s.net (e, d) = b :: rest) :
      Step M s ((s.setDevice d { s.device d with
        pending := (s.device d).pending ++ [b] }).setNet (e, d) rest)
  /-- A posted receive completes and the pool processes the batch. -/
  | complete {s : System W V M.numDevices} {d : Fin M.numDevices}
      {before after : List (TokenBatch W V)} {b : TokenBatch W V} {p : UnifiedPool W V}
      (hpending : (s.device d).pending = before ++ b :: after)
      (hprocess : (s.device d).pool.processBatch b = .ok p) :
      Step M s { s.setDevice d { s.device d with pool := p, pending := before ++ after } with
        job := fun r => if r ∈ ((s.device d).pool.emits b).map (·.seqId) then none else s.job r
        emitted := s.emitted ++ ((s.device d).pool.emits b).map fun t =>
          ⟨d, b.metadata.layerId, t, s.job t.seqId⟩ }

end System

end StreamEP

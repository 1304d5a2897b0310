import Mathlib.Data.List.AList

/-!
# The two samplers

When a token has gone through the last layer, the sampler decides whether its request goes on. The
dummy sampler counts passes up to the output length. The real sampler first replays a queue of
forced tokens, which are the part of the prompt that the loaded cache does not cover, and then
samples until a stop token or until its budget is used up; the budget is reduced at admission by
the number of forced tokens, but never to zero.

The sampled tokens are the arg-max of the model's output. They are an argument here, so that every
statement holds whatever is sampled. Embeddings and hidden states are left out, and a request
without token ids has an empty list of them.
-/

namespace StreamEP

structure StepResult where
  /-- `continue_ids`: the positions in the batch of the requests that go on. -/
  continueIds : List ℕ
  finishReqIds : List ℕ
  outTokenIds : List ℕ
  deriving DecidableEq, Repr

namespace StepResult

def empty : StepResult := ⟨[], [], []⟩

/-- Put the outcome of a request before those of the requests after it. -/
def cons (i rid tok : ℕ) (isFinished : Bool) (res : StepResult) : StepResult where
  continueIds := if isFinished then res.continueIds else i :: res.continueIds
  finishReqIds := if isFinished then rid :: res.finishReqIds else res.finishReqIds
  outTokenIds := tok :: res.outTokenIds

end StepResult

/-- The loop over the requests of a batch. `one` handles a request with the token that was sampled
for it and returns its output token and whether it is finished. -/
def sampleLoop {σ : Type} (one : σ → ℕ → ℕ → Except String (ℕ × Bool × σ)) (i : ℕ) (s : σ) :
    List (ℕ × ℕ) → Except String (StepResult × σ)
  | [] => .ok (.empty, s)
  | (rid, sampled) :: rest => do
    let (tok, isFinished, s) ← one s rid sampled
    let (res, s) ← sampleLoop one (i + 1) s rest
    return (res.cons i rid tok isFinished, s)

/-! ### The dummy sampler -/

structure DummySampler where
  reqMaxOutputLen : AList fun _ : ℕ => ℕ
  outputLen : AList fun _ : ℕ => ℕ

namespace DummySampler

def init : DummySampler := ⟨∅, ∅⟩

def createRequest (s : DummySampler) (reqId maxOutputLen : ℕ) : DummySampler where
  reqMaxOutputLen := s.reqMaxOutputLen.insert reqId maxOutputLen
  outputLen := s.outputLen.insert reqId 0

def cleanRequest (s : DummySampler) (reqId : ℕ) : DummySampler where
  reqMaxOutputLen := s.reqMaxOutputLen.erase reqId
  outputLen := s.outputLen.erase reqId

/-- A round of `sample_once`. The output token is always `0`. -/
def sampleOne (s : DummySampler) (req _sampled : ℕ) : Except String (ℕ × Bool × DummySampler) :=
  match s.outputLen.lookup req, s.reqMaxOutputLen.lookup req with
  | none, _ => .error s!"req {req} not found in output_len"
  | some _, none => .error "KeyError"
  | some n, some maxLen =>
    let s := { s with outputLen := s.outputLen.insert req (n + 1) }
    -- `check_end`
    if maxLen ≤ n + 1 then .ok (0, true, s.cleanRequest req) else .ok (0, false, s)

def step (s : DummySampler) (reqIds sampled : List ℕ) : Except String (StepResult × DummySampler) :=
  sampleLoop sampleOne 0 s (reqIds.zip sampled)

end DummySampler

/-! ### The real sampler -/

/-- The values of `kv_source`. -/
inductive KvSource where
  | none
  | mooncake
  deriving DecidableEq, Repr

structure RealSampler where
  kvSource : KvSource
  eosTokenIds : List ℕ
  /-- The tokens that a request still replays. -/
  forced : AList fun _ : ℕ => List ℕ
  /-- `out_len`: the tokens sampled for a request. -/
  outLen : AList fun _ : ℕ => ℕ
  reqMaxOutputLen : AList fun _ : ℕ => ℕ
  lastToken : AList fun _ : ℕ => ℕ

namespace RealSampler

def init (kvSource : KvSource) (eosTokenIds : List ℕ) : RealSampler :=
  ⟨kvSource, eosTokenIds, ∅, ∅, ∅, ∅⟩

def createRequest (s : RealSampler) (reqId maxOutputLen : ℕ) (tokenIds : List ℕ) :
    Except String RealSampler :=
  if tokenIds = [] then
    .error "RealSampler needs the prompt token ids (M-REQ)"
  else
    .ok { s with
      reqMaxOutputLen := s.reqMaxOutputLen.insert reqId maxOutputLen
      outLen := s.outLen.insert reqId 0
      forced := s.forced.insert reqId (tokenIds.drop 1) }

/-- The part of `admit_data` that takes the forced tokens off the budget. -/
def reduceMaxOutputLen (s : RealSampler) (reqId : ℕ) (forced : List ℕ) :
    Except String RealSampler :=
  if forced = [] then
    .ok s
  else
    match s.reqMaxOutputLen.lookup reqId with
    | none => .error "KeyError"
    | some n =>
      .ok { s with reqMaxOutputLen := s.reqMaxOutputLen.insert reqId (max 1 (n - forced.length)) }

/-- `admit_data`: the number of positions whose cache is valid. -/
def admitData (s : RealSampler) (reqId initPrefillLen : ℕ) (tokenIds : List ℕ) :
    Except String (ℕ × RealSampler) :=
  match s.kvSource with
  | .mooncake =>
    match tokenIds[initPrefillLen]? with
    | none => .error "kv_source=mooncake needs token_ids = prompt + [first token]"
    | some first => do
      let forced := tokenIds.drop (initPrefillLen + 1)
      let s := { s with forced := s.forced.insert reqId forced }
      let s ← s.reduceMaxOutputLen reqId forced
      return (initPrefillLen, { s with lastToken := s.lastToken.insert reqId first })
  | .none =>
    match tokenIds[0]? with
    | none => .error "IndexError"
    | some first => .ok (0, { s with lastToken := s.lastToken.insert reqId first })

def cleanRequest (s : RealSampler) (reqId : ℕ) : RealSampler :=
  { s with
    forced := s.forced.erase reqId
    outLen := s.outLen.erase reqId
    reqMaxOutputLen := s.reqMaxOutputLen.erase reqId
    lastToken := s.lastToken.erase reqId }

/-- The end of a round of `step`. -/
def emit (s : RealSampler) (rid tok : ℕ) (isFinished : Bool) : ℕ × Bool × RealSampler :=
  let s := { s with lastToken := s.lastToken.insert rid tok }
  (tok, isFinished, if isFinished then s.cleanRequest rid else s)

/-- A round of `step`. -/
def sampleOne (s : RealSampler) (rid sampled : ℕ) : Except String (ℕ × Bool × RealSampler) :=
  match s.forced.lookup rid with
  | some (tok :: forcedQ) =>
    .ok (emit { s with forced := s.forced.insert rid forcedQ } rid tok false)
  | _ =>
    match s.outLen.lookup rid with
    | none => .error "KeyError"
    | some n =>
      let s := { s with outLen := s.outLen.insert rid (n + 1) }
      if sampled ∈ s.eosTokenIds then
        .ok (emit s rid sampled true)
      else
        match s.reqMaxOutputLen.lookup rid with
        | none => .error "KeyError"
        | some maxLen => .ok (emit s rid sampled (decide (maxLen ≤ n + 1)))

/-- `step`, after the arg-max. -/
def step (s : RealSampler) (reqIds sampled : List ℕ) : Except String (StepResult × RealSampler) :=
  sampleLoop sampleOne 0 s (reqIds.zip sampled)

end RealSampler

/-! ### The interface of the engine -/

inductive Sampler where
  | dummy (s : DummySampler)
  | real (s : RealSampler)

namespace Sampler

def createRequest (s : Sampler) (reqId maxOutputLen : ℕ) (tokenIds : List ℕ) :
    Except String Sampler :=
  match s with
  | .dummy s => .ok (.dummy (s.createRequest reqId maxOutputLen))
  | .real s => .real <$> s.createRequest reqId maxOutputLen tokenIds

def admitData (s : Sampler) (reqId initPrefillLen : ℕ) (tokenIds : List ℕ) :
    Except String (ℕ × Sampler) :=
  match s with
  | .dummy s => .ok (initPrefillLen, .dummy s)
  | .real s => Prod.map id .real <$> s.admitData reqId initPrefillLen tokenIds

def step (s : Sampler) (reqIds sampled : List ℕ) : Except String (StepResult × Sampler) :=
  match s with
  | .dummy s => Prod.map id .dummy <$> s.step reqIds sampled
  | .real s => Prod.map id .real <$> s.step reqIds sampled

/-- The sampler's part of `_admit_request`. -/
def admitRequest (s : Sampler) (reqId initPrefillLen maxOutputLen : ℕ) (tokenIds : List ℕ) :
    Except String (ℕ × Sampler) := do
  let s ← s.createRequest reqId maxOutputLen tokenIds
  s.admitData reqId initPrefillLen tokenIds

end Sampler

end StreamEP

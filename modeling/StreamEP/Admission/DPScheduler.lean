import Mathlib.Algebra.Order.Field.Rat
import Mathlib.Algebra.Order.Floor.Div
import Mathlib.Data.List.AList
import Mathlib.Logic.Relation

/-!
# Admission of requests

`DPScheduler` of `disagmoe/scheduler/dpscheduler.py` assigns every request to a data-parallel
rank. A request reserves the blocks its prompt and its output can need, and a policy that looks at
the reservations keeps a request waiting when no rank has enough left.

`waiting_loop` is a coroutine on one event loop. It takes requests from a queue, tries to schedule
each, and when that fails waits for the event that `del_seq` sets and tries again. Other
coroutines run only where it awaits; everything between two `await`s is one step below.

Lengths are numbers of tokens. The weights of the weighted policy are rational numbers, so scores
are exact. The callable of a request stands for its submission and is left out of the record.
-/

namespace StreamEP

structure RequestItem where
  reqId : ℕ
  seqLen : ℕ
  prefillLen : ℕ
  outputLen : ℕ
deriving DecidableEq, Repr

/-- The policies of `get_dp_scheduler`, with the weights as `DPSchedulerWeighted` stores them. -/
inductive Policy
  | rr
  | max
  | capRR
  | weighted (weights : List ℚ)
deriving DecidableEq, Repr

/-- The constructor of `DPSchedulerWeighted` divides by the sum. -/
def Policy.ofWeights (weights : List ℚ) : Policy :=
  .weighted (weights.map (· / weights.sum))

structure DPScheduler where
  policy : Policy
  dpSize : ℕ
  blockSize : ℕ
  kvCacheStats : List ℤ
  seqRanks : AList fun _ : ℕ => ℕ
  seqMaxLen : AList fun _ : ℕ => ℕ × ℕ
  curRank : ℕ

def requiredBlocks (blockSize prefillLen outputLen : ℕ) : ℕ :=
  (prefillLen + blockSize - 1) / blockSize + (outputLen + blockSize - 1) / blockSize

/-- **The blocks reserved hold the tokens at the start and one for every pass.** -/
theorem add_le_requiredBlocks {bs : ℕ} (hbs : 0 < bs) (p o : ℕ) :
    p + o ≤ bs * requiredBlocks bs p o := by
  have hp : p ≤ bs * (p ⌈/⌉ bs) := le_smul_ceilDiv hbs
  have ho : o ≤ bs * (o ⌈/⌉ bs) := le_smul_ceilDiv hbs
  rw [requiredBlocks, ← Nat.ceilDiv_eq_add_pred_div, ← Nat.ceilDiv_eq_add_pred_div, Nat.mul_add]
  omega

def RequestItem.required (blockSize : ℕ) (x : RequestItem) : ℕ :=
  requiredBlocks blockSize x.prefillLen x.outputLen

namespace DPScheduler

/-- A scheduler after `start` with the given number of blocks per rank. -/
def create (policy : Policy) (blockSize : ℕ) (stats : List ℕ) : DPScheduler where
  policy := policy
  dpSize := stats.length
  blockSize := blockSize
  kvCacheStats := stats.map (↑)
  seqRanks := ∅
  seqMaxLen := ∅
  curRank := 0

def addSeq (s : DPScheduler) (seqId prefillLen outputLen rank : ℕ) : DPScheduler :=
  { s with
    seqMaxLen := s.seqMaxLen.insert seqId (prefillLen, outputLen)
    kvCacheStats := s.kvCacheStats.modify rank
      (· - requiredBlocks s.blockSize prefillLen outputLen)
    seqRanks := s.seqRanks.insert seqId rank }

/-- `del_seq`, apart from the event. An unknown request is a `KeyError`. -/
def delSeq (s : DPScheduler) (seqId : ℕ) : Option DPScheduler := do
  let rank ← s.seqRanks.lookup seqId
  let lens ← s.seqMaxLen.lookup seqId
  return { s with
    seqRanks := s.seqRanks.erase seqId
    kvCacheStats := s.kvCacheStats.modify rank (· + requiredBlocks s.blockSize lens.1 lens.2)
    seqMaxLen := s.seqMaxLen.erase seqId }

/-! ### Policies -/

/-- The loop of `DPSchedulerMax`: the largest positive entry and its rank. -/
def maxStat (stats : List ℤ) : ℤ × ℤ :=
  stats.zipIdx.foldl
    (fun best x => if x.1 > best.1 then (x.1, (x.2 : ℤ)) else best) (0, -1)

/-- The loop of `DPSchedulerCapRR`: the first of the next `n` ranks with enough blocks, and the
new `cur_rank`. -/
def capRRLoop (stats : List ℤ) (required : ℤ) (dpSize : ℕ) : ℕ → ℕ → ℤ × ℕ
  | 0, curRank => (-1, curRank)
  | n + 1, curRank =>
    if stats.getD curRank 0 ≥ required then (curRank, (curRank + 1) % dpSize)
    else capRRLoop stats required dpSize n ((curRank + 1) % dpSize)

/-- The loop of `DPSchedulerWeighted`: the best score and its rank. -/
def bestScore (weights : List ℚ) (stats : List ℤ) (required : ℤ) : ℚ × ℤ :=
  stats.zipIdx.foldl
    (fun best x =>
      if x.1 < required then best
      else if x.1 * weights.getD x.2 0 > best.1 then (x.1 * weights.getD x.2 0, (x.2 : ℤ))
      else best)
    (-1, -1)

/-- `_schedule`: a rank or `-1`. -/
def scheduleOne (s : DPScheduler) (prefillLen outputLen : ℕ) : ℤ × DPScheduler :=
  let required : ℤ := requiredBlocks s.blockSize prefillLen outputLen
  match s.policy with
  | .rr => (s.curRank, { s with curRank := (s.curRank + 1) % s.dpSize })
  | .max => (if (maxStat s.kvCacheStats).1 < required then -1 else (maxStat s.kvCacheStats).2, s)
  | .capRR =>
    let (rank, curRank) := capRRLoop s.kvCacheStats required s.dpSize s.dpSize s.curRank
    (rank, { s with curRank := curRank })
  | .weighted weights => ((bestScore weights s.kvCacheStats required).2, s)

def schedule (s : DPScheduler) : List ℕ → List ℕ → List ℕ → List ℤ × DPScheduler
  | req :: reqs, plen :: plens, olen :: olens =>
    let (rank, s₁) := s.scheduleOne plen olen
    let s₂ := if rank ≥ 0 then s₁.addSeq req plen olen rank.toNat else s₁
    let (ranks, s₃) := s₂.schedule reqs plens olens
    (rank :: ranks, s₃)
  | _, _, _ => ([], s)

end DPScheduler

/-! ### The waiting loop -/

namespace SchedulerRun

inductive Phase
  /-- At the head of the loop. -/
  | start
  /-- In `asyncio.wait`. -/
  | waiting
  /-- In `asyncio.wait`, and `waiting_queue.get()` has returned. -/
  | got (item : RequestItem)
  /-- Awaiting the task of `end_event.wait()`, which was cancelled. -/
  | cancelling (item : RequestItem)
  /-- In `sch_event.wait()`. -/
  | blocked (item : RequestItem)
  | ended
deriving DecidableEq, Repr

/-- The scheduler with its loop, and what happened so far. -/
structure State where
  sched : DPScheduler
  waitingQueue : List RequestItem
  schEvent : Bool
  /-- `end_flag` and `end_event`, which are set together. -/
  endFlag : Bool
  phase : Phase
  puts : List RequestItem
  /-- The calls of `request_item.func`, in order, with the rank passed. -/
  submitted : List (RequestItem × ℤ)
  /-- The requests submitted and not deleted, with the rank passed. -/
  live : List (RequestItem × ℤ)

def State.init (policy : Policy) (blockSize : ℕ) (stats : List ℕ) : State where
  sched := .create policy blockSize stats
  waitingQueue := []
  schEvent := false
  endFlag := false
  phase := .start
  puts := []
  submitted := []
  live := []

/-- The request in the hands of the loop. -/
def Phase.inHand : Phase → List RequestItem
  | .got item => [item]
  | .cancelling item => [item]
  | .blocked item => [item]
  | _ => []

/-- Try to schedule a request and submit it, or wait for the event. -/
def State.attempt (s : State) (item : RequestItem) : State :=
  let (ranks, sched) := s.sched.schedule [item.reqId] [item.prefillLen] [item.outputLen]
  let rank := ranks.headD (-1)
  if rank < 0 then { s with sched := sched, phase := .blocked item }
  else
    { s with
      sched := sched
      phase := .start
      submitted := s.submitted ++ [(item, rank)]
      live := s.live ++ [(item, rank)] }

/-- What runs between two `await`s. -/
inductive Step : State → State → Prop
  /-- `put_request`, with an id no request in the system has. -/
  | put {s : State} {item : RequestItem}
      (hnew : item.reqId ∉
        s.live.map (·.1.reqId) ++ (s.phase.inHand ++ s.waitingQueue).map (·.reqId)) :
      Step s { s with waitingQueue := s.waitingQueue ++ [item], puts := s.puts ++ [item] }
  | begin {s : State} (hphase : s.phase = .start) :
      Step s { s with phase := if s.endFlag then .ended else .waiting }
  /-- `waiting_queue.get()` returns. -/
  | get {s : State} {item : RequestItem} {rest : List RequestItem} (hphase : s.phase = .waiting)
      (hqueue : s.waitingQueue = item :: rest) :
      Step s { s with waitingQueue := rest, phase := .got item }
  /-- `asyncio.wait` returns, with a request, and the other task is cancelled. -/
  | check {s : State} {item : RequestItem} (hphase : s.phase = .got item)
      (hend : s.endFlag = false) : Step s { s with phase := .cancelling item }
  /-- The cancelled task has ended. -/
  | resume {s : State} {item : RequestItem} (hphase : s.phase = .cancelling item) :
      Step s (s.attempt item)
  /-- `asyncio.wait` returns, and the loop is to end. -/
  | leave {s : State} (hphase : s.phase = .waiting ∨ ∃ item, s.phase = .got item)
      (hend : s.endFlag = true) : Step s { s with phase := .ended }
  /-- `sch_event.wait()` returns. -/
  | retry {s : State} {item : RequestItem} (hphase : s.phase = .blocked item)
      (hevent : s.schEvent = true) : Step s ({ s with schEvent := false }.attempt item)
  /-- `del_seq` of a live request. -/
  | delSeq {s : State} {x : RequestItem × ℤ} {before after : List (RequestItem × ℤ)}
      {sched : DPScheduler} (hlive : s.live = before ++ x :: after)
      (hdel : s.sched.delSeq x.1.reqId = some sched) :
      Step s { s with sched := sched, schEvent := true, live := before ++ after }
  | terminate {s : State} : Step s { s with endFlag := true }

end SchedulerRun

end StreamEP

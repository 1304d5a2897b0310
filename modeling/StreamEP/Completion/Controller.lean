import StreamEP.Admission.Accounting
import StreamEP.Completion.Detokenizer

/-!
# Completing requests

A request is submitted by `put_single_request` of the controller, admitted to an engine by the
scheduler, decoded there, reported to the detokenizer over a socket, fetched by
`poll_finished_results` and completed by a task running `process_finished_results`. The controller
and the scheduler share one event loop: what a coroutine does between two `await`s is one step.
Engines, the detokenizer and the event loop are separate processes, so their steps interleave
freely.

A task first removes all its requests from `in_flight_reqs` and from the scheduler, without an
`await`. Then it delivers the results one by one. Delivering awaits the condition of the
`AsyncResult`, so other coroutines run between that and the `pop` after it.

Engines stay abstract. An engine reports requests that were submitted to it, a request at most
once per batch and never after its `is_eos` entry; a rejected load of a KV cache is a batch with a
single `is_eos` entry. A socket delivers the batches of an engine in order.
-/

namespace StreamEP

namespace Completion

/-- A task that runs `process_finished_results` and is past its first loop. -/
structure Task where
  /-- The results whose request is not popped yet. -/
  rest : List SloStat
  /-- Whether `put` of the first of them has returned. -/
  wasPut : Bool
deriving DecidableEq, Repr

/-- The result a task has delivered and not popped. -/
def Task.inHand (t : Task) : List SloStat :=
  if t.wasPut then t.rest.take 1 else []

@[simp] theorem Task.inHand_false (rest : List SloStat) : Task.inHand ⟨rest, false⟩ = [] := rfl

@[simp] theorem Task.inHand_true (result : SloStat) (rest : List SloStat) :
    Task.inHand ⟨result :: rest, true⟩ = [result] := rfl

/-- All processes and sockets, and what happened so far. -/
structure State where
  run : SchedulerRun.State
  inFlightReqs : Finset ℕ
  /-- The keys of `request_results`. -/
  requestResults : Finset ℕ
  detok : Detokenizer
  /-- The batches an engine has sent and the detokenizer has not received. -/
  wires : ℕ → List BatchDecodeResult
  created : List (List SloStat)
  running : List Task
  /-- The ids of all requests so far. -/
  used : List ℕ
  sent : ℕ → BatchDecodeResult
  received : BatchDecodeResult
  fetched : List SloStat
  /-- The requests removed from `in_flight_reqs` and from the scheduler. -/
  released : List ℕ
  delivered : List SloStat
  /-- The results whose request was popped from `request_results`. -/
  popped : List SloStat

namespace State

def init (policy : Policy) (blockSize : ℕ) (stats : List ℕ) : State where
  run := .init policy blockSize stats
  inFlightReqs := ∅
  requestResults := ∅
  detok := .init
  wires _ := []
  created := []
  running := []
  used := []
  sent _ := []
  received := []
  fetched := []
  released := []
  delivered := []
  popped := []

/-- The request was submitted to the engine of this rank. -/
def Owns (s : State) (rank reqId : ℕ) : Prop :=
  ∃ item, (item, (rank : ℤ)) ∈ s.run.submitted ∧ item.reqId = reqId

/-- `put_single_request`, for an id from `get_new_req_id`. -/
def putSingleRequest (s : State) (item : RequestItem) : State :=
  { s with
    inFlightReqs := insert item.reqId s.inFlightReqs
    requestResults := insert item.reqId s.requestResults
    run := { s.run with
      waitingQueue := s.run.waitingQueue ++ [item]
      puts := s.run.puts ++ [item] }
    used := s.used ++ [item.reqId] }

/-- The body of the first loop of `process_finished_results`. -/
def release (s : State) (reqId : ℕ) : Except String State :=
  if reqId ∈ s.inFlightReqs then
    match s.run.sched.delSeq reqId with
    | none => .error s!"KeyError: {reqId}"
    | some sched =>
      .ok
        { s with
          inFlightReqs := s.inFlightReqs.erase reqId
          run := { s.run with
            sched := sched
            schEvent := true
            live := s.run.live.filter (·.1.reqId ≠ reqId) }
          released := s.released ++ [reqId] }
  else .error s!"KeyError: {reqId}"

/-- The first loop of `process_finished_results`. -/
def startTask (s : State) (results : List SloStat) : Except String State :=
  (results.map (·.reqId)).foldlM release s

/-- `request_results[result.req_id].put(result)` -/
def putResult (s : State) (result : SloStat) : Except String State :=
  if result.reqId ∈ s.requestResults then .ok { s with delivered := s.delivered ++ [result] }
  else .error s!"KeyError: {result.reqId}"

/-- `request_results.pop(result.req_id)` -/
def popResult (s : State) (result : SloStat) : Except String State :=
  if result.reqId ∈ s.requestResults then
    .ok
      { s with
        requestResults := s.requestResults.erase result.reqId
        popped := s.popped ++ [result] }
  else .error s!"KeyError: {result.reqId}"

end State

inductive Step : State → State → Prop
  /-- A client submits a request, with an id of its own. -/
  | submit {s : State} {item : RequestItem} (hnew : item.reqId ∉ s.used) :
      Step s (s.putSingleRequest item)
  /-- A step of the waiting loop, or `terminate`. -/
  | schedule {s : State} {run : SchedulerRun.State} (hstep : SchedulerRun.Step s.run run)
      (hputs : run.puts = s.run.puts) (hlive : s.run.live <+: run.live) :
      Step s { s with run := run }
  /-- The sampler of an engine sends a batch. -/
  | emit {s : State} {rank : ℕ} {batch : BatchDecodeResult}
      (hnodup : (batch.map (·.reqId)).Nodup) (howns : ∀ e ∈ batch, s.Owns rank e.reqId)
      (hopen : ∀ e ∈ batch, e.reqId ∉ (s.sent rank).finished) :
      Step s { s with
        wires := Function.update s.wires rank (s.wires rank ++ [batch])
        sent := Function.update s.sent rank (s.sent rank ++ batch) }
  /-- The detokenizer receives a batch. -/
  | receive {s : State} {rank : ℕ} {batch : BatchDecodeResult} {rest : List BatchDecodeResult}
      {now : ℚ} {detok : Detokenizer} (hwire : s.wires rank = batch :: rest)
      (hdetok : s.detok.processBatch now batch = .ok detok) :
      Step s { s with
        wires := Function.update s.wires rank rest
        detok := detok
        received := s.received ++ batch }
  /-- The body of `poll_finished_results`. -/
  | fetch {s : State} {order : List ℕ} {res : List SloStat} {detok : Detokenizer}
      (horder : s.detok.Iterates order)
      (hfetch : s.detok.fetchFinishedResults order = .ok (res, detok)) :
      Step s { s with
        detok := detok
        fetched := s.fetched ++ res
        created := if res.isEmpty then s.created else s.created ++ [res] }
  /-- A task starts and runs up to its first `await`. -/
  | start {s s' : State} {results : List SloStat} {before after : List (List SloStat)}
      (hcreated : s.created = before ++ results :: after)
      (hstart : s.startTask results = .ok s') :
      Step s { s' with created := before ++ after, running := s.running ++ [⟨results, false⟩] }
  /-- A task delivers a result. -/
  | put {s s' : State} {result : SloStat} {rest : List SloStat} {before after : List Task}
      (hrunning : s.running = before ++ ⟨result :: rest, false⟩ :: after)
      (hput : s.putResult result = .ok s') :
      Step s { s' with running := before ++ ⟨result :: rest, true⟩ :: after }
  /-- A task pops the request of the result it delivered. -/
  | pop {s s' : State} {result : SloStat} {rest : List SloStat} {before after : List Task}
      (hrunning : s.running = before ++ ⟨result :: rest, true⟩ :: after)
      (hpop : s.popResult result = .ok s') :
      Step s { s' with running := before ++ ⟨rest, false⟩ :: after }

end Completion

namespace Completion.State

variable {policy : Policy} {bs : ℕ} {cap : List ℕ}

/-- **The first loop of a task**, for distinct requests that are live. -/
theorem exists_startTask {s : State} (hs : SchedulerRun.Inv policy bs cap s.run)
    {results : List SloStat} (hnodup : (results.map (·.reqId)).Nodup)
    (hflight : ∀ x ∈ results, x.reqId ∈ s.inFlightReqs)
    (hlive : ∀ x ∈ results, ∃ y ∈ s.run.live, y.1.reqId = x.reqId) :
    ∃ sched live event,
      s.startTask results = .ok
        { s with
          inFlightReqs := s.inFlightReqs \ (results.map (·.reqId)).toFinset
          run := { s.run with sched := sched, schEvent := event, live := live }
          released := s.released ++ results.map (·.reqId) } ∧
      SchedulerRun.Inv policy bs cap
        { s.run with sched := sched, schEvent := event, live := live } ∧
      ∀ y ∈ s.run.live, y.1.reqId ∉ results.map (·.reqId) → y ∈ live := by
  induction results generalizing s with
  | nil =>
    refine ⟨s.run.sched, s.run.live, s.run.schEvent, ?_, hs, fun y hy _ => hy⟩
    simp [startTask]
    rfl
  | cons x results ih =>
    rw [List.map_cons, List.nodup_cons] at hnodup
    obtain ⟨y, hy, hyx⟩ := hlive x (by simp)
    obtain ⟨sched, hdel, hinv⟩ := hs.exists_delSeq hy
    rw [hyx] at hdel hinv
    obtain ⟨s₁, hs₁⟩ : ∃ s₁ : State, s₁ =
        { s with
          inFlightReqs := s.inFlightReqs.erase x.reqId
          run := { s.run with
            sched := sched
            schEvent := true
            live := s.run.live.filter (·.1.reqId ≠ x.reqId) }
          released := s.released ++ [x.reqId] } := ⟨_, rfl⟩
    have hstep : s.release x.reqId = .ok s₁ := by
      rw [release, if_pos (hflight x (by simp)), hdel, hs₁]
    have hne : ∀ x' ∈ results, x'.reqId ≠ x.reqId := by
      intro x' hx' heq
      exact hnodup.1 (heq ▸ List.mem_map_of_mem hx')
    obtain ⟨sched', live, event, hfold, hinv', hkeep⟩ := @ih s₁ (by rw [hs₁]; exact hinv) hnodup.2
      (by
        intro x' hx'
        rw [hs₁]
        exact Finset.mem_erase.2 ⟨hne x' hx', hflight x' (by simp [hx'])⟩)
      (by
        intro x' hx'
        obtain ⟨y', hy', heq⟩ := hlive x' (by simp [hx'])
        refine ⟨y', ?_, heq⟩
        rw [hs₁]
        exact List.mem_filter.2 ⟨hy', by simp [heq, hne x' hx']⟩)
    subst hs₁
    refine ⟨sched', live, event, ?_, hinv', fun y' hy' hnot => hkeep y' ?_ ?_⟩
    · rw [startTask, List.map_cons, List.foldlM_cons, hstep]
      refine Eq.trans hfold ?_
      have hset : s.inFlightReqs.erase x.reqId \ (results.map (·.reqId)).toFinset =
          s.inFlightReqs \ (x.reqId :: results.map (·.reqId)).toFinset := by
        ext r
        simp only [Finset.mem_sdiff, Finset.mem_erase, List.mem_toFinset, List.mem_cons, not_or]
        tauto
      simp only [hset, List.append_assoc, List.singleton_append]
    · refine List.mem_filter.2 ⟨hy', ?_⟩
      simp only [List.map_cons, List.mem_cons, not_or] at hnot
      simpa using hnot.1
    · intro hmem
      exact hnot (by simp only [List.map_cons, List.mem_cons]; exact .inr hmem)

end Completion.State

end StreamEP

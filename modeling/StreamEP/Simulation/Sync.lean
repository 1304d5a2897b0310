import StreamEP.Lib.Checked
import StreamEP.Simulation.WorkerTime
import Mathlib.Algebra.BigOperators.Group.Finset.Piecewise
import Mathlib.Algebra.Order.BigOperators.Group.Finset
import Mathlib.Algebra.Order.Ring.Rat

/-!
# The synchronous simulator

`SyncMoESimulator.run` of `simulation/sim_sync.py`, without an early-stop target. A round releases
the requests that have arrived, fills the active requests up to a limit, and either waits for the
next arrival or creates one token for every active request and completes all of them after the
duration of the iteration.

Arrival times need not be sorted: requests are released by index, so a late one holds up those
behind it. The duration of an iteration is any non-negative function of the state, which records all
that has happened. What a run is judged by is recorded as well: the values of the clock, the sizes
of the list of active requests, the requests in the order in which they became active, and the
completed tokens.

## Why a measure

`run` has no bound on its rounds. The model is given fuel, and the result is that some amount is
enough: a round that does not end the run lowers `remaining`, the arrivals and tokens to come. An
iteration makes a token for every active request, and a wait releases a request.

## Main results

* `SyncMoESimulator.Inv.releaseLoop`, `Inv.fillLoop`, `Inv.advance`, `Inv.iterate` — the parts of
  a round
* `SyncMoESimulator.Inv.round` — every round but the last one brings the end nearer
* `SyncMoESimulator.run_complete`
-/

namespace StreamEP

/-- `Token` -/
structure SyncToken (R : Type) where
  tid : ℕ
  birthTime : R
  requestId : ℕ
  tokenIndex : ℕ
  homeGpu : ℕ

structure SyncCompletion (R : Type) where
  token : SyncToken R
  time : R

/-- The state of `SyncMoESimulator`. Requests are their indices; the fields of `RequestState` are
functions of them. -/
structure SyncState (R : Type) where
  currentTime : R
  arrivalIndex : ℕ
  waitingQueue : List ℕ
  activeRequests : List ℕ
  nextTid : ℕ
  nextHomeGpu : ℕ
  completedTokens : ℕ
  /-- `home_gpu` of a request -/
  homeGpu : ℕ → Option ℕ
  /-- `next_token_index` of a request -/
  nextTokenIndex : ℕ → ℕ
  /-- `completed` of a request -/
  completed : ℕ → Bool
  /-- The tokens in `completion_times`, in the order of their entry. -/
  completions : List (SyncCompletion R)
  /-- The values that `current_time` has had. -/
  clock : List R
  /-- The requests that became active, in that order. -/
  activated : List ℕ
  /-- The lengths that `active_requests` has had. -/
  activeCounts : List ℕ

/-- The parameters of `SyncMoESimulator`. -/
structure SyncMoESimulator (R : Type) [Zero R] [LE R] where
  requestArrivals : List R
  tokensPerRequest : ℕ
  maxBatchSize : ℕ
  /-- `attn_dp_group_size`, before it is raised to one -/
  attnDpGroupSize : ℕ
  /-- `global_request_max_batch_size`, before it is raised to one -/
  globalRequestMaxBatchSize : ℕ
  /-- The duration that `_run_one_iteration` returns. -/
  runOneIteration : SyncState R → List (SyncToken R) → R
  tokensPerRequest_pos : 0 < tokensPerRequest
  maxBatchSize_pos : 0 < maxBatchSize
  runOneIteration_nonneg : ∀ s tokens, 0 ≤ runOneIteration s tokens

namespace SyncMoESimulator

variable {R : Type} [AddCommGroup R] [LinearOrder R] (sim : SyncMoESimulator R)

def limit : ℕ := max 1 sim.globalRequestMaxBatchSize

def totalRequests : ℕ := sim.requestArrivals.length

def expectedTotalTokens : ℕ := sim.totalRequests * sim.tokensPerRequest

/-- `arrival_time` of a request -/
def arrivalTime (rid : ℕ) : R := sim.requestArrivals.getD rid 0

/-- The loop of `_release_new_arrivals` over the arrivals that are left. -/
def releaseLoop : List R → SyncState R → SyncState R
  | [], s => s
  | time :: rest, s =>
    if time ≤ s.currentTime then
      releaseLoop rest { s with
        waitingQueue := s.waitingQueue ++ [s.arrivalIndex]
        arrivalIndex := s.arrivalIndex + 1 }
    else s

def releaseNewArrivals (s : SyncState R) : SyncState R :=
  releaseLoop (sim.requestArrivals.drop s.arrivalIndex) s

/-- `_advance_to_next_arrival`, nothing if it returns `False` -/
def advanceToNextArrival (s : SyncState R) : Option (SyncState R) :=
  if s.arrivalIndex ≥ sim.totalRequests then none
  else
    let nextTime := sim.arrivalTime s.arrivalIndex
    let s :=
      if nextTime > s.currentTime then
        { s with currentTime := nextTime, clock := s.clock ++ [nextTime] }
      else s
    some (sim.releaseNewArrivals s)

/-- The end of a round of `_fill_active_requests`, for a candidate that is not completed. -/
def activate (s : SyncState R) (candidate : ℕ) : SyncState R :=
  let s :=
    if s.homeGpu candidate = none then
      { s with
        homeGpu := Function.update s.homeGpu candidate
          (some (s.nextHomeGpu % max 1 sim.attnDpGroupSize))
        nextHomeGpu := s.nextHomeGpu + 1 }
    else s
  { s with
    activeRequests := s.activeRequests ++ [candidate]
    activated := s.activated ++ [candidate]
    activeCounts := s.activeCounts ++ [s.activeRequests.length + 1] }

/-- The loop of `_fill_active_requests` over the waiting queue. -/
def fillLoop : List ℕ → SyncState R → SyncState R
  | [], s => s
  | candidate :: rest, s =>
    if s.activeRequests.length < sim.limit then
      if s.completed candidate then fillLoop rest { s with waitingQueue := rest }
      else fillLoop rest (sim.activate { s with waitingQueue := rest } candidate)
    else s

def fillActiveRequests (s : SyncState R) : SyncState R := sim.fillLoop s.waitingQueue s

/-- The loop of `_spawn_tokens_for_iteration` over the active requests that are left. -/
def spawnLoop (s : SyncState R) : List ℕ → ℕ → Except String (List (SyncToken R))
  | [], _ => .ok []
  | rid :: rest, tid =>
    if s.completed rid ∨ s.nextTokenIndex rid ≥ sim.tokensPerRequest then spawnLoop s rest tid
    else
      match s.homeGpu rid with
      | none => .error s!"Request {rid} is active but missing home_gpu assignment."
      | some gpu => do
        let tokens ← spawnLoop s rest (tid + 1)
        return ⟨tid, s.currentTime, rid, s.nextTokenIndex rid, gpu⟩ :: tokens

/-- The body of the loop of `_finalize_iteration`. -/
def completeToken (s : SyncState R) (token : SyncToken R) : SyncState R :=
  let rid := token.requestId
  { s with
    completions := s.completions ++ [⟨token, s.currentTime⟩]
    completedTokens := s.completedTokens + 1
    nextTokenIndex := Function.update s.nextTokenIndex rid (s.nextTokenIndex rid + 1)
    completed :=
      if s.nextTokenIndex rid + 1 ≥ sim.tokensPerRequest then Function.update s.completed rid true
      else s.completed }

def finalizeIteration (s : SyncState R) (tokens : List (SyncToken R)) : SyncState R :=
  let s := tokens.foldl sim.completeToken s
  let activeRequests := s.activeRequests.filter (!s.completed ·)
  { s with
    activeRequests := activeRequests
    activeCounts := s.activeCounts ++ [activeRequests.length] }

/-- How a round of the loop of `run` ends. -/
inductive Round (R : Type)
  /-- The condition of the loop fails, or `break`. -/
  | stop (s : SyncState R)
  /-- `continue`, or the end of the body. -/
  | next (s : SyncState R)

/-- `_advance_to_next_arrival` and the end of the round. -/
def idleRound (s : SyncState R) : Round R :=
  match sim.advanceToNextArrival s with
  | none => .stop s
  | some s => .next s

/-- A round of the loop of `run`. -/
def round (s : SyncState R) : Except String (Round R) :=
  if s.completedTokens < sim.expectedTotalTokens then
    let s := sim.fillActiveRequests (sim.releaseNewArrivals s)
    if s.activeRequests = [] then .ok (sim.idleRound s)
    else do
      let tokens ← sim.spawnLoop s s.activeRequests s.nextTid
      let s := { s with nextTid := s.nextTid + tokens.length }
      if tokens = [] then return sim.idleRound s
      let time := s.currentTime + sim.runOneIteration s tokens
      let s := { s with currentTime := time, clock := s.clock ++ [time] }
      return .next (sim.finalizeIteration s tokens)
  else .ok (.stop s)

/-- At most `fuel` rounds; nothing if they do not reach the end. -/
def loop : ℕ → SyncState R → Except String (Option (SyncState R))
  | 0, _ => .ok none
  | fuel + 1, s => do
    match ← sim.round s with
    | .stop s => return some s
    | .next s => loop fuel s

def start : SyncState R where
  currentTime := 0
  arrivalIndex := 0
  waitingQueue := []
  activeRequests := []
  nextTid := 0
  nextHomeGpu := 0
  completedTokens := 0
  homeGpu := fun _ => none
  nextTokenIndex := fun _ => 0
  completed := fun _ => false
  completions := []
  clock := [0]
  activated := []
  activeCounts := [0]

/-- `run`, for at most `fuel` rounds -/
def run (fuel : ℕ) : Except String (Option (SyncState R)) := sim.loop fuel start

/-- The loop of `_simulate_worker_compute_time`, with the sizes of the batches for what it adds
up. -/
def workerLoop (queues : List ℕ) (totalTokens : ℕ) : Except String (List ℕ) :=
  ExpertBatching.serveLoop sim.maxBatchSize sim.maxBatchSize_pos
    (fun batches batch => .ok (batches ++ [batch])) queues totalTokens []

def completionsOf (s : SyncState R) (rid : ℕ) : List (SyncCompletion R) :=
  s.completions.filter (·.token.requestId = rid)

/-- **A run as it should be.** -/
structure Complete (s : SyncState R) : Prop where
  tokens : ∀ rid < sim.totalRequests,
    (completionsOf s rid).map (·.token.tokenIndex) = List.range sim.tokensPerRequest
  known : ∀ x ∈ s.completions, x.token.requestId < sim.totalRequests
  /-- A token is not created before the previous one of its request was completed. -/
  ordered : ∀ rid, (completionsOf s rid).Pairwise fun x y => x.time ≤ y.token.birthTime
  /-- No token is created before its request arrives or completed before it is created. -/
  timed : ∀ x ∈ s.completions,
    sim.arrivalTime x.token.requestId ≤ x.token.birthTime ∧ x.token.birthTime ≤ x.time
  counts : ∀ n ∈ s.activeCounts, n ≤ sim.limit
  activated : s.activated = List.range sim.totalRequests
  clock : s.clock.Pairwise (· ≤ ·)

/-! ### The state between two steps -/

/-- What holds between the parts of a round. -/
structure Inv (s : SyncState R) : Prop where
  queue : s.activated ++ s.waitingQueue = List.range s.arrivalIndex
  arrival_le : s.arrivalIndex ≤ sim.totalRequests
  arrived : ∀ rid < s.arrivalIndex, sim.arrivalTime rid ≤ s.currentTime
  active : s.activeRequests = s.activated.filter (!s.completed ·)
  fresh : ∀ rid, rid ∉ s.activated → s.nextTokenIndex rid = 0
  completed_eq : ∀ rid, s.completed rid = decide (sim.tokensPerRequest ≤ s.nextTokenIndex rid)
  next_le : ∀ rid, s.nextTokenIndex rid ≤ sim.tokensPerRequest
  home : ∀ rid ∈ s.activated, s.homeGpu rid ≠ none
  indices : ∀ rid,
    (completionsOf s rid).map (·.token.tokenIndex) = List.range (s.nextTokenIndex rid)
  count : s.completedTokens = ∑ rid ∈ Finset.range sim.totalRequests, s.nextTokenIndex rid
  known : ∀ x ∈ s.completions, x.token.requestId ∈ s.activated
  timed : ∀ x ∈ s.completions, sim.arrivalTime x.token.requestId ≤ x.token.birthTime ∧
    x.token.birthTime ≤ x.time ∧ x.time ≤ s.currentTime
  ordered : s.completions.Pairwise fun x y =>
    x.token.requestId = y.token.requestId → x.time ≤ y.token.birthTime
  clock_le : ∀ time ∈ s.clock, time ≤ s.currentTime
  clock : s.clock.Pairwise (· ≤ ·)
  counts : ∀ n ∈ s.activeCounts, n ≤ sim.limit
  length_le : s.activeRequests.length ≤ sim.limit

theorem inv_start : sim.Inv start where
  queue := rfl
  arrival_le := Nat.zero_le _
  arrived := fun _ h => absurd h (Nat.not_lt_zero _)
  active := rfl
  fresh := fun _ _ => rfl
  completed_eq := fun _ => (decide_eq_false (not_le.mpr sim.tokensPerRequest_pos)).symm
  next_le := fun _ => Nat.zero_le _
  home := fun _ h => absurd h List.not_mem_nil
  indices := fun _ => rfl
  count := (Finset.sum_const_zero).symm
  known := fun _ h => absurd h List.not_mem_nil
  timed := fun _ h => absurd h List.not_mem_nil
  ordered := .nil
  clock_le := fun _ h => (List.mem_singleton.mp h).le
  clock := List.pairwise_singleton _ _
  counts := fun _ h => (List.mem_singleton.mp h) ▸ Nat.zero_le _
  length_le := Nat.zero_le _

variable {sim} {s : SyncState R}

theorem Inv.nodup (hs : sim.Inv s) : (s.activated ++ s.waitingQueue).Nodup :=
  hs.queue ▸ List.nodup_range

theorem Inv.lt_of_mem_activated (hs : sim.Inv s) {rid : ℕ} (h : rid ∈ s.activated) :
    rid < s.arrivalIndex :=
  List.mem_range.mp (hs.queue ▸ List.mem_append_left _ h)

/-! ### Arrivals -/

theorem drop_arrivals {i : ℕ} {time : R} {rest : List R}
    (h : time :: rest = sim.requestArrivals.drop i) :
    i < sim.totalRequests ∧ sim.arrivalTime i = time ∧ rest = sim.requestArrivals.drop (i + 1) := by
  have hlt : i < sim.requestArrivals.length := by
    by_contra hge
    rw [List.drop_eq_nil_of_le (not_lt.mp hge)] at h
    cases h
  rw [List.drop_eq_getElem_cons hlt] at h
  obtain ⟨rfl, hrest⟩ := List.cons.inj h
  refine ⟨hlt, ?_, hrest⟩
  rw [arrivalTime, List.getD_eq_getElem?_getD, List.getElem?_eq_getElem hlt]
  rfl

theorem Inv.releaseLoop (hs : sim.Inv s) {rest : List R}
    (hrest : rest = sim.requestArrivals.drop s.arrivalIndex) :
    sim.Inv (releaseLoop rest s) ∧ s.arrivalIndex ≤ (releaseLoop rest s).arrivalIndex ∧
      (SyncMoESimulator.releaseLoop rest s).completedTokens = s.completedTokens ∧
      (s.arrivalIndex < sim.totalRequests → sim.arrivalTime s.arrivalIndex ≤ s.currentTime →
        s.arrivalIndex < (SyncMoESimulator.releaseLoop rest s).arrivalIndex) := by
  induction rest generalizing s with
  | nil =>
    refine ⟨hs, le_rfl, rfl, fun hlt _ => absurd hlt (not_lt.mpr ?_)⟩
    exact List.drop_eq_nil_iff.mp hrest.symm
  | cons time rest ih =>
    obtain ⟨hlt, rfl, htail⟩ := drop_arrivals hrest
    rw [SyncMoESimulator.releaseLoop]
    split_ifs with htime
    · have harrived : ∀ rid < s.arrivalIndex + 1, sim.arrivalTime rid ≤ s.currentTime := by
        intro rid hrid
        rcases Nat.lt_succ_iff_lt_or_eq.mp hrid with hrid | rfl
        · exact hs.arrived rid hrid
        · exact htime
      have hqueue : s.activated ++ (s.waitingQueue ++ [s.arrivalIndex]) =
          List.range (s.arrivalIndex + 1) := by
        rw [← List.append_assoc, hs.queue, List.range_succ]
      have hnext : sim.Inv { s with
          waitingQueue := s.waitingQueue ++ [s.arrivalIndex]
          arrivalIndex := s.arrivalIndex + 1 } :=
        { hs with queue := hqueue, arrival_le := hlt, arrived := harrived }
      obtain ⟨hinv, hle, hcount, -⟩ := ih hnext htail
      exact ⟨hinv, (Nat.le_succ _).trans hle, hcount, fun _ _ => hle⟩
    · exact ⟨hs, le_rfl, rfl, fun _ h => absurd h htime⟩

theorem Inv.advance (hs : sim.Inv s) (hlt : s.arrivalIndex < sim.totalRequests) :
    ∃ s', sim.advanceToNextArrival s = some s' ∧ sim.Inv s' ∧ s.arrivalIndex < s'.arrivalIndex ∧
      s'.completedTokens = s.completedTokens := by
  rw [advanceToNextArrival, if_neg (not_le.mpr hlt)]
  refine ⟨_, rfl, ?_⟩
  split_ifs with htime
  · have hlater : sim.Inv { s with
        currentTime := sim.arrivalTime s.arrivalIndex
        clock := s.clock ++ [sim.arrivalTime s.arrivalIndex] } :=
      { hs with
        arrived := fun rid hrid => (hs.arrived rid hrid).trans htime.le
        timed := fun x hx =>
          ⟨(hs.timed x hx).1, (hs.timed x hx).2.1, (hs.timed x hx).2.2.trans htime.le⟩
        clock_le := fun time hmem => (List.mem_append.mp hmem).elim
          (fun hmem => (hs.clock_le time hmem).trans htime.le)
          fun hmem => (List.mem_singleton.mp hmem).le
        clock := List.pairwise_append.mpr ⟨hs.clock, List.pairwise_singleton _ _,
          fun time hmem time' hmem' =>
            ((hs.clock_le time hmem).trans htime.le).trans (List.mem_singleton.mp hmem').ge⟩ }
    obtain ⟨hinv, -, hcount, hnew⟩ := hlater.releaseLoop rfl
    exact ⟨hinv, hnew hlt le_rfl, hcount⟩
  · obtain ⟨hinv, -, hcount, hnew⟩ := hs.releaseLoop rfl
    exact ⟨hinv, hnew hlt (not_lt.mp htime), hcount⟩

/-! ### Active requests -/

theorem Inv.activate (hs : sim.Inv s) {candidate : ℕ} {rest : List ℕ}
    (hwaiting : s.waitingQueue = candidate :: rest) (hlt : s.activeRequests.length < sim.limit) :
    sim.Inv (sim.activate { s with waitingQueue := rest } candidate) := by
  have hqueue : s.activated ++ [candidate] ++ rest = List.range s.arrivalIndex := by
    rw [← hs.queue, hwaiting, List.append_assoc]
    rfl
  have hnotMem : candidate ∉ s.activated := by
    have hnodup := hs.nodup
    rw [hwaiting, List.nodup_append] at hnodup
    exact fun h => hnodup.2.2 candidate h candidate List.mem_cons_self rfl
  have hcompleted : s.completed candidate = false := by
    rw [hs.completed_eq, hs.fresh candidate hnotMem]
    exact decide_eq_false (not_le.mpr sim.tokensPerRequest_pos)
  have hactive : s.activeRequests ++ [candidate] =
      (s.activated ++ [candidate]).filter (!s.completed ·) := by
    rw [List.filter_append, ← hs.active, List.filter_singleton, hcompleted]
    rfl
  have hcounts : ∀ n ∈ s.activeCounts ++ [s.activeRequests.length + 1], n ≤ sim.limit := by
    intro n hn
    rcases List.mem_append.mp hn with hn | hn
    · exact hs.counts n hn
    · exact (List.mem_singleton.mp hn) ▸ hlt
  have hlength : (s.activeRequests ++ [candidate]).length ≤ sim.limit := by
    rw [List.length_append]
    exact hlt
  have hfresh : ∀ rid, rid ∉ s.activated ++ [candidate] → s.nextTokenIndex rid = 0 :=
    fun rid hrid => hs.fresh rid fun h => hrid (List.mem_append_left _ h)
  have hknown : ∀ x ∈ s.completions, x.token.requestId ∈ s.activated ++ [candidate] :=
    fun x hx => List.mem_append_left _ (hs.known x hx)
  rw [SyncMoESimulator.activate]
  split_ifs with hhome
  · refine { hs with
      queue := hqueue, active := hactive, counts := hcounts, length_le := hlength
      fresh := hfresh, known := hknown, home := fun rid hrid => ?_ }
    show Function.update s.homeGpu candidate
      (some (s.nextHomeGpu % max 1 sim.attnDpGroupSize)) rid ≠ none
    rcases eq_or_ne rid candidate with rfl | hne
    · rw [Function.update_self]
      exact Option.some_ne_none _
    · rw [Function.update_of_ne hne]
      exact hs.home rid
        ((List.mem_append.mp hrid).resolve_right fun h => hne (List.mem_singleton.mp h))
  · refine { hs with
      queue := hqueue, active := hactive, counts := hcounts, length_le := hlength
      fresh := hfresh, known := hknown, home := fun rid hrid => ?_ }
    rcases List.mem_append.mp hrid with hrid | hrid
    · exact hs.home rid hrid
    · exact (List.mem_singleton.mp hrid) ▸ hhome

theorem activate_arrivalIndex (s : SyncState R) (candidate : ℕ) :
    (sim.activate s candidate).arrivalIndex = s.arrivalIndex ∧
      (sim.activate s candidate).completedTokens = s.completedTokens ∧
      (sim.activate s candidate).waitingQueue = s.waitingQueue := by
  rw [activate]
  split_ifs <;> exact ⟨rfl, rfl, rfl⟩

/-- **Filling the active requests** leaves none waiting below the limit. -/
theorem Inv.fillLoop (hs : sim.Inv s) {waiting : List ℕ} (hwaiting : s.waitingQueue = waiting) :
    sim.Inv (sim.fillLoop waiting s) ∧
      (sim.fillLoop waiting s).arrivalIndex = s.arrivalIndex ∧
      (sim.fillLoop waiting s).completedTokens = s.completedTokens ∧
      ((sim.fillLoop waiting s).waitingQueue = [] ∨
        sim.limit ≤ (sim.fillLoop waiting s).activeRequests.length) := by
  induction waiting generalizing s with
  | nil => exact ⟨hs, rfl, rfl, .inl hwaiting⟩
  | cons candidate rest ih =>
    rw [SyncMoESimulator.fillLoop]
    split_ifs with hlt hcompleted
    · -- a request that waits has no tokens
      have hnodup := hs.nodup
      rw [hwaiting, List.nodup_append] at hnodup
      have hnotMem : candidate ∉ s.activated :=
        fun h => hnodup.2.2 candidate h candidate List.mem_cons_self rfl
      rw [hs.completed_eq, hs.fresh candidate hnotMem, decide_eq_true_iff] at hcompleted
      exact absurd hcompleted (not_le.mpr sim.tokensPerRequest_pos)
    · obtain ⟨harrival, hcount, hqueue⟩ :=
        @activate_arrivalIndex R _ _ sim { s with waitingQueue := rest } candidate
      obtain ⟨hinv, harrival', hcount', hfull⟩ := ih (hs.activate hwaiting hlt) hqueue
      exact ⟨hinv, harrival'.trans harrival, hcount'.trans hcount, hfull⟩
    · exact ⟨hs, rfl, rfl, .inr (not_lt.mp hlt)⟩

/-! ### Tokens -/

theorem Inv.spawnLoop (hs : sim.Inv s) {rids : List ℕ} (hrids : rids ⊆ s.activeRequests) (tid : ℕ) :
    ∃ tokens, sim.spawnLoop s rids tid = .ok tokens ∧ tokens.map (·.requestId) = rids ∧
      ∀ token ∈ tokens, token.birthTime = s.currentTime ∧
        token.tokenIndex = s.nextTokenIndex token.requestId := by
  induction rids generalizing tid with
  | nil => exact ⟨[], rfl, rfl, fun _ h => absurd h List.not_mem_nil⟩
  | cons rid rids ih =>
    obtain ⟨hrid, hrids⟩ := List.cons_subset.mp hrids
    rw [hs.active, List.mem_filter, Bool.not_eq_true'] at hrid
    obtain ⟨hactivated, hcompleted⟩ := hrid
    have hnext : ¬ sim.tokensPerRequest ≤ s.nextTokenIndex rid := by
      rwa [hs.completed_eq, decide_eq_false_iff_not] at hcompleted
    obtain ⟨gpu, hgpu⟩ := Option.ne_none_iff_exists'.mp (hs.home rid hactivated)
    obtain ⟨tokens, hspawn, hmap, hfields⟩ := ih hrids (tid + 1)
    refine ⟨⟨tid, s.currentTime, rid, s.nextTokenIndex rid, gpu⟩ :: tokens, ?_, ?_, ?_⟩
    · rw [SyncMoESimulator.spawnLoop, if_neg (by rw [hcompleted]; simp [hnext]), hgpu]
      dsimp only
      rw [hspawn]
      rfl
    · rw [List.map_cons, hmap]
    · exact List.forall_mem_cons.mpr ⟨⟨rfl, rfl⟩, hfields⟩

theorem foldl_completeToken {tokens : List (SyncToken R)}
    (hnodup : (tokens.map (·.requestId)).Nodup) (s : SyncState R) :
    tokens.foldl sim.completeToken s = { s with
      completions := s.completions ++ tokens.map (⟨·, s.currentTime⟩)
      completedTokens := s.completedTokens + tokens.length
      nextTokenIndex := fun rid =>
        s.nextTokenIndex rid + if rid ∈ tokens.map (·.requestId) then 1 else 0
      completed := fun rid => s.completed rid || decide (rid ∈ tokens.map (·.requestId) ∧
        sim.tokensPerRequest ≤ s.nextTokenIndex rid + 1) } := by
  induction tokens generalizing s with
  | nil => simp
  | cons token tokens ih =>
    rw [List.map_cons, List.nodup_cons] at hnodup
    rw [List.foldl_cons, ih hnodup.2, completeToken]
    dsimp only
    congr 1
    · rw [List.length_cons]
      omega
    · funext rid
      rcases eq_or_ne rid token.requestId with rfl | hne
      · rw [Function.update_self, if_neg hnodup.1, if_pos (by simp)]
      · rw [Function.update_of_ne hne]
        simp [hne]
    · funext rid
      rcases eq_or_ne rid token.requestId with rfl | hne
      · simp only [hnodup.1, false_and, decide_false, Bool.or_false, List.map_cons,
          List.mem_cons, true_or, true_and]
        split_ifs with htpr
        · rw [Function.update_self, decide_eq_true htpr, Bool.or_true]
        · rw [decide_eq_false htpr, Bool.or_false]
      · have hsame : (if s.nextTokenIndex token.requestId + 1 ≥ sim.tokensPerRequest then
            Function.update s.completed token.requestId true else s.completed) rid =
            s.completed rid := by
          split_ifs
          · exact Function.update_of_ne hne _ _
          · rfl
        rw [hsame]
        simp [hne]
    · simp

omit [AddCommGroup R] [LinearOrder R] in
theorem filter_tokens {tokens : List (SyncToken R)} (hnodup : (tokens.map (·.requestId)).Nodup)
    {next : ℕ → ℕ} (hnext : ∀ token ∈ tokens, token.tokenIndex = next token.requestId) (time : R)
    (rid : ℕ) :
    (((tokens.map fun token => (⟨token, time⟩ : SyncCompletion R)).filter
        (·.token.requestId = rid)).map (·.token.tokenIndex)) =
      if rid ∈ tokens.map (·.requestId) then [next rid] else [] := by
  induction tokens with
  | nil => rfl
  | cons token tokens ih =>
    rw [List.map_cons, List.nodup_cons] at hnodup
    obtain ⟨htoken, hnext⟩ := List.forall_mem_cons.mp hnext
    rw [List.map_cons, List.filter_cons, List.map_cons]
    rcases eq_or_ne token.requestId rid with rfl | hne
    · rw [if_pos (decide_eq_true rfl), if_pos List.mem_cons_self, List.map_cons,
        ih hnodup.2 hnext, if_neg hnodup.1, htoken]
    · rw [if_neg (by simpa using hne), ih hnodup.2 hnext]
      simp [hne.symm]

theorem sum_add_ite_mem {next : ℕ → ℕ} {rids : List ℕ} {n : ℕ} (hnodup : rids.Nodup)
    (hlt : ∀ rid ∈ rids, rid < n) :
    ∑ rid ∈ Finset.range n, (next rid + if rid ∈ rids then 1 else 0) =
      ∑ rid ∈ Finset.range n, next rid + rids.length := by
  have hsubset : (Finset.range n).filter (· ∈ rids) = rids.toFinset := by
    ext rid
    rw [Finset.mem_filter, Finset.mem_range, List.mem_toFinset]
    exact ⟨And.right, fun h => ⟨hlt rid h, h⟩⟩
  rw [Finset.sum_add_distrib, ← Finset.card_filter, hsubset, List.toFinset_card_of_nodup hnodup]

theorem Inv.active_nodup (hs : sim.Inv s) : s.activeRequests.Nodup :=
  hs.active ▸ (List.nodup_append.mp hs.nodup).1.filter _

theorem Inv.mem_activated (hs : sim.Inv s) {rid : ℕ} (h : rid ∈ s.activeRequests) :
    rid ∈ s.activated ∧ s.completed rid = false := by
  rw [hs.active, List.mem_filter, Bool.not_eq_true'] at h
  exact h

/-- Requests that stay active are those that became active and are not done. -/
theorem Inv.filter_active (hs : sim.Inv s) {done : ℕ → Bool}
    (hdone : ∀ rid, s.completed rid = true → done rid = true) :
    s.activeRequests.filter (!done ·) = s.activated.filter (!done ·) := by
  rw [hs.active, List.filter_filter]
  refine List.filter_congr fun rid _ => ?_
  cases hcompleted : s.completed rid with
  | true => rw [hdone rid hcompleted]; rfl
  | false => rw [Bool.not_false, Bool.and_true]

variable [IsOrderedAddMonoid R]

/-- **An iteration** completes one token of every active request. -/
theorem Inv.iterate (hs : sim.Inv s) {tokens : List (SyncToken R)} {duration : R}
    (hduration : 0 ≤ duration) (hrids : tokens.map (·.requestId) = s.activeRequests)
    (hfields : ∀ token ∈ tokens, token.birthTime = s.currentTime ∧
      token.tokenIndex = s.nextTokenIndex token.requestId) (nextTid : ℕ) :
    sim.Inv (sim.finalizeIteration { s with
      nextTid := nextTid
      currentTime := s.currentTime + duration
      clock := s.clock ++ [s.currentTime + duration] } tokens) := by
  have hnodup : (tokens.map (·.requestId)).Nodup := hrids ▸ hs.active_nodup
  have hlater : s.currentTime ≤ s.currentTime + duration := le_add_of_nonneg_right hduration
  have hmem : ∀ token ∈ tokens, token.requestId ∈ s.activated := fun token htoken =>
    (hs.mem_activated (hrids ▸ List.mem_map_of_mem htoken)).1
  rw [finalizeIteration, foldl_completeToken hnodup, hrids]
  dsimp only
  have hcompleted : ∀ rid, (s.completed rid || decide (rid ∈ s.activeRequests ∧
      sim.tokensPerRequest ≤ s.nextTokenIndex rid + 1)) =
      decide (sim.tokensPerRequest ≤
        s.nextTokenIndex rid + if rid ∈ s.activeRequests then 1 else 0) := by
    intro rid
    split_ifs with hrid
    · rw [(hs.mem_activated hrid).2, Bool.false_or]
      exact decide_eq_decide.mpr (and_iff_right hrid)
    · rw [decide_eq_false fun h => hrid (And.left h), Bool.or_false, hs.completed_eq, Nat.add_zero]
  have hactive := hs.filter_active fun rid (h : s.completed rid = true) => by
    show (s.completed rid || decide (rid ∈ s.activeRequests ∧
      sim.tokensPerRequest ≤ s.nextTokenIndex rid + 1)) = true
    rw [h, Bool.true_or]
  have hlength := (List.length_filter_le (fun rid => !(s.completed rid || decide (rid ∈
    s.activeRequests ∧ sim.tokensPerRequest ≤ s.nextTokenIndex rid + 1))) s.activeRequests).trans
      hs.length_le
  refine { hs with
    arrived := fun rid hrid => (hs.arrived rid hrid).trans hlater
    active := hactive
    completed_eq := hcompleted
    length_le := hlength
    fresh := fun rid hrid => ?_, next_le := fun rid => ?_, indices := fun rid => ?_
    count := ?_, known := fun x hx => ?_, timed := fun x hx => ?_, ordered := ?_
    clock_le := fun time htime => ?_, clock := ?_, counts := fun n hn => ?_ }
  · have hnot : rid ∉ s.activeRequests := fun h => hrid (hs.mem_activated h).1
    dsimp only
    rw [hs.fresh rid hrid, if_neg hnot]
  · dsimp only
    split_ifs with hrid
    · have hopen := (hs.mem_activated hrid).2
      rw [hs.completed_eq, decide_eq_false_iff_not] at hopen
      omega
    · exact hs.next_le rid
  · rw [completionsOf, List.filter_append, List.map_append,
      filter_tokens hnodup (fun token htoken => (hfields token htoken).2), ← completionsOf,
      hs.indices rid, hrids]
    dsimp only
    split_ifs
    · exact List.range_succ.symm
    · exact List.append_nil _
  · have hlength : tokens.length = s.activeRequests.length := by rw [← hrids, List.length_map]
    dsimp only
    rw [sum_add_ite_mem hs.active_nodup fun rid hrid =>
      (hs.lt_of_mem_activated (hs.mem_activated hrid).1).trans_le hs.arrival_le,
      ← hs.count, hlength]
  · rcases List.mem_append.mp hx with hx | hx
    · exact hs.known x hx
    · obtain ⟨token, htoken, rfl⟩ := List.mem_map.mp hx
      exact hmem token htoken
  · rcases List.mem_append.mp hx with hx | hx
    · obtain ⟨harrival, hbirth, htime⟩ := hs.timed x hx
      exact ⟨harrival, hbirth, htime.trans hlater⟩
    · obtain ⟨token, htoken, rfl⟩ := List.mem_map.mp hx
      have harrived := hs.arrived _ (hs.lt_of_mem_activated (hmem token htoken))
      rw [← (hfields token htoken).1] at harrived
      exact ⟨harrived, (hfields token htoken).1 ▸ hlater, le_rfl⟩
  · refine List.pairwise_append.mpr ⟨hs.ordered, ?_, fun x hx y hy _ => ?_⟩
    · refine List.pairwise_map.mpr ((List.pairwise_map.mp hnodup).imp fun hne heq => ?_)
      exact absurd heq hne
    · obtain ⟨token, htoken, rfl⟩ := List.mem_map.mp hy
      exact (hs.timed x hx).2.2.trans (hfields token htoken).1.ge
  · rcases List.mem_append.mp htime with htime | htime
    · exact (hs.clock_le time htime).trans hlater
    · exact (List.mem_singleton.mp htime).le
  · refine List.pairwise_append.mpr ⟨hs.clock, List.pairwise_singleton _ _, ?_⟩
    intro time htime t ht
    exact ((hs.clock_le time htime).trans hlater).trans (List.mem_singleton.mp ht).ge
  · rcases List.mem_append.mp hn with hn | hn
    · exact hs.counts n hn
    · exact (List.mem_singleton.mp hn) ▸ hlength

/-! ### Rounds -/

omit [IsOrderedAddMonoid R] in
theorem Inv.count_le (hs : sim.Inv s) : s.completedTokens ≤ sim.expectedTotalTokens := by
  have hle := Finset.sum_le_card_nsmul (Finset.range sim.totalRequests) s.nextTokenIndex
    sim.tokensPerRequest fun rid _ => hs.next_le rid
  rw [Finset.card_range, ← hs.count] at hle
  exact hle

omit [IsOrderedAddMonoid R] in
/-- Without active requests after a fill, another one is still to arrive. -/
theorem Inv.arrivalIndex_lt (hs : sim.Inv s) (hactive : s.activeRequests = [])
    (hfull : s.waitingQueue = [] ∨ sim.limit ≤ s.activeRequests.length)
    (hcount : s.completedTokens < sim.expectedTotalTokens) :
    s.arrivalIndex < sim.totalRequests := by
  have hwaiting : s.waitingQueue = [] := by
    refine hfull.resolve_right fun h => ?_
    rw [hactive] at h
    exact absurd h (not_le.mpr (Nat.lt_of_lt_of_le Nat.one_pos (le_max_left 1 _)))
  have hqueue := hs.queue
  rw [hwaiting, List.append_nil] at hqueue
  by_contra hge
  -- then all requests are done
  have hdone : ∀ rid ∈ Finset.range sim.totalRequests,
      s.nextTokenIndex rid = sim.tokensPerRequest := by
    intro rid hrid
    have hmem : rid ∈ s.activated := by
      rw [hqueue, List.mem_range]
      exact (Finset.mem_range.mp hrid).trans_le (not_lt.mp hge)
    have hcompleted : s.completed rid = true := by
      by_contra hopen
      have : rid ∈ s.activeRequests := by
        rw [hs.active, List.mem_filter]
        exact ⟨hmem, by simpa using hopen⟩
      rw [hactive] at this
      cases this
    rw [hs.completed_eq, decide_eq_true_iff] at hcompleted
    exact le_antisymm (hs.next_le rid) hcompleted
  rw [hs.count, Finset.sum_congr rfl hdone, Finset.sum_const, Finset.card_range] at hcount
  exact lt_irrefl _ hcount

/-- The arrivals and tokens that are still to come. -/
def remaining (sim : SyncMoESimulator R) (s : SyncState R) : ℕ :=
  (sim.totalRequests - s.arrivalIndex) + (sim.expectedTotalTokens - s.completedTokens)

/-- **A round** of the loop brings the end nearer. -/
theorem Inv.round (hs : sim.Inv s) (hcount : s.completedTokens < sim.expectedTotalTokens) :
    ∃ s', sim.round s = .ok (.next s') ∧ sim.Inv s' ∧ sim.remaining s' < sim.remaining s := by
  obtain ⟨hrelease, hle, hcount₁, -⟩ := hs.releaseLoop rfl
  obtain ⟨hfill, hindex, hcount₂, hfull⟩ := hrelease.fillLoop rfl
  rw [SyncMoESimulator.round, if_pos hcount]
  rw [← releaseNewArrivals] at hfill hindex hcount₂ hfull hle hcount₁
  rw [← fillActiveRequests] at hfill hindex hcount₂ hfull
  generalize sim.fillActiveRequests (sim.releaseNewArrivals s) = t at *
  rw [hcount₁] at hcount₂
  rw [← hindex] at hle
  dsimp only
  split_ifs with hactive
  · have hlt := hfill.arrivalIndex_lt hactive hfull (hcount₂ ▸ hcount)
    obtain ⟨s', hadvance, hinv, hnew, hsame⟩ := hfill.advance hlt
    refine ⟨s', ?_, hinv, ?_⟩
    · rw [idleRound, hadvance]
    · rw [remaining, remaining, hsame, hcount₂]
      omega
  · obtain ⟨tokens, hspawn, hrids, hfields⟩ := hfill.spawnLoop (List.Subset.refl _) t.nextTid
    have htokens : tokens ≠ [] := by
      rintro rfl
      exact hactive hrids.symm
    refine ⟨_, ?_, hfill.iterate (sim.runOneIteration_nonneg
      { t with nextTid := t.nextTid + tokens.length } tokens) hrids hfields
      (t.nextTid + tokens.length), ?_⟩
    · rw [hspawn, ok_bind, if_neg htokens]
      rfl
    · have hnodup : (tokens.map (·.requestId)).Nodup := hrids ▸ hfill.active_nodup
      have hpos : 0 < tokens.length := List.length_pos_iff.mpr htokens
      rw [finalizeIteration, foldl_completeToken hnodup, remaining, remaining]
      dsimp only
      omega

/-- **The loop** ends, and then all tokens are completed. -/
theorem Inv.loop (hs : sim.Inv s) :
    ∃ s', (∀ fuel, sim.remaining s < fuel → sim.loop fuel s = .ok (some s')) ∧ sim.Inv s' ∧
      s'.completedTokens = sim.expectedTotalTokens := by
  induction hremaining : sim.remaining s using Nat.strong_induction_on generalizing s with
  | _ n ih =>
    by_cases hcount : s.completedTokens < sim.expectedTotalTokens
    · obtain ⟨s₁, hround, hinv, hless⟩ := hs.round hcount
      obtain ⟨s', hloop, hinv', hdone⟩ := ih _ (hremaining ▸ hless) hinv rfl
      refine ⟨s', fun fuel hfuel => ?_, hinv', hdone⟩
      obtain ⟨fuel, rfl⟩ : ∃ fuel', fuel = fuel' + 1 := ⟨fuel - 1, by omega⟩
      rw [SyncMoESimulator.loop, hround, ok_bind]
      exact hloop fuel (by omega)
    · refine ⟨s, fun fuel hfuel => ?_, hs, le_antisymm hs.count_le (not_lt.mp hcount)⟩
      obtain ⟨fuel, rfl⟩ : ∃ fuel', fuel = fuel' + 1 := ⟨fuel - 1, by omega⟩
      rw [SyncMoESimulator.loop, SyncMoESimulator.round, if_neg hcount]
      rfl

omit [IsOrderedAddMonoid R] in
/-- When all tokens are completed, the run is as it should be. -/
theorem Inv.complete (hs : sim.Inv s) (hdone : s.completedTokens = sim.expectedTotalTokens) :
    sim.Complete s := by
  have hnext : ∀ rid < sim.totalRequests, s.nextTokenIndex rid = sim.tokensPerRequest := by
    have hsum : ∑ rid ∈ Finset.range sim.totalRequests, s.nextTokenIndex rid =
        ∑ _rid ∈ Finset.range sim.totalRequests, sim.tokensPerRequest := by
      rw [← hs.count, hdone, Finset.sum_const, Finset.card_range]
      rfl
    intro rid hrid
    exact (Finset.sum_eq_sum_iff_of_le fun rid _ => hs.next_le rid).mp hsum rid
      (Finset.mem_range.mpr hrid)
  have hactivated : ∀ rid < sim.totalRequests, rid ∈ s.activated := by
    intro rid hrid
    by_contra hnot
    have := (hnext rid hrid).symm.trans (hs.fresh rid hnot)
    exact absurd this sim.tokensPerRequest_pos.ne'
  -- the requests that became active are a part of all requests, so none is missing
  have hrange : s.activated = List.range sim.totalRequests := by
    have hlength := congrArg List.length hs.queue
    rw [List.length_append, List.length_range] at hlength
    have hle : (List.range sim.totalRequests).length ≤ s.activated.length :=
      (List.nodup_range.subperm fun rid hrid =>
        hactivated rid (List.mem_range.mp hrid)).length_le
    rw [List.length_range] at hle
    have harrival := hs.arrival_le
    have hwaiting : s.waitingQueue = [] := List.length_eq_zero_iff.mp (by omega)
    have hqueue := hs.queue
    rw [hwaiting, List.append_nil] at hqueue
    rw [hqueue, show s.arrivalIndex = sim.totalRequests by omega]
  refine ⟨fun rid hrid => ?_, fun x hx => ?_, fun rid => ?_, fun x hx => ?_, hs.counts, hrange,
    hs.clock⟩
  · rw [hs.indices rid, hnext rid hrid]
  · exact List.mem_range.mp (hrange ▸ hs.known x hx)
  · refine List.Pairwise.imp_of_mem ?_ (hs.ordered.filter _)
    intro x y hx hy h
    have hx' := of_decide_eq_true (List.mem_filter.mp hx).2
    have hy' := of_decide_eq_true (List.mem_filter.mp hy).2
    exact h (hx'.trans hy'.symm)
  · exact ⟨(hs.timed x hx).1, (hs.timed x hx).2.1⟩

/-! ### The loop inside an iteration -/

theorem foldlM_ok_append (batches before : List ℕ) :
    batches.foldlM (fun acc batch => (.ok (acc ++ [batch]) : Except String (List ℕ))) before =
      .ok (before ++ batches) := by
  induction batches generalizing before with
  | nil => rw [List.append_nil]; rfl
  | cons batch batches ih =>
    rw [List.foldlM_cons]
    show batches.foldlM _ (before ++ [batch]) = _
    rw [ih, List.append_assoc, List.singleton_append]

omit [IsOrderedAddMonoid R] in
/-- The batches of a worker hold all of its tokens, and none is too large. -/
theorem workerLoop_spec (queues : List ℕ) :
    ∃ batches, sim.workerLoop queues queues.sum = .ok batches ∧ batches.sum = queues.sum ∧
      ∀ batch ∈ batches, 0 < batch ∧ batch ≤ sim.maxBatchSize := by
  obtain ⟨batches, rest, hrun, hrest, hloop⟩ :=
    ExpertBatching.exists_serveLoop_eq sim.maxBatchSize_pos
      (fun batches batch => Except.ok (batches ++ [batch])) queues
  refine ⟨batches, ?_, hrun.sum_eq sim.maxBatchSize_pos hrest,
    hrun.bounds sim.maxBatchSize_pos hrest⟩
  rw [workerLoop, hloop, foldlM_ok_append, List.nil_append]

/-- **A run completes.** With enough rounds it ends, for all arrivals and durations, every request
has got its tokens one after another, and the limit and the clock were respected. The loop inside an
iteration ends as well: it serves the queues of a worker in batches that are not too large. -/
theorem run_complete (sim : SyncMoESimulator R) :
    (∃ s, (∀ fuel, sim.totalRequests + sim.expectedTotalTokens < fuel →
        sim.run fuel = .ok (some s)) ∧ sim.Complete s) ∧
      ∀ queues : List ℕ, ∃ batches, sim.workerLoop queues queues.sum = .ok batches ∧
        batches.sum = queues.sum ∧ ∀ batch ∈ batches, 0 < batch ∧ batch ≤ sim.maxBatchSize := by
  obtain ⟨s, hrun, hinv, hdone⟩ := sim.inv_start.loop
  exact ⟨⟨s, hrun, hinv.complete hdone⟩, workerLoop_spec⟩

/-- Three requests that do not arrive in the order of their indices, one active at a time. -/
theorem run_complete_unsorted :
    ∃ (sim : SyncMoESimulator ℚ) (s : SyncState ℚ), sim.requestArrivals = [3, 0, 1] ∧
      sim.limit = 1 ∧ sim.run 10 = .ok (some s) ∧ sim.Complete s := by
  obtain ⟨⟨s, hrun, hcomplete⟩, -⟩ := run_complete
    (⟨[3, 0, 1], 2, 4, 2, 1, fun _ _ => 1, by decide, by decide, fun _ _ => by decide⟩ :
      SyncMoESimulator ℚ)
  exact ⟨_, s, rfl, rfl, hrun 10 (by decide), hcomplete⟩

end SyncMoESimulator

end StreamEP

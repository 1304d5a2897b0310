import Mathlib.Tactic.Abel
import StreamEP.Kv.Loader
import StreamEP.Lib.LocalChange
import StreamEP.Lib.Tensor

/-!
# The threads of the loader

The worker threads and the engine loop of `disagmoe/kv_loader.py`, in any interleaving. A worker
takes a job, fetches its pages in at most three attempts, queues a completion and waits for the
event of that completion; the engine loop polls completions and installs them one by one, which
sets the event. Meanwhile jobs are submitted and the engine uses its block manager and its cache.

A job and a completion are objects with an identity: a job has the number of its submission, a
completion its event. The call of the store is a relation: it may raise or return any codes, and
leave anything in the buffer it is given. An exception of a worker outside the call of the store
ends its thread.

## What is not fixed

The number of workers, the store and the hash are parameters, as is the predicate that the
submitted jobs satisfy. Results about progress need jobs that can be loaded; results about what is
written do not.
-/

namespace StreamEP

namespace KvLoader

/-- What `batch_get_into` ends with. -/
inductive Fetched
  | raised
  | codes (codes : List ℤ)
deriving DecidableEq, Repr

/-- No object is bad: every code that came back is the size of an object. -/
def Fetched.full (objBytes : ℕ) (keys : List String) : Fetched → Bool
  | .raised => false
  | .codes cs => (keys.zip cs).all fun kc => kc.2 == (objBytes : ℤ)

/-- A loader with its hash and its store. -/
structure MooncakeKVLoader extends Config where
  sha256 : List UInt8 → List UInt8
  /-- `store.batch_get_into(keys, ptrs, sizes)`: how it may end, and what it may make of the
  buffer of the worker. Addresses are relative to the buffer. -/
  batchGetInto : List String → List ℕ → List ℕ → Fetched → (ℕ → UInt8) → (ℕ → UInt8) → Prop
  returns : ∀ keys ptrs sizes mem, ∃ r mem', batchGetInto keys ptrs sizes r mem mem'

structure Job extends KVLoadJob where
  /-- Its number among the submitted jobs, for the identity of the object. -/
  ticket : ℕ
deriving DecidableEq, Repr

inductive Worker
  /-- in `_jobs.get` -/
  | idle
  | fetching (job : Job) (keys : List String) (attempt : ℕ)
  /-- before `_done.put` -/
  | reporting (job : Job) (ok : Bool)
  /-- in `released.wait` -/
  | waiting (event : ℕ)
  | stopped (job : Job)
deriving DecidableEq, Repr

structure Completion where
  done : KVLoadDone
  ticket : ℕ
  /-- `released` -/
  event : ℕ
  /-- What the buffer of the worker held when the completion was queued. -/
  bytes : ℕ → UInt8

variable (L : MooncakeKVLoader)

def MooncakeKVLoader.ptrs (n : ℕ) : List ℕ :=
  (List.range n).flatMap fun p => [(2 * p) * L.objBytes, (2 * p + 1) * L.objBytes]

def MooncakeKVLoader.sizes (n : ℕ) : List ℕ :=
  (List.range n).flatMap fun _ => [L.objBytes, L.objBytes]

/-- A worker that got a job: the assertion on the size and the hashing of the pages stand outside
the handler, so that they end the thread when they raise. -/
def MooncakeKVLoader.startJob (job : Job) : Worker :=
  if job.nPages = 0 then .reporting job true
  else if 2 * job.nPages * L.objBytes ≤ L.stageBytes then
    match keys L.sha256 job.toKVLoadJob with
    | .error _ => .stopped job
    | .ok ks => .fetching job ks 0
  else .stopped job

def MooncakeKVLoader.afterFetch (job : Job) (ks : List String) (attempt : ℕ) (r : Fetched) :
    Worker :=
  if r.full L.objBytes ks then .reporting job true
  else if attempt + 1 < 3 then .fetching job ks (attempt + 1)
  else .reporting job false

/-! ### The device part of an install -/

abbrev BFloat16 := UInt8 × UInt8

/-- `view(torch.bfloat16)` -/
def bfloat16View (mem : ℕ → UInt8) : ℕ → BFloat16 := fun i => (mem (2 * i), mem (2 * i + 1))

/-- `staged.permute(1, 3, 0, 2, 4, 5)`, with `staged` the buffer seen as
`[n_pages, 2, 16, num_layers, kv_heads, head_dim]`. -/
def Config.staged (cfg : Config) (n : ℕ) (mem : ℕ → UInt8) : Tensor BFloat16 :=
  Tensor.permute [1, 3, 0, 2, 4, 5]
    (Tensor.view [n, 2, pageTokens, cfg.numLayers, cfg.kvHeads, cfg.headDim] (bfloat16View mem))

/-- `x[i].index_copy_(0, index, src)` on a slice of the first axis. -/
def indexCopyAt (x : Tensor BFloat16) (i : ℕ) (index : List ℕ) (src : Tensor BFloat16) :
    Tensor BFloat16
  | k :: idx => if k = i then Tensor.indexCopy (fun idx => x (i :: idx)) index src idx
      else x (k :: idx)
  | [] => x []

/-- The body of the loop over the layers. -/
def scatterLayer (g : Tensor BFloat16) (blocks : List ℕ) (l : ℕ) (layerBuf : Tensor BFloat16) :
    Tensor BFloat16 :=
  indexCopyAt (indexCopyAt layerBuf 0 blocks fun idx => g (0 :: l :: idx)) 1 blocks
    fun idx => g (1 :: l :: idx)

/-- The loop over the layers: the staged pages go to the blocks of every layer. -/
def Config.scatter (cfg : Config) (mem : ℕ → UInt8) (n : ℕ) (blocks : List ℕ)
    (kvPool : ℕ → Tensor BFloat16) : ℕ → Tensor BFloat16 :=
  (List.range cfg.numLayers).foldl (fun kvPool l => Function.update kvPool l
    (scatterLayer (cfg.staged n mem) blocks l (kvPool l))) kvPool

/-! ### States and steps -/

structure State where
  jobs : List Job
  worker : ℕ → Worker
  staging : ℕ → ℕ → UInt8
  done : List Completion
  /-- What the engine has polled and not installed. -/
  polled : List Completion
  released : ℕ → Bool
  nextEvent : ℕ
  /-- `block_mgr` -/
  mgr : BlockManager
  /-- `kv_pool`, by layers of shape `[2, blocks + 1, 16, kv_heads, head_dim]` -/
  kvPool : ℕ → Tensor BFloat16
  submitted : ℕ
  admitted : List ℕ
  /-- The jobs that were rejected with a finished result. -/
  rejected : List ℕ

/-- The completions that are not installed, in the order in which they will be. -/
def State.outstanding (s : State) : List Completion := s.polled ++ s.done

def State.init (staging : ℕ → ℕ → UInt8) (numBlocks reserved : ℕ) (kvPool : ℕ → Tensor BFloat16) :
    State where
  jobs := []
  worker := fun _ => .idle
  staging := staging
  done := []
  polled := []
  released := fun _ => false
  nextEvent := 0
  mgr := .create pageTokens numBlocks reserved
  kvPool := kvPool
  submitted := 0
  admitted := []
  rejected := []

inductive WorkerStep (w : ℕ) : State → State → Prop
  | take {s : State} {job : Job} {jobs : List Job} (hidle : s.worker w = .idle)
      (hjobs : s.jobs = job :: jobs) :
      WorkerStep w s { s with
        jobs := jobs, worker := Function.update s.worker w (L.startJob job) }
  | fetch {s : State} {job : Job} {ks : List String} {attempt : ℕ} {r : Fetched}
      {mem : ℕ → UInt8} (hfetching : s.worker w = .fetching job ks attempt)
      (hget : L.batchGetInto ks (L.ptrs job.nPages) (L.sizes job.nPages) r (s.staging w) mem) :
      WorkerStep w s { s with
        worker := Function.update s.worker w (L.afterFetch job ks attempt r)
        staging := Function.update s.staging w mem }
  | report {s : State} {job : Job} {ok : Bool} (hreporting : s.worker w = .reporting job ok) :
      WorkerStep w s { s with
        worker := Function.update s.worker w (.waiting s.nextEvent)
        done := s.done ++ [⟨⟨job.toKVLoadJob, w, job.nPages, ok⟩, job.ticket, s.nextEvent,
          s.staging w⟩]
        nextEvent := s.nextEvent + 1 }
  | resume {s : State} {e : ℕ} (hwaiting : s.worker w = .waiting e)
      (hreleased : s.released e = true) :
      WorkerStep w s { s with worker := Function.update s.worker w .idle }

/-- The state after a round of `_drain_kv_loads`. -/
def State.drain (s : State) (deviceOk : Bool) (c : Completion) (rest : List Completion)
    (kvPool : ℕ → Tensor BFloat16) : State :=
  let r := drainOne deviceOk c.done s.mgr
  { s with
    polled := rest
    mgr := r.2.mgr
    kvPool := kvPool
    released := if r.2.released then Function.update s.released c.event true else s.released
    admitted := if r.1 = .admitted then s.admitted ++ [c.ticket] else s.admitted
    rejected := if r.1 = .rejected then s.rejected ++ [c.ticket] else s.rejected }

/-- A step of the engine loop on the completions. Of an `install` that fails the cache may keep
anything. -/
inductive EngineStep : State → State → Prop
  | poll {s : State} (hpolled : s.polled = []) (hdone : s.done ≠ []) :
      EngineStep s { s with polled := s.done.take 8, done := s.done.drop 8 }
  | install {s : State} {deviceOk : Bool} {c : Completion} {rest : List Completion}
      {kvPool : ℕ → Tensor BFloat16} (hpolled : s.polled = c :: rest)
      (hkv : (install deviceOk c.done s.mgr).result = true →
        kvPool = L.scatter (s.staging c.done.worker) c.done.nPages
          (install deviceOk c.done s.mgr).blocks s.kvPool) :
      EngineStep s (s.drain deviceOk c rest kvPool)

/-- A step of the system. Jobs that satisfy `A` may be submitted. What else the engine does with
the block manager moves blocks or loses them. -/
inductive Step (A : KVLoadJob → Prop) : State → State → Prop
  | submit {s : State} (job : KVLoadJob) (hjob : A job) :
      Step A s { s with
        jobs := s.jobs ++ [⟨job, s.submitted⟩]
        submitted := s.submitted + 1 }
  | worker {s s' : State} {w : ℕ} (hw : w < L.numWorkers) (h : WorkerStep L w s s') : Step A s s'
  | engine {s s' : State} (h : EngineStep L s s') : Step A s s'
  | serve {s : State} {mgr : BlockManager} {kvPool : ℕ → Tensor BFloat16}
      (hsize : mgr.blockSize = s.mgr.blockSize) (hpool : mgr.pool ≤ s.mgr.pool) :
      Step A s { s with mgr := mgr, kvPool := kvPool }

/-- The states of the runs in which only jobs that satisfy `A` are submitted. -/
inductive Reachable (A : KVLoadJob → Prop) : State → Prop
  | init (staging : ℕ → ℕ → UInt8) (numBlocks reserved : ℕ) (kvPool : ℕ → Tensor BFloat16) :
      Reachable A (.init staging numBlocks reserved kvPool)
  | step {s s' : State} (hs : Reachable A s) (h : Step L A s s') : Reachable A s'

variable {L} {A : KVLoadJob → Prop} {s s' : State} {w : ℕ}

theorem Reachable.invariant {I : State → Prop}
    (hinit : ∀ staging numBlocks reserved kvPool, I (.init staging numBlocks reserved kvPool))
    (hstep : ∀ s s', Step L A s s' → I s → I s') (h : Reachable L A s) : I s := by
  induction h with
  | init staging numBlocks reserved kvPool => exact hinit staging numBlocks reserved kvPool
  | step _ h ih => exact hstep _ _ h ih

/-! ### The protocol of the staging buffers -/

/-- A completion that is not installed: its worker waits for it and leaves the buffer as it is. -/
structure Awaited (L : MooncakeKVLoader) (s : State) (c : Completion) : Prop where
  lt : c.done.worker < L.numWorkers
  waiting : s.worker c.done.worker = .waiting c.event
  unset : s.released c.event = false
  /-- The buffer holds what it held when the completion was queued. -/
  bytes : s.staging c.done.worker = c.bytes
  nPages : c.done.nPages = c.done.job.nPages

structure Protocol (L : MooncakeKVLoader) (s : State) : Prop where
  /-- Whoever has a completion queued waits for it. -/
  awaited : ∀ c ∈ s.outstanding, Awaited L s c
  events : (s.outstanding.map (·.event)).Nodup
  /-- Who waits for an event that is not set has a completion queued. -/
  queued : ∀ w e, s.worker w = .waiting e → s.released e = true ∨ ∃ c ∈ s.outstanding, c.event = e
  fresh : ∀ w e, s.worker w = .waiting e → e < s.nextEvent
  unset : ∀ e, s.nextEvent ≤ e → s.released e = false

theorem startJob_ne_waiting (L : MooncakeKVLoader) (job : Job) (e : ℕ) :
    L.startJob job ≠ .waiting e := by
  unfold MooncakeKVLoader.startJob
  split_ifs
  · simp
  · split <;> simp
  · simp

theorem afterFetch_ne_waiting (L : MooncakeKVLoader) (job : Job) (ks : List String) (attempt : ℕ)
    (r : Fetched) (e : ℕ) : L.afterFetch job ks attempt r ≠ .waiting e := by
  unfold MooncakeKVLoader.afterFetch
  split_ifs <;> simp

theorem Protocol.of_eq (h : Protocol L s) (houtstanding : s'.outstanding = s.outstanding)
    (hworker : s'.worker = s.worker) (hstaging : s'.staging = s.staging)
    (hreleased : s'.released = s.released) (hnext : s'.nextEvent = s.nextEvent) :
    Protocol L s' := by
  constructor
  · intro c hc
    have hawaited := h.awaited c (houtstanding ▸ hc)
    refine ⟨hawaited.lt, ?_, ?_, ?_, hawaited.nPages⟩
    · rw [hworker, hawaited.waiting]
    · rw [hreleased, hawaited.unset]
    · rw [hstaging, hawaited.bytes]
  · rw [houtstanding]
    exact h.events
  · rw [hworker, hreleased, houtstanding]
    exact h.queued
  · rw [hworker, hnext]
    exact h.fresh
  · rw [hnext, hreleased]
    exact h.unset

/-- A worker that waits for nothing may go anywhere but to wait, and change its buffer. -/
theorem Protocol.setWorker (h : Protocol L s) (x : Worker) (jobs : List Job) (mem : ℕ → UInt8)
    (hfree : ∀ e, s.worker w = .waiting e → s.released e = true) (hx : ∀ e, x ≠ .waiting e) :
    Protocol L { s with
      jobs := jobs
      worker := Function.update s.worker w x
      staging := Function.update s.staging w mem } where
  awaited c hc := by
    have hawaited := h.awaited c hc
    have hne : c.done.worker ≠ w := by
      intro heq
      have hset := hfree c.event (heq ▸ hawaited.waiting)
      rw [hawaited.unset] at hset
      cases hset
    refine ⟨hawaited.lt, ?_, hawaited.unset, ?_, hawaited.nPages⟩
    · exact (Function.update_of_ne hne _ _).trans hawaited.waiting
    · exact (Function.update_of_ne hne _ _).trans hawaited.bytes
  events := h.events
  queued v e hv := by
    by_cases hvw : v = w
    · subst hvw
      exact absurd ((Function.update_self v x s.worker).symm.trans hv) (hx e)
    · exact h.queued v e ((Function.update_of_ne hvw x s.worker).symm.trans hv)
  fresh v e hv := by
    by_cases hvw : v = w
    · subst hvw
      exact absurd ((Function.update_self v x s.worker).symm.trans hv) (hx e)
    · exact h.fresh v e ((Function.update_of_ne hvw x s.worker).symm.trans hv)
  unset := h.unset

theorem Protocol.report (h : Protocol L s) (hw : w < L.numWorkers) {job : Job} {ok : Bool}
    (hreporting : s.worker w = .reporting job ok) :
    Protocol L { s with
      worker := Function.update s.worker w (.waiting s.nextEvent)
      done := s.done ++ [⟨⟨job.toKVLoadJob, w, job.nPages, ok⟩, job.ticket, s.nextEvent,
        s.staging w⟩]
      nextEvent := s.nextEvent + 1 } := by
  have hne : ∀ c ∈ s.outstanding, c.done.worker ≠ w := by
    intro c hc heq
    have hwaiting := (h.awaited c hc).waiting
    rw [heq, hreporting] at hwaiting
    cases hwaiting
  have houtstanding : ∀ l : List Completion, s.polled ++ (s.done ++ l) = s.outstanding ++ l :=
    fun l => (List.append_assoc _ _ l).symm
  constructor
  · intro c hc
    rw [State.outstanding, houtstanding, List.mem_append, List.mem_singleton] at hc
    rcases hc with hc | rfl
    · have hawaited := h.awaited c hc
      exact ⟨hawaited.lt, (Function.update_of_ne (hne c hc) _ _).trans hawaited.waiting,
        hawaited.unset, hawaited.bytes, hawaited.nPages⟩
    · exact ⟨hw, Function.update_self _ _ _, h.unset _ le_rfl, rfl, rfl⟩
  · rw [State.outstanding, houtstanding, List.map_append, List.map_singleton,
      ← List.concat_eq_append, List.nodup_concat]
    refine ⟨fun hmem => ?_, h.events⟩
    obtain ⟨c, hc, hevent⟩ := List.mem_map.mp hmem
    have hlt := h.fresh _ _ (h.awaited c hc).waiting
    rw [hevent] at hlt
    exact lt_irrefl _ hlt
  · intro v e hv
    rw [State.outstanding, houtstanding]
    by_cases hvw : v = w
    · subst hvw
      obtain rfl := Worker.waiting.inj ((Function.update_self v _ s.worker).symm.trans hv)
      exact .inr ⟨_, List.mem_append_right _ (List.mem_singleton_self _), rfl⟩
    · refine (h.queued v e ((Function.update_of_ne hvw _ s.worker).symm.trans hv)).imp_right ?_
      rintro ⟨c, hc, hevent⟩
      exact ⟨c, List.mem_append_left _ hc, hevent⟩
  · intro v e hv
    by_cases hvw : v = w
    · subst hvw
      obtain rfl := Worker.waiting.inj ((Function.update_self v _ s.worker).symm.trans hv)
      exact Nat.lt_succ_self _
    · exact Nat.lt_succ_of_lt (h.fresh v e ((Function.update_of_ne hvw _ s.worker).symm.trans hv))
  · exact fun e he => h.unset e (Nat.le_of_succ_le he)

theorem Protocol.workerStep (h : Protocol L s) (hw : w < L.numWorkers)
    (hstep : WorkerStep L w s s') : Protocol L s' := by
  cases hstep with
  | @take job jobs hidle hjobs =>
    have hset := h.setWorker (L.startJob job) jobs (s.staging w)
      (fun e he => by rw [hidle] at he; cases he) (startJob_ne_waiting L job)
    rwa [Function.update_eq_self] at hset
  | fetch hfetching hget =>
    exact h.setWorker _ s.jobs _ (fun e he => by rw [hfetching] at he; cases he)
      (afterFetch_ne_waiting L _ _ _ _)
  | report hreporting => exact h.report hw hreporting
  | @resume e hwaiting hreleased =>
    have hset := h.setWorker .idle s.jobs (s.staging w)
      (fun e' he' => by rw [hwaiting] at he'; cases he'; exact hreleased) (fun e => nofun)
    rwa [Function.update_eq_self] at hset

@[simp] theorem outstanding_drain (s : State) (deviceOk : Bool) (c : Completion)
    (rest : List Completion) (kvPool : ℕ → Tensor BFloat16) :
    (s.drain deviceOk c rest kvPool).outstanding = rest ++ s.done := rfl

@[simp] theorem worker_drain (s : State) (deviceOk : Bool) (c : Completion)
    (rest : List Completion) (kvPool : ℕ → Tensor BFloat16) :
    (s.drain deviceOk c rest kvPool).worker = s.worker := rfl

@[simp] theorem released_drain (s : State) (deviceOk : Bool) (c : Completion)
    (rest : List Completion) (kvPool : ℕ → Tensor BFloat16) :
    (s.drain deviceOk c rest kvPool).released = Function.update s.released c.event true := by
  simp only [State.drain, snd_drainOne, released_install, if_true]

theorem Protocol.drain (h : Protocol L s) {c : Completion} {rest : List Completion}
    (hpolled : s.polled = c :: rest) (deviceOk : Bool) (kvPool : ℕ → Tensor BFloat16) :
    Protocol L (s.drain deviceOk c rest kvPool) := by
  have houtstanding : s.outstanding = c :: (rest ++ s.done) := by
    rw [State.outstanding, hpolled, List.cons_append]
  have hevents := h.events
  rw [houtstanding, List.map_cons, List.nodup_cons] at hevents
  have hother : ∀ c' ∈ rest ++ s.done, c'.event ≠ c.event := fun c' hc' heq =>
    hevents.1 (heq ▸ List.mem_map_of_mem hc')
  have hc := h.awaited c (by rw [houtstanding]; exact List.mem_cons_self)
  constructor
  · intro c' hc'
    rw [outstanding_drain] at hc'
    have hawaited := h.awaited c' (by rw [houtstanding]; exact List.mem_cons_of_mem _ hc')
    refine ⟨hawaited.lt, hawaited.waiting, ?_, hawaited.bytes, hawaited.nPages⟩
    rw [released_drain, Function.update_of_ne (hother c' hc')]
    exact hawaited.unset
  · exact hevents.2
  · intro v e hv
    rw [released_drain, outstanding_drain]
    by_cases heq : e = c.event
    · rw [heq, Function.update_self]
      exact .inl rfl
    · rw [Function.update_of_ne heq]
      refine (h.queued v e hv).imp_right ?_
      rintro ⟨c', hc', hevent⟩
      rw [houtstanding, List.mem_cons] at hc'
      rcases hc' with rfl | hc'
      · exact absurd hevent.symm heq
      · exact ⟨c', hc', hevent⟩
  · exact h.fresh
  · intro e he
    have hne : e ≠ c.event := (lt_of_lt_of_le (h.fresh _ _ hc.waiting) he).ne'
    rw [released_drain, Function.update_of_ne hne]
    exact h.unset e he

theorem outstanding_poll (hpolled : s.polled = []) :
    ({ s with polled := s.done.take 8, done := s.done.drop 8 } : State).outstanding =
      s.outstanding := by
  rw [State.outstanding, State.outstanding, hpolled, List.take_append_drop, List.nil_append]

theorem Protocol.engineStep (h : Protocol L s) (hstep : EngineStep L s s') : Protocol L s' := by
  cases hstep with
  | poll hpolled hdone => exact h.of_eq (outstanding_poll hpolled) rfl rfl rfl rfl
  | install hpolled hkv => exact h.drain hpolled _ _

theorem Protocol.step (h : Protocol L s) (hstep : Step L A s s') : Protocol L s' := by
  cases hstep with
  | submit job hjob => exact h.of_eq rfl rfl rfl rfl rfl
  | worker hw hstep => exact h.workerStep hw hstep
  | engine hstep => exact h.engineStep hstep
  | serve hsize hpool => exact h.of_eq rfl rfl rfl rfl rfl

theorem Protocol.init (staging : ℕ → ℕ → UInt8) (numBlocks reserved : ℕ)
    (kvPool : ℕ → Tensor BFloat16) : Protocol L (.init staging numBlocks reserved kvPool) where
  awaited _ hc := absurd hc List.not_mem_nil
  events := List.nodup_nil
  queued := nofun
  fresh := nofun
  unset _ _ := rfl

theorem Protocol.of_run (h : Reachable L A s) : Protocol L s :=
  h.invariant Protocol.init fun _ _ hstep hs => hs.step hstep

/-! ### The places of a job -/

def Worker.tickets : Worker → Multiset ℕ
  | .fetching job _ _ => {job.ticket}
  | .reporting job _ => {job.ticket}
  | .stopped job => {job.ticket}
  | .idle => 0
  | .waiting _ => 0

/-- Every submitted job is queued, in the hand of a worker, reported, admitted or rejected, and
is in one of these places once. -/
def Accounted (L : MooncakeKVLoader) (s : State) : Prop :=
  Multiset.range s.submitted = ↑(s.jobs.map (·.ticket)) +
    ∑ w ∈ Finset.range L.numWorkers, (s.worker w).tickets +
    ↑(s.outstanding.map (·.ticket)) + ↑(s.admitted ++ s.rejected)

theorem tickets_startJob (L : MooncakeKVLoader) (job : Job) :
    (L.startJob job).tickets = {job.ticket} := by
  unfold MooncakeKVLoader.startJob
  split_ifs
  · rfl
  · split <;> rfl
  · rfl

theorem tickets_afterFetch (L : MooncakeKVLoader) (job : Job) (ks : List String) (attempt : ℕ)
    (r : Fetched) : (L.afterFetch job ks attempt r).tickets = {job.ticket} := by
  unfold MooncakeKVLoader.afterFetch
  split_ifs <;> rfl

/-- What a step of one worker changes in the sum over all. -/
theorem sum_tickets_update (hw : w < L.numWorkers) (x : Worker) :
    ∑ v ∈ Finset.range L.numWorkers, (Function.update s.worker w x v).tickets +
        (s.worker w).tickets =
      ∑ v ∈ Finset.range L.numWorkers, (s.worker v).tickets + x.tickets := by
  refine sum_local_change (Finset.mem_range.mpr hw) (fun v _ hv => ?_) ?_
  · rw [Function.update_of_ne hv]
  · rw [Function.update_self, add_comm]

theorem Accounted.workerStep (h : Accounted L s) (hw : w < L.numWorkers)
    (hstep : WorkerStep L w s s') : Accounted L s' := by
  unfold Accounted State.outstanding at h ⊢
  cases hstep with
  | @take job jobs hidle hjobs =>
    have hsum := sum_tickets_update (s := s) hw (L.startJob job)
    rw [hidle, tickets_startJob, Worker.tickets, add_zero] at hsum
    rw [hjobs, List.map_cons, ← Multiset.cons_coe, ← Multiset.singleton_add] at h
    dsimp only
    rw [h, hsum]
    abel
  | @fetch job ks attempt r mem hfetching hget =>
    have hsum := sum_tickets_update (s := s) hw (L.afterFetch job ks attempt r)
    rw [hfetching, tickets_afterFetch, Worker.tickets] at hsum
    dsimp only
    rw [h, add_right_cancel hsum]
  | @report job ok hreporting =>
    have hsum := sum_tickets_update (s := s) hw (.waiting s.nextEvent)
    rw [hreporting, Worker.tickets, Worker.tickets, add_zero] at hsum
    simp only [← List.append_assoc, List.map_append, ← Multiset.coe_add, List.map_singleton,
      Multiset.coe_singleton] at h ⊢
    rw [h, ← hsum]
    abel
  | @resume e hwaiting hreleased =>
    have hsum := sum_tickets_update (s := s) hw .idle
    rw [hwaiting, Worker.tickets, Worker.tickets, add_zero, add_zero] at hsum
    dsimp only
    rw [h, hsum]

theorem resolved_drain (s : State) (deviceOk : Bool) (c : Completion) (rest : List Completion)
    (kvPool : ℕ → Tensor BFloat16) :
    ((s.drain deviceOk c rest kvPool).admitted ++ (s.drain deviceOk c rest kvPool).rejected).Perm
      (c.ticket :: (s.admitted ++ s.rejected)) := by
  rcases hoc : (drainOne deviceOk c.done s.mgr).1 with _ | _
  · have hne : ¬Outcome.admitted = Outcome.rejected := nofun
    simp only [State.drain, hoc, if_true, if_neg hne, List.append_assoc, List.singleton_append]
    exact List.perm_middle
  · have hne : ¬Outcome.rejected = Outcome.admitted := nofun
    simp only [State.drain, hoc, if_true, if_neg hne, ← List.append_assoc]
    exact List.perm_append_singleton _ _

theorem Accounted.engineStep (h : Accounted L s) (hstep : EngineStep L s s') :
    Accounted L s' := by
  cases hstep with
  | poll hpolled hdone =>
    unfold Accounted at h ⊢
    rw [outstanding_poll hpolled]
    exact h
  | @install deviceOk c rest kvPool hpolled hkv =>
    unfold Accounted at h ⊢
    rw [State.outstanding, hpolled, List.cons_append, List.map_cons, ← Multiset.cons_coe,
      ← Multiset.singleton_add] at h
    rw [outstanding_drain, worker_drain,
      Multiset.coe_eq_coe.mpr (resolved_drain s deviceOk c rest kvPool), ← Multiset.cons_coe,
      ← Multiset.singleton_add]
    refine h.trans ?_
    simp only [State.drain]
    abel

theorem Accounted.step (h : Accounted L s) (hstep : Step L A s s') : Accounted L s' := by
  cases hstep with
  | submit job hjob =>
    unfold Accounted State.outstanding at h ⊢
    have hjobs : (↑((s.jobs ++ [Job.mk job s.submitted]).map Job.ticket) : Multiset ℕ) =
        ↑(s.jobs.map Job.ticket) + {s.submitted} := by
      rw [List.map_append, ← Multiset.coe_add, List.map_singleton, Multiset.coe_singleton]
    dsimp only
    rw [Multiset.range_succ, h, hjobs, ← Multiset.singleton_add]
    abel
  | worker hw hstep => exact h.workerStep hw hstep
  | engine hstep => exact h.engineStep hstep
  | serve hsize hpool => exact h

/-- **Every job is in one place**, in every run. -/
theorem Accounted.of_run (h : Reachable L A s) : Accounted L s := by
  refine h.invariant (fun staging numBlocks reserved kvPool => ?_) fun _ _ hstep hs =>
    hs.step hstep
  have hworkers : ∑ w ∈ Finset.range L.numWorkers,
      ((State.init staging numBlocks reserved kvPool).worker w).tickets = 0 :=
    Finset.sum_eq_zero fun w _ => rfl
  rw [Accounted, hworkers]
  rfl

end KvLoader

end StreamEP

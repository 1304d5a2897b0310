import StreamEP.Kv.LoaderRun
import StreamEP.Lib.Fair

/-!
# Every load ends

What can stop a worker of the loader, and what happens to every job when nothing does. A worker
stops exactly at a job whose prompt has more pages than the staging buffer has room for, or a full
page with an id that is no unsigned 32-bit number: the size check and the hashing stand outside
the handler. Without such jobs no worker stops, and in a fair run every submitted job is admitted
or rejected: a job moves from the queue to a worker, to a completion and to its result, and each
move is made by one thread that is not put off for ever.

## Main results

* `KvLoader.startJob_stopped_iff` — which jobs stop a worker
* `KvLoader.FairRun.worker_idle` — every worker comes back for the next job
* `KvLoader.FairRun.resolved` — every job gets a result in the end
* `KvLoader.noJobLost_iff` — when no job is lost
-/

namespace StreamEP

/-! ### What stops a worker -/

theorem structPack_eq_ok {page : List ℤ} {bytes : List UInt8} :
    structPack page = .ok bytes ↔
      (∀ x ∈ page, 0 ≤ x ∧ x < 2 ^ 32) ∧ (page.flatMap fun x => u32le x.toNat) = bytes := by
  rw [structPack, ensure_bind_eq_ok]
  exact and_congr_right fun _ => ⟨Except.ok.inj, congrArg _⟩

theorem exists_chainDigests_iff (sha256 : List UInt8 → List UInt8) (digest : List UInt8)
    (pages : List (List ℤ)) :
    (∃ ds, chainDigests sha256 digest pages = .ok ds) ↔
      ∀ page ∈ pages, ∀ x ∈ page, 0 ≤ x ∧ x < 2 ^ 32 := by
  induction pages generalizing digest with
  | nil => exact ⟨fun _ page hpage => absurd hpage List.not_mem_nil, fun _ => ⟨[], rfl⟩⟩
  | cons page pages ih =>
    rw [List.forall_mem_cons]
    constructor
    · rintro ⟨ds, hds⟩
      obtain ⟨bytes, hbytes, hrest⟩ := bind_eq_ok.mp hds
      obtain ⟨rest, hrest, -⟩ := bind_eq_ok.mp hrest
      exact ⟨(structPack_eq_ok.mp hbytes).1, (ih _).mp ⟨rest, hrest⟩⟩
    · rintro ⟨hpage, hpages⟩
      have hbytes := structPack_eq_ok.mpr ⟨hpage, rfl⟩
      obtain ⟨rest, hrest⟩ := (ih (sha256 (digest ++ page.flatMap fun x => u32le x.toNat))).mpr
        hpages
      exact ⟨_, by rw [chainDigests, hbytes, ok_bind, hrest, ok_bind]; rfl⟩

namespace KvLoader

theorem objBytes_pos (cfg : Config) : 0 < cfg.objBytes := by
  have hpos := cfg.pos
  have heq : cfg.objBytes = 32 * (cfg.numLayers * cfg.kvHeads * cfg.headDim) := by
    rw [Config.objBytes, pageTokens]
    ring
  omega

/-- The pages fit the staging buffer, and every id of a full page fits 32 bits. -/
def MooncakeKVLoader.Loadable (L : MooncakeKVLoader) (job : KVLoadJob) : Prop :=
  job.nPages ≤ L.maxPromptTokens / pageTokens ∧
    ∀ page ∈ fullPages job.promptTokenIds, ∀ x ∈ page, 0 ≤ x ∧ x < 2 ^ 32

variable {L : MooncakeKVLoader} {A : KVLoadJob → Prop} {s s' : State} {w : ℕ}

theorem exists_keys_iff (sha256 : List UInt8 → List UInt8) (job : KVLoadJob) :
    (∃ ks, keys sha256 job = .ok ks) ↔
      ∀ page ∈ fullPages job.promptTokenIds, ∀ x ∈ page, 0 ≤ x ∧ x < 2 ^ 32 := by
  rw [← exists_chainDigests_iff sha256 []]
  constructor
  · rintro ⟨ks, hks⟩
    obtain ⟨ds, hds, -⟩ := bind_eq_ok.mp hks
    exact ⟨ds, hds⟩
  · rintro ⟨ds, hds⟩
    exact ⟨_, bind_eq_ok.mpr ⟨ds, hds, rfl⟩⟩

theorem fits_iff (n : ℕ) :
    2 * n * L.objBytes ≤ L.stageBytes ↔ n ≤ L.maxPromptTokens / pageTokens := by
  have heq : L.stageBytes = 2 * (L.maxPromptTokens / pageTokens) * L.objBytes := by
    rw [Config.stageBytes]
    ring
  rw [heq, Nat.mul_le_mul_right_iff (objBytes_pos L.toConfig)]
  omega

theorem startJob_eq_stopped {job job' : Job} (h : L.startJob job = .stopped job') : job' = job := by
  unfold MooncakeKVLoader.startJob at h
  split_ifs at h
  · split at h
    · exact (Worker.stopped.inj h).symm
    · cases h
  · exact (Worker.stopped.inj h).symm

theorem startJob_stopped_iff (job : Job) :
    (∃ job', L.startJob job = .stopped job') ↔ ¬L.Loadable job.toKVLoadJob := by
  unfold MooncakeKVLoader.startJob MooncakeKVLoader.Loadable
  rw [← exists_keys_iff L.sha256, ← fits_iff]
  split_ifs with hpages hfits
  · -- a prompt without full pages
    have hkeys : keys L.sha256 job.toKVLoadJob = .ok [] := by
      rw [keys, pageChainHashes, fullPages, ← KVLoadJob.nPages, hpages]
      rfl
    refine iff_of_false (by simp) (not_not_intro ⟨?_, _, hkeys⟩)
    rw [hpages, Nat.mul_zero, Nat.zero_mul]
    exact Nat.zero_le _
  · rcases keys L.sha256 job.toKVLoadJob with e | ks
    · exact iff_of_true ⟨job, rfl⟩ fun h => by simpa using h.2
    · exact iff_of_false (by simp) (not_not_intro ⟨hfits, ks, rfl⟩)
  · exact iff_of_true ⟨job, rfl⟩ fun h => hfits h.1

/-! ### No worker stops -/

/-- Nothing that is queued can stop a worker, and none is stopped. -/
structure Running (L : MooncakeKVLoader) (s : State) : Prop where
  jobs : ∀ job ∈ s.jobs, L.Loadable job.toKVLoadJob
  worker : ∀ w job, s.worker w ≠ .stopped job

theorem afterFetch_ne_stopped (L : MooncakeKVLoader) (job : Job) (ks : List String) (attempt : ℕ)
    (r : Fetched) (job' : Job) : L.afterFetch job ks attempt r ≠ .stopped job' := by
  unfold MooncakeKVLoader.afterFetch
  split_ifs <;> simp

theorem Running.update (h : Running L s) {x : Worker} (hx : ∀ job, x ≠ .stopped job) (v : ℕ)
    (job : Job) : Function.update s.worker w x v ≠ .stopped job := by
  by_cases hv : v = w
  · rw [hv, Function.update_self]
    exact hx job
  · rw [Function.update_of_ne hv]
    exact h.worker v job

theorem Running.workerStep (h : Running L s) (hstep : WorkerStep L w s s') : Running L s' := by
  cases hstep with
  | @take job jobs hidle hjobs =>
    have hall := h.jobs
    rw [hjobs, List.forall_mem_cons] at hall
    refine ⟨hall.2, h.update fun job' hstopped => ?_⟩
    exact (startJob_stopped_iff job).mp ⟨job', hstopped⟩ hall.1
  | fetch hfetching hget => exact ⟨h.jobs, h.update (afterFetch_ne_stopped L _ _ _ _)⟩
  | report hreporting => exact ⟨h.jobs, h.update nofun⟩
  | resume hwaiting hreleased => exact ⟨h.jobs, h.update nofun⟩

theorem Running.step (h : Running L s) (hstep : Step L L.Loadable s s') : Running L s' := by
  cases hstep with
  | submit job hjob =>
    refine ⟨fun job' hjob' => ?_, h.worker⟩
    rcases List.mem_append.mp hjob' with hold | hnew
    · exact h.jobs job' hold
    · rw [List.mem_singleton.mp hnew]
      exact hjob
  | worker hw hstep => exact h.workerStep hstep
  | engine hstep =>
    cases hstep with
    | poll hpolled hdone => exact ⟨h.jobs, h.worker⟩
    | install hpolled hkv => exact ⟨h.jobs, h.worker⟩
  | serve hsize hpool => exact ⟨h.jobs, h.worker⟩

theorem Running.of_run (h : Reachable L L.Loadable s) : Running L s :=
  h.invariant (fun _ _ _ _ => ⟨nofun, nofun⟩) fun _ _ hstep hs => hs.step hstep

/-! ### Runs -/

/-- An infinite run. It may pause. -/
structure Run (L : MooncakeKVLoader) (A : KVLoadJob → Prop) (σ : ℕ → State) : Prop where
  init : ∃ staging numBlocks reserved kvPool, σ 0 = .init staging numBlocks reserved kvPool
  step : ∀ t, Step L A (σ t) (σ (t + 1)) ∨ σ (t + 1) = σ t

/-- A run in which no worker is put off for ever, and the engine keeps polling and installing. -/
structure FairRun (L : MooncakeKVLoader) (A : KVLoadJob → Prop) (σ : ℕ → State) : Prop
    extends Run L A σ where
  worker : ∀ w < L.numWorkers, WeaklyFair (WorkerStep L w) σ
  engine : WeaklyFair (EngineStep L) σ

variable {σ : ℕ → State}

theorem Run.reachable (h : Run L A σ) (t : ℕ) : Reachable L A (σ t) := by
  induction t with
  | zero =>
    obtain ⟨staging, numBlocks, reserved, kvPool, hinit⟩ := h.init
    rw [hinit]
    exact .init staging numBlocks reserved kvPool
  | succ t ih =>
    rcases h.step t with hstep | heq
    · exact ih.step hstep
    · rw [heq]
      exact ih

/-! ### What one step does -/

theorem Step.mono {B : KVLoadJob → Prop} (hAB : ∀ job, A job → B job) (h : Step L A s s') :
    Step L B s s' := by
  cases h with
  | submit job hjob => exact .submit job (hAB job hjob)
  | worker hw hstep => exact .worker hw hstep
  | engine hstep => exact .engine hstep
  | serve hsize hpool => exact .serve hsize hpool

theorem Step.worker_eq (h : Step L A s s') (v : ℕ) :
    s'.worker v = s.worker v ∨ WorkerStep L v s s' := by
  cases h with
  | submit job hjob => exact .inl rfl
  | @worker _ w hw hstep =>
    by_cases hv : v = w
    · exact .inr (hv ▸ hstep)
    · left
      cases hstep <;> exact Function.update_of_ne hv _ _
  | engine hstep =>
    left
    cases hstep <;> rfl
  | serve hsize hpool => exact .inl rfl

theorem Run.worker_eq (h : Run L A σ) (t v : ℕ) :
    (σ (t + 1)).worker v = (σ t).worker v ∨ WorkerStep L v (σ t) (σ (t + 1)) := by
  rcases h.step t with hstep | heq
  · exact hstep.worker_eq v
  · exact .inl (by rw [heq])

theorem WorkerStep.of_fetching (h : WorkerStep L w s s') {job : Job} {ks : List String}
    {attempt : ℕ} (hfetching : s.worker w = .fetching job ks attempt) :
    ∃ r, s'.worker w = L.afterFetch job ks attempt r := by
  cases h with
  | take hidle _ => rw [hidle] at hfetching; cases hfetching
  | fetch hfetching' _ =>
    rw [hfetching'] at hfetching
    cases hfetching
    exact ⟨_, Function.update_self _ _ _⟩
  | report hreporting => rw [hreporting] at hfetching; cases hfetching
  | resume hwaiting _ => rw [hwaiting] at hfetching; cases hfetching

theorem WorkerStep.of_reporting (h : WorkerStep L w s s') {job : Job} {ok : Bool}
    (hreporting : s.worker w = .reporting job ok) :
    ∃ c ∈ s'.outstanding, c.ticket = job.ticket ∧ s'.worker w = .waiting c.event := by
  cases h with
  | take hidle _ => rw [hidle] at hreporting; cases hreporting
  | fetch hfetching _ => rw [hfetching] at hreporting; cases hreporting
  | report hreporting' =>
    rw [hreporting'] at hreporting
    cases hreporting
    exact ⟨_, List.mem_append_right _ (List.mem_append_right _ (List.mem_singleton_self _)), rfl,
      Function.update_self _ _ _⟩
  | resume hwaiting _ => rw [hwaiting] at hreporting; cases hreporting

theorem WorkerStep.of_waiting (h : WorkerStep L w s s') {e : ℕ}
    (hwaiting : s.worker w = .waiting e) : s'.worker w = .idle := by
  cases h with
  | take hidle _ => rw [hidle] at hwaiting; cases hwaiting
  | fetch hfetching _ => rw [hfetching] at hwaiting; cases hwaiting
  | report hreporting => rw [hreporting] at hwaiting; cases hwaiting
  | resume _ _ => exact Function.update_self _ _ _

theorem WorkerStep.of_idle (h : WorkerStep L w s s') (hidle : s.worker w = .idle) :
    ∃ job, s.jobs = job :: s'.jobs ∧ s'.worker w = L.startJob job := by
  cases h with
  | take _ hjobs => exact ⟨_, hjobs, Function.update_self _ _ _⟩
  | fetch hfetching _ => rw [hfetching] at hidle; cases hidle
  | report hreporting => rw [hreporting] at hidle; cases hidle
  | resume hwaiting _ => rw [hwaiting] at hidle; cases hidle

/-- The queue of jobs is taken from the front and grows at the end. -/
theorem Step.jobs_eq (h : Step L A s s') :
    (∃ new, s'.jobs = s.jobs ++ new) ∨
      ∃ w < L.numWorkers, ∃ job, s.jobs = job :: s'.jobs ∧ s'.worker w = L.startJob job := by
  cases h with
  | submit job hjob => exact .inl ⟨_, rfl⟩
  | @worker _ w hw hstep =>
    cases hstep with
    | take hidle hjobs => exact .inr ⟨w, hw, _, hjobs, Function.update_self _ _ _⟩
    | fetch hfetching hget => exact .inl ⟨[], (List.append_nil _).symm⟩
    | report hreporting => exact .inl ⟨[], (List.append_nil _).symm⟩
    | resume hwaiting hreleased => exact .inl ⟨[], (List.append_nil _).symm⟩
  | engine hstep => cases hstep <;> exact .inl ⟨[], (List.append_nil _).symm⟩
  | serve hsize hpool => exact .inl ⟨[], (List.append_nil _).symm⟩

/-- The completions are installed from the front and grow at the end. -/
theorem Step.outstanding_eq (h : Step L A s s') :
    (s'.polled = s.polled ∧ ∃ new, s'.outstanding = s.outstanding ++ new) ∨
      EngineStep L s s' := by
  cases h with
  | submit job hjob => exact .inl ⟨rfl, [], (List.append_nil _).symm⟩
  | worker hw hstep =>
    left
    cases hstep with
    | take hidle hjobs => exact ⟨rfl, [], (List.append_nil _).symm⟩
    | fetch hfetching hget => exact ⟨rfl, [], (List.append_nil _).symm⟩
    | report hreporting => exact ⟨rfl, _, (List.append_assoc _ _ _).symm⟩
    | resume hwaiting hreleased => exact ⟨rfl, [], (List.append_nil _).symm⟩
  | engine hstep => exact .inr hstep
  | serve hsize hpool => exact .inl ⟨rfl, [], (List.append_nil _).symm⟩

theorem Step.released (h : Step L A s s') {e : ℕ} (he : s.released e = true) :
    s'.released e = true := by
  cases h with
  | submit job hjob => exact he
  | worker hw hstep => cases hstep <;> exact he
  | engine hstep =>
    cases hstep with
    | poll hpolled hdone => exact he
    | install hpolled hkv =>
      rw [released_drain, Function.update_apply, he]
      exact ite_self _
  | serve hsize hpool => exact he

/-- The engine has something to do as long as a completion is not installed. -/
theorem enabled_engine {c : Completion} (hc : c ∈ s.outstanding) : Enabled (EngineStep L) s := by
  rcases hpolled : s.polled with _ | ⟨c', rest⟩
  · refine ⟨_, .poll hpolled fun hdone => ?_⟩
    rw [State.outstanding, hpolled, hdone] at hc
    exact List.not_mem_nil hc
  · exact ⟨_, @EngineStep.install L s true c' rest _ hpolled fun _ => rfl⟩

/-! ### The way of a job -/

def State.Resolved (s : State) (i : ℕ) : Prop := i ∈ s.admitted ++ s.rejected

/-- How far a completion is from being installed: its place, and whether there has to be a poll
first. -/
def State.distance (s : State) (e : ℕ) : ℕ :=
  2 * (s.outstanding.map (·.event)).idxOf e + if s.polled = [] then 1 else 0

theorem distance_append {c : Completion} (hc : c ∈ s.outstanding) (hpolled : s'.polled = s.polled)
    {new : List Completion} (hnew : s'.outstanding = s.outstanding ++ new) :
    s'.distance c.event = s.distance c.event := by
  rw [State.distance, State.distance, hpolled, hnew, List.map_append,
    List.idxOf_append_of_mem (List.mem_map_of_mem hc)]

/-- A step of the engine installs the completion or brings it nearer. -/
theorem EngineStep.distance_lt (h : EngineStep L s s') (hp : Protocol L s) {c : Completion}
    (hc : c ∈ s.outstanding) :
    (s'.Resolved c.ticket ∧ s'.released c.event = true) ∨
      c ∈ s'.outstanding ∧ s'.distance c.event < s.distance c.event := by
  cases h with
  | poll hpolled hdone =>
    have hsame := outstanding_poll hpolled
    have htake : s.done.take 8 ≠ [] := by simpa using hdone
    right
    refine ⟨hsame ▸ hc, ?_⟩
    rw [State.distance, State.distance, hsame, if_pos hpolled, if_neg htake]
    exact Nat.lt_succ_self _
  | @install deviceOk c' rest kvPool hpolled hkv =>
    have houtstanding : s.outstanding = c' :: (rest ++ s.done) := by
      rw [State.outstanding, hpolled, List.cons_append]
    by_cases heq : c'.event = c.event
    · left
      have hcc : c' = c := List.inj_on_of_nodup_map hp.events
        (by rw [houtstanding]; exact List.mem_cons_self) hc heq
      subst hcc
      constructor
      · exact (resolved_drain s deviceOk c' rest kvPool).mem_iff.mpr List.mem_cons_self
      · rw [released_drain, Function.update_self]
    · right
      rw [houtstanding, List.mem_cons] at hc
      have hne : c ≠ c' := fun hcc => heq (by rw [hcc])
      refine ⟨hc.resolve_left hne, ?_⟩
      have hnonempty : s.polled ≠ [] := by
        rw [hpolled]
        exact List.cons_ne_nil _ _
      rw [State.distance, State.distance, houtstanding, outstanding_drain, List.map_cons,
        List.idxOf_cons_ne _ heq, if_neg hnonempty]
      split_ifs <;> omega

theorem Run.protocol (h : Run L A σ) (t : ℕ) : Protocol L (σ t) := .of_run (h.reachable t)

theorem FairRun.installed (h : FairRun L A σ) (c : Completion) :
    LeadsTo σ (fun s => c ∈ s.outstanding)
      fun s => s.Resolved c.ticket ∧ s.released c.event = true := by
  refine h.engine.leadsTo_of_rank (·.distance c.event) (fun t hc => enabled_engine hc) ?_
    fun t hc hstep => hstep.distance_lt (h.protocol t) hc
  intro t hc
  rcases h.step t with hstep | heq
  · rcases hstep.outstanding_eq with ⟨hpolled, new, hnew⟩ | hengine
    · right
      refine ⟨?_, (distance_append hc hpolled hnew).le⟩
      rw [hnew]
      exact List.mem_append_left _ hc
    · exact (hengine.distance_lt (h.protocol t) hc).imp_right fun hlt => ⟨hlt.1, hlt.2.le⟩
  · rw [heq]
    exact .inr ⟨hc, le_rfl⟩

def Worker.attemptsLeft : Worker → ℕ
  | .fetching _ _ attempt => 3 - attempt
  | _ => 0

theorem afterFetch_cases (L : MooncakeKVLoader) (job : Job) (ks : List String) (attempt : ℕ)
    (r : Fetched) :
    (∃ ok, L.afterFetch job ks attempt r = .reporting job ok) ∨
      attempt + 1 < 3 ∧ L.afterFetch job ks attempt r = .fetching job ks (attempt + 1) := by
  unfold MooncakeKVLoader.afterFetch
  split_ifs with hfull hattempt
  · exact .inl ⟨true, rfl⟩
  · exact .inr ⟨hattempt, rfl⟩
  · exact .inl ⟨false, rfl⟩

theorem FairRun.fetched (h : FairRun L A σ) (hw : w < L.numWorkers) (job : Job) :
    LeadsTo σ (fun s => ∃ ks attempt, s.worker w = .fetching job ks attempt)
      fun s => ∃ ok, s.worker w = .reporting job ok := by
  have hstep : ∀ t, (∃ ks attempt, (σ t).worker w = .fetching job ks attempt) →
      WorkerStep L w (σ t) (σ (t + 1)) → (∃ ok, (σ (t + 1)).worker w = .reporting job ok) ∨
        (∃ ks attempt, (σ (t + 1)).worker w = .fetching job ks attempt) ∧
          ((σ (t + 1)).worker w).attemptsLeft < ((σ t).worker w).attemptsLeft := by
    rintro t ⟨ks, attempt, hfetching⟩ hstep
    obtain ⟨r, hr⟩ := hstep.of_fetching hfetching
    rw [hr, hfetching]
    rcases afterFetch_cases L job ks attempt r with hreporting | ⟨hlt, hagain⟩
    · exact .inl hreporting
    · rw [hagain]
      refine .inr ⟨⟨ks, attempt + 1, rfl⟩, ?_⟩
      simp only [Worker.attemptsLeft]
      omega
  refine (h.worker w hw).leadsTo_of_rank (fun s => (s.worker w).attemptsLeft) ?_ ?_ hstep
  · rintro t ⟨ks, attempt, hfetching⟩
    obtain ⟨r, mem, hget⟩ := L.returns ks (L.ptrs job.nPages) (L.sizes job.nPages)
      ((σ t).staging w)
    exact ⟨_, .fetch hfetching hget⟩
  · intro t hfetching
    rcases h.worker_eq t w with heq | hmoves
    · rw [heq]
      exact .inr ⟨hfetching, le_rfl⟩
    · exact (hstep t hfetching hmoves).imp_right fun hlt => ⟨hlt.1, hlt.2.le⟩

theorem FairRun.reported (h : FairRun L A σ) (hw : w < L.numWorkers) (job : Job) :
    LeadsTo σ (fun s => ∃ ok, s.worker w = .reporting job ok)
      fun s => ∃ c ∈ s.outstanding, c.ticket = job.ticket ∧ s.worker w = .waiting c.event := by
  refine (h.worker w hw).leadsTo ?_ ?_ ?_
  · rintro t ⟨ok, hreporting⟩
    exact ⟨_, .report hreporting⟩
  · rintro t ⟨ok, hreporting⟩
    rcases h.worker_eq t w with heq | hmoves
    · exact .inr ⟨ok, heq.trans hreporting⟩
    · exact .inl (hmoves.of_reporting hreporting)
  · rintro t ⟨ok, hreporting⟩ hmoves
    exact hmoves.of_reporting hreporting

theorem FairRun.resumed (h : FairRun L A σ) (hw : w < L.numWorkers) (e : ℕ) :
    LeadsTo σ (fun s => s.worker w = .waiting e ∧ s.released e = true)
      fun s => s.worker w = .idle := by
  refine (h.worker w hw).leadsTo (fun t ht => ⟨_, .resume ht.1 ht.2⟩) ?_
    fun t ht hmoves => hmoves.of_waiting ht.1
  rintro t ⟨hwaiting, hreleased⟩
  rcases h.worker_eq t w with heq | hmoves
  · refine .inr ⟨heq.trans hwaiting, ?_⟩
    rcases h.step t with hstep | hsame
    · exact hstep.released hreleased
    · rw [hsame]
      exact hreleased
  · exact .inl (hmoves.of_waiting hwaiting)

/-- A worker that waits is released, since its completion is installed, and resumes. -/
theorem FairRun.waited (h : FairRun L A σ) (hw : w < L.numWorkers) (e : ℕ) :
    LeadsTo σ (fun s => s.worker w = .waiting e) fun s => s.worker w = .idle := by
  intro t hwaiting
  have hkeep : ∀ u, (σ u).worker w = .waiting e →
      (σ (u + 1)).worker w = .idle ∨ (σ (u + 1)).worker w = .waiting e := by
    intro u hu
    rcases h.worker_eq u w with heq | hmoves
    · exact .inr (heq.trans hu)
    · exact .inl (hmoves.of_waiting hu)
  rcases (h.protocol t).queued w e hwaiting with hreleased | ⟨c, hc, rfl⟩
  · exact h.resumed hw e t ⟨hwaiting, hreleased⟩
  · obtain ⟨u, hle, -, hreleased⟩ := h.installed c t hc
    rcases @stays_or_reaches _ σ (fun s => s.worker w = .waiting c.event)
      (fun s => s.worker w = .idle) hkeep t u hle hwaiting with hstill | hidle
    · obtain ⟨v, hle', hidle⟩ := h.resumed hw c.event u ⟨hstill, hreleased⟩
      exact ⟨v, hle.trans hle', hidle⟩
    · exact hidle

/-- A job in the hand of a worker that fetches or reports gets its completion. -/
theorem FairRun.completed (h : FairRun L L.Loadable σ) (hw : w < L.numWorkers) (i : ℕ) :
    LeadsTo σ (fun s => i ∈ (s.worker w).tickets)
      fun s => ∃ c ∈ s.outstanding, c.ticket = i ∧ s.worker w = .waiting c.event := by
  intro t hi
  rcases hworker : (σ t).worker w with _ | ⟨job, ks, attempt⟩ | ⟨job, ok⟩ | e | job
  · rw [hworker] at hi
    exact absurd hi (Multiset.notMem_zero i)
  · rw [hworker, Worker.tickets, Multiset.mem_singleton] at hi
    rw [hi]
    exact (h.fetched hw job).trans (h.reported hw job) t ⟨ks, attempt, hworker⟩
  · rw [hworker, Worker.tickets, Multiset.mem_singleton] at hi
    rw [hi]
    exact h.reported hw job t ⟨ok, hworker⟩
  · rw [hworker] at hi
    exact absurd hi (Multiset.notMem_zero i)
  · exact absurd hworker ((Running.of_run (h.reachable t)).worker w job)

theorem FairRun.worker_idle (h : FairRun L L.Loadable σ) (hw : w < L.numWorkers) (t : ℕ) :
    ∃ u, t ≤ u ∧ (σ u).worker w = .idle := by
  have hbusy : ∀ i, i ∈ ((σ t).worker w).tickets → ∃ u, t ≤ u ∧ (σ u).worker w = .idle := by
    intro i hi
    obtain ⟨u, hle, c, -, -, hwaiting⟩ := h.completed hw i t hi
    obtain ⟨v, hle', hidle⟩ := h.waited hw c.event u hwaiting
    exact ⟨v, hle.trans hle', hidle⟩
  rcases hworker : (σ t).worker w with _ | ⟨job, ks, attempt⟩ | ⟨job, ok⟩ | e | job
  · exact ⟨t, le_rfl, hworker⟩
  · exact hbusy job.ticket (by rw [hworker]; exact Multiset.mem_singleton_self _)
  · exact hbusy job.ticket (by rw [hworker]; exact Multiset.mem_singleton_self _)
  · exact h.waited hw e t hworker
  · exact hbusy job.ticket (by rw [hworker]; exact Multiset.mem_singleton_self _)

def State.Queued (s : State) (i : ℕ) : Prop := i ∈ s.jobs.map (·.ticket)

def State.place (s : State) (i : ℕ) : ℕ := (s.jobs.map (·.ticket)).idxOf i

def State.InHand (L : MooncakeKVLoader) (s : State) (i : ℕ) : Prop :=
  ∃ w < L.numWorkers, i ∈ (s.worker w).tickets

/-- The job at the front of the queue is started, and every other moves up. -/
theorem State.Queued.of_start {i : ℕ} (hi : s.Queued i) (hw : w < L.numWorkers) {job : Job}
    (hjobs : s.jobs = job :: s'.jobs) (hstarted : s'.worker w = L.startJob job) :
    s'.InHand L i ∨ s'.Queued i ∧ s'.place i < s.place i := by
  by_cases heq : job.ticket = i
  · left
    refine ⟨w, hw, ?_⟩
    rw [hstarted, tickets_startJob, heq]
    exact Multiset.mem_singleton_self i
  · right
    rw [State.Queued, hjobs, List.map_cons, List.mem_cons] at hi
    refine ⟨hi.resolve_left (Ne.symm heq), ?_⟩
    rw [State.place, State.place, hjobs, List.map_cons, List.idxOf_cons_ne _ heq]
    exact Nat.lt_succ_self _

/-- A queued job keeps its place until it moves up or is started. -/
theorem Run.queued (h : Run L A σ) {i n t : ℕ} (hi : (σ t).Queued i ∧ (σ t).place i = n) :
    ((σ (t + 1)).InHand L i ∨ (σ (t + 1)).Queued i ∧ (σ (t + 1)).place i < n) ∨
      (σ (t + 1)).Queued i ∧ (σ (t + 1)).place i = n := by
  obtain ⟨hqueued, rfl⟩ := hi
  rcases h.step t with hstep | hsame
  · rcases hstep.jobs_eq with ⟨new, hnew⟩ | ⟨w, hw, job, hjobs, hstarted⟩
    · right
      rw [State.Queued, State.place, State.place, hnew, List.map_append]
      exact ⟨List.mem_append_left _ hqueued, List.idxOf_append_of_mem hqueued⟩
    · exact .inl (hqueued.of_start hw hjobs hstarted)
  · rw [hsame]
    exact .inr ⟨hqueued, rfl⟩

theorem FairRun.started (h : FairRun L L.Loadable σ) (i : ℕ) :
    LeadsTo σ (·.Queued i) (·.InHand L i) := by
  refine LeadsTo.of_rank (·.place i) fun n t ht => ?_
  -- wait for the first worker to be idle, and then for its next step
  have hidle : LeadsTo σ (fun s => (s.Queued i ∧ s.place i = n) ∧ s.worker 0 = .idle)
      fun s => s.InHand L i ∨ s.Queued i ∧ s.place i < n := by
    have hmoves : ∀ u, ((σ u).Queued i ∧ (σ u).place i = n) ∧ (σ u).worker 0 = .idle →
        WorkerStep L 0 (σ u) (σ (u + 1)) →
          (σ (u + 1)).InHand L i ∨ (σ (u + 1)).Queued i ∧ (σ (u + 1)).place i < n := by
      rintro u ⟨⟨hqueued, rfl⟩, hidle⟩ hmoves
      obtain ⟨job, hjobs, hstarted⟩ := hmoves.of_idle hidle
      exact hqueued.of_start L.worker hjobs hstarted
    refine (h.worker 0 L.worker).leadsTo ?_ ?_ hmoves
    · rintro u ⟨⟨hqueued, -⟩, hidle⟩
      obtain ⟨job, hjob, -⟩ := List.mem_map.mp hqueued
      obtain ⟨job', jobs, hjobs⟩ := List.exists_cons_of_ne_nil (List.ne_nil_of_mem hjob)
      exact ⟨_, .take hidle hjobs⟩
    · intro u hu
      rcases h.worker_eq u 0 with heq | hstep
      · exact (h.queued hu.1).imp_right fun hstill => ⟨hstill, heq.trans hu.2⟩
      · exact .inl (hmoves u hu hstep)
  obtain ⟨u, hle, hu⟩ := h.worker_idle L.worker t
  rcases @stays_or_reaches _ σ (fun s => s.Queued i ∧ s.place i = n)
    (fun s => s.InHand L i ∨ s.Queued i ∧ s.place i < n) (fun v hv => h.queued hv) t u hle ht with
    hstill | hgoal
  · obtain ⟨v, hle', hv⟩ := hidle u ⟨hstill, hu⟩
    exact ⟨v, hle.trans hle', hv⟩
  · exact hgoal

theorem FairRun.resolved (h : FairRun L L.Loadable σ) (i : ℕ) :
    LeadsTo σ (fun s => i < s.submitted) (·.Resolved i) := by
  have houtstanding : ∀ c : Completion, c.ticket = i →
      LeadsTo σ (fun s => c ∈ s.outstanding) (·.Resolved i) := by
    rintro c rfl t hc
    obtain ⟨u, hle, hresolved, -⟩ := h.installed c t hc
    exact ⟨u, hle, hresolved⟩
  have hhand : LeadsTo σ (·.InHand L i) (·.Resolved i) := by
    rintro t ⟨w, hw, hi⟩
    obtain ⟨u, hle, c, hc, hticket, -⟩ := h.completed hw i t hi
    obtain ⟨v, hle', hresolved⟩ := houtstanding c hticket u hc
    exact ⟨v, hle.trans hle', hresolved⟩
  intro t hi
  have hplace := Multiset.mem_range.mpr hi
  rw [Accounted.of_run (h.reachable t)] at hplace
  simp only [Multiset.mem_add, Multiset.mem_coe, Multiset.mem_sum, Finset.mem_range] at hplace
  rcases hplace with ((hqueued | ⟨w, hw, hhand'⟩) | hreported) | hresolved
  · exact (h.started i).trans hhand t hqueued
  · exact hhand t ⟨w, hw, hhand'⟩
  · obtain ⟨c, hc, hticket⟩ := List.mem_map.mp hreported
    exact houtstanding c hticket t hc
  · exact ⟨t, le_rfl, hresolved⟩

/-! ### The result -/

/-- What the loader owes to its jobs: no thread ends, every job is in one place, where a worker,
the engine or a result has it, and in a fair run it gets a result. -/
structure NoJobLost (L : MooncakeKVLoader) (A : KVLoadJob → Prop) : Prop where
  running : ∀ s, Reachable L A s → ∀ w job, s.worker w ≠ .stopped job
  accounted : ∀ s, Reachable L A s → Accounted L s
  /-- Every job is admitted or rejected in the end. -/
  resolved : ∀ σ, FairRun L A σ → ∀ i, LeadsTo σ (fun s => i < s.submitted) (·.Resolved i)

theorem Reachable.mono {B : KVLoadJob → Prop} (hAB : ∀ job, A job → B job)
    (h : Reachable L A s) : Reachable L B s := by
  induction h with
  | init staging numBlocks reserved kvPool => exact .init staging numBlocks reserved kvPool
  | step _ hstep ih => exact ih.step (hstep.mono hAB)

theorem FairRun.mono {B : KVLoadJob → Prop} (hAB : ∀ job, A job → B job) (h : FairRun L A σ) :
    FairRun L B σ where
  init := h.init
  step t := (h.step t).imp_left (Step.mono hAB)
  worker := h.worker
  engine := h.engine

/-- A worker that takes such a job as the first thing stops. -/
theorem exists_stopped {job : KVLoadJob} (hjob : A job) (h : ¬L.Loadable job) :
    ∃ s, Reachable L A s ∧ s.submitted = 1 ∧ s.worker 0 = .stopped ⟨job, 0⟩ := by
  have hstart : L.startJob ⟨job, 0⟩ = .stopped ⟨job, 0⟩ := by
    obtain ⟨job', hstopped⟩ := (startJob_stopped_iff ⟨job, 0⟩).mpr h
    rw [hstopped, startJob_eq_stopped hstopped]
  have hsubmit := (Reachable.init (L := L) (A := A) (fun _ _ => 0) 0 0 fun _ _ => (0, 0)).step
    (.submit job hjob)
  have htake := hsubmit.step (.worker L.worker (.take rfl rfl))
  refine ⟨_, htake, rfl, ?_⟩
  dsimp only
  rw [Function.update_self]
  exact hstart

/-- **When no job is lost**: exactly when no job may be submitted that stops a worker. -/
theorem noJobLost_iff (L : MooncakeKVLoader) (A : KVLoadJob → Prop) :
    NoJobLost L A ↔ ∀ job, A job → L.Loadable job := by
  constructor
  · intro h job hjob
    by_contra hload
    obtain ⟨s, hs, -, hstopped⟩ := exists_stopped hjob hload
    exact h.running s hs 0 _ hstopped
  · intro hA
    refine ⟨fun s hs => (Running.of_run (hs.mono hA)).worker, fun s hs => .of_run hs, ?_⟩
    exact fun σ hσ i => (hσ.mono hA).resolved i

/-- A loader with one worker, room for one page, the first byte for a hash, and a store that raises
at times. -/
def onePageLoader : MooncakeKVLoader where
  numLayers := 1
  kvHeads := 1
  headDim := 1
  maxPromptTokens := 16
  numWorkers := 1
  pos := Nat.one_pos
  worker := Nat.one_pos
  sha256 := fun bytes => bytes.take 1
  batchGetInto := fun ks _ _ r mem mem' =>
    (r = .raised ∨ r = .codes (ks.map fun _ => 32)) ∧ mem' = mem
  returns := fun _ _ _ mem => ⟨.raised, mem, .inl rfl, rfl⟩

def pagePrompt : KVLoadJob := ⟨0, List.replicate 16 1, ⟨0, 16⟩⟩

def pageCompletion : Completion := ⟨⟨pagePrompt, 0, 1, true⟩, 0, 0, fun _ => 0⟩

/-- Loading a prompt of one page, with the worker and the completion in the given places. -/
def loadingPage (jobs : List Job) (x : Worker) (done polled : List Completion)
    (nextEvent : ℕ) : State where
  jobs := jobs
  worker := Function.update (fun _ => .idle) 0 x
  staging := fun _ _ => 0
  done := done
  polled := polled
  released := fun _ => false
  nextEvent := nextEvent
  mgr := .create pageTokens 1 0
  kvPool := fun _ _ => (0, 0)
  submitted := 1
  admitted := []
  rejected := []

def loadedPage (x : Worker) : State :=
  (loadingPage [] x [] [pageCompletion] 1).drain true pageCompletion []
    (onePageLoader.scatter (fun _ => 0) 1
      (install true pageCompletion.done (.create pageTokens 1 0)).blocks fun _ _ => (0, 0))

/-- A run in which the first attempt to fetch the page fails and the second one succeeds. Then it
pauses for ever. -/
def pagePromptRun : ℕ → State
  | 0 => .init (fun _ _ => 0) 1 0 fun _ _ => (0, 0)
  | 1 => loadingPage [⟨pagePrompt, 0⟩] .idle [] [] 0
  | 2 => loadingPage [] (.fetching ⟨pagePrompt, 0⟩ ["01_0_k", "01_0_v"] 0) [] [] 0
  | 3 => loadingPage [] (.fetching ⟨pagePrompt, 0⟩ ["01_0_k", "01_0_v"] 1) [] [] 0
  | 4 => loadingPage [] (.reporting ⟨pagePrompt, 0⟩ true) [] [] 0
  | 5 => loadingPage [] (.waiting 0) [pageCompletion] [] 1
  | 6 => loadingPage [] (.waiting 0) [] [pageCompletion] 1
  | 7 => loadedPage (.waiting 0)
  | _ + 8 => loadedPage .idle

theorem fetch_pagePrompt {attempt : ℕ} {r : Fetched}
    (hr : r = .raised ∨ r = .codes [32, 32]) :
    WorkerStep onePageLoader 0
      (loadingPage [] (.fetching ⟨pagePrompt, 0⟩ ["01_0_k", "01_0_v"] attempt) [] [] 0)
      (loadingPage [] (onePageLoader.afterFetch ⟨pagePrompt, 0⟩ ["01_0_k", "01_0_v"] attempt r)
        [] [] 0) := by
  have hstep := @WorkerStep.fetch onePageLoader 0
    (loadingPage [] (.fetching ⟨pagePrompt, 0⟩ ["01_0_k", "01_0_v"] attempt) [] [] 0) _ _ _ r
    (fun _ => 0) rfl ⟨hr, rfl⟩
  have hmem : Function.update (fun _ _ : ℕ => (0 : UInt8)) 0 (fun _ => 0) = fun _ _ => 0 :=
    Function.update_eq_self 0 _
  simp only [loadingPage, Function.update_idem, hmem] at hstep
  exact hstep

theorem pagePromptRun_step (t : ℕ) :
    Step onePageLoader onePageLoader.Loadable (pagePromptRun t) (pagePromptRun (t + 1)) ∨
      pagePromptRun (t + 1) = pagePromptRun t := by
  have hworker : 0 < onePageLoader.numWorkers := Nat.one_pos
  match t with
  | 0 =>
    have hstep := @Step.submit onePageLoader onePageLoader.Loadable (pagePromptRun 0) pagePrompt
      ⟨by decide, by decide⟩
    have hidle : Function.update (fun _ : ℕ => Worker.idle) 0 .idle = fun _ => .idle :=
      Function.update_eq_self 0 _
    left
    simp only [pagePromptRun, loadingPage, hidle]
    exact hstep
  | 1 =>
    have hstep := @WorkerStep.take onePageLoader 0 (pagePromptRun 1) ⟨pagePrompt, 0⟩ [] rfl rfl
    simp only [pagePromptRun, loadingPage, Function.update_idem] at hstep
    exact .inl (.worker hworker hstep)
  | 2 => exact .inl (.worker hworker (fetch_pagePrompt (.inl rfl)))
  | 3 => exact .inl (.worker hworker (fetch_pagePrompt (.inr rfl)))
  | 4 =>
    have hstep := @WorkerStep.report onePageLoader 0 (pagePromptRun 4) ⟨pagePrompt, 0⟩ true rfl
    simp only [pagePromptRun, loadingPage, Function.update_idem] at hstep
    exact .inl (.worker hworker hstep)
  | 5 => exact .inl (.engine (.poll rfl (List.cons_ne_nil _ _)))
  | 6 =>
    exact .inl (.engine (@EngineStep.install onePageLoader (pagePromptRun 6) true pageCompletion
      [] _ rfl fun _ => rfl))
  | 7 =>
    have hstep := @WorkerStep.resume onePageLoader 0 (pagePromptRun 7) 0 rfl rfl
    simp only [pagePromptRun, loadedPage, loadingPage, State.drain, Function.update_idem] at hstep
    exact .inl (.worker hworker hstep)
  | t + 8 => exact .inr rfl

theorem pagePromptRun_fair :
    FairRun onePageLoader onePageLoader.Loadable pagePromptRun where
  init := ⟨_, _, _, _, rfl⟩
  step := pagePromptRun_step
  worker w hw t := by
    obtain rfl : w = 0 := Nat.lt_one_iff.mp hw
    refine ⟨t + 8, Nat.le_add_right t 8, .inr ?_⟩
    rintro ⟨s', hstep⟩
    have hidle : (pagePromptRun (t + 8)).worker 0 = .idle := rfl
    obtain ⟨job, hjobs, -⟩ := hstep.of_idle hidle
    exact List.cons_ne_nil _ _ hjobs.symm
  engine t := by
    refine ⟨t + 8, Nat.le_add_right t 8, .inr ?_⟩
    rintro ⟨s', hstep⟩
    have hdone : (pagePromptRun (t + 8)).done = [] := rfl
    have hpolled : (pagePromptRun (t + 8)).polled = [] := rfl
    cases hstep with
    | poll _ hdone' => exact hdone' hdone
    | install hpolled' _ => exact List.cons_ne_nil _ _ (hpolled'.symm.trans hpolled)

theorem pagePrompt_resolved : ∃ t, (pagePromptRun t).Resolved 0 := by
  have hlost := (noJobLost_iff onePageLoader onePageLoader.Loadable).mpr fun _ hjob => hjob
  obtain ⟨t, -, ht⟩ := hlost.resolved pagePromptRun pagePromptRun_fair 0 1 Nat.one_pos
  exact ⟨t, ht⟩

/-- A prompt of two pages, or a negative id, ends the only worker. -/
theorem onePageLoader_stops :
    (∃ s, Reachable onePageLoader (fun _ => True) s ∧ s.submitted = 1 ∧
      s.worker 0 = .stopped ⟨⟨0, List.replicate 32 1, ⟨0, 32⟩⟩, 0⟩) ∧
    ∃ s, Reachable onePageLoader (fun _ => True) s ∧ s.submitted = 1 ∧
      s.worker 0 = .stopped ⟨⟨0, List.replicate 16 (-1), ⟨0, 16⟩⟩, 0⟩ := by
  constructor
  · exact exists_stopped trivial fun h => absurd h.1 (by decide)
  · exact exists_stopped trivial fun h => absurd h.2 (by decide)

end KvLoader

end StreamEP

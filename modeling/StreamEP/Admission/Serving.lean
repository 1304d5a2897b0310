import StreamEP.Admission.Accounting
import Mathlib.Data.Fintype.EquivFin

/-!
# Requests between admission and deletion

The scheduler admits a request to an engine, the engine works on it and finishes it, and only then
does the controller delete it from the scheduler. So the requests that an engine works on at any
time are among those the scheduler counts, and what they reserve is at most what the engine has.

What the engines do is a parameter here: `call running e e' ids` is a call on the engines while the
requests `running` are admitted and unfinished, and it finishes the requests `ids`.

## Why a parameter

Admission is asked the same question three times: are there enough blocks, enough rows of the
stash, and room in a page table. The answers need different states of the engine and the same
interleavings of controller, scheduler and engines. Each later module gives its own `call` and
proves what one call keeps.
-/

namespace StreamEP

open Relation

namespace Serving

structure State (E : Type) where
  run : SchedulerRun.State
  engines : E
  /-- The requests that an engine has finished and the controller has not deleted. -/
  finished : List ℕ

variable {E : Type}

def State.init (policy : Policy) (bs : ℕ) (cap : List ℕ) (e : E) : State E where
  run := .init policy bs cap
  engines := e
  finished := []

/-- The requests that are admitted and not finished, with their ranks. -/
def State.running (s : State E) : List (RequestItem × ℤ) :=
  s.run.live.filter fun x => x.1.reqId ∉ s.finished

inductive Step (call : List (RequestItem × ℤ) → E → E → List ℕ → Prop) : State E → State E → Prop
  /-- `put_request`, with an id no request in the system has. -/
  | put {s : State E} {item : RequestItem} (houtput : 1 ≤ item.outputLen)
      (hnew : item.reqId ∉ s.run.ids) :
      Step call s { s with run := { s.run with
        waitingQueue := s.run.waitingQueue ++ [item]
        puts := s.run.puts ++ [item] } }
  /-- A step of the waiting loop, or `terminate`. -/
  | schedule {s : State E} {run : SchedulerRun.State} (hstep : SchedulerRun.Step s.run run)
      (hputs : run.puts = s.run.puts) (hlive : s.run.live <+: run.live) :
      Step call s { s with run := run }
  /-- `del_seq` of a request that its engine has finished. -/
  | delSeq {s : State E} {x : RequestItem × ℤ} {before after : List (RequestItem × ℤ)}
      {sched : DPScheduler} (hlive : s.run.live = before ++ x :: after)
      (hfinished : x.1.reqId ∈ s.finished) (hdel : s.run.sched.delSeq x.1.reqId = some sched) :
      Step call s { s with
        run := { s.run with sched := sched, schEvent := true, live := before ++ after }
        finished := s.finished.filter (· ≠ x.1.reqId) }
  /-- A call on an engine. -/
  | call {s : State E} {e : E} {ids : List ℕ} (h : call s.running s.engines e ids)
      (hids : ∀ r ∈ ids, r ∈ s.running.map (·.1.reqId)) :
      Step call s { s with engines := e, finished := s.finished ++ ids }

/-! ### The invariant -/

variable {policy : Policy} {bs : ℕ} {cap : List ℕ} {s s' : State E}
  {call : List (RequestItem × ℤ) → E → E → List ℕ → Prop}

/-- What holds between calls on the engines. -/
structure Inv (policy : Policy) (bs : ℕ) (cap : List ℕ) (s : State E) : Prop where
  run : SchedulerRun.Inv policy bs cap s.run
  finished : ∀ r ∈ s.finished, r ∈ s.run.live.map (·.1.reqId)
  /-- Every request in the system has an output. -/
  outputLen : ∀ item ∈ s.run.live.map (·.1) ++ (s.run.phase.inHand ++ s.run.waitingQueue),
    1 ≤ item.outputLen

theorem inv_init (policy : Policy) (bs : ℕ) (cap : List ℕ) (e : E) :
    Inv policy bs cap (State.init policy bs cap e) where
  run := SchedulerRun.inv_init policy bs cap
  finished r hr := by cases hr
  outputLen item hitem := by cases hitem

theorem Inv.nodup_live (hs : Inv policy bs cap s) : (s.run.live.map (·.1.reqId)).Nodup :=
  (List.nodup_append.1 hs.run.ids).1

theorem Inv.nodup_running (hs : Inv policy bs cap s) : (s.running.map (·.1.reqId)).Nodup :=
  hs.nodup_live.sublist (List.filter_sublist.map _)

theorem State.mem_running {x : RequestItem × ℤ} :
    x ∈ s.running ↔ x ∈ s.run.live ∧ x.1.reqId ∉ s.finished := by
  simp [State.running]

def State.items (s : State E) : List RequestItem :=
  s.run.live.map (·.1) ++ (s.run.phase.inHand ++ s.run.waitingQueue)

theorem mem_items_put {item x : RequestItem} :
    x ∈ ({ s with run := { s.run with
      waitingQueue := s.run.waitingQueue ++ [item]
      puts := s.run.puts ++ [item] } } : State E).items ↔ x ∈ s.items ∨ x = item := by
  simp [State.items, or_assoc]

theorem items_schedule_subset {run : SchedulerRun.State} (hstep : SchedulerRun.Step s.run run)
    (hputs : run.puts = s.run.puts) (hlive : s.run.live <+: run.live) :
    ({ s with run := run } : State E).items ⊆ s.items := by
  obtain ⟨new, -, hlive', hsub⟩ := hstep.loop_cases hputs hlive
  intro x hx
  have hx' : x ∈ run.live.map (·.1) ++ (run.phase.inHand ++ run.waitingQueue) := hx
  rw [hlive', List.map_append, List.append_assoc] at hx'
  exact (hsub.append_left _).mem hx'

theorem items_delSeq_subset {x : RequestItem × ℤ} {before after : List (RequestItem × ℤ)}
    {sched : DPScheduler} {finished : List ℕ} (hlive : s.run.live = before ++ x :: after) :
    ({ s with
      run := { s.run with sched := sched, schEvent := true, live := before ++ after }
      finished := finished } : State E).items ⊆ s.items := by
  have hsub : (before ++ after).Sublist s.run.live := by
    rw [hlive]
    exact List.Sublist.append_left (List.sublist_cons_self x after) before
  exact fun y hy => ((hsub.map _).append_right _).mem hy

theorem Inv.put (hs : Inv policy bs cap s) {item : RequestItem} (houtput : 1 ≤ item.outputLen)
    (hnew : item.reqId ∉ s.run.ids) :
    Inv policy bs cap { s with run := { s.run with
      waitingQueue := s.run.waitingQueue ++ [item]
      puts := s.run.puts ++ [item] } } where
  run := hs.run.put hnew
  finished := hs.finished
  outputLen x hx := by
    rcases mem_items_put.1 hx with hx' | rfl
    · exact hs.outputLen x hx'
    · exact houtput

theorem Inv.schedule (hs : Inv policy bs cap s) {run : SchedulerRun.State}
    (hstep : SchedulerRun.Step s.run run) (hputs : run.puts = s.run.puts)
    (hlive : s.run.live <+: run.live) : Inv policy bs cap { s with run := run } := by
  refine ⟨hs.run.step hstep, fun r hr => ?_, fun x hx => hs.outputLen x ?_⟩
  · exact (hlive.sublist.map _).mem (hs.finished r hr)
  · exact items_schedule_subset hstep hputs hlive hx

theorem Inv.delSeq (hs : Inv policy bs cap s) {x : RequestItem × ℤ}
    {before after : List (RequestItem × ℤ)} {sched : DPScheduler}
    (hlive : s.run.live = before ++ x :: after)
    (hdel : s.run.sched.delSeq x.1.reqId = some sched) :
    Inv policy bs cap { s with
      run := { s.run with sched := sched, schEvent := true, live := before ++ after }
      finished := s.finished.filter (· ≠ x.1.reqId) } := by
  refine ⟨hs.run.delSeq hlive hdel, fun r hr => ?_, fun y hy => hs.outputLen y ?_⟩
  · obtain ⟨hr, hne⟩ := List.mem_filter.1 hr
    have hmem := hs.finished r hr
    rw [hlive] at hmem
    show r ∈ (before ++ after).map (·.1.reqId)
    simp only [List.map_append, List.map_cons, List.mem_append, List.mem_cons,
      decide_eq_true_eq] at hmem hne ⊢
    tauto
  · exact items_delSeq_subset hlive hy

theorem items_subset_puts {e : E} {call : List (RequestItem × ℤ) → E → E → List ℕ → Prop}
    (hrun : ReflTransGen (Step call) (State.init policy bs cap e) s) : s.items ⊆ s.run.puts := by
  induction hrun with
  | refl => exact List.nil_subset _
  | tail _ hstep ih =>
    cases hstep with
    | put houtput hnew =>
      intro x hx
      rcases mem_items_put.1 hx with hx' | rfl
      · exact List.mem_append_left _ (ih hx')
      · exact List.mem_append_right _ (List.mem_singleton_self x)
    | schedule hstep hputs hlive =>
      intro x hx
      have hput := ih (items_schedule_subset hstep hputs hlive hx)
      rwa [← hputs] at hput
    | delSeq hlive hfinished hdel => exact fun x hx => ih (items_delSeq_subset hlive hx)
    | call h hids => exact ih

theorem mem_puts {e : E} {call : List (RequestItem × ℤ) → E → E → List ℕ → Prop}
    (hrun : ReflTransGen (Step call) (State.init policy bs cap e) s) {x : RequestItem × ℤ}
    (hx : x ∈ s.running) : x.1 ∈ s.run.puts :=
  items_subset_puts hrun
    (List.mem_append_left _ (List.mem_map_of_mem (State.mem_running.1 hx).1))

theorem Inv.running_delSeq (hs : Inv policy bs cap s) {x : RequestItem × ℤ}
    {before after : List (RequestItem × ℤ)} (hlive : s.run.live = before ++ x :: after)
    (hfinished : x.1.reqId ∈ s.finished) :
    s.running =
      (before ++ after).filter fun y => y.1.reqId ∉ s.finished.filter (· ≠ x.1.reqId) := by
  have hids := hs.nodup_live
  rw [hlive, List.map_append, List.map_cons, List.nodup_middle, List.nodup_cons,
    ← List.map_append] at hids
  rw [State.running, hlive, List.filter_append, List.filter_cons_of_neg (by simpa using hfinished),
    ← List.filter_append]
  refine List.filter_congr fun y hy => ?_
  have hne : y.1.reqId ≠ x.1.reqId := fun heq => hids.1 (heq ▸ List.mem_map_of_mem hy)
  simp [hne]

theorem running_call {ids : List ℕ} {e : E} :
    ({ s with engines := e, finished := s.finished ++ ids } : State E).running =
      s.running.filter fun x => x.1.reqId ∉ ids := by
  rw [State.running, State.running, List.filter_filter]
  refine List.filter_congr fun x _ => ?_
  simp [Bool.and_comm, not_or]

/-- **Every step** keeps the invariant, and it is a call on the engines or leaves them alone and
stops no request. -/
theorem Inv.step (hs : Inv policy bs cap s) (hstep : Step call s s') :
    Inv policy bs cap s' ∧
      ((s'.engines = s.engines ∧ s.running ⊆ s'.running) ∨
        ∃ ids, call s.running s.engines s'.engines ids ∧
          s'.running = s.running.filter fun x => x.1.reqId ∉ ids) := by
  cases hstep with
  | put houtput hnew => exact ⟨hs.put houtput hnew, .inl ⟨rfl, fun x hx => hx⟩⟩
  | schedule hstep hputs hlive =>
    refine ⟨hs.schedule hstep hputs hlive, .inl ⟨rfl, fun x hx => ?_⟩⟩
    obtain ⟨hx, hopen⟩ := State.mem_running.1 hx
    exact State.mem_running.2 ⟨hlive.sublist.mem hx, hopen⟩
  | delSeq hlive hfinished hdel =>
    refine ⟨hs.delSeq hlive hdel, .inl ⟨rfl, fun x hx => ?_⟩⟩
    rwa [hs.running_delSeq hlive hfinished] at hx
  | call h hids =>
    refine ⟨⟨hs.run, fun r hr => ?_, hs.outputLen⟩, .inr ⟨_, h, running_call⟩⟩
    rcases List.mem_append.1 hr with hr | hr
    · exact hs.finished r hr
    · exact (List.filter_sublist.map _).mem (hids r hr)

theorem Inv.of_steps {e : E} (hrun : ReflTransGen (Step call) (State.init policy bs cap e) s) :
    Inv policy bs cap s := by
  induction hrun with
  | refl => exact inv_init policy bs cap e
  | tail _ hstep ih => exact (ih.step hstep).1

/-- **Invariants of the engines.** A property of the engines and of the requests they may work on
holds in every run when it holds of new engines, more requests do not break it, and calls keep
it. -/
theorem invariant {P : List (RequestItem × ℤ) → E → Prop} {e : E} (hinit : P [] e)
    (hmono : ∀ l l' e, l ⊆ l' → P l e → P l' e)
    (hcall : ∀ l e e' ids, (l.map (·.1.reqId)).Nodup → P l e → call l e e' ids →
      P (l.filter fun x => x.1.reqId ∉ ids) e')
    (hrun : ReflTransGen (Step call) (State.init policy bs cap e) s) :
    Inv policy bs cap s ∧ P s.running s.engines := by
  refine ⟨Inv.of_steps hrun, ?_⟩
  induction hrun with
  | refl => exact hinit
  | tail hbefore hstep ih =>
    have hs := Inv.of_steps hbefore
    obtain ⟨-, ⟨hengines, hsub⟩ | ⟨ids, h, hrunning⟩⟩ := hs.step hstep
    · exact hengines ▸ hmono _ _ _ hsub ih
    · exact hrunning ▸ hcall _ _ _ ids hs.nodup_running ih h

/-! ### Capacity -/

theorem load_le_of_sublist {l l' : List (RequestItem × ℤ)} (h : l.Sublist l') (bs rank : ℕ) :
    SchedulerRun.load bs l rank ≤ SchedulerRun.load bs l' rank :=
  ((h.filter _).map _).sum_le_sum fun _ _ => Nat.zero_le _

/-- **What the running requests of a rank reserve is at most what the rank has.** -/
theorem Inv.load_running_le (hs : Inv policy bs cap s) (hpolicy : policy.CapacityAware cap.length)
    {rank c : ℕ} (hc : cap[rank]? = some c) : SchedulerRun.load bs s.running rank ≤ c := by
  obtain ⟨v, hv, hsum⟩ := hs.run.stats rank c hc
  have hpos := hs.run.nonneg hpolicy v (List.mem_of_getElem? hv)
  have hle := load_le_of_sublist (l := s.running) List.filter_sublist bs rank
  omega

/-! ### Exhausting the capacity -/

/-- A request without a prompt that makes one token. -/
def unitItem (reqId : ℕ) : RequestItem := ⟨reqId, 1, 0, 1⟩

theorem required_unitItem (hbs : 0 < bs) (reqId : ℕ) : (unitItem reqId).required bs = 1 := by
  have hzero : (bs - 1) / bs = 0 := Nat.div_eq_of_lt (by omega)
  simp [RequestItem.required, requiredBlocks, unitItem, hzero, Nat.div_self hbs]

/-- The waiting loop has nothing to do, and only requests of one block are admitted. -/
structure Idle (bs : ℕ) (s : State E) : Prop where
  phase : s.run.phase = .start
  waitingQueue : s.run.waitingQueue = []
  endFlag : s.run.endFlag = false
  finished : s.finished = []
  required : ∀ x ∈ s.run.live, x.1.required bs = 1

def left (stats : List ℤ) : ℕ := (stats.map Int.toNat).sum

theorem left_modify {stats : List ℤ} {i : ℕ} {v : ℤ} (hi : stats[i]? = some v) (hv : 1 ≤ v) :
    left (stats.modify i (· - 1)) < left stats := by
  induction stats generalizing i with
  | nil => simp at hi
  | cons w stats ih =>
    cases i with
    | zero =>
      obtain rfl : w = v := by simpa using hi
      simp only [left, List.modify_zero_cons, List.map_cons, List.sum_cons]
      omega
    | succ i =>
      have hlt := ih (i := i) (by simpa using hi)
      simp only [left, List.modify_succ_cons, List.map_cons, List.sum_cons] at hlt ⊢
      omega

/-- A request that is put while the waiting loop has nothing to do and finds a rank is admitted. -/
theorem reaches_admission {item : RequestItem} {rank : ℕ} (hphase : s.run.phase = .start)
    (hqueue : s.run.waitingQueue = []) (hend : s.run.endFlag = false)
    (houtput : 1 ≤ item.outputLen) (hnew : item.reqId ∉ s.run.ids)
    (hrank : (s.run.sched.scheduleOne item.prefillLen item.outputLen).1 = rank) :
    ReflTransGen (Step call) s { s with run := { s.run with
      sched := (s.run.sched.scheduleOne item.prefillLen item.outputLen).2.addSeq item.reqId
        item.prefillLen item.outputLen rank
      puts := s.run.puts ++ [item]
      submitted := s.run.submitted ++ [(item, (rank : ℤ))]
      live := s.run.live ++ [(item, (rank : ℤ))] } } := by
  obtain ⟨⟨sched, queue, event, endFlag, phase, puts, submitted, live⟩, engines, finished⟩ := s
  dsimp only at hphase hqueue hend hrank
  subst hphase hqueue hend
  have hattempt := @SchedulerRun.State.attempt_of_eq
    ⟨sched, [], event, false, .cancelling item, puts ++ [item], submitted, live⟩ item rank hrank
  have hresume := @SchedulerRun.Step.resume
    ⟨sched, [], event, false, .cancelling item, puts ++ [item], submitted, live⟩ item rfl
  rw [hattempt] at hresume
  have hrun := ReflTransGen.single (@Step.put _ call _ item houtput hnew)
  replace hrun := hrun.tail (.schedule (.begin rfl) rfl List.prefix_rfl)
  replace hrun := hrun.tail (.schedule (.get rfl rfl) rfl List.prefix_rfl)
  replace hrun := hrun.tail (.schedule (.check rfl rfl) rfl List.prefix_rfl)
  exact hrun.tail (.schedule hresume rfl (List.prefix_append _ _))

theorem Inv.exists_admission (hs : Inv policy bs cap s) (hbs : 0 < bs)
    (hpolicy : policy.CapacityAware cap.length) (hidle : Idle bs s) {v : ℤ}
    (hv : v ∈ s.run.sched.kvCacheStats) (hpos : 1 ≤ v) :
    ∃ s', ReflTransGen (Step call) s s' ∧ Idle bs s' ∧ s'.engines = s.engines ∧
      left s'.run.sched.kvCacheStats < left s.run.sched.kvCacheStats := by
  obtain ⟨r, hr⟩ := Infinite.exists_notMem_finset s.run.ids.toFinset
  rw [List.mem_toFinset] at hr
  have hone := required_unitItem hbs r
  have hreq : requiredBlocks s.run.sched.blockSize 0 1 = 1 := by rw [hs.run.blockSize]; exact hone
  -- the policy finds a rank for the request
  obtain ⟨i, w, hrank, hw, hle⟩ : ∃ (i : ℕ) (w : ℤ), (s.run.sched.scheduleOne 0 1).1 = i ∧
      s.run.sched.kvCacheStats[i]? = some w ∧ 1 ≤ w := by
    rcases s.run.sched.scheduleOne_spec 0 1 (by rw [hs.run.policy_eq, hs.run.dpSize]; exact hpolicy)
      (hs.run.length.trans hs.run.dpSize.symm) (by rw [hs.run.dpSize]; exact hs.run.curRank) with
      ⟨-, hall⟩ | ⟨i, w, hrank, hw, hle⟩
    · rw [hreq] at hall
      exact absurd (hall Nat.one_pos v hv) (not_lt.2 (by exact_mod_cast hpos))
    · rw [hreq] at hle
      exact ⟨i, w, hrank, hw, by exact_mod_cast hle⟩
  obtain ⟨cur, hframe, -⟩ := s.run.sched.scheduleOne_frame 0 1
    (by rw [hs.run.dpSize]; exact hs.run.curRank)
  refine ⟨_, @reaches_admission _ _ call (unitItem r) i hidle.phase hidle.waitingQueue
    hidle.endFlag (le_refl 1) hr hrank,
    ⟨hidle.phase, hidle.waitingQueue, hidle.endFlag, hidle.finished, fun x hx => ?_⟩, rfl, ?_⟩
  · rcases List.mem_append.1 hx with hx | hx
    · exact hidle.required x hx
    · rw [List.mem_singleton.1 hx]
      exact hone
  · show left (DPScheduler.addSeq (s.run.sched.scheduleOne 0 1).2 r 0 1 i).kvCacheStats < _
    rw [hframe]
    simp only [DPScheduler.addSeq, hreq]
    exact left_modify hw hle

/-- **Small requests can use up every rank**, whatever the capacity-aware policy. -/
theorem exists_exhausted (hbs : 0 < bs) (hpolicy : policy.CapacityAware cap.length) (e : E) :
    ∃ s, ReflTransGen (Step call) (State.init policy bs cap e) s ∧ Idle bs s ∧ s.engines = e ∧
      ∀ v ∈ s.run.sched.kvCacheStats, v = 0 := by
  -- by induction on what is left
  suffices h : ∀ n s, left s.run.sched.kvCacheStats = n →
      ReflTransGen (Step call) (State.init policy bs cap e) s → Idle bs s → s.engines = e →
      ∃ s, ReflTransGen (Step call) (State.init policy bs cap e) s ∧ Idle bs s ∧ s.engines = e ∧
        ∀ v ∈ s.run.sched.kvCacheStats, v = 0 from
    h _ _ rfl .refl ⟨rfl, rfl, rfl, rfl, fun x hx => by cases hx⟩ rfl
  intro n
  induction n using Nat.strong_induction_on with
  | h n ih =>
    rintro s rfl hrun hidle hengines
    have hs := Inv.of_steps hrun
    by_cases hall : ∀ v ∈ s.run.sched.kvCacheStats, v = 0
    · exact ⟨s, hrun, hidle, hengines, hall⟩
    · push Not at hall
      obtain ⟨v, hv, hne⟩ := hall
      have hnonneg := hs.run.nonneg hpolicy v hv
      obtain ⟨s', hstep, hidle', hengines', hlt⟩ :=
        @Inv.exists_admission _ _ _ _ _ call hs hbs hpolicy hidle v hv (by omega)
      exact ih _ hlt s' rfl (hrun.trans hstep) hidle' (hengines'.trans hengines)

/-- When a rank is used up by requests of one block, it runs as many as it has blocks. -/
theorem Inv.length_running (hs : Inv policy bs cap s) (hidle : Idle bs s)
    (hzero : ∀ v ∈ s.run.sched.kvCacheStats, v = 0) {rank c : ℕ} (hc : cap[rank]? = some c) :
    (s.running.filter fun x => x.2 = (rank : ℤ)).length = c := by
  obtain ⟨v, hv, hsum⟩ := hs.run.stats rank c hc
  rw [hzero v (List.mem_of_getElem? hv), zero_add] at hsum
  have hrunning : s.running = s.run.live := by
    rw [State.running, hidle.finished]
    exact List.filter_eq_self.2 fun x _ => by simp
  have hload : SchedulerRun.load bs s.run.live rank =
      (s.run.live.filter fun x => x.2 = (rank : ℤ)).length := by
    rw [SchedulerRun.load, List.map_congr_left
      fun x hx => hidle.required x (List.mem_of_mem_filter hx)]
    simp
  rw [hrunning, ← hload]
  exact_mod_cast hsum

end Serving

end StreamEP

import StreamEP.Admission.Accounting

/-!
# Stopping the waiting loop

`terminate` sets `end_flag` and `end_event` and awaits the task of `waiting_loop`. The loop looks
at the two where it starts a round and where `asyncio.wait` returns. Between that and the
submission of the request it has taken there are two more `await`s, of the cancelled task and of
`sch_event`, and neither is followed by another look.

## Main results

* `SchedulerRun.not_committed_of_run` — a loop that holds no request stays so once it is to end
* `SchedulerRun.terminate_prompt_iff` — when `terminate` is prompt
-/

namespace StreamEP

namespace SchedulerRun

open Relation

/-- The loop has taken a request, and will try to schedule it without looking at `end_event`. -/
def Phase.Committed : Phase → Prop
  | .cancelling _ => True
  | .blocked _ => True
  | _ => False

/-- What is expected once `terminate` has set the flags: the loop does not wait for `sch_event`, no
step submits a request or records one with `add_seq`, and the loop has ended or can end with its
next step. -/
structure Prompt (s : State) : Prop where
  notBlocked : ∀ item, s.phase ≠ .blocked item
  submitted : ∀ s', Step s s' → s'.submitted = s.submitted
  recorded : ∀ s', Step s s' → ∀ id ∈ s'.sched.seqRanks, id ∈ s.sched.seqRanks
  ends : s.phase = .ended ∨ ∃ s', Step s s' ∧ s'.phase = .ended

variable {s : State}

theorem Step.cases_attempt {s' : State} (h : Step s s') :
    s.phase.Committed ∨ s'.submitted = s.submitted ∧
      ∀ id ∈ s'.sched.seqRanks, id ∈ s.sched.seqRanks := by
  cases h with
  | resume hphase => exact .inl (by rw [hphase]; trivial)
  | retry hphase => exact .inl (by rw [hphase]; trivial)
  | delSeq hlive hdel =>
    refine .inr ⟨rfl, fun id hid => ?_⟩
    rw [DPScheduler.delSeq] at hdel
    obtain ⟨rank, -, hdel⟩ := Option.bind_eq_some_iff.mp hdel
    obtain ⟨lens, -, hdel⟩ := Option.bind_eq_some_iff.mp hdel
    obtain rfl := Option.some.inj hdel
    exact (AList.mem_erase.mp hid).2
  | _ => exact .inr ⟨rfl, fun _ h => h⟩

theorem Step.not_committed {s' : State} (h : Step s s') (hend : s.endFlag = true)
    (hphase : ¬ s.phase.Committed) : s'.endFlag = true ∧ ¬ s'.phase.Committed := by
  cases h with
  | put => exact ⟨hend, hphase⟩
  | begin => exact ⟨hend, by simp [hend, Phase.Committed]⟩
  | get => exact ⟨hend, by simp [Phase.Committed]⟩
  | check _ hflag => simp [hend] at hflag
  | resume hp => exact absurd (by rw [hp]; trivial) hphase
  | leave => exact ⟨hend, by simp [Phase.Committed]⟩
  | retry hp => exact absurd (by rw [hp]; trivial) hphase
  | delSeq => exact ⟨hend, hphase⟩
  | terminate => exact ⟨rfl, hphase⟩

theorem not_committed_of_run {s' : State} (h : ReflTransGen Step s s') (hend : s.endFlag = true)
    (hphase : ¬ s.phase.Committed) : s'.endFlag = true ∧ ¬ s'.phase.Committed := by
  induction h with
  | refl => exact ⟨hend, hphase⟩
  | tail _ hstep ih => exact hstep.not_committed ih.1 ih.2

theorem prompt_of_not_committed (hend : s.endFlag = true) (hphase : ¬ s.phase.Committed) :
    Prompt s where
  notBlocked item hp := hphase (by rw [hp]; trivial)
  submitted s' h := (h.cases_attempt.resolve_left hphase).1
  recorded s' h := (h.cases_attempt.resolve_left hphase).2
  ends := by
    cases hp : s.phase with
    | start => exact .inr ⟨_, .begin hp, by simp [hend]⟩
    | waiting => exact .inr ⟨_, .leave (.inl hp) hend, rfl⟩
    | got item => exact .inr ⟨_, .leave (.inr ⟨item, hp⟩) hend, rfl⟩
    | cancelling item => exact absurd (by rw [hp]; trivial) hphase
    | blocked item => exact absurd (by rw [hp]; trivial) hphase
    | ended => exact .inl rfl

/-- A request that was taken is scheduled and submitted, or waits for `sch_event`. -/
theorem attempt_cases (s : State) (item : RequestItem) :
    (s.attempt item).phase = .blocked item ∨ (s.attempt item).submitted ≠ s.submitted := by
  rcases lt_or_ge (s.sched.scheduleOne item.prefillLen item.outputLen).1 0 with h | h
  · rw [State.attempt_of_neg h]
    exact .inl rfl
  · obtain ⟨rank, hrank⟩ := Int.eq_ofNat_of_zero_le h
    rw [State.attempt_of_eq hrank]
    exact .inr (by simp)

/-- **When `terminate` is prompt**: whatever happens after it, exactly when it is called while the
loop has not taken a request. -/
theorem terminate_prompt_iff (s : State) :
    (∀ s', ReflTransGen Step { s with endFlag := true } s' → Prompt s') ↔
      ∀ item, s.phase ≠ .cancelling item ∧ s.phase ≠ .blocked item := by
  constructor
  · intro hprompt item
    have hnow := hprompt _ .refl
    refine ⟨fun hphase => ?_, hnow.notBlocked item⟩
    -- the step that was waited for
    have hstep := @Step.resume { s with endFlag := true } item hphase
    rcases attempt_cases { s with endFlag := true } item with hblocked | hsubmitted
    · exact (hprompt _ (.single hstep)).notBlocked item hblocked
    · exact hsubmitted (hnow.submitted _ hstep)
  · intro hphase s' hrun
    have hnot : ¬ s.phase.Committed := by
      cases hp : s.phase with
      | cancelling item => exact absurd hp (hphase item).1
      | blocked item => exact absurd hp (hphase item).2
      | _ => exact id
    obtain ⟨hend', hphase'⟩ := not_committed_of_run hrun rfl hnot
    exact prompt_of_not_committed hend' hphase'

/-! ### A request that does not fit -/

/-- Nothing wakes up a loop that waits for `sch_event` when no request is live. -/
theorem blocked_of_run {s' : State} (h : ReflTransGen Step s s') {item : RequestItem}
    (hphase : s.phase = .blocked item) (hevent : s.schEvent = false) (hlive : s.live = []) :
    s'.phase = .blocked item := by
  have hstuck : s'.phase = .blocked item ∧ s'.schEvent = false ∧ s'.live = [] := by
    induction h with
    | refl => exact ⟨hphase, hevent, hlive⟩
    | tail _ hstep ih =>
      obtain ⟨hp, he, hl⟩ := ih
      cases hstep with
      | put => exact ⟨hp, he, hl⟩
      | terminate => exact ⟨hp, he, hl⟩
      | delSeq hlive' => simp [hl] at hlive'
      | _ => simp_all
  exact hstuck.1

/-- One rank with one block. A request for two blocks is waiting when `terminate` is called: the
loop never ends. A request for one block whose turn it is when `terminate` is called is submitted
after it. -/
theorem terminate_not_prompt :
    (∃ s item, ReflTransGen Step (State.init .max 1 [1]) s ∧ s.endFlag = true ∧
      ∀ s', ReflTransGen Step s s' → s'.phase = .blocked item) ∧
    ∃ s s', ReflTransGen Step (State.init .max 1 [1]) s ∧ s.endFlag = true ∧ Step s s' ∧
      s.submitted = [] ∧ s'.submitted = [(⟨4, 1, 0, 1⟩, 0)] := by
  constructor
  · have hrun : ReflTransGen Step (State.init .max 1 [1]) _ := .refl
    replace hrun := hrun.tail (@Step.put _ ⟨4, 2, 0, 2⟩ (by decide))
    replace hrun := hrun.tail (Step.begin rfl)
    replace hrun := hrun.tail (Step.get rfl rfl)
    replace hrun := hrun.tail (Step.check rfl rfl)
    replace hrun := hrun.tail (Step.resume rfl)
    replace hrun := hrun.tail Step.terminate
    exact ⟨_, ⟨4, 2, 0, 2⟩, hrun, rfl, fun s' h => blocked_of_run h rfl rfl rfl⟩
  · have hrun : ReflTransGen Step (State.init .max 1 [1]) _ := .refl
    replace hrun := hrun.tail (@Step.put _ ⟨4, 1, 0, 1⟩ (by decide))
    replace hrun := hrun.tail (Step.begin rfl)
    replace hrun := hrun.tail (Step.get rfl rfl)
    replace hrun := hrun.tail (Step.check rfl rfl)
    replace hrun := hrun.tail Step.terminate
    exact ⟨_, _, hrun, rfl, Step.resume rfl, rfl, rfl⟩

end SchedulerRun

end StreamEP

import StreamEP.Completion.Controller

/-!
# Every request completes exactly once

For any number of engines and any interleaving of results, fetches and tasks, the statistic of a
finished request is returned by one fetch, and that of another request by none. The request is
then removed from `in_flight_reqs`, deleted from the scheduler, delivered and popped once, and
nothing raises.

The invariant has four parts, each about what one kind of step moves. `Ids` is about the ids of
requests on their way through the scheduler, `Wires` about entries on their way to the
detokenizer, `Detokenizer.Inv` about the detokenizer, and `Tasks` about statistics on their way
through the tasks. Where something moves between places, the invariant is a permutation: what came
out of one place is what is in the next places together.

## Main results

* `Completion.Inv.step`, `Completion.Inv.of_run`
* `Completion.exactlyOnce_of_run`
-/

namespace StreamEP

/-! ### Entries of a request -/

namespace BatchDecodeResult

variable {b b' : BatchDecodeResult} {r : ℕ}

theorem mem_entriesOf {e : DecodeEntry} : e ∈ b.entriesOf r ↔ e ∈ b ∧ e.reqId = r := by
  simp [entriesOf]

@[simp] theorem entriesOf_append : (b ++ b').entriesOf r = b.entriesOf r ++ b'.entriesOf r :=
  List.filter_append _ _

theorem entriesOf_eq_nil : b.entriesOf r = [] ↔ ∀ e ∈ b, e.reqId ≠ r := by
  simp [entriesOf]

theorem mem_finished : r ∈ b.finished ↔ ∃ e ∈ b.entriesOf r, e.isEos = true := by
  simp only [finished, List.mem_map, List.mem_filter, mem_entriesOf]
  constructor
  · rintro ⟨e, ⟨he, heos⟩, rfl⟩
    exact ⟨e, ⟨he, rfl⟩, heos⟩
  · rintro ⟨e, ⟨he, rfl⟩, heos⟩
    exact ⟨e, ⟨he, heos⟩, rfl⟩

@[simp] theorem finished_append : (b ++ b').finished = b.finished ++ b'.finished := by
  simp [finished]

@[simp] theorem tokens_append : (b ++ b').tokens = b.tokens ++ b'.tokens := List.map_append

theorem map_filter_tokens : (b.tokens.filter (·.1 = r)).map (·.2) =
    (b.entriesOf r).map (·.tokenId) := by
  simp only [tokens, entriesOf, List.filter_map, List.map_map]
  rfl

theorem map_fst_tokens : b.tokens.map (·.1) = b.map (·.reqId) := by
  simp only [tokens, List.map_map]
  rfl

/-- A batch with each request once has at most one entry of a request. -/
theorem entriesOf_of_nodup (hnodup : (b.map (·.reqId)).Nodup) :
    b.entriesOf r = [] ∨ ∃ e ∈ b, e.reqId = r ∧ b.entriesOf r = [e] := by
  induction b with
  | nil => exact .inl rfl
  | cons e b ih =>
    rw [List.map_cons, List.nodup_cons] at hnodup
    by_cases he : e.reqId = r
    · have hb : entriesOf b r = [] := by
        rw [entriesOf_eq_nil]
        intro e' he' heq
        exact hnodup.1 (he.trans heq.symm ▸ List.mem_map_of_mem he')
      refine .inr ⟨e, by simp, he, ?_⟩
      rw [entriesOf, List.filter_cons_of_pos (by simpa using he)]
      exact congrArg _ hb
    · have hcons : entriesOf (e :: b) r = entriesOf b r :=
        List.filter_cons_of_neg (by simpa using he)
      rw [hcons]
      exact (ih hnodup.2).imp_right fun ⟨e', he', h⟩ => ⟨e', by simp [he'], h⟩

end BatchDecodeResult

namespace Completion

/-! ### Entries on the wires -/

/-- Entries between the engines and the detokenizer, where `owns` says which engine a request was
submitted to. -/
structure Wires (owns : ℕ → ℕ → Prop) (wires : ℕ → List BatchDecodeResult)
    (sent : ℕ → BatchDecodeResult) (received : BatchDecodeResult) : Prop where
  sent_owns : ∀ k, ∀ e ∈ sent k, owns k e.reqId
  nodup : ∀ k, ∀ b ∈ wires k, (b.map (·.reqId)).Nodup
  wires_sent : ∀ k, ∀ e ∈ (wires k).flatten, e ∈ sent k
  received_sent : ∀ e ∈ received, ∃ k, e ∈ sent k
  /-- The entries of a request arrive in order. -/
  order : ∀ k r, (∀ k' ≠ k, ∀ e ∈ sent k', e.reqId ≠ r) →
    (sent k).entriesOf r = received.entriesOf r ++ BatchDecodeResult.entriesOf (wires k).flatten r
  /-- Nothing follows an `is_eos` entry. -/
  last : ∀ k r, ∀ e ∈ ((sent k).entriesOf r).dropLast, e.isEos = false

namespace Wires

variable {owns owns' : ℕ → ℕ → Prop} {wires : ℕ → List BatchDecodeResult}
  {sent : ℕ → BatchDecodeResult} {received : BatchDecodeResult}

theorem mono (h : Wires owns wires sent received) (howns : ∀ k r, owns k r → owns' k r) :
    Wires owns' wires sent received :=
  { h with sent_owns := fun k e he => howns k _ (h.sent_owns k e he) }

theorem alone (h : Wires owns wires sent received)
    (hunique : ∀ k k' r, owns k r → owns k' r → k = k') {k r : ℕ} (hk : owns k r) :
    ∀ k' ≠ k, ∀ e ∈ sent k', e.reqId ≠ r := by
  rintro k' hne e he rfl
  exact hne (hunique _ _ _ (h.sent_owns k' e he) hk)

theorem emit (h : Wires owns wires sent received) {k : ℕ} {b : BatchDecodeResult}
    (hnodup : (b.map (·.reqId)).Nodup) (howns : ∀ e ∈ b, owns k e.reqId)
    (hopen : ∀ e ∈ b, e.reqId ∉ (sent k).finished) :
    Wires owns (Function.update wires k (wires k ++ [b])) (Function.update sent k (sent k ++ b))
      received := by
  have hsent : ∀ k', ∀ e ∈ sent k', e ∈ Function.update sent k (sent k ++ b) k' := by
    intro k' e he
    by_cases hk : k' = k
    · subst hk
      rw [Function.update_self]
      exact List.mem_append_left _ he
    · rwa [Function.update_of_ne hk]
  refine ⟨fun k' e he => ?_, fun k' b' hb' => ?_, fun k' e he => ?_, fun e he => ?_,
    fun k' r halone => ?_, fun k' r => ?_⟩
  · by_cases hk : k' = k
    · subst hk
      rw [Function.update_self] at he
      exact (List.mem_append.1 he).elim (h.sent_owns k' e) (howns e)
    · rw [Function.update_of_ne hk] at he
      exact h.sent_owns k' e he
  · by_cases hk : k' = k
    · subst hk
      rw [Function.update_self] at hb'
      rcases List.mem_append.1 hb' with hb' | hb'
      · exact h.nodup k' b' hb'
      · rwa [List.mem_singleton.1 hb']
    · rw [Function.update_of_ne hk] at hb'
      exact h.nodup k' b' hb'
  · by_cases hk : k' = k
    · subst hk
      rw [Function.update_self, List.flatten_append, List.flatten_singleton] at he
      rw [Function.update_self]
      exact List.mem_append.2 ((List.mem_append.1 he).imp_left (h.wires_sent k' e))
    · rw [Function.update_of_ne hk] at he ⊢
      exact h.wires_sent k' e he
  · obtain ⟨k', he'⟩ := h.received_sent e he
    exact ⟨k', hsent k' e he'⟩
  · have hold := h.order k' r fun k'' hne e he => halone k'' hne e (hsent k'' e he)
    by_cases hk : k' = k
    · subst hk
      rw [Function.update_self, Function.update_self, List.flatten_append, List.flatten_singleton,
        BatchDecodeResult.entriesOf_append, BatchDecodeResult.entriesOf_append, hold,
        List.append_assoc]
    · rwa [Function.update_of_ne hk, Function.update_of_ne hk]
  · by_cases hk : k' = k
    · subst hk
      rw [Function.update_self, BatchDecodeResult.entriesOf_append]
      rcases BatchDecodeResult.entriesOf_of_nodup (r := r) hnodup with hnil | ⟨e, he, her, hone⟩
      · rw [hnil, List.append_nil]
        exact h.last k' r
      · rw [hone, List.dropLast_concat]
        intro e' he'
        rw [← Bool.not_eq_true]
        intro heos
        exact hopen e he (BatchDecodeResult.mem_finished.2 ⟨e', her ▸ he', heos⟩)
    · rw [Function.update_of_ne hk]
      exact h.last k' r

theorem not_finished (h : Wires owns wires sent received)
    (hunique : ∀ k k' r, owns k r → owns k' r → k = k') {k : ℕ} {b : BatchDecodeResult}
    {rest : List BatchDecodeResult} (hwire : wires k = b :: rest) {e : DecodeEntry} (he : e ∈ b) :
    e.reqId ∉ received.finished := by
  intro hfin
  obtain ⟨e', he', heos⟩ := BatchDecodeResult.mem_finished.1 hfin
  have hsent : e ∈ sent k := h.wires_sent k e (by simp [hwire, he])
  have horder := h.order k e.reqId (h.alone hunique (h.sent_owns k e hsent))
  have hne : BatchDecodeResult.entriesOf (wires k).flatten e.reqId ≠ [] := by
    rw [Ne, BatchDecodeResult.entriesOf_eq_nil]
    intro hall
    exact hall e (by simp [hwire, he]) rfl
  have hlast := h.last k e.reqId e'
  rw [horder, List.dropLast_append_of_ne_nil hne] at hlast
  rw [hlast (List.mem_append_left _ he')] at heos
  cases heos

theorem receive (h : Wires owns wires sent received) {k : ℕ} {b : BatchDecodeResult}
    {rest : List BatchDecodeResult} (hwire : wires k = b :: rest) :
    Wires owns (Function.update wires k rest) sent (received ++ b) := by
  have hb : ∀ e ∈ b, e ∈ sent k := fun e he => h.wires_sent k e (by simp [hwire, he])
  refine ⟨h.sent_owns, fun k' b' hb' => ?_, fun k' e he => ?_, fun e he => ?_,
    fun k' r halone => ?_, h.last⟩
  · by_cases hk : k' = k
    · subst hk
      rw [Function.update_self] at hb'
      exact h.nodup k' b' (by simp [hwire, hb'])
    · rw [Function.update_of_ne hk] at hb'
      exact h.nodup k' b' hb'
  · by_cases hk : k' = k
    · subst hk
      rw [Function.update_self] at he
      exact h.wires_sent k' e (by rw [hwire, List.flatten_cons]; exact List.mem_append_right _ he)
    · rw [Function.update_of_ne hk] at he
      exact h.wires_sent k' e he
  · exact (List.mem_append.1 he).elim (h.received_sent e) fun he => ⟨k, hb e he⟩
  · have hold := h.order k' r halone
    rw [hold, BatchDecodeResult.entriesOf_append, List.append_assoc]
    by_cases hk : k' = k
    · subst hk
      rw [Function.update_self, hwire, List.flatten_cons, BatchDecodeResult.entriesOf_append]
    · have hnil : b.entriesOf r = [] := by
        rw [BatchDecodeResult.entriesOf_eq_nil]
        intro e he
        exact halone k (Ne.symm hk) e (hb e he)
      rw [Function.update_of_ne hk, hnil, List.nil_append]

end Wires

/-! ### Requests in the scheduler -/

/-- The ids of the requests submitted to an engine, in hand or waiting. -/
def State.scheduled (s : State) : List ℕ :=
  s.run.submitted.map (·.1.reqId) ++ (s.run.phase.inHand ++ s.run.waitingQueue).map (·.reqId)

structure Ids (policy : Policy) (bs : ℕ) (cap : List ℕ) (s : State) : Prop where
  run : SchedulerRun.Inv policy bs cap s.run
  /-- Ids are distinct, also from those of deleted requests. -/
  nodup : s.scheduled.Nodup
  /-- An id in the scheduler was given out. -/
  used : ∀ r ∈ s.scheduled, r ∈ s.used
  /-- A submitted request is live until it is released. -/
  live : ∀ x ∈ s.run.submitted, x.1.reqId ∉ s.released → x ∈ s.run.live

section Ids

variable {policy : Policy} {bs : ℕ} {cap : List ℕ} {s : State}

theorem State.Owns.mem_scheduled {k r : ℕ} (h : s.Owns k r) : r ∈ s.scheduled := by
  obtain ⟨item, hitem, rfl⟩ := h
  exact List.mem_append_left _ (List.mem_map_of_mem hitem)

theorem Ids.unique (hs : Ids policy bs cap s) :
    ∀ k k' r, s.Owns k r → s.Owns k' r → k = k' := by
  rintro k k' _ ⟨item, hitem, rfl⟩ ⟨item', hitem', heq⟩
  have hnodup : (s.run.submitted.map (·.1.reqId)).Nodup := (List.nodup_append.1 hs.nodup).1
  have h := List.inj_on_of_nodup_map hnodup hitem hitem' heq.symm
  exact Int.ofNat.inj (Prod.mk.inj h).2

theorem Ids.submit (hs : Ids policy bs cap s) {item : RequestItem} (hnew : item.reqId ∉ s.used) :
    Ids policy bs cap (s.putSingleRequest item) := by
  have hsched : (s.putSingleRequest item).scheduled = s.scheduled ++ [item.reqId] := by
    simp [State.scheduled, State.putSingleRequest]
  refine ⟨hs.run.put fun hmem => hnew (hs.used _ ?_), ?_, fun r hr => ?_, hs.live⟩
  · rcases List.mem_append.1 hmem with hmem | hmem
    · obtain ⟨x, hx, heq⟩ := List.mem_map.1 hmem
      rw [← heq]
      exact List.mem_append_left _ (List.mem_map_of_mem (hs.run.submitted x hx))
    · exact List.mem_append_right _ hmem
  · rw [hsched]
    refine List.nodup_append.2 ⟨hs.nodup, List.nodup_singleton _, ?_⟩
    rintro r hr _ hr' rfl
    obtain rfl := List.mem_singleton.1 hr'
    exact hnew (hs.used _ hr)
  · rw [hsched] at hr
    exact List.mem_append.2 ((List.mem_append.1 hr).imp_left (hs.used r))

theorem Ids.schedule (hs : Ids policy bs cap s) {run : SchedulerRun.State}
    (hstep : SchedulerRun.Step s.run run) (hputs : run.puts = s.run.puts)
    (hlive : s.run.live <+: run.live) :
    Ids policy bs cap { s with run := run } ∧
      ∀ k r, s.Owns k r → State.Owns { s with run := run } k r := by
  obtain ⟨new, hsub, hnew, hqueue⟩ := hstep.loop_cases hputs hlive
  have hsched : (State.scheduled { s with run := run }).Sublist s.scheduled := by
    simp only [State.scheduled, hsub, List.map_append, List.append_assoc]
    refine List.Sublist.append_left ?_ _
    have h := hqueue.map (·.reqId)
    simpa only [List.map_append, List.map_map, Function.comp_def] using h
  refine ⟨⟨hs.run.step hstep, hs.nodup.sublist hsched, fun r hr => hs.used r (hsched.mem hr),
    fun x hx hrel => ?_⟩, ?_⟩
  · rw [show ({ s with run := run } : State).run = run from rfl, hsub] at hx
    show x ∈ run.live
    rw [hnew]
    exact List.mem_append.2 ((List.mem_append.1 hx).imp_left fun hx => hs.live x hx hrel)
  · rintro k _ ⟨item, hitem, rfl⟩
    refine ⟨item, ?_, rfl⟩
    show _ ∈ run.submitted
    rw [hsub]
    exact List.mem_append_left _ hitem

end Ids

/-! ### Statistics in the tasks -/

/-- The results of the started tasks that are not popped. -/
def State.started (s : State) : List SloStat := s.running.flatMap (·.rest)

structure Tasks (s : State) : Prop where
  /-- `in_flight_reqs` has the requests not released. -/
  inFlight : ∀ r, r ∈ s.inFlightReqs ↔ r ∈ s.used ∧ r ∉ s.released
  /-- `request_results` has the requests not popped. -/
  results : ∀ r, r ∈ s.requestResults ↔ r ∈ s.used ∧ r ∉ s.popped.map (·.reqId)
  /-- What was fetched waits in a task, or was popped. -/
  fetched : s.fetched.Perm (s.created.flatten ++ (s.started ++ s.popped))
  /-- A request is released when its task starts. -/
  released : s.released.Perm ((s.started ++ s.popped).map (·.reqId))
  /-- A result is popped after it is delivered. -/
  delivered : s.delivered.Perm (s.running.flatMap Task.inHand ++ s.popped)

namespace Tasks

variable {s : State}

theorem released_subset (h : Tasks s) {r : ℕ} (hr : r ∈ s.released) :
    r ∈ s.fetched.map (·.reqId) := by
  rw [(h.fetched.map _).mem_iff, List.map_append]
  exact List.mem_append_right _ (h.released.mem_iff.1 hr)

theorem popped_subset (h : Tasks s) {r : ℕ} (hr : r ∈ s.popped.map (·.reqId)) :
    r ∈ s.fetched.map (·.reqId) := by
  refine h.released_subset (h.released.mem_iff.2 ?_)
  rw [List.map_append]
  exact List.mem_append_right _ hr

theorem mem_fetched_of_created (h : Tasks s) {results : List SloStat} (hr : results ∈ s.created)
    {x : SloStat} (hx : x ∈ results) : x ∈ s.fetched := by
  rw [h.fetched.mem_iff]
  exact List.mem_append_left _ (List.mem_flatten.2 ⟨results, hr, hx⟩)

theorem submit (h : Tasks s) {item : RequestItem} (hnew : item.reqId ∉ s.used)
    (hused : ∀ r ∈ s.fetched.map (·.reqId), r ∈ s.used) : Tasks (s.putSingleRequest item) := by
  refine ⟨fun r => ?_, fun r => ?_, h.fetched, h.released, h.delivered⟩
  · show r ∈ insert item.reqId s.inFlightReqs ↔ r ∈ s.used ++ [item.reqId] ∧ r ∉ s.released
    rw [Finset.mem_insert, h.inFlight, List.mem_append, List.mem_singleton]
    by_cases hr : r = item.reqId
    · subst hr
      have hrel : item.reqId ∉ s.released := fun hrel => hnew (hused _ (h.released_subset hrel))
      simp [hrel]
    · simp [hr]
  · show r ∈ insert item.reqId s.requestResults ↔
      r ∈ s.used ++ [item.reqId] ∧ r ∉ s.popped.map (·.reqId)
    rw [Finset.mem_insert, h.results, List.mem_append, List.mem_singleton]
    by_cases hr : r = item.reqId
    · subst hr
      have hpop : item.reqId ∉ s.popped.map (·.reqId) :=
        fun hpop => hnew (hused _ (h.popped_subset hpop))
      simp only [true_or, or_true, true_and, hpop, not_false_iff]
    · simp only [hr, false_or, or_false]

theorem fetch (h : Tasks s) {res : List SloStat} {detok : Detokenizer} :
    Tasks { s with
      detok := detok
      fetched := s.fetched ++ res
      created := if res.isEmpty then s.created else s.created ++ [res] } := by
  refine ⟨h.inFlight, h.results, ?_, h.released, h.delivered⟩
  have hcreated : (if res.isEmpty then s.created else s.created ++ [res]).flatten =
      s.created.flatten ++ res := by
    cases res <;> simp
  show (s.fetched ++ res).Perm
    ((if res.isEmpty then s.created else s.created ++ [res]).flatten ++ (s.started ++ s.popped))
  rw [hcreated]
  refine List.perm_iff_count.2 fun x => ?_
  have hcount := h.fetched.count_eq x
  simp only [List.count_append] at hcount ⊢
  omega

theorem start (h : Tasks s) {results : List SloStat} {before after : List (List SloStat)}
    (hcreated : s.created = before ++ results :: after) {run : SchedulerRun.State} :
    Tasks { s with
      inFlightReqs := s.inFlightReqs \ (results.map (·.reqId)).toFinset
      run := run
      released := s.released ++ results.map (·.reqId)
      created := before ++ after
      running := s.running ++ [⟨results, false⟩] } := by
  have hstarted : State.started { s with running := s.running ++ [⟨results, false⟩] } =
      s.started ++ results := by
    simp [State.started]
  refine ⟨fun r => ?_, h.results, ?_, ?_, ?_⟩
  · show r ∈ s.inFlightReqs \ (results.map (·.reqId)).toFinset ↔
      r ∈ s.used ∧ r ∉ s.released ++ results.map (·.reqId)
    rw [Finset.mem_sdiff, h.inFlight, List.mem_toFinset, List.mem_append, not_or, and_assoc]
  · show s.fetched.Perm ((before ++ after).flatten ++
      (State.started { s with running := s.running ++ [⟨results, false⟩] } ++ s.popped))
    rw [hstarted]
    refine List.perm_iff_count.2 fun x => ?_
    have hcount := h.fetched.count_eq x
    simp only [hcreated, List.flatten_append, List.flatten_cons, List.count_append] at hcount ⊢
    omega
  · show (s.released ++ results.map (·.reqId)).Perm
      ((State.started { s with running := s.running ++ [⟨results, false⟩] } ++ s.popped).map
        (·.reqId))
    rw [hstarted]
    refine List.perm_iff_count.2 fun r => ?_
    have hcount := h.released.count_eq r
    simp only [List.map_append, List.count_append] at hcount ⊢
    omega
  · show s.delivered.Perm (List.flatMap Task.inHand (s.running ++ [⟨results, false⟩]) ++ s.popped)
    simpa using h.delivered

/-- What a started task still holds, when a task of the list changes. -/
theorem count_flatMap_middle {before after : List Task} {t : Task} (f : Task → List SloStat)
    (x : SloStat) :
    ((before ++ t :: after).flatMap f).count x =
      (f t).count x + ((before ++ after).flatMap f).count x := by
  simp only [List.flatMap_append, List.flatMap_cons, List.count_append]
  omega

theorem count_delivered (h : Tasks s) {before after : List Task} {t : Task}
    (hrunning : s.running = before ++ t :: after) (x : SloStat) :
    s.delivered.count x =
      t.inHand.count x + ((before ++ after).flatMap Task.inHand).count x + s.popped.count x := by
  rw [h.delivered.count_eq x, hrunning, List.count_append, count_flatMap_middle]

/-- One task of the list changes: what it has in hand, with what is delivered, is what it has in
hand afterwards, with what is popped. -/
theorem delivered_replace (h : Tasks s) {before after : List Task} {t : Task}
    (hrunning : s.running = before ++ t :: after) (t' : Task) (new old : List SloStat)
    (hmove : (t.inHand ++ new).Perm (t'.inHand ++ old)) :
    (s.delivered ++ new).Perm
      ((before ++ t' :: after).flatMap Task.inHand ++ (s.popped ++ old)) := by
  refine List.perm_iff_count.2 fun x => ?_
  have hcount := h.count_delivered hrunning x
  have hmoved := hmove.count_eq x
  simp only [List.count_append, count_flatMap_middle] at hmoved ⊢
  omega

theorem put (h : Tasks s) {result : SloStat} {rest : List SloStat} {before after : List Task}
    (hrunning : s.running = before ++ ⟨result :: rest, false⟩ :: after) :
    Tasks { s with
      delivered := s.delivered ++ [result]
      running := before ++ ⟨result :: rest, true⟩ :: after } := by
  have hstarted : State.started { s with running := before ++ ⟨result :: rest, true⟩ :: after } =
      s.started := by
    simp [State.started, hrunning]
  refine ⟨h.inFlight, h.results, ?_, ?_, ?_⟩
  · show s.fetched.Perm (s.created.flatten ++ (State.started
      { s with running := before ++ ⟨result :: rest, true⟩ :: after } ++ s.popped))
    rw [hstarted]
    exact h.fetched
  · show s.released.Perm ((State.started
      { s with running := before ++ ⟨result :: rest, true⟩ :: after } ++ s.popped).map (·.reqId))
    rw [hstarted]
    exact h.released
  · show (s.delivered ++ [result]).Perm
      (List.flatMap Task.inHand (before ++ ⟨result :: rest, true⟩ :: after) ++ s.popped)
    have hperm := h.delivered_replace hrunning ⟨result :: rest, true⟩ [result] [] (.refl _)
    rwa [List.append_nil] at hperm

theorem pop (h : Tasks s) {result : SloStat} {rest : List SloStat} {before after : List Task}
    (hrunning : s.running = before ++ ⟨result :: rest, true⟩ :: after) :
    Tasks { s with
      requestResults := s.requestResults.erase result.reqId
      popped := s.popped ++ [result]
      running := before ++ ⟨rest, false⟩ :: after } := by
  have hmove : (s.started ++ s.popped).Perm
      (State.started { s with running := before ++ ⟨rest, false⟩ :: after } ++
        (s.popped ++ [result])) := by
    refine List.perm_iff_count.2 fun x => ?_
    simp only [State.started, hrunning, List.count_append, count_flatMap_middle, List.count_cons,
      List.count_nil]
    omega
  refine ⟨h.inFlight, fun r => ?_, h.fetched.trans (hmove.append_left _),
    h.released.trans (hmove.map _), ?_⟩
  · show r ∈ s.requestResults.erase result.reqId ↔
      r ∈ s.used ∧ r ∉ (s.popped ++ [result]).map (·.reqId)
    rw [Finset.mem_erase, h.results, List.map_append, List.mem_append, not_or]
    simp only [List.map_cons, List.map_nil, List.mem_singleton]
    tauto
  · show s.delivered.Perm
      (List.flatMap Task.inHand (before ++ ⟨rest, false⟩ :: after) ++ (s.popped ++ [result]))
    have hperm := h.delivered_replace hrunning ⟨rest, false⟩ [] [result] (.refl _)
    rwa [List.append_nil] at hperm

end Tasks

/-! ### Runs -/

structure Inv (policy : Policy) (bs : ℕ) (cap : List ℕ) (s : State) : Prop where
  ids : Ids policy bs cap s
  wires : Wires s.Owns s.wires s.sent s.received
  detok : s.detok.Inv s.received.tokens s.received.finished (s.fetched.map (·.reqId))
  tasks : Tasks s

variable {policy : Policy} {bs : ℕ} {cap : List ℕ} {s s' : State}

theorem inv_init (policy : Policy) (bs : ℕ) (cap : List ℕ) :
    Inv policy bs cap (State.init policy bs cap) where
  ids := ⟨SchedulerRun.inv_init policy bs cap, List.nodup_nil, by rintro r ⟨⟩, by rintro x ⟨⟩⟩
  wires := ⟨by rintro k e ⟨⟩, by rintro k b ⟨⟩, by rintro k e ⟨⟩, by rintro e ⟨⟩,
    fun _ _ _ => rfl, by rintro k r e ⟨⟩⟩
  detok := Detokenizer.inv_init
  tasks := ⟨fun r => by simp [State.init], fun r => by simp [State.init], .refl _, .refl _, .refl _⟩

namespace Inv

theorem owns_of_fetched (hs : Inv policy bs cap s) {r : ℕ} (hr : r ∈ s.fetched.map (·.reqId)) :
    ∃ k, s.Owns k r := by
  obtain ⟨e, he, -⟩ := BatchDecodeResult.mem_finished.1 (hs.detok.fetched r hr)
  obtain ⟨hmem, rfl⟩ := BatchDecodeResult.mem_entriesOf.1 he
  obtain ⟨k, hk⟩ := hs.wires.received_sent e hmem
  exact ⟨k, hs.wires.sent_owns k e hk⟩

theorem used_of_fetched (hs : Inv policy bs cap s) :
    ∀ r ∈ s.fetched.map (·.reqId), r ∈ s.used := by
  intro r hr
  obtain ⟨k, hk⟩ := hs.owns_of_fetched hr
  exact hs.ids.used r hk.mem_scheduled

theorem exists_processBatch (hs : Inv policy bs cap s) {k : ℕ} {b : BatchDecodeResult}
    {rest : List BatchDecodeResult} (hwire : s.wires k = b :: rest) (now : ℚ) :
    ∃ d', s.detok.processBatch now b = .ok d' ∧
      d'.Inv (s.received ++ b).tokens (s.received ++ b).finished (s.fetched.map (·.reqId)) := by
  rw [BatchDecodeResult.tokens_append, BatchDecodeResult.finished_append]
  refine hs.detok.processBatch now (hs.wires.nodup k b (by simp [hwire])) fun e he => ?_
  exact hs.wires.not_finished hs.ids.unique hwire he

/-- **A task starts.** Its requests were fetched once, so they are neither removed nor deleted. -/
theorem exists_startTask (hs : Inv policy bs cap s) {results : List SloStat}
    {before after : List (List SloStat)} (hcreated : s.created = before ++ results :: after) :
    ∃ sched live event,
      s.startTask results = .ok
        { s with
          inFlightReqs := s.inFlightReqs \ (results.map (·.reqId)).toFinset
          run := { s.run with sched := sched, schEvent := event, live := live }
          released := s.released ++ results.map (·.reqId) } ∧
      SchedulerRun.Inv policy bs cap
        { s.run with sched := sched, schEvent := event, live := live } ∧
      ∀ y ∈ s.run.live, y.1.reqId ∉ results.map (·.reqId) → y ∈ live := by
  have hmem : results ∈ s.created := by simp [hcreated]
  have hids := ((hs.tasks.fetched.map (·.reqId)).nodup_iff).1 hs.detok.fetched_nodup
  rw [List.map_append] at hids
  have hsub : results.Sublist s.created.flatten := List.sublist_flatten_of_mem hmem
  have hnot : ∀ x ∈ results, x.reqId ∉ s.released := by
    intro x hx hrel
    refine (List.nodup_append.1 hids).2.2 x.reqId (List.mem_map_of_mem (hsub.mem hx)) x.reqId ?_ rfl
    exact hs.tasks.released.mem_iff.1 hrel
  have howns : ∀ x ∈ results, ∃ k, s.Owns k x.reqId := fun x hx =>
    hs.owns_of_fetched (List.mem_map_of_mem (hs.tasks.mem_fetched_of_created hmem hx))
  refine State.exists_startTask hs.ids.run ?_ (fun x hx => ?_) fun x hx => ?_
  · exact (List.nodup_append.1 hids).1.sublist (hsub.map _)
  · obtain ⟨k, hk⟩ := howns x hx
    exact (hs.tasks.inFlight _).2 ⟨hs.ids.used _ hk.mem_scheduled, hnot x hx⟩
  · obtain ⟨k, item, hitem, heq⟩ := howns x hx
    exact ⟨(item, (k : ℤ)), hs.ids.live _ hitem (heq ▸ hnot x hx), heq⟩

/-- The request of a result that is not popped is in `request_results`. -/
theorem mem_requestResults (hs : Inv policy bs cap s) {x : SloStat} (hx : x ∈ s.started) :
    x.reqId ∈ s.requestResults := by
  have hids := ((hs.tasks.fetched.map (·.reqId)).nodup_iff).1 hs.detok.fetched_nodup
  rw [List.map_append, List.map_append] at hids
  have hstarted := (List.nodup_append.1 (List.nodup_append.1 hids).2.1).2.2
  refine (hs.tasks.results _).2 ⟨hs.used_of_fetched _ ?_, fun hpop => ?_⟩
  · refine hs.tasks.released_subset (hs.tasks.released.mem_iff.2 ?_)
    rw [List.map_append]
    exact List.mem_append_left _ (List.mem_map_of_mem hx)
  · exact hstarted x.reqId (List.mem_map_of_mem hx) x.reqId hpop rfl

theorem step (hs : Inv policy bs cap s) (hstep : Step s s') : Inv policy bs cap s' := by
  cases hstep with
  | submit hnew =>
    exact ⟨hs.ids.submit hnew, hs.wires, hs.detok, hs.tasks.submit hnew hs.used_of_fetched⟩
  | schedule hrun hputs hlive =>
    obtain ⟨hids, howns⟩ := hs.ids.schedule hrun hputs hlive
    exact ⟨hids, hs.wires.mono howns, hs.detok, ⟨hs.tasks.inFlight, hs.tasks.results,
      hs.tasks.fetched, hs.tasks.released, hs.tasks.delivered⟩⟩
  | emit hnodup howns hopen =>
    exact ⟨⟨hs.ids.run, hs.ids.nodup, hs.ids.used, hs.ids.live⟩, hs.wires.emit hnodup howns hopen,
      hs.detok, ⟨hs.tasks.inFlight, hs.tasks.results, hs.tasks.fetched, hs.tasks.released,
        hs.tasks.delivered⟩⟩
  | receive hwire hdetok =>
    rename_i rank batch rest now detok
    obtain ⟨d', hd', hinv⟩ := hs.exists_processBatch hwire now
    obtain rfl := Except.ok.inj (hdetok.symm.trans hd')
    exact ⟨⟨hs.ids.run, hs.ids.nodup, hs.ids.used, hs.ids.live⟩, hs.wires.receive hwire, hinv,
      ⟨hs.tasks.inFlight, hs.tasks.results, hs.tasks.fetched, hs.tasks.released,
        hs.tasks.delivered⟩⟩
  | fetch horder hfetch =>
    obtain ⟨res', d', hd', hids, hinv⟩ := hs.detok.fetchFinishedResults horder
    obtain ⟨rfl, rfl⟩ := Prod.mk.inj (Except.ok.inj (hfetch.symm.trans hd'))
    refine ⟨⟨hs.ids.run, hs.ids.nodup, hs.ids.used, hs.ids.live⟩, hs.wires, ?_, hs.tasks.fetch⟩
    rw [List.map_append, hids]
    exact hinv
  | start hcreated hstart =>
    obtain ⟨sched, live, event, hok, hrun, hkeep⟩ := hs.exists_startTask hcreated
    obtain rfl := Except.ok.inj (hstart.symm.trans hok)
    refine ⟨⟨hrun, hs.ids.nodup, hs.ids.used, fun x hx hrel => ?_⟩, hs.wires, hs.detok,
      hs.tasks.start hcreated⟩
    simp only [List.mem_append, not_or] at hrel
    exact hkeep x (hs.ids.live x hx hrel.1) hrel.2
  | put hrunning hput =>
    have hmem := hs.mem_requestResults (List.mem_flatMap.2
      ⟨_, by rw [hrunning]; exact List.mem_append_right _ (List.mem_cons_self ..),
        List.mem_cons_self ..⟩)
    rw [State.putResult, if_pos hmem] at hput
    obtain rfl := Except.ok.inj hput
    exact ⟨⟨hs.ids.run, hs.ids.nodup, hs.ids.used, hs.ids.live⟩, hs.wires, hs.detok,
      hs.tasks.put hrunning⟩
  | pop hrunning hpop =>
    have hmem := hs.mem_requestResults (List.mem_flatMap.2
      ⟨_, by rw [hrunning]; exact List.mem_append_right _ (List.mem_cons_self ..),
        List.mem_cons_self ..⟩)
    rw [State.popResult, if_pos hmem] at hpop
    obtain rfl := Except.ok.inj hpop
    exact ⟨⟨hs.ids.run, hs.ids.nodup, hs.ids.used, hs.ids.live⟩, hs.wires, hs.detok,
      hs.tasks.pop hrunning⟩

theorem of_run (hrun : Relation.ReflTransGen Step (State.init policy bs cap) s) :
    Inv policy bs cap s := by
  induction hrun with
  | refl => exact inv_init policy bs cap
  | tail _ hstep ih => exact ih.step hstep

end Inv

/-! ### Exactly once -/

structure ExactlyOnce (s : State) : Prop where
  /-- The statistic of a finished request is returned by one fetch, once one has come; that of
  another request by none. -/
  fetched : ∀ r, (s.fetched.map (·.reqId)).count r +
    (if r ∈ s.detok.finishedSeqs then 1 else 0) = if r ∈ s.received.finished then 1 else 0
  /-- A fetched request is removed and deleted once, when its task has started. -/
  released : ∀ r, s.released.count r + (s.created.flatten.map (·.reqId)).count r =
    (s.fetched.map (·.reqId)).count r
  /-- A removed request is popped once, when its task has come to it. -/
  popped : ∀ r, (s.popped.map (·.reqId)).count r + (s.started.map (·.reqId)).count r =
    s.released.count r
  /-- What is delivered is the statistic fetched, before its request is popped. -/
  delivered : s.delivered.Perm (s.running.flatMap Task.inHand ++ s.popped)
  processBatch : ∀ k b rest now, s.wires k = b :: rest →
    ∃ d', s.detok.processBatch now b = .ok d'
  /-- A fetch returns all finished requests that wait. -/
  fetch : ∀ order, s.detok.Iterates order → ∃ res d',
    s.detok.fetchFinishedResults order = .ok (res, d') ∧ res.map (·.reqId) = order
  /-- `in_flight_reqs.remove` and `del_seq` do not raise. -/
  startTask : ∀ results ∈ s.created, ∃ s', s.startTask results = .ok s'
  /-- `request_results[...].put` does not raise. -/
  putResult : ∀ result ∈ s.started, ∃ s', s.putResult result = .ok s'
  /-- `request_results.pop` does not raise. -/
  popResult : ∀ result ∈ s.started, ∃ s', s.popResult result = .ok s'
  /-- `active_num_requests` counts the requests with a result and no `is_eos`. -/
  active : s.detok.activeNumRequests =
    ((s.received.map (·.reqId)).toFinset \ s.received.finished.toFinset).card
  /-- A stream has the tokens emitted for the request, up to those on the wire. -/
  streams : ∀ k r, s.Owns k r →
    s.detok.tokenStreams r ++
        (BatchDecodeResult.entriesOf (s.wires k).flatten r).map (·.tokenId) =
      ((s.sent k).entriesOf r).map (·.tokenId)
  /-- When nothing is under way, a request that its engine has finished was fetched, removed,
  deleted and popped once. -/
  drained : (∀ k, s.wires k = []) → s.detok.finishedSeqs = ∅ → s.created = [] → s.started = [] →
    ∀ k r, s.Owns k r →
      (s.fetched.map (·.reqId)).count r = (if r ∈ (s.sent k).finished then 1 else 0) ∧
      s.released.count r = (if r ∈ (s.sent k).finished then 1 else 0) ∧
      (s.popped.map (·.reqId)).count r = (if r ∈ (s.sent k).finished then 1 else 0)

namespace Inv

theorem count_fetched (hs : Inv policy bs cap s) (r : ℕ) :
    (s.fetched.map (·.reqId)).count r + (if r ∈ s.detok.finishedSeqs then 1 else 0) =
      if r ∈ s.received.finished then 1 else 0 := by
  have hmem := hs.detok.finishedSeqs r
  by_cases hr : r ∈ s.fetched.map (·.reqId)
  · rw [List.count_eq_one_of_mem hs.detok.fetched_nodup hr, if_pos (hs.detok.fetched r hr),
      if_neg fun h => (hmem.1 h).2 hr]
  · rw [List.count_eq_zero_of_not_mem hr, Nat.zero_add]
    simp only [hmem, hr, not_false_iff, and_true]

theorem count_released (hs : Inv policy bs cap s) (r : ℕ) :
    s.released.count r + (s.created.flatten.map (·.reqId)).count r =
      (s.fetched.map (·.reqId)).count r := by
  rw [(hs.tasks.fetched.map _).count_eq, hs.tasks.released.count_eq]
  simp only [List.map_append, List.count_append]
  omega

theorem count_popped (hs : Inv policy bs cap s) (r : ℕ) :
    (s.popped.map (·.reqId)).count r + (s.started.map (·.reqId)).count r =
      s.released.count r := by
  rw [hs.tasks.released.count_eq, List.map_append, List.count_append, Nat.add_comm]

theorem entriesOf_sent (hs : Inv policy bs cap s) {k r : ℕ} (hk : s.Owns k r) :
    (s.sent k).entriesOf r =
      s.received.entriesOf r ++ BatchDecodeResult.entriesOf (s.wires k).flatten r :=
  hs.wires.order k r (hs.wires.alone hs.ids.unique hk)

end Inv

/-- **Exactly-once completion**, in every run. -/
theorem exactlyOnce_of_run (hrun : Relation.ReflTransGen Step (State.init policy bs cap) s) :
    ExactlyOnce s := by
  have hs := Inv.of_run hrun
  refine
    { fetched := hs.count_fetched
      released := hs.count_released
      popped := hs.count_popped
      delivered := hs.tasks.delivered
      processBatch := fun k b rest now hwire => ?_
      fetch := fun order horder => ?_
      startTask := fun results hresults => ?_
      putResult := fun result hresult => ?_
      popResult := fun result hresult => ?_
      active := ?_
      streams := fun k r hk => ?_
      drained := fun hwires hfinished hcreated hstarted k r hk => ?_ }
  · obtain ⟨d', hd', -⟩ := hs.exists_processBatch hwire now
    exact ⟨d', hd'⟩
  · obtain ⟨res, d', hfetch, hids, -⟩ := hs.detok.fetchFinishedResults horder
    exact ⟨res, d', hfetch, hids⟩
  · obtain ⟨before, after, hcreated⟩ := List.append_of_mem hresults
    obtain ⟨sched, live, event, hok, -⟩ := hs.exists_startTask hcreated
    exact ⟨_, hok⟩
  · exact ⟨_, if_pos (hs.mem_requestResults hresult)⟩
  · exact ⟨_, if_pos (hs.mem_requestResults hresult)⟩
  · rw [hs.detok.active, BatchDecodeResult.map_fst_tokens]
  · rw [hs.detok.streams, BatchDecodeResult.map_filter_tokens, ← List.map_append,
      hs.entriesOf_sent hk]
  · have hsent : r ∈ s.received.finished ↔ r ∈ (s.sent k).finished := by
      rw [BatchDecodeResult.mem_finished, BatchDecodeResult.mem_finished, hs.entriesOf_sent hk,
        hwires k]
      simp [BatchDecodeResult.entriesOf]
    have hfetched := hs.count_fetched r
    have hreleased := hs.count_released r
    have hpopped := hs.count_popped r
    simp only [hfinished, Finset.notMem_empty, if_false, Nat.add_zero, hsent] at hfetched
    rw [hcreated] at hreleased
    rw [hstarted] at hpopped
    simp only [List.flatten_nil, List.map_nil, List.count_nil, Nat.add_zero] at hreleased hpopped
    exact ⟨hfetched, hreleased.trans hfetched, hpopped.trans (hreleased.trans hfetched)⟩

/-- A request that ends after two tokens on one engine, and one whose load is rejected on
another. -/
theorem exactlyOnce_two_requests :
    ∃ s : State, Relation.ReflTransGen Step (State.init .rr 1 [4, 4]) s ∧
      s.detok.tokenStreams 7 = [5, 6] ∧ s.detok.activeNumRequests = 0 ∧ s.released = [9, 7] ∧
      s.popped.map (·.reqId) = [9] ∧ s.started.map (·.reqId) = [7] ∧ ExactlyOnce s := by
  have hrun : Relation.ReflTransGen Step (State.init .rr 1 [4, 4]) _ := .refl
  replace hrun := hrun.tail (@Step.submit _ ⟨7, 3, 1, 2⟩ (by decide))
  replace hrun := hrun.tail (@Step.submit _ ⟨9, 3, 1, 2⟩ (by decide))
  replace hrun := hrun.tail (Step.schedule (.begin rfl) rfl (List.prefix_refl _))
  replace hrun := hrun.tail (Step.schedule (.get rfl rfl) rfl (List.prefix_refl _))
  replace hrun := hrun.tail (Step.schedule (.check rfl rfl) rfl (List.prefix_refl _))
  replace hrun := hrun.tail (Step.schedule (.resume rfl) rfl List.nil_prefix)
  replace hrun := hrun.tail (Step.schedule (.begin rfl) rfl (List.prefix_refl _))
  replace hrun := hrun.tail (Step.schedule (.get rfl rfl) rfl (List.prefix_refl _))
  replace hrun := hrun.tail (Step.schedule (.check rfl rfl) rfl (List.prefix_refl _))
  replace hrun := hrun.tail (Step.schedule (.resume rfl) rfl (List.prefix_append ..))
  replace hrun := hrun.tail (@Step.emit _ 0 [⟨7, 5, false⟩] (by decide)
    (List.forall_mem_singleton.2 ⟨_, List.mem_cons_self .., rfl⟩) (by decide))
  replace hrun := hrun.tail (@Step.emit _ 1 [⟨9, 0, true⟩] (by decide)
    (List.forall_mem_singleton.2 ⟨_, List.mem_cons_of_mem _ (List.mem_cons_self ..), rfl⟩)
    (by decide))
  replace hrun := hrun.tail (@Step.receive _ 1 _ _ 10 _ rfl rfl)
  replace hrun := hrun.tail (@Step.receive _ 0 _ _ 12 _ rfl rfl)
  replace hrun := hrun.tail (@Step.emit _ 0 [⟨7, 6, true⟩] (by decide)
    (List.forall_mem_singleton.2 ⟨_, List.mem_cons_self .., rfl⟩) (by decide))
  replace hrun := hrun.tail (@Step.fetch _ [9] _ _ (by constructor <;> decide) rfl)
  replace hrun := hrun.tail (@Step.receive _ 0 _ _ 25 _ rfl rfl)
  replace hrun := hrun.tail (@Step.start _ _ _ [] [] rfl rfl)
  replace hrun := hrun.tail (@Step.fetch _ [7] _ _ (by constructor <;> decide) rfl)
  replace hrun := hrun.tail (@Step.put _ _ _ _ [] [] rfl rfl)
  replace hrun := hrun.tail (@Step.start _ _ _ [] [] rfl rfl)
  replace hrun := hrun.tail (@Step.pop _ _ _ _ [] [_] rfl rfl)
  exact ⟨_, hrun, rfl, rfl, rfl, rfl, rfl, exactlyOnce_of_run hrun⟩

end Completion

end StreamEP

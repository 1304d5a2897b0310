import StreamEP.Engine.Sampler
import StreamEP.Lib.Checked
import StreamEP.Kv.Isolation
import StreamEP.Admission.DPScheduler

/-!
# A request stays within its reservation

The scheduler reserves `⌈p / bs⌉ + ⌈o / bs⌉` blocks for a request with `p` cached tokens and an
output length of `o`. Every pass through the first layer adds one token, and the sampler decides
how many passes there are. `Sampler.passesLeft` is how many it allows at most, as its tables stand:
the forced tokens, the samples that do not use up the budget, and the one that ends the request.
Each call of `step` takes one away, whatever is sampled.

With the dummy sampler a request starts with `max 1 o` passes. The real sampler replays the
`f = len(prompt) mod 16` tokens after the last full page and then samples `max 1 (o - f)` times, so
when `o < f` it makes more passes than `o`. They still fit, because `f + 1` tokens are at most one
block and the `p` tokens before them fill theirs.

## Main results

* `sampleLoop_passesLeft` — what a batch does to the passes left
* `SamplerRun.Inv.of_steps`
* `SamplerRun.kvBudget_of_run`
-/

namespace StreamEP

open Relation

/-! ### Runs -/

namespace SamplerRun

structure Req where
  /-- The tokens in the cache at admission, as `admit_data` returned it. -/
  prefillLen : ℕ
  /-- `max_output_len` -/
  outputLen : ℕ
  /-- The passes through the first layer so far. -/
  passes : ℕ
  /-- Whether the request is on its way from the first layer to the sampler. -/
  underway : Bool
  deriving DecidableEq, Repr

structure State where
  sampler : Sampler
  reqs : ℕ → Option Req
  /-- The requests that have finished, as they were then. -/
  finished : List (ℕ × Req)

def State.init (s : Sampler) : State := ⟨s, fun _ => none, []⟩

/-- The sampler of an engine with blocks of `bs` tokens, before the first request. Pages of the
store hold 16 tokens, so the cache is loaded into blocks of 16. -/
inductive Starts : ℕ → Sampler → Prop
  | dummy {bs : ℕ} (hbs : 1 ≤ bs) : Starts bs (.dummy .init)
  | mooncake (eosTokenIds : List ℕ) : Starts 16 (.real (.init .mooncake eosTokenIds))

/-- The requests that reach `_admit_request`. Without a store, all do. With one, the token ids are
the prompt and the first generated token, and the number of pages loaded has to match
`init_prefill_len`. -/
def Admissible (initPrefillLen : ℕ) (tokenIds : List ℕ) : Sampler → Prop
  | .dummy _ => True
  | .real _ => ∃ prompt first, tokenIds = prompt ++ [first] ∧
      initPrefillLen = 16 * (prompt.length / 16)

/-- A pass of the requests `ids` through the first layer. -/
def pass (reqs : ℕ → Option Req) (ids : List ℕ) (r : ℕ) : Option Req :=
  if r ∈ ids then
    (reqs r).map fun x => { x with passes := x.passes + 1, underway := true }
  else
    reqs r

/-- The requests `ids` come out of the sampler and those of `finishReqIds` leave. -/
def sampled (reqs : ℕ → Option Req) (ids finishReqIds : List ℕ) (r : ℕ) : Option Req :=
  if r ∈ finishReqIds then none
  else if r ∈ ids then (reqs r).map fun x => { x with underway := false }
  else reqs r

inductive Step : State → State → Prop
  | admitRequest {s : State} {r initPrefillLen maxOutputLen prefillLen : ℕ} {tokenIds : List ℕ}
      {sampler : Sampler} (hnew : s.reqs r = none) (hlen : 1 ≤ maxOutputLen)
      (hadm : Admissible initPrefillLen tokenIds s.sampler)
      (h : s.sampler.admitRequest r initPrefillLen maxOutputLen tokenIds =
        .ok (prefillLen, sampler)) :
      Step s { s with
        sampler := sampler
        reqs := Function.update s.reqs r (some ⟨prefillLen, maxOutputLen, 0, false⟩) }
  /-- A batch at the first layer. -/
  | firstLayer {s : State} {ids : List ℕ}
      (hids : ∀ r ∈ ids, ∃ x, s.reqs r = some x ∧ x.underway = false) :
      Step s { s with reqs := pass s.reqs ids }
  /-- A batch behind the last layer, with the tokens that the model gives for it. -/
  | sampleResults {s : State} {ids toks : List ℕ} {res : StepResult} {sampler : Sampler}
      (hnodup : ids.Nodup) (htoks : toks.length = ids.length)
      (hids : ∀ r ∈ ids, ∃ x, s.reqs r = some x ∧ x.underway = true)
      (h : s.sampler.step ids toks = .ok (res, sampler)) :
      Step s
        { sampler := sampler
          reqs := sampled s.reqs ids res.finishReqIds
          finished := s.finished ++
            res.finishReqIds.filterMap fun r => (s.reqs r).map fun x => (r, x) }

end SamplerRun

/-! ### The passes that a sampler allows -/

/-- The passes that a budget of `maxLen` samples allows after `n` of them. The last pass is allowed
even when the budget is used up, since the sampler looks at it only then. -/
def samplesLeft (maxLen n : ℕ) : ℕ := maxLen - n - 1 + 1

theorem samplesLeft_zero (maxLen : ℕ) : samplesLeft maxLen 0 = max 1 maxLen := by
  unfold samplesLeft
  omega

theorem samplesLeft_succ {maxLen n : ℕ} (h : ¬ maxLen ≤ n + 1) :
    samplesLeft maxLen n = samplesLeft maxLen (n + 1) + 1 := by
  unfold samplesLeft
  omega

def DummySampler.passesLeft (s : DummySampler) (r : ℕ) : ℕ :=
  samplesLeft ((s.reqMaxOutputLen.lookup r).getD 0) ((s.outputLen.lookup r).getD 0)

def RealSampler.passesLeft (s : RealSampler) (r : ℕ) : ℕ :=
  ((s.forced.lookup r).getD []).length +
    samplesLeft ((s.reqMaxOutputLen.lookup r).getD 0) ((s.outLen.lookup r).getD 0)

def Sampler.passesLeft : Sampler → ℕ → ℕ
  | .dummy s => s.passesLeft
  | .real s => s.passesLeft

theorem Sampler.passesLeft_pos (s : Sampler) (r : ℕ) : 0 < s.passesLeft r := by
  cases s <;> simp only [passesLeft, DummySampler.passesLeft, RealSampler.passesLeft,
    samplesLeft] <;> omega

/-- What one round of the loop does: a request that goes on has one pass less, and the others keep
theirs. -/
def Spends {σ : Type} (left : σ → ℕ → ℕ) (one : σ → ℕ → ℕ → Except String (ℕ × Bool × σ)) : Prop :=
  ∀ s rid tok out isFinished s', one s rid tok = .ok (out, isFinished, s') →
    (isFinished = false → left s rid = left s' rid + 1) ∧ ∀ r ≠ rid, left s' r = left s r

theorem DummySampler.spends_sampleOne : Spends passesLeft sampleOne := by
  intro s rid tok out isFinished s' h
  unfold sampleOne at h
  split at h
  · cases h
  · cases h
  · next n maxLen hn hmax =>
    dsimp only at h
    split at h
    · obtain ⟨rfl, rfl, rfl⟩ : 0 = out ∧ true = isFinished ∧ _ = s' := by simpa using h
      refine ⟨nofun, fun r hr => ?_⟩
      simp only [passesLeft, cleanRequest, AList.lookup_erase_ne hr, AList.lookup_insert_ne hr]
    · next hend =>
      obtain ⟨rfl, rfl, rfl⟩ : 0 = out ∧ false = isFinished ∧ _ = s' := by simpa using h
      refine ⟨fun _ => ?_, fun r hr => ?_⟩
      · simp only [passesLeft, AList.lookup_insert, hn, hmax, Option.getD_some]
        exact samplesLeft_succ hend
      · simp only [passesLeft, AList.lookup_insert_ne hr]

namespace RealSampler

variable {s : RealSampler} {rid : ℕ}

theorem passesLeft_emit_false (r tok : ℕ) :
    (s.emit rid tok false).2.2.passesLeft r = s.passesLeft r := rfl

theorem passesLeft_emit_ne {r tok : ℕ} (hr : r ≠ rid) (isFinished : Bool) :
    (s.emit rid tok isFinished).2.2.passesLeft r = s.passesLeft r := by
  cases isFinished
  · exact passesLeft_emit_false r tok
  · simp only [emit, passesLeft, cleanRequest, if_true, AList.lookup_erase_ne hr]

theorem spends_sampleOne : Spends passesLeft sampleOne := by
  intro s rid tok out isFinished s' h
  unfold sampleOne at h
  split at h
  · -- a forced token
    next tok' forcedQ hforced =>
    obtain ⟨rfl, rfl, rfl⟩ : tok' = out ∧ false = isFinished ∧ _ = s' := by simpa [emit] using h
    refine ⟨fun _ => ?_, fun r hr => ?_⟩
    · simp only [passesLeft, AList.lookup_insert, hforced, Option.getD_some, List.length_cons]
      omega
    · simp only [passesLeft, AList.lookup_insert_ne hr]
  · split at h
    · cases h
    · next n hn =>
      have hothers : ∀ isFinished, ∀ r ≠ rid,
          (emit { s with outLen := s.outLen.insert rid (n + 1) } rid tok isFinished).2.2.passesLeft
            r = s.passesLeft r := by
        intro isFinished r hr
        rw [passesLeft_emit_ne hr]
        simp only [passesLeft, AList.lookup_insert_ne hr]
      dsimp only at h
      split at h
      · -- a stop token
        have h := Except.ok.inj h
        obtain rfl : true = isFinished := congrArg (·.2.1) h
        obtain rfl : _ = s' := congrArg (·.2.2) h
        exact ⟨nofun, hothers true⟩
      · split at h
        · cases h
        · next maxLen hmax =>
          have h := Except.ok.inj h
          obtain rfl : decide (maxLen ≤ n + 1) = isFinished := congrArg (·.2.1) h
          obtain rfl : _ = s' := congrArg (·.2.2) h
          refine ⟨fun hend => ?_, hothers _⟩
          have hsucc := samplesLeft_succ (of_decide_eq_false hend)
          rw [hend, passesLeft_emit_false]
          simp only [passesLeft, AList.lookup_insert, hn, hmax, Option.getD_some]
          omega

theorem kvSource_sampleOne {tok out : ℕ} {isFinished : Bool} {s' : RealSampler}
    (h : s.sampleOne rid tok = .ok (out, isFinished, s')) : s'.kvSource = s.kvSource := by
  have hemit : ∀ (t : RealSampler) (out : ℕ) (fin : Bool),
      (t.emit rid out fin).2.2.kvSource = t.kvSource := by
    intro t out fin
    cases fin <;> rfl
  unfold sampleOne at h
  split at h
  · exact (congrArg (·.2.2.kvSource) (Except.ok.inj h)).symm.trans (hemit _ _ _)
  split at h
  · cases h
  dsimp only at h
  split at h
  · exact (congrArg (·.2.2.kvSource) (Except.ok.inj h)).symm.trans (hemit _ _ _)
  split at h
  · cases h
  · exact (congrArg (·.2.2.kvSource) (Except.ok.inj h)).symm.trans (hemit _ _ _)

end RealSampler

/-- **A batch takes one pass from each of its requests that go on**, and none from the others. -/
theorem sampleLoop_passesLeft {σ : Type} {left : σ → ℕ → ℕ}
    {one : σ → ℕ → ℕ → Except String (ℕ × Bool × σ)} (hone : Spends left one) {i : ℕ}
    {batch : List (ℕ × ℕ)} (hnodup : (batch.map Prod.fst).Nodup) {s s' : σ} {res : StepResult}
    (h : sampleLoop one i s batch = .ok (res, s')) :
    (∀ r ∈ res.finishReqIds, r ∈ batch.map Prod.fst) ∧
      (∀ r ∈ batch.map Prod.fst, r ∉ res.finishReqIds → left s r = left s' r + 1) ∧
      ∀ r ∉ batch.map Prod.fst, left s' r = left s r := by
  induction batch generalizing i s res with
  | nil =>
    obtain ⟨rfl, rfl⟩ : StepResult.empty = res ∧ s = s' := by simpa [sampleLoop] using h
    exact ⟨by simp [StepResult.empty], by simp, fun _ _ => rfl⟩
  | cons e batch ih =>
    obtain ⟨rid, tok⟩ := e
    rw [List.map_cons, List.nodup_cons] at hnodup
    rw [sampleLoop] at h
    obtain ⟨⟨out, isFinished, t⟩, ht, h⟩ := bind_eq_ok.1 h
    obtain ⟨⟨res', t'⟩, hrest, h⟩ := bind_eq_ok.1 h
    obtain ⟨rfl, rfl⟩ : res'.cons i rid out isFinished = res ∧ t' = s' := by
      simpa [pure, Except.pure] using h
    obtain ⟨hspent, hkept⟩ := hone s rid tok out isFinished t ht
    obtain ⟨hfinish, hgoing, hothers⟩ := ih hnodup.2 hrest
    -- the request of this round is not met again
    have hrid : left t' rid = left t rid := hothers rid hnodup.1
    simp only [List.map_cons, List.mem_cons, not_or, StepResult.cons]
    refine ⟨fun r hr => ?_, ?_, fun r hr => ?_⟩
    · cases isFinished with
      | false => exact .inr (hfinish r hr)
      | true => exact (List.mem_cons.1 hr).imp_right (hfinish r)
    · rintro r (rfl | hr) hgo
      · cases isFinished with
        | false => rw [hspent rfl, hrid]
        | true => exact absurd (List.mem_cons_self ..) hgo
      · have hne : r ≠ rid := fun h => hnodup.1 (h ▸ hr)
        rw [← hkept r hne]
        refine hgoing r hr fun hmem => hgo ?_
        cases isFinished with
        | false => exact hmem
        | true => exact List.mem_cons_of_mem _ hmem
    · rw [hothers r hr.2, hkept r hr.1]

theorem sampleLoop_preserves {σ : Type} {P : σ → Prop}
    {one : σ → ℕ → ℕ → Except String (ℕ × Bool × σ)}
    (hone : ∀ s rid tok out isFinished s', one s rid tok = .ok (out, isFinished, s') → P s → P s')
    {i : ℕ} {batch : List (ℕ × ℕ)} {s s' : σ} {res : StepResult}
    (h : sampleLoop one i s batch = .ok (res, s')) (hs : P s) : P s' := by
  induction batch generalizing i s res with
  | nil =>
    obtain ⟨rfl, rfl⟩ : StepResult.empty = res ∧ s = s' := by simpa [sampleLoop] using h
    exact hs
  | cons e batch ih =>
    rw [sampleLoop] at h
    obtain ⟨⟨out, isFinished, t⟩, ht, h⟩ := bind_eq_ok.1 h
    obtain ⟨⟨res', t'⟩, hrest, h⟩ := bind_eq_ok.1 h
    obtain ⟨-, rfl⟩ : res'.cons i e.1 out isFinished = res ∧ t' = s' := by
      simpa [pure, Except.pure] using h
    exact ih hrest (hone s e.1 e.2 out isFinished t ht hs)

namespace Sampler

variable {s s' : Sampler} {ids toks : List ℕ} {res : StepResult}

theorem step_passesLeft (hnodup : ids.Nodup) (htoks : toks.length = ids.length)
    (h : s.step ids toks = .ok (res, s')) :
    (∀ r ∈ res.finishReqIds, r ∈ ids) ∧
      (∀ r ∈ ids, r ∉ res.finishReqIds → s.passesLeft r = s'.passesLeft r + 1) ∧
      ∀ r ∉ ids, s'.passesLeft r = s.passesLeft r := by
  have hmap : (ids.zip toks).map Prod.fst = ids := List.map_fst_zip htoks.ge
  cases s with
  | dummy s =>
    obtain ⟨⟨res', t⟩, ht, h⟩ := map_eq_ok.1 h
    obtain ⟨rfl, rfl⟩ := Prod.mk.inj h
    have hloop := sampleLoop_passesLeft DummySampler.spends_sampleOne (hmap.symm ▸ hnodup) ht
    rwa [hmap] at hloop
  | real s =>
    obtain ⟨⟨res', t⟩, ht, h⟩ := map_eq_ok.1 h
    obtain ⟨rfl, rfl⟩ := Prod.mk.inj h
    have hloop := sampleLoop_passesLeft RealSampler.spends_sampleOne (hmap.symm ▸ hnodup) ht
    rwa [hmap] at hloop

end Sampler

/-! ### Admission -/

/-- **The reservation of a request that replays the end of its prompt.** The replay and the sample
after it are at most one page. -/
theorem replay_le_reserved (n : ℕ) {o : ℕ} (ho : 1 ≤ o) :
    16 * (n / 16) + (n % 16 + max 1 (o - n % 16)) ≤
      16 * requiredBlocks 16 (16 * (n / 16)) o := by
  unfold requiredBlocks
  omega

/-- A request admitted with a loaded cache replays the tokens after the first `L + 1`, and then has
at least one sample. -/
theorem RealSampler.admitData_passesLeft {s t s' : RealSampler} {r o L p : ℕ} {tokenIds : List ℕ}
    (hsource : s.kvSource = .mooncake) (hcreate : s.createRequest r o tokenIds = .ok t)
    (h : t.admitData r L tokenIds = .ok (p, s')) :
    p = L ∧ s'.kvSource = .mooncake ∧
      s'.passesLeft r =
        (tokenIds.length - (L + 1)) + max 1 (o - (tokenIds.length - (L + 1))) ∧
      ∀ r' ≠ r, s'.passesLeft r' = s.passesLeft r' := by
  unfold createRequest at hcreate
  split at hcreate
  · cases hcreate
  obtain rfl := Except.ok.inj hcreate
  unfold admitData at h
  simp only [hsource] at h
  split at h
  · cases h
  obtain ⟨u, hu, h⟩ := bind_eq_ok.1 h
  obtain ⟨rfl, rfl⟩ : L = p ∧ _ = s' := by simpa [pure, Except.pure] using h
  rw [← List.length_drop]
  unfold reduceMaxOutputLen at hu
  split at hu
  · next hforced =>
    obtain rfl := Except.ok.inj hu
    refine ⟨rfl, rfl, ?_, fun r' hr' => ?_⟩
    · simp only [passesLeft, AList.lookup_insert, Option.getD_some, hforced, List.length_nil,
        samplesLeft_zero, Nat.sub_zero]
    · simp only [passesLeft, AList.lookup_insert_ne hr']
  · simp only [AList.lookup_insert] at hu
    obtain rfl := Except.ok.inj hu
    refine ⟨rfl, rfl, ?_, fun r' hr' => ?_⟩
    · simp only [passesLeft, AList.lookup_insert, Option.getD_some, samplesLeft_zero]
      omega
    · simp only [passesLeft, AList.lookup_insert_ne hr']

namespace Sampler

variable {s s' : Sampler}

/-- The samplers of an engine with blocks of `bs` tokens. -/
def Serves (bs : ℕ) : Sampler → Prop
  | .dummy _ => 1 ≤ bs
  | .real s => bs = 16 ∧ s.kvSource = .mooncake

theorem serves_of_starts {bs : ℕ} (h : SamplerRun.Starts bs s) : s.Serves bs := by
  cases h with
  | dummy hbs => exact hbs
  | mooncake eosTokenIds => exact ⟨rfl, rfl⟩

theorem Serves.pos {bs : ℕ} (h : s.Serves bs) : 0 < bs := by
  cases s with
  | dummy s => exact h
  | real s => rw [h.1]; decide

theorem Serves.step {bs : ℕ} {ids toks : List ℕ} {res : StepResult} (hs : s.Serves bs)
    (h : s.step ids toks = .ok (res, s')) : s'.Serves bs := by
  cases s with
  | dummy s =>
    obtain ⟨⟨res', t⟩, -, ht⟩ := map_eq_ok.1 h
    obtain ⟨-, rfl⟩ := Prod.mk.inj ht
    exact hs
  | real s =>
    obtain ⟨⟨res', t⟩, hloop, ht⟩ := map_eq_ok.1 h
    obtain ⟨-, rfl⟩ := Prod.mk.inj ht
    refine ⟨hs.1, sampleLoop_preserves (P := fun t => t.kvSource = .mooncake) ?_ hloop hs.2⟩
    intro s rid tok out isFinished s' hround hsource
    exact (RealSampler.kvSource_sampleOne hround).trans hsource

/-- **An admission.** The passes allowed fit in the blocks reserved. -/
theorem admitRequest_spec {bs r L o p : ℕ} {tokenIds : List ℕ} (hserves : s.Serves bs)
    (ho : 1 ≤ o) (hadm : SamplerRun.Admissible L tokenIds s)
    (h : s.admitRequest r L o tokenIds = .ok (p, s')) :
    s'.Serves bs ∧ p + s'.passesLeft r ≤ bs * requiredBlocks bs p o ∧
      ∀ r' ≠ r, s'.passesLeft r' = s.passesLeft r' := by
  obtain ⟨t, hcreate, h⟩ := bind_eq_ok.1 h
  cases s with
  | dummy s =>
    obtain rfl := Except.ok.inj hcreate
    obtain ⟨rfl, rfl⟩ : L = p ∧ _ = s' := by simpa [admitData] using h
    refine ⟨hserves, ?_, fun r' hr' => ?_⟩
    · simp only [passesLeft, DummySampler.passesLeft, DummySampler.createRequest,
        AList.lookup_insert, Option.getD_some, samplesLeft_zero, max_eq_right ho]
      exact add_le_requiredBlocks hserves L o
    · simp only [passesLeft, DummySampler.passesLeft, DummySampler.createRequest,
        AList.lookup_insert_ne hr']
  | real s =>
    obtain ⟨rfl, hsource⟩ := hserves
    obtain ⟨t, hcreated, rfl⟩ := map_eq_ok.1 hcreate
    obtain ⟨⟨p', u⟩, hadmitted, hu⟩ := map_eq_ok.1 h
    obtain ⟨rfl, rfl⟩ : p' = p ∧ Sampler.real u = s' := Prod.mk.inj hu
    obtain ⟨rfl, hsource', hleft, hothers⟩ :=
      RealSampler.admitData_passesLeft hsource hcreated hadmitted
    refine ⟨⟨rfl, hsource'⟩, ?_, hothers⟩
    obtain ⟨prompt, first, rfl, rfl⟩ := hadm
    -- the tokens after the last full page
    have htail : (prompt ++ [first]).length - (16 * (prompt.length / 16) + 1) =
        prompt.length % 16 := by
      rw [List.length_append, List.length_singleton]
      omega
    rw [htail] at hleft
    exact (Nat.add_le_add_left hleft.le _).trans (replay_le_reserved prompt.length ho)

end Sampler

/-! ### Whole runs -/

namespace SamplerRun

variable {bs : ℕ} {s s' : State}

/-- The tokens that the blocks reserved for a request hold. -/
def Req.reserved (bs : ℕ) (x : Req) : ℕ := bs * requiredBlocks bs x.prefillLen x.outputLen

/-- Passes made and passes left fit in the reservation. -/
structure Inv (bs : ℕ) (s : State) : Prop where
  serves : s.sampler.Serves bs
  /-- The pass that a request underway has made is not taken off yet. -/
  running : ∀ r x, s.reqs r = some x →
    x.prefillLen + x.passes + s.sampler.passesLeft r ≤ x.reserved bs + x.underway.toNat
  finished : ∀ r x, (r, x) ∈ s.finished → x.prefillLen + x.passes ≤ x.reserved bs

theorem Inv.le_reserved (hs : Inv bs s) {r : ℕ} {x : Req} (h : s.reqs r = some x) :
    x.prefillLen + x.passes ≤ x.reserved bs := by
  have hrun := hs.running r x h
  have hpos := s.sampler.passesLeft_pos r
  have hle := Bool.toNat_le x.underway
  omega

theorem Inv.init {sampler : Sampler} (h : Starts bs sampler) : Inv bs (State.init sampler) where
  serves := Sampler.serves_of_starts h
  running _ _ h := by cases h
  finished _ _ h := by cases h

theorem Inv.admitRequest (hs : Inv bs s) {r L o p : ℕ} {tokenIds : List ℕ} {sampler : Sampler}
    (ho : 1 ≤ o) (hadm : Admissible L tokenIds s.sampler)
    (h : s.sampler.admitRequest r L o tokenIds = .ok (p, sampler)) :
    Inv bs { s with
      sampler := sampler
      reqs := Function.update s.reqs r (some ⟨p, o, 0, false⟩) } := by
  obtain ⟨hserves, hfits, hothers⟩ := Sampler.admitRequest_spec hs.serves ho hadm h
  refine ⟨hserves, fun r' x (hx : Function.update s.reqs r _ r' = some x) => ?_, hs.finished⟩
  by_cases hr : r' = r
  · subst hr
    obtain rfl : (⟨p, o, 0, false⟩ : Req) = x := by simpa using hx
    exact hfits
  · rw [Function.update_of_ne hr] at hx
    show _ + sampler.passesLeft r' ≤ _
    rw [hothers r' hr]
    exact hs.running r' x hx

theorem Inv.firstLayer (hs : Inv bs s) {ids : List ℕ}
    (hids : ∀ r ∈ ids, ∃ x, s.reqs r = some x ∧ x.underway = false) :
    Inv bs { s with reqs := pass s.reqs ids } := by
  refine ⟨hs.serves, fun r x (hx : pass s.reqs ids r = some x) => ?_, hs.finished⟩
  by_cases hr : r ∈ ids
  · obtain ⟨y, hy, hidle⟩ := hids r hr
    rw [pass, if_pos hr, hy] at hx
    obtain rfl := Option.some.inj hx
    have hrun := hs.running r y hy
    rw [hidle] at hrun
    show y.prefillLen + (y.passes + 1) + s.sampler.passesLeft r ≤ y.reserved bs + 1
    simp only [Bool.toNat_false] at hrun
    omega
  · rw [pass, if_neg hr] at hx
    exact hs.running r x hx

theorem Inv.sampleResults (hs : Inv bs s) {ids toks : List ℕ} {res : StepResult}
    {sampler : Sampler} (hnodup : ids.Nodup) (htoks : toks.length = ids.length)
    (hids : ∀ r ∈ ids, ∃ x, s.reqs r = some x ∧ x.underway = true)
    (h : s.sampler.step ids toks = .ok (res, sampler)) :
    Inv bs
      { sampler := sampler
        reqs := sampled s.reqs ids res.finishReqIds
        finished := s.finished ++
          res.finishReqIds.filterMap fun r => (s.reqs r).map fun x => (r, x) } := by
  obtain ⟨-, hgoing, hothers⟩ := Sampler.step_passesLeft hnodup htoks h
  refine ⟨hs.serves.step h, fun r x (hx : sampled s.reqs ids res.finishReqIds r = some x) => ?_,
    fun r x hx => ?_⟩
  · rw [sampled] at hx
    split at hx
    · cases hx
    next hgo =>
    split at hx
    · next hr =>
      obtain ⟨y, hy, hunderway⟩ := hids r hr
      rw [hy] at hx
      obtain rfl := Option.some.inj hx
      have hrun := hs.running r y hy
      rw [hgoing r hr hgo, hunderway, Bool.toNat_true] at hrun
      show y.prefillLen + y.passes + sampler.passesLeft r ≤ y.reserved bs + 0
      omega
    · next hr =>
      show _ + sampler.passesLeft r ≤ _
      rw [hothers r hr]
      exact hs.running r x hx
  · rcases List.mem_append.1 hx with hx | hx
    · exact hs.finished r x hx
    · obtain ⟨r', -, hr'⟩ := List.mem_filterMap.1 hx
      obtain ⟨y, hy, hyx⟩ := Option.map_eq_some_iff.1 hr'
      obtain ⟨rfl, rfl⟩ := Prod.mk.inj hyx
      exact hs.le_reserved hy

theorem Inv.step (hs : Inv bs s) (h : Step s s') : Inv bs s' := by
  cases h with
  | admitRequest _ hlen hadm h => exact hs.admitRequest hlen hadm h
  | firstLayer hids => exact hs.firstLayer hids
  | sampleResults hnodup htoks hids h => exact hs.sampleResults hnodup htoks hids h

theorem Inv.of_steps {sampler : Sampler} (hstart : Starts bs sampler)
    (hrun : ReflTransGen Step (State.init sampler) s) : Inv bs s := by
  induction hrun with
  | refl => exact Inv.init hstart
  | tail _ hstep ih => exact ih.step hstep

/-- **A request stays within its reservation.** Whatever is sampled, the tokens it starts with and
its passes through the first layer are at most what the reserved blocks hold, while it runs and when
it has finished; so at no point of these passes does it have more blocks than were reserved. -/
theorem kvBudget_of_run {sampler : Sampler} (hstart : Starts bs sampler)
    (hrun : ReflTransGen Step (State.init sampler) s) {r : ℕ} {x : Req}
    (hx : s.reqs r = some x ∨ (r, x) ∈ s.finished) :
    x.passes + x.prefillLen ≤ bs * requiredBlocks bs x.prefillLen x.outputLen ∧
      ∀ (W : Type) (numBlocks firstLayer : ℕ) (kv : KvRun.State W),
        ReflTransGen KvRun.Step (KvRun.State.init W bs numBlocks firstLayer) kv →
        ∀ k ≤ x.passes, kv.reqs r = some (x.prefillLen, k) →
          ∃ l, kv.mgr.blockMgr.blockTables.lookup r = some l ∧
            l.length ≤ requiredBlocks bs x.prefillLen x.outputLen := by
  have hs := Inv.of_steps hstart hrun
  have hbs := hs.serves.pos
  have hle : x.prefillLen + x.passes ≤ bs * requiredBlocks bs x.prefillLen x.outputLen :=
    hx.elim hs.le_reserved (hs.finished r x)
  refine ⟨by omega, fun W numBlocks firstLayer kv hkv k hk hreq => ?_⟩
  obtain ⟨l, hl, hlen⟩ := (KvRun.Inv.of_steps hbs hkv).blocks r x.prefillLen k hreq
  refine ⟨l, hl, ?_⟩
  rw [hlen, ceilDiv_le_iff_le_smul hbs]
  exact (Nat.add_le_add_left hk _).trans hle

/-- A batch of request `7`, which is new there when `q` is one and not when it is zero. -/
def passOf (q : ℕ) : BatchMetadata ℕ where
  batchTag := .attention
  numTokens := 1
  tokenHiddenDim := 1
  layerId := 0
  reqIds := [7]
  expIds := []
  topkWeights := []
  attnDpRanks := []
  initPrefillLens := [16]
  numPrefillSeqs := some q
  numPrefillTokens := some q
  numDecodeTokens := some (1 - q)

theorem firstBatch_passOf {reqs : ℕ → Option (ℕ × ℕ)} {q : ℕ} (hq : q ≤ 1)
    (hnew : q = 1 → reqs 7 = some (16, 0)) (hold : q = 0 → ∃ p k, reqs 7 = some (p, k + 1)) :
    KvRun.FirstBatch reqs (passOf q) q where
  nodup := List.nodup_singleton 7
  reqIds := rfl
  numPrefillSeqs := rfl
  numPrefillTokens := rfl
  le := hq
  new i r hi hr := by
    obtain rfl : i = 0 := by omega
    obtain rfl := Option.some.inj hr
    exact ⟨16, rfl, .inr (hnew (by omega))⟩
  old i r hi hr := by
    obtain rfl := List.mem_singleton.mp (List.mem_of_getElem? hr)
    have hlt : i < 1 := (List.getElem?_eq_some_iff.mp hr).1
    exact hold (by omega)

/-- A prompt of 18 tokens has one full page, and its last two tokens are replayed. With an output
length of `1` the request makes three passes, the first of which starts its second block. -/
theorem kvBudget_short_output :
    ∃ s, ReflTransGen Step (State.init (.real (.init .mooncake [0]))) s ∧
      (7, (⟨16, 1, 3, true⟩ : Req)) ∈ s.finished ∧
      3 + 16 ≤ 16 * requiredBlocks 16 16 1 ∧
      ∃ (kv : KvRun.State ℕ) (l : List ℕ), kv.reqs 7 = some (16, 3) ∧
        kv.mgr.blockMgr.blockTables.lookup 7 = some l ∧ l.length ≤ requiredBlocks 16 16 1 := by
  have hrun : ReflTransGen Step (State.init (.real (.init .mooncake [0]))) _ := .refl
  replace hrun := hrun.tail (@Step.admitRequest _ 7 16 1 16 (List.replicate 18 3 ++ [4]) _ rfl
    (le_refl 1) ⟨_, _, rfl, rfl⟩ rfl)
  replace hrun := hrun.tail (@Step.firstLayer _ [7] (List.forall_mem_singleton.2 ⟨_, rfl, rfl⟩))
  replace hrun := hrun.tail (@Step.sampleResults _ [7] [5] _ _ (List.nodup_singleton 7) rfl
    (List.forall_mem_singleton.2 ⟨_, rfl, rfl⟩) rfl)
  replace hrun := hrun.tail (@Step.firstLayer _ [7] (List.forall_mem_singleton.2 ⟨_, rfl, rfl⟩))
  replace hrun := hrun.tail (@Step.sampleResults _ [7] [5] _ _ (List.nodup_singleton 7) rfl
    (List.forall_mem_singleton.2 ⟨_, rfl, rfl⟩) rfl)
  replace hrun := hrun.tail (@Step.firstLayer _ [7] (List.forall_mem_singleton.2 ⟨_, rfl, rfl⟩))
  replace hrun := hrun.tail (@Step.sampleResults _ [7] [5] _ _ (List.nodup_singleton 7) rfl
    (List.forall_mem_singleton.2 ⟨_, rfl, rfl⟩) rfl)
  have hkv : ReflTransGen KvRun.Step (KvRun.State.init ℕ 16 4 0) _ :=
    .tail .refl (KvRun.Step.install (r := 7) (p := 16) rfl rfl)
  replace hkv := hkv.tail (@KvRun.Step.firstLayer ℕ _ (passOf 1) 1 [17] _ rfl
    (firstBatch_passOf le_rfl (fun _ => rfl) nofun) rfl)
  replace hkv := hkv.tail (@KvRun.Step.firstLayer ℕ _ (passOf 0) 0 [18] _ rfl
    (firstBatch_passOf zero_le_one nofun fun _ => ⟨16, 0, rfl⟩) rfl)
  replace hkv := hkv.tail (@KvRun.Step.firstLayer ℕ _ (passOf 0) 0 [19] _ rfl
    (firstBatch_passOf zero_le_one nofun fun _ => ⟨16, 1, rfl⟩) rfl)
  have hbudget := kvBudget_of_run (.mooncake [0]) hrun (r := 7) (x := ⟨16, 1, 3, true⟩)
    (.inr (List.mem_singleton.2 rfl))
  obtain ⟨l, hl, hlen⟩ := hbudget.2 ℕ 4 0 _ hkv 3 le_rfl rfl
  exact ⟨_, hrun, List.mem_singleton.2 rfl, hbudget.1, _, l, rfl, hl, hlen⟩

end SamplerRun

end StreamEP

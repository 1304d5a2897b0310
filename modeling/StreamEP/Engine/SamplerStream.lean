import StreamEP.Engine.Sampler
import StreamEP.Lib.Checked
import Mathlib.Logic.Relation

/-!
# The token stream of a request

What the real sampler of `disagmoe/sampler.py` emits for a request over its whole life, however
requests are batched and whatever the model gives. The state of a request is spread over four maps,
and a batch changes them request by request. A request that has been through the sampler `n` times
has replayed the first `n` of its forced tokens; behind these, every pass emits the arg-max of its
row, until the first stop token or until the budget is used up.

The run keeps, for every admission, the tokens emitted and the arg-max results of its rows. An
admission is the pair `create_request`, `admit_data` as `_admit_request` makes it.

## Main results

* `SamplerStream.sampleOne_forced`, `SamplerStream.sampleOne_sampled` — a round of the loop
* `SamplerStream.sampleLoop_spec` — a batch
* `SamplerStream.Inv.of_steps`
* `SamplerStream.realSampler_stream`
-/

namespace StreamEP

open Relation

namespace RealSampler

/-- `self.embedding.index_select(0, next_tok)` for the tokens of the requests that go on. Without
such requests there are no rows. -/
def continuedData {V : Type} (embedding : List V) (res : StepResult) : Except String (List V) :=
  res.continueIds.mapM fun i =>
    match res.outTokenIds[i]? with
    | none => .error "list index out of range"
    | some tok =>
      match embedding[tok]? with
      | none => .error "index out of range in self"
      | some row => .ok row

/-- `step`, with the rows that it returns -/
def stepRows {V : Type} (embedding : List V) (s : RealSampler) (reqIds sampled : List ℕ) :
    Except String (StepResult × List V × RealSampler) := do
  let (res, s) ← s.step reqIds sampled
  let rows ← continuedData embedding res
  return (res, rows, s)

end RealSampler

namespace SamplerStream

/-! ### Requests -/

structure Request where
  tokenIds : List ℕ
  initPrefillLen : ℕ
  /-- `max_output_len` as it was requested -/
  maxOutputLen : ℕ
  emitted : List ℕ
  /-- The arg-max results of its rows so far. -/
  argmax : List ℕ
  deriving DecidableEq, Repr, Inhabited

namespace Request

/-- The stream goes on with a token. -/
def push (x : Request) (tok a : ℕ) : Request :=
  { x with emitted := x.emitted ++ [tok], argmax := x.argmax ++ [a] }

def forced (kv : KvSource) (x : Request) : List ℕ :=
  match kv with
  | .none => x.tokenIds.drop 1
  | .mooncake => x.tokenIds.drop (x.initPrefillLen + 1)

/-- How many tokens may be sampled for a request. -/
def budget (kv : KvSource) (x : Request) : ℕ :=
  if kv = .mooncake ∧ x.forced kv ≠ [] then max 1 (x.maxOutputLen - (x.forced kv).length)
  else max 1 x.maxOutputLen

def sampled (kv : KvSource) (x : Request) : List ℕ := x.argmax.drop (x.forced kv).length

/-- The stream of a request that goes on: a part of the replay, or all of it and samples that do
not end the request. -/
structure Going (kv : KvSource) (eos : List ℕ) (x : Request) : Prop where
  emitted : x.emitted = (x.forced kv).take x.argmax.length ++ x.sampled kv
  noStop : ∀ t ∈ x.sampled kv, t ∉ eos
  within : (x.sampled kv).length < x.budget kv

/-- The stream of a finished request: the whole replay, then the samples up to the first stop token
or up to the budget, whichever is first. -/
structure Done (kv : KvSource) (eos : List ℕ) (x : Request) : Prop where
  emitted : x.emitted = x.forced kv ++ x.sampled kv
  ends : ∃ before last, x.sampled kv = before ++ [last] ∧ (∀ t ∈ before, t ∉ eos) ∧
    before.length < x.budget kv ∧ (last ∈ eos ∨ before.length + 1 = x.budget kv)

end Request

/-! ### Runs -/

structure State where
  sampler : RealSampler
  reqs : ℕ → Option Request
  /-- The finished requests, as they were then. -/
  finished : List (ℕ × Request)

def State.init (kv : KvSource) (eos : List ℕ) : State := ⟨.init kv eos, fun _ => none, []⟩

/-- Add the tokens of a batch to the streams. An entry is a request, its token and the arg-max
result of its row. -/
def record (entries : List (ℕ × ℕ × ℕ)) (reqs : ℕ → Option Request) (r : ℕ) : Option Request :=
  match entries.lookup r with
  | none => reqs r
  | some (tok, a) => (reqs r).map fun x => x.push tok a

inductive Step {V : Type} (embedding : List V) : State → State → Prop
  /-- `create_request` and `admit_data`. -/
  | admitRequest {s : State} {r initPrefillLen maxOutputLen prefillLen : ℕ} {tokenIds : List ℕ}
      {t t' : RealSampler} (hnew : s.reqs r = none)
      (hcreate : s.sampler.createRequest r maxOutputLen tokenIds = .ok t)
      (hdata : t.admitData r initPrefillLen tokenIds = .ok (prefillLen, t')) :
      Step embedding s { s with
        sampler := t'
        reqs := Function.update s.reqs r
          (some ⟨tokenIds, initPrefillLen, maxOutputLen, [], []⟩) }
  /-- `step` on a batch of live requests, with the arg-max of every row. -/
  | step {s : State} {ids argmax : List ℕ} {res : StepResult} {rows : List V} {t : RealSampler}
      (hnodup : ids.Nodup) (hargmax : argmax.length = ids.length)
      (hlive : ∀ r ∈ ids, ∃ x, s.reqs r = some x)
      (h : s.sampler.stepRows embedding ids argmax = .ok (res, rows, t)) :
      Step embedding s
        { sampler := t
          reqs := fun r => if r ∈ res.finishReqIds then none
            else record (ids.zip (res.outTokenIds.zip argmax)) s.reqs r
          finished := s.finished ++ res.finishReqIds.filterMap fun r =>
            (record (ids.zip (res.outTokenIds.zip argmax)) s.reqs r).map fun x => (r, x) }

/-! ### What the maps hold about a request -/

/-- The entries of the four maps for a request. -/
abbrev Row : Type := Option (List ℕ) × Option ℕ × Option ℕ × Option ℕ

def row (s : RealSampler) (r : ℕ) : Row :=
  (s.forced.lookup r, s.outLen.lookup r, s.reqMaxOutputLen.lookup r, s.lastToken.lookup r)

def Row.absent : Row := (none, none, none, none)

/-- The entries of a request whose stream goes on: what is left of the replay, how many tokens were
sampled, and a limit that is at least its budget. -/
structure Tracks (kv : KvSource) (eos : List ℕ) (e : Row) (x : Request) : Prop where
  going : x.Going kv eos
  entries : ∃ n tok, e = (some ((x.forced kv).drop x.argmax.length),
    some (x.sampled kv).length, some n, some tok) ∧ max 1 n = x.budget kv

variable {s : RealSampler} {r : ℕ}

/-- Nothing but the entries of `r` has changed. -/
structure OnlyAt (s : RealSampler) (r : ℕ) (s' : RealSampler) : Prop where
  kvSource : s'.kvSource = s.kvSource
  eosTokenIds : s'.eosTokenIds = s.eosTokenIds
  rows : ∀ r' ≠ r, row s' r' = row s r'

theorem OnlyAt.emit {t : RealSampler} (h : OnlyAt s r t) (tok : ℕ) (isFinished : Bool) :
    OnlyAt s r (t.emit r tok isFinished).2.2 := by
  cases isFinished with
  | false =>
    refine ⟨h.kvSource, h.eosTokenIds, fun r' hr => ?_⟩
    rw [← h.rows r' hr]
    simp only [RealSampler.emit, row, AList.lookup_insert_ne hr, Bool.false_eq_true, if_false]
  | true =>
    refine ⟨h.kvSource, h.eosTokenIds, fun r' hr => ?_⟩
    rw [← h.rows r' hr]
    simp only [RealSampler.emit, RealSampler.cleanRequest, row, AList.lookup_erase_ne hr,
      AList.lookup_insert_ne hr, if_true]

theorem row_emit (t : RealSampler) (r tok : ℕ) (isFinished : Bool) :
    row (t.emit r tok isFinished).2.2 r =
      if isFinished then Row.absent
      else (t.forced.lookup r, t.outLen.lookup r, t.reqMaxOutputLen.lookup r, some tok) := by
  cases isFinished with
  | false => simp only [RealSampler.emit, row, AList.lookup_insert, Bool.false_eq_true, if_false]
  | true =>
    simp only [RealSampler.emit, RealSampler.cleanRequest, row, AList.lookup_erase, if_true,
      Row.absent]

theorem sampleOne_forced {tok : ℕ} {forcedQ : List ℕ} {n m l : Option ℕ}
    (h : row s r = (some (tok :: forcedQ), n, m, l)) (a : ℕ) :
    ∃ s', s.sampleOne r a = .ok (tok, false, s') ∧ OnlyAt s r s' ∧
      row s' r = (some forcedQ, n, m, some tok) := by
  obtain ⟨hforced, hn, hm, -⟩ : s.forced.lookup r = some (tok :: forcedQ) ∧ s.outLen.lookup r = n ∧
      s.reqMaxOutputLen.lookup r = m ∧ s.lastToken.lookup r = l := by
    simpa [row] using h
  have honly : OnlyAt s r { s with forced := s.forced.insert r forcedQ } := by
    refine ⟨rfl, rfl, fun r' hr => ?_⟩
    simp only [row, AList.lookup_insert_ne hr]
  refine ⟨_, ?_, honly.emit tok false, ?_⟩
  · unfold RealSampler.sampleOne
    rw [hforced]
    rfl
  · rw [row_emit]
    simp only [AList.lookup_insert, hn, hm, Bool.false_eq_true, if_false]

theorem sampleOne_sampled {n m : ℕ} {l : Option ℕ} (h : row s r = (some [], some n, some m, l))
    (a : ℕ) :
    ∃ s', s.sampleOne r a = .ok (a, decide (a ∈ s.eosTokenIds ∨ m ≤ n + 1), s') ∧ OnlyAt s r s' ∧
      row s' r = if a ∈ s.eosTokenIds ∨ m ≤ n + 1 then Row.absent
        else (some [], some (n + 1), some m, some a) := by
  obtain ⟨hforced, hn, hm, -⟩ : s.forced.lookup r = some [] ∧ s.outLen.lookup r = some n ∧
      s.reqMaxOutputLen.lookup r = some m ∧ s.lastToken.lookup r = l := by
    simpa [row] using h
  have honly : OnlyAt s r { s with outLen := s.outLen.insert r (n + 1) } := by
    refine ⟨rfl, rfl, fun r' hr => ?_⟩
    simp only [row, AList.lookup_insert_ne hr]
  refine ⟨_, ?_, honly.emit a (decide (a ∈ s.eosTokenIds ∨ m ≤ n + 1)), ?_⟩
  · unfold RealSampler.sampleOne
    rw [hforced]
    simp only [hn]
    by_cases hstop : a ∈ s.eosTokenIds
    · rw [if_pos hstop, decide_eq_true (Or.inl hstop)]
      rfl
    · rw [if_neg hstop, hm]
      simp only [hstop, false_or]
      rfl
  · rw [row_emit]
    simp only [AList.lookup_insert, hforced, hm, decide_eq_true_eq]

/-! ### One more token -/

section Push

variable {kv : KvSource} {eos : List ℕ} {x : Request}

@[simp] theorem forced_push (kv : KvSource) (x : Request) (tok a : ℕ) :
    (x.push tok a).forced kv = x.forced kv := rfl

@[simp] theorem budget_push (kv : KvSource) (x : Request) (tok a : ℕ) :
    (x.push tok a).budget kv = x.budget kv := rfl

theorem length_argmax_push (x : Request) (tok a : ℕ) :
    (x.push tok a).argmax.length = x.argmax.length + 1 :=
  List.length_append

theorem budget_pos (kv : KvSource) (x : Request) : 0 < x.budget kv := by
  unfold Request.budget
  split <;> omega

theorem sampled_eq_nil (h : x.argmax.length ≤ (x.forced kv).length) : x.sampled kv = [] :=
  List.drop_eq_nil_of_le h

theorem sampled_push (h : (x.forced kv).length ≤ x.argmax.length) (tok a : ℕ) :
    (x.push tok a).sampled kv = x.sampled kv ++ [a] :=
  List.drop_append_of_le_length h

theorem tracks_push_forced {tok n last : ℕ} {forcedQ : List ℕ}
    (hgoing : x.Going kv eos) (hforced : (x.forced kv).drop x.argmax.length = tok :: forcedQ)
    (hbudget : max 1 n = x.budget kv) (a : ℕ) :
    Tracks kv eos (some forcedQ, some (x.sampled kv).length, some n, some last) (x.push tok a) := by
  have hlt : x.argmax.length < (x.forced kv).length := by
    by_contra hge
    rw [List.drop_eq_nil_of_le (not_lt.mp hge)] at hforced
    cases hforced
  have hnil := sampled_eq_nil (Nat.le_of_lt hlt)
  have hnil' : (x.push tok a).sampled kv = [] := by
    refine sampled_eq_nil ?_
    rw [length_argmax_push, forced_push]
    exact hlt
  obtain ⟨hget, hdrop⟩ : (x.forced kv)[x.argmax.length]? = some tok ∧
      (x.forced kv).drop (x.argmax.length + 1) = forcedQ := by
    rw [← List.head?_drop, ← List.tail_drop, hforced]
    exact ⟨rfl, rfl⟩
  refine ⟨⟨?_, ?_, ?_⟩, n, last, ?_, hbudget⟩
  · rw [hnil', length_argmax_push, forced_push, List.take_add_one, hget, List.append_nil]
    show x.emitted ++ [tok] = _
    rw [hgoing.emitted, hnil, List.append_nil]
    rfl
  · rw [hnil']
    exact List.forall_mem_nil _
  · rw [hnil']
    exact budget_pos kv x
  · rw [hnil', hnil, length_argmax_push, forced_push, hdrop]

theorem emitted_push_sampled (hgoing : x.Going kv eos)
    (hforced : (x.forced kv).length ≤ x.argmax.length) (a : ℕ) :
    (x.push a a).emitted = x.forced kv ++ (x.push a a).sampled kv := by
  rw [sampled_push hforced, ← List.append_assoc]
  show x.emitted ++ [a] = _
  rw [hgoing.emitted, List.take_of_length_le hforced]

theorem done_push_sampled {n a : ℕ} (hgoing : x.Going kv eos)
    (hforced : (x.forced kv).length ≤ x.argmax.length) (hbudget : max 1 n = x.budget kv)
    (hend : a ∈ eos ∨ n ≤ (x.sampled kv).length + 1) : (x.push a a).Done kv eos := by
  refine ⟨emitted_push_sampled hgoing hforced a, x.sampled kv, a, sampled_push hforced a a,
    hgoing.noStop, hgoing.within, hend.imp_right fun hle => ?_⟩
  have hlt := hgoing.within
  rw [budget_push]
  omega

theorem tracks_push_sampled {n a last : ℕ} (hgoing : x.Going kv eos)
    (hforced : (x.forced kv).length ≤ x.argmax.length) (hbudget : max 1 n = x.budget kv)
    (hend : ¬(a ∈ eos ∨ n ≤ (x.sampled kv).length + 1)) :
    Tracks kv eos (some [], some ((x.sampled kv).length + 1), some n, some last)
      (x.push a a) := by
  obtain ⟨hstop, hlen⟩ := not_or.mp hend
  have hlen' : ((x.push a a).sampled kv).length = (x.sampled kv).length + 1 := by
    rw [sampled_push hforced]
    exact List.length_append
  refine ⟨⟨?_, ?_, ?_⟩, n, last, ?_, hbudget⟩
  · rw [emitted_push_sampled hgoing hforced, forced_push, List.take_of_length_le]
    rw [length_argmax_push]
    exact Nat.le_succ_of_le hforced
  · intro t ht
    rw [sampled_push hforced, List.mem_append, List.mem_singleton] at ht
    rcases ht with ht | rfl
    · exact hgoing.noStop t ht
    · exact hstop
  · rw [hlen', budget_push]
    omega
  · rw [hlen', length_argmax_push, forced_push,
      List.drop_eq_nil_of_le (Nat.le_succ_of_le hforced)]

/-- What a round leaves of a request. -/
def Outcome (kv : KvSource) (eos : List ℕ) (e : Row) (x : Request) (isFinished : Prop) : Prop :=
  (isFinished → e = Row.absent ∧ x.Done kv eos) ∧ (¬isFinished → Tracks kv eos e x)

/-- **A round of the loop**: it emits the next token of the stream, and finishes the request exactly
when the stream ends there. -/
theorem sampleOne_outcome (h : Tracks s.kvSource s.eosTokenIds (row s r) x) (a : ℕ) :
    ∃ tok isFinished s', s.sampleOne r a = .ok (tok, isFinished, s') ∧ OnlyAt s r s' ∧
      Outcome s.kvSource s.eosTokenIds (row s' r) (x.push tok a) (isFinished = true) := by
  obtain ⟨hgoing, n, last, hrow, hbudget⟩ := h
  cases hforced : (x.forced s.kvSource).drop x.argmax.length with
  | cons tok forcedQ =>
    rw [hforced] at hrow
    obtain ⟨s', hone, honly, hrow'⟩ := sampleOne_forced hrow a
    refine ⟨tok, false, s', hone, honly, fun hfin => absurd hfin Bool.false_ne_true, fun _ => ?_⟩
    rw [hrow']
    exact tracks_push_forced hgoing hforced hbudget a
  | nil =>
    have hle := List.drop_eq_nil_iff.mp hforced
    rw [hforced] at hrow
    obtain ⟨s', hone, honly, hrow'⟩ := sampleOne_sampled hrow a
    refine ⟨a, _, s', hone, honly, fun hfin => ?_, fun hfin => ?_⟩
    · have hend := of_decide_eq_true hfin
      rw [hrow', if_pos hend]
      exact ⟨rfl, done_push_sampled hgoing hle hbudget hend⟩
    · have hend := fun hend => hfin (decide_eq_true hend)
      rw [hrow', if_neg hend]
      exact tracks_push_sampled hgoing hle hbudget hend

end Push

/-! ### A batch -/

section Batch

variable {kv : KvSource} {eos : List ℕ}

/-- What a batch of requests, each with the arg-max of its row, leaves. The batch is the part of
`ids` from position `i` on, and `X` gives the streams before it. -/
structure BatchSpec (kv : KvSource) (eos : List ℕ) (X : ℕ → Request) (ids : List ℕ) (i : ℕ)
    (batch : List (ℕ × ℕ)) (s : RealSampler) (res : StepResult) (s' : RealSampler) : Prop where
  kvSource : s'.kvSource = kv
  eosTokenIds : s'.eosTokenIds = eos
  rows : ∀ r ∉ batch.map Prod.fst, row s' r = row s r
  outcome : ∀ b ∈ batch, ∃ tok,
    ((batch.map Prod.fst).zip (res.outTokenIds.zip (batch.map Prod.snd))).lookup b.1 =
      some (tok, b.2) ∧
    Outcome kv eos (row s' b.1) ((X b.1).push tok b.2) (b.1 ∈ res.finishReqIds)
  length_out : res.outTokenIds.length = batch.length
  partition : (res.continueIds.filterMap (ids[·]?) ++ res.finishReqIds).Perm (batch.map Prod.fst)
  positions : ∀ j ∈ res.continueIds, i ≤ j ∧ j < i + batch.length
  increasing : res.continueIds.Pairwise (· < ·)

theorem BatchSpec.cons {X : ℕ → Request} {ids : List ℕ} {i rid a tok : ℕ} {isFinished : Bool}
    {batch : List (ℕ × ℕ)} {t s' : RealSampler} {res : StepResult} (honly : OnlyAt s rid t)
    (hout : Outcome kv eos (row t rid) ((X rid).push tok a) (isFinished = true))
    (hrid : rid ∉ batch.map Prod.fst) (hi : ids[i]? = some rid)
    (h : BatchSpec kv eos X ids (i + 1) batch t res s') :
    BatchSpec kv eos X ids i ((rid, a) :: batch) s (res.cons i rid tok isFinished) s' := by
  have hfinish : rid ∉ res.finishReqIds := fun hmem =>
    hrid (h.partition.subset (List.mem_append_right _ hmem))
  have hmem : ∀ r ≠ rid, (r ∈ (res.cons i rid tok isFinished).finishReqIds ↔
      r ∈ res.finishReqIds) := by
    intro r hr
    cases isFinished with
    | false => exact Iff.rfl
    | true => exact List.mem_cons.trans (or_iff_right hr)
  have hself : rid ∈ (res.cons i rid tok isFinished).finishReqIds ↔ isFinished = true := by
    cases isFinished with
    | false => exact iff_of_false hfinish Bool.false_ne_true
    | true => exact iff_of_true List.mem_cons_self rfl
  refine ⟨h.kvSource, h.eosTokenIds, ?_, ?_, ?_, ?_, ?_, ?_⟩
  · intro r hr
    rw [List.map_cons, List.mem_cons, not_or] at hr
    rw [h.rows r hr.2, honly.rows r hr.1]
  · intro b hb
    rcases List.mem_cons.mp hb with rfl | hb
    · refine ⟨tok, ?_, ?_⟩
      · simp [StepResult.cons]
      · rw [hself, h.rows rid hrid]
        exact hout
    · have hne : b.1 ≠ rid := fun heq => hrid (heq ▸ List.mem_map_of_mem hb)
      obtain ⟨tok', hlookup, houtcome⟩ := h.outcome b hb
      refine ⟨tok', ?_, ?_⟩
      · simpa [StepResult.cons, List.lookup_cons, beq_false_of_ne hne] using hlookup
      · rw [hmem b.1 hne]
        exact houtcome
  · exact congrArg Nat.succ h.length_out
  · cases isFinished with
    | false =>
      show ((i :: res.continueIds).filterMap _ ++ res.finishReqIds).Perm _
      rw [List.filterMap_cons_some hi]
      exact h.partition.cons rid
    | true =>
      show (res.continueIds.filterMap _ ++ rid :: res.finishReqIds).Perm _
      exact List.perm_middle.trans (h.partition.cons rid)
  · intro j hj
    rw [List.length_cons]
    have hlater := h.positions j
    cases isFinished with
    | false =>
      rcases List.mem_cons.mp hj with rfl | hj
      · omega
      · have := hlater hj
        omega
    | true =>
      have := hlater hj
      omega
  · cases isFinished with
    | false => exact List.pairwise_cons.mpr ⟨fun j hj => (h.positions j hj).1, h.increasing⟩
    | true => exact h.increasing

/-- **A batch of live requests is never refused**, and does for each of them what a round does. -/
theorem sampleLoop_spec {X : ℕ → Request} {ids : List ℕ} {i : ℕ} {batch : List (ℕ × ℕ)}
    (hkv : s.kvSource = kv) (heos : s.eosTokenIds = eos) (hnodup : (batch.map Prod.fst).Nodup)
    (htracks : ∀ b ∈ batch, Tracks kv eos (row s b.1) (X b.1))
    (hids : ids.drop i = batch.map Prod.fst) :
    ∃ res s', sampleLoop RealSampler.sampleOne i s batch = .ok (res, s') ∧
      BatchSpec kv eos X ids i batch s res s' := by
  induction batch generalizing i s with
  | nil =>
    refine ⟨.empty, s, rfl, hkv, heos, fun _ _ => rfl, ?_, rfl, .refl _, ?_, .nil⟩
    · intro b hb
      cases hb
    · intro j hj
      cases hj
  | cons b batch ih =>
    obtain ⟨rid, a⟩ := b
    rw [List.map_cons, List.nodup_cons] at hnodup
    obtain ⟨hfirst, hrest⟩ := List.forall_mem_cons.mp htracks
    obtain ⟨hi, hdrop⟩ : ids[i]? = some rid ∧ ids.drop (i + 1) = batch.map Prod.fst := by
      rw [← List.head?_drop, ← List.tail_drop, hids]
      exact ⟨rfl, rfl⟩
    rw [← hkv, ← heos] at hfirst
    obtain ⟨tok, isFinished, t, hone, honly, hout⟩ := sampleOne_outcome hfirst a
    rw [hkv, heos] at hout
    have htracks' : ∀ b ∈ batch, Tracks kv eos (row t b.1) (X b.1) := by
      intro b hb
      rw [honly.rows b.1 fun heq => hnodup.1 (heq ▸ List.mem_map_of_mem hb)]
      exact hrest b hb
    obtain ⟨res, s', hloop, hspec⟩ := ih (honly.kvSource.trans hkv) (honly.eosTokenIds.trans heos)
      hnodup.2 htracks' hdrop
    refine ⟨res.cons i rid tok isFinished, s', ?_, hspec.cons honly hout hnodup.1 hi⟩
    rw [sampleLoop, hone, ok_bind]
    simp only [hloop]
    rfl

end Batch

/-! ### Runs -/

section Runs

variable {kv : KvSource} {eos : List ℕ} {V : Type} {embedding : List V}

/-- **The maps hold exactly the live requests**, and every stream is as far as its request has
come. -/
structure Inv (kv : KvSource) (eos : List ℕ) (s : State) : Prop where
  kvSource : s.sampler.kvSource = kv
  eosTokenIds : s.sampler.eosTokenIds = eos
  live : ∀ r x, s.reqs r = some x → Tracks kv eos (row s.sampler r) x
  gone : ∀ r, s.reqs r = none → row s.sampler r = Row.absent
  finished : ∀ e ∈ s.finished, e.2.Done kv eos

theorem Inv.init : Inv kv eos (.init kv eos) :=
  ⟨rfl, rfl, by simp [State.init], fun _ _ => rfl, by simp [State.init]⟩

def State.request (s : State) (r : ℕ) : Request := (s.reqs r).getD default

theorem Inv.batch {s : State} (hs : Inv kv eos s) {ids argmax : List ℕ} (hnodup : ids.Nodup)
    (hargmax : argmax.length = ids.length) (hlive : ∀ r ∈ ids, ∃ x, s.reqs r = some x) :
    ∃ res t, s.sampler.step ids argmax = .ok (res, t) ∧
      BatchSpec kv eos s.request ids 0 (ids.zip argmax) s.sampler res t := by
  have hfst : (ids.zip argmax).map Prod.fst = ids := List.map_fst_zip (le_of_eq hargmax.symm)
  refine sampleLoop_spec hs.kvSource hs.eosTokenIds (hfst.symm ▸ hnodup) ?_ hfst.symm
  intro b hb
  obtain ⟨x, hx⟩ := hlive b.1 (hfst ▸ List.mem_map_of_mem hb)
  rw [State.request, hx]
  exact hs.live b.1 x hx

theorem row_reduceMaxOutputLen {s u : RealSampler} {r n : ℕ} {forced : List ℕ}
    (hn : s.reqMaxOutputLen.lookup r = some n) (h : s.reduceMaxOutputLen r forced = .ok u) :
    OnlyAt s r u ∧ row u r = (s.forced.lookup r, s.outLen.lookup r,
      some (if forced = [] then n else max 1 (n - forced.length)), s.lastToken.lookup r) := by
  unfold RealSampler.reduceMaxOutputLen at h
  split_ifs at h with hforced
  · obtain rfl := Except.ok.inj h
    exact ⟨⟨rfl, rfl, fun _ _ => rfl⟩, by rw [if_pos hforced, ← hn]; rfl⟩
  · rw [hn] at h
    obtain rfl := Except.ok.inj h
    refine ⟨⟨rfl, rfl, fun r' hr => ?_⟩, ?_⟩
    · simp only [row, AList.lookup_insert_ne hr]
    · rw [if_neg hforced]
      simp only [row, AList.lookup_insert]

theorem row_admitRequest {s t t' : RealSampler} {r initPrefillLen maxOutputLen prefillLen : ℕ}
    {tokenIds : List ℕ} (hcreate : s.createRequest r maxOutputLen tokenIds = .ok t)
    (hdata : t.admitData r initPrefillLen tokenIds = .ok (prefillLen, t')) :
    OnlyAt s r t' ∧ Tracks s.kvSource s.eosTokenIds (row t' r)
      ⟨tokenIds, initPrefillLen, maxOutputLen, [], []⟩ := by
  have hgoing : Request.Going s.kvSource s.eosTokenIds
      ⟨tokenIds, initPrefillLen, maxOutputLen, [], []⟩ :=
    ⟨by simp [Request.sampled], by simp [Request.sampled],
      by simpa [Request.sampled] using budget_pos _ _⟩
  unfold RealSampler.createRequest at hcreate
  split_ifs at hcreate with hempty
  obtain rfl := Except.ok.inj hcreate
  unfold RealSampler.admitData at hdata
  dsimp only at hdata
  split at hdata
  · next hkv =>
    -- with a store
    split at hdata
    · cases hdata
    · next first hfirst =>
      obtain ⟨u, hreduce, hdata⟩ := bind_eq_ok.mp hdata
      obtain ⟨-, rfl⟩ := Prod.mk.inj (Except.ok.inj hdata)
      obtain ⟨honly, hrow⟩ := row_reduceMaxOutputLen (AList.lookup_insert _) hreduce
      refine ⟨⟨honly.kvSource, honly.eosTokenIds, fun r' hr => ?_⟩, hgoing, ?_⟩
      · refine Eq.trans ?_ ((honly.rows r' hr).trans ?_)
        · simp only [row, AList.lookup_insert_ne hr]
        · simp only [row, AList.lookup_insert_ne hr]
      · simp only [row, AList.lookup_insert, Prod.mk.injEq] at hrow
        obtain ⟨hforced, hout, hmax, -⟩ := hrow
        refine ⟨if tokenIds.drop (initPrefillLen + 1) = [] then maxOutputLen
          else max 1 (maxOutputLen - (tokenIds.drop (initPrefillLen + 1)).length), first, ?_, ?_⟩
        · simp [row, hforced, hout, hmax, AList.lookup_insert, hkv, Request.forced,
            Request.sampled]
        · simp only [Request.budget, hkv, true_and, Request.forced]
          by_cases hnil : tokenIds.drop (initPrefillLen + 1) = []
          · rw [if_pos hnil, if_neg (not_not.mpr hnil)]
          · rw [if_neg hnil, if_pos hnil]
            omega
  · next hkv =>
    split at hdata
    · cases hdata
    · next first hfirst =>
      obtain ⟨-, rfl⟩ := Prod.mk.inj (Except.ok.inj hdata)
      refine ⟨⟨rfl, rfl, fun r' hr => ?_⟩, hgoing, maxOutputLen, first, ?_, ?_⟩
      · simp only [row, AList.lookup_insert_ne hr]
      · simp [row, AList.lookup_insert, hkv, Request.forced, Request.sampled]
      · simp [Request.budget, hkv]

theorem Inv.admitRequest {s : State} (hs : Inv kv eos s) {r : ℕ} {x : Request} {t : RealSampler}
    (honly : OnlyAt s.sampler r t) (htracks : Tracks kv eos (row t r) x) :
    Inv kv eos { s with sampler := t, reqs := Function.update s.reqs r (some x) } := by
  refine ⟨honly.kvSource.trans hs.kvSource, honly.eosTokenIds.trans hs.eosTokenIds, ?_, ?_,
    hs.finished⟩
  · intro r' y hy
    dsimp only at hy ⊢
    by_cases hr : r' = r
    · subst hr
      rw [Function.update_self] at hy
      rw [← Option.some.inj hy]
      exact htracks
    · rw [Function.update_of_ne hr] at hy
      rw [honly.rows r' hr]
      exact hs.live r' y hy
  · intro r' hy
    dsimp only at hy ⊢
    have hr : r' ≠ r := by
      rintro rfl
      rw [Function.update_self] at hy
      cases hy
    rw [Function.update_of_ne hr] at hy
    rw [honly.rows r' hr]
    exact hs.gone r' hy

theorem record_of_notMem {ids : List ℕ} {r : ℕ} (hr : r ∉ ids) (entries : List (ℕ × ℕ))
    (reqs : ℕ → Option Request) : record (ids.zip entries) reqs r = reqs r := by
  have hnone : (ids.zip entries).lookup r = none := by
    refine List.lookup_eq_none_iff.mpr fun e he => ?_
    have hmem := (List.of_mem_zip he).1
    simpa using fun heq : r = e.1 => hr (heq ▸ hmem)
  rw [record, hnone]

theorem Inv.sampled {s : State} (hs : Inv kv eos s) {ids argmax : List ℕ} {res : StepResult}
    {t : RealSampler} (hargmax : argmax.length = ids.length)
    (hlive : ∀ r ∈ ids, ∃ x, s.reqs r = some x)
    (hspec : BatchSpec kv eos s.request ids 0 (ids.zip argmax) s.sampler res t) :
    Inv kv eos
      { sampler := t
        reqs := fun r => if r ∈ res.finishReqIds then none
          else record (ids.zip (res.outTokenIds.zip argmax)) s.reqs r
        finished := s.finished ++ res.finishReqIds.filterMap fun r =>
          (record (ids.zip (res.outTokenIds.zip argmax)) s.reqs r).map fun x => (r, x) } := by
  have hfst : (ids.zip argmax).map Prod.fst = ids := List.map_fst_zip (le_of_eq hargmax.symm)
  have hsnd : (ids.zip argmax).map Prod.snd = argmax := List.map_snd_zip (le_of_eq hargmax)
  -- a request of the batch has its next token, and the others have nothing new
  have hbatch : ∀ r ∈ ids, ∃ x, record (ids.zip (res.outTokenIds.zip argmax)) s.reqs r = some x ∧
      Outcome kv eos (row t r) x (r ∈ res.finishReqIds) := by
    intro r hr
    obtain ⟨b, hb, rfl⟩ := List.mem_map.mp (hfst.symm ▸ hr)
    obtain ⟨x, hx⟩ := hlive b.1 hr
    obtain ⟨tok, hlookup, houtcome⟩ := hspec.outcome b hb
    rw [hfst, hsnd] at hlookup
    refine ⟨_, by rw [record, hlookup, hx]; rfl, ?_⟩
    rw [State.request, hx] at houtcome
    exact houtcome
  have hothers : ∀ r ∉ ids, r ∉ res.finishReqIds ∧ row t r = row s.sampler r := by
    intro r hr
    have hr' : r ∉ (ids.zip argmax).map Prod.fst := hfst.symm ▸ hr
    exact ⟨fun hmem => hr' (hspec.partition.subset (List.mem_append_right _ hmem)),
      hspec.rows r hr'⟩
  refine ⟨hspec.kvSource, hspec.eosTokenIds, ?_, ?_, ?_⟩
  · intro r x hx
    dsimp only at hx ⊢
    split_ifs at hx with hfin
    by_cases hr : r ∈ ids
    · obtain ⟨y, hy, houtcome⟩ := hbatch r hr
      obtain rfl := Option.some.inj (hy.symm.trans hx)
      exact houtcome.2 hfin
    · rw [record_of_notMem hr] at hx
      rw [(hothers r hr).2]
      exact hs.live r x hx
  · intro r hx
    dsimp only at hx ⊢
    by_cases hr : r ∈ ids
    · obtain ⟨y, hy, houtcome⟩ := hbatch r hr
      split_ifs at hx with hfin
      · exact (houtcome.1 hfin).1
      · rw [hy] at hx
        cases hx
    · rw [if_neg (hothers r hr).1, record_of_notMem hr] at hx
      rw [(hothers r hr).2]
      exact hs.gone r hx
  · intro e he
    rcases List.mem_append.mp he with he | he
    · exact hs.finished e he
    · obtain ⟨r, hfin, hmap⟩ := List.mem_filterMap.mp he
      have hr : r ∈ ids := by
        by_contra hr
        exact (hothers r hr).1 hfin
      obtain ⟨y, hy, houtcome⟩ := hbatch r hr
      rw [hy] at hmap
      obtain rfl := Option.some.inj hmap
      exact (houtcome.1 hfin).2

theorem Inv.step {s s' : State} (h : Step embedding s s') (hs : Inv kv eos s) : Inv kv eos s' := by
  cases h with
  | admitRequest hnew hcreate hdata =>
    obtain ⟨honly, htracks⟩ := row_admitRequest hcreate hdata
    rw [hs.kvSource, hs.eosTokenIds] at htracks
    exact hs.admitRequest honly htracks
  | @step ids argmax res rows t hnodup hargmax hlive h =>
    obtain ⟨⟨res', t'⟩, hstep, h⟩ := bind_eq_ok.mp h
    obtain ⟨rows', hrows, h⟩ := bind_eq_ok.mp h
    obtain ⟨rfl, rfl, rfl⟩ : res' = res ∧ rows' = rows ∧ t' = t := by
      simpa [pure, Except.pure] using h
    obtain ⟨res, t, hstep', hspec⟩ := hs.batch hnodup hargmax hlive
    obtain ⟨rfl, rfl⟩ : res' = res ∧ t' = t := by
      simpa [hstep] using hstep'
    exact hs.sampled hargmax hlive hspec

theorem Inv.of_steps {s : State} (hrun : ReflTransGen (Step embedding) (.init kv eos) s) :
    Inv kv eos s := by
  induction hrun with
  | refl => exact Inv.init
  | tail _ hstep ih => exact Inv.step hstep ih

theorem continuedData_getElem? {res : StepResult} {rows : List V}
    (h : RealSampler.continuedData embedding res = .ok rows) :
    rows.length = res.continueIds.length ∧ ∀ k i : ℕ, res.continueIds[k]? = some i →
      ∃ tok row, res.outTokenIds[i]? = some tok ∧ embedding[tok]? = some row ∧
        rows[k]? = some row := by
  obtain ⟨hlen, hget⟩ := getElem?_of_mapM_eq_ok h
  refine ⟨hlen, fun k i hk => ?_⟩
  obtain ⟨row, hrow, hk⟩ := hget k i hk
  split at hrow
  · cases hrow
  · next tok htok =>
    split at hrow
    · cases hrow
    · next row' hrow' =>
      obtain rfl := Except.ok.inj hrow
      exact ⟨tok, row', htok, hrow', hk⟩

theorem exists_continuedData {res : StepResult}
    (hpos : ∀ i ∈ res.continueIds, i < res.outTokenIds.length)
    (htok : ∀ tok ∈ res.outTokenIds, tok < embedding.length) :
    ∃ rows, RealSampler.continuedData embedding res = .ok rows := by
  refine exists_mapM_eq_ok fun i hi => ?_
  have hget := List.getElem?_eq_getElem (hpos i hi)
  have hrow := List.getElem?_eq_getElem (htok _ (List.mem_of_getElem? hget))
  simp only [hget, hrow]
  exact ⟨_, rfl⟩

theorem Inv.mem_maps {s : State} (hs : Inv kv eos s) (r : ℕ) :
    (r ∈ s.sampler.forced ↔ ∃ x, s.reqs r = some x) ∧
      (r ∈ s.sampler.outLen ↔ ∃ x, s.reqs r = some x) ∧
      (r ∈ s.sampler.reqMaxOutputLen ↔ ∃ x, s.reqs r = some x) ∧
      (r ∈ s.sampler.lastToken ↔ ∃ x, s.reqs r = some x) := by
  simp only [← AList.lookup_isSome]
  cases hr : s.reqs r with
  | none =>
    have hrow := hs.gone r hr
    simp only [row, Row.absent, Prod.mk.injEq] at hrow
    simp [hrow]
  | some x =>
    obtain ⟨-, n, tok, hrow, -⟩ := hs.live r x hr
    simp only [row, Prod.mk.injEq] at hrow
    simp [hrow]

/-- **The stream of the real sampler.** In every reachable state the stream of a live request is a
part of its replay, or all of it and samples that do not end it; a finished request has the whole
replay and the samples up to the first stop token or up to its budget, whichever is first; and the
four maps hold exactly the live requests. A batch of live requests is never refused: each of them
goes on or finishes, and the row of one that goes on is the embedding of its token. -/
theorem realSampler_stream {s : State} (hrun : ReflTransGen (Step embedding) (.init kv eos) s) :
    (∀ r x, s.reqs r = some x → x.Going kv eos) ∧
    (∀ e ∈ s.finished, e.2.Done kv eos) ∧
    (∀ r, (r ∈ s.sampler.forced ↔ ∃ x, s.reqs r = some x) ∧
      (r ∈ s.sampler.outLen ↔ ∃ x, s.reqs r = some x) ∧
      (r ∈ s.sampler.reqMaxOutputLen ↔ ∃ x, s.reqs r = some x) ∧
      (r ∈ s.sampler.lastToken ↔ ∃ x, s.reqs r = some x)) ∧
    ∀ ids argmax : List ℕ, ids.Nodup → argmax.length = ids.length →
      (∀ r ∈ ids, ∃ x, s.reqs r = some x) →
      ∃ res t, s.sampler.step ids argmax = .ok (res, t) ∧
        (res.continueIds.filterMap (ids[·]?) ++ res.finishReqIds).Perm ids ∧
        (∀ i ∈ res.continueIds, i < ids.length) ∧ res.continueIds.Pairwise (· < ·) ∧
        res.outTokenIds.length = ids.length ∧
        ((∀ tok ∈ res.outTokenIds, tok < embedding.length) →
          ∃ rows, RealSampler.continuedData embedding res = .ok rows) ∧
        ∀ rows, RealSampler.continuedData embedding res = .ok rows →
          rows.length = res.continueIds.length ∧ ∀ k i : ℕ, res.continueIds[k]? = some i →
            ∃ tok row, res.outTokenIds[i]? = some tok ∧ embedding[tok]? = some row ∧
              rows[k]? = some row := by
  have hinv := Inv.of_steps hrun
  refine ⟨fun r x hx => (hinv.live r x hx).going, hinv.finished, hinv.mem_maps, ?_⟩
  intro ids argmax hnodup hargmax hlive
  obtain ⟨res, t, hstep, hspec⟩ := hinv.batch hnodup hargmax hlive
  have hfst : (ids.zip argmax).map Prod.fst = ids := List.map_fst_zip (le_of_eq hargmax.symm)
  have hlen : (ids.zip argmax).length = ids.length := by rw [← List.length_map Prod.fst, hfst]
  have hperm := hspec.partition
  have hout := hspec.length_out
  have hpos := hspec.positions
  rw [hfst] at hperm
  rw [hlen] at hout
  simp only [hlen, Nat.zero_add] at hpos
  refine ⟨res, t, hstep, hperm, fun i hi => (hpos i hi).2, hspec.increasing, hout, ?_, ?_⟩
  · intro htok
    exact exists_continuedData (fun i hi => hout ▸ (hpos i hi).2) htok
  · intro rows hrows
    exact continuedData_getElem? hrows

/-- A prompt of two tokens and a budget of one: the second token is replayed, and the first sample
ends the request. -/
theorem realSampler_stream_two_tokens :
    ∃ s, ReflTransGen (Step (V := ℕ) [10, 11, 12]) (.init .none [2]) s ∧
      s.finished = [(7, ⟨[0, 1], 0, 1, [1, 0], [2, 0]⟩)] ∧
      Request.Done .none [2] ⟨[0, 1], 0, 1, [1, 0], [2, 0]⟩ := by
  have hdata := ReflTransGen.single
    (@Step.admitRequest ℕ [10, 11, 12] (.init .none [2]) 7 0 1 0 [0, 1] _ _ rfl rfl rfl)
  have hreplay := hdata.tail (@Step.step ℕ _ _ [7] [2] ⟨[0], [], [1]⟩ [11] _ (by decide) rfl
    (List.forall_mem_singleton.mpr ⟨_, rfl⟩) rfl)
  have hsample := hreplay.tail (@Step.step ℕ _ _ [7] [0] ⟨[], [7], [0]⟩ [] _ (by decide) rfl
    (List.forall_mem_singleton.mpr ⟨_, rfl⟩) rfl)
  exact ⟨_, hsample, rfl, (realSampler_stream hsample).2.1 _ List.mem_cons_self⟩

end Runs

end SamplerStream

end StreamEP

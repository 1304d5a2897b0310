import StreamEP.Lib.Checked
import Mathlib.Algebra.Field.Rat
import Mathlib.Data.Finset.Card
import Mathlib.Data.List.AList

/-!
# Collecting results

`Detokenizer` of `disagmoe/frontend/tokenizer.py` receives the batches that the samplers of all
engines send, keeps the tokens and a statistic of every request, and hands out the statistics of
the requests that have finished. Both methods hold the lock of the object, so each is one step.

A batch is three columns of equal length in the source and one list of entries here. Times are
rational numbers, and `now` is what the clock says when a batch is processed. What is only logged
(throughput, inter-token latencies, step infos) is left out.

`Detokenizer.Inv` relates a detokenizer to its history: the tokens noted, the requests whose
`is_eos` entry was processed and the requests fetched. A batch is processed in two passes, so the
first two grow at different times.
-/

namespace StreamEP

structure SloStat where
  reqId : ℕ
  tPrefill : ℚ
  tPrefillStd : ℚ
  tDecode : ℚ
  tTokens : List ℚ
  tTokenTimestamps : Option (List ℚ) := none
deriving DecidableEq, Repr

/-- `post_process`: milliseconds to seconds, and time stamps to differences. -/
def SloStat.postProcess (s : SloStat) : SloStat :=
  let msToS : ℚ := 1 / 1000
  { s with
    tDecode := (s.tDecode - s.tPrefill) * msToS
    tPrefill := s.tPrefill * msToS
    tPrefillStd := s.tPrefillStd * msToS
    tTokenTimestamps := some (s.tTokens.map (· * msToS))
    tTokens := (s.tTokens.tail.zip s.tTokens.dropLast).map fun x => (x.1 - x.2) * msToS }

/-- A row of a `BatchDecodeResult`. -/
structure DecodeEntry where
  /-- `req_ids[i]` -/
  reqId : ℕ
  /-- `token_ids[i]` -/
  tokenId : ℕ
  isEos : Bool
deriving DecidableEq, Repr

abbrev BatchDecodeResult := List DecodeEntry

/-- The tokens of a sequence of entries, with their requests. -/
def BatchDecodeResult.tokens (b : BatchDecodeResult) : List (ℕ × ℕ) :=
  b.map fun e => (e.reqId, e.tokenId)

def BatchDecodeResult.finished (b : BatchDecodeResult) : List ℕ :=
  (b.filter (·.isEos)).map (·.reqId)

def BatchDecodeResult.entriesOf (b : BatchDecodeResult) (r : ℕ) : BatchDecodeResult :=
  b.filter (·.reqId = r)

structure Detokenizer where
  finishedSeqs : Finset ℕ
  activeNumRequests : ℤ
  sloStats : AList fun _ : ℕ => SloStat
  /-- `token_streams`, with `[]` for a request without tokens. -/
  tokenStreams : ℕ → List ℕ

namespace Detokenizer

def init : Detokenizer := ⟨∅, 0, ∅, fun _ => []⟩

/-- The body of the first loop of `process_batch`. -/
def noteToken (now : ℚ) (d : Detokenizer) (e : DecodeEntry) : Detokenizer :=
  let tokenStreams := Function.update d.tokenStreams e.reqId (d.tokenStreams e.reqId ++ [e.tokenId])
  match d.sloStats.lookup e.reqId with
  | some stat =>
    { d with
      tokenStreams := tokenStreams
      sloStats := d.sloStats.insert e.reqId { stat with tTokens := stat.tTokens ++ [now] } }
  | none =>
    { d with
      tokenStreams := tokenStreams
      activeNumRequests := d.activeNumRequests + 1
      sloStats := d.sloStats.insert e.reqId
        { reqId := e.reqId, tPrefill := now, tPrefillStd := now, tDecode := 0, tTokens := [] } }

/-- The body of the second loop of `process_batch`. -/
def noteEos (now : ℚ) (d : Detokenizer) (e : DecodeEntry) : Except String Detokenizer :=
  if e.isEos then
    match d.sloStats.lookup e.reqId with
    | none => .error s!"Request {e.reqId} not found in slo_stats"
    | some stat =>
      .ok
        { d with
          activeNumRequests := d.activeNumRequests - 1
          sloStats := d.sloStats.insert e.reqId { stat with tDecode := now }.postProcess
          finishedSeqs := insert e.reqId d.finishedSeqs }
  else .ok d

def processBatch (d : Detokenizer) (now : ℚ) (batch : BatchDecodeResult) :
    Except String Detokenizer :=
  batch.foldlM (noteEos now) (batch.foldl (noteToken now) d)

/-- The body of the loop of `fetch_finished_results`. -/
def fetchOne (x : List SloStat × Detokenizer) (reqId : ℕ) :
    Except String (List SloStat × Detokenizer) :=
  match x.2.sloStats.lookup reqId with
  | none => .error s!"KeyError: {reqId}"
  | some stat => .ok (x.1 ++ [stat], { x.2 with sloStats := x.2.sloStats.erase reqId })

/-- `fetch_finished_results`, where the set is iterated in the given order. -/
def fetchFinishedResults (d : Detokenizer) (order : List ℕ) :
    Except String (List SloStat × Detokenizer) := do
  let (res, d') ← order.foldlM fetchOne ([], d)
  return (res, { d' with finishedSeqs := ∅ })

/-- `order` lists `finished_seqs`, as an iteration over the set does. -/
def Iterates (d : Detokenizer) (order : List ℕ) : Prop :=
  order.Nodup ∧ order.toFinset = d.finishedSeqs

/-! ### The invariant -/

/-- A detokenizer that has noted the tokens `T` and the ends of the requests `X`, and from which
the requests `F` were fetched. -/
structure Inv (d : Detokenizer) (T : List (ℕ × ℕ)) (X F : List ℕ) : Prop where
  /-- The streams are the tokens, request by request. -/
  streams : ∀ r, d.tokenStreams r = (T.filter (·.1 = r)).map (·.2)
  /-- There is a statistic for every request seen and not fetched. -/
  stats : ∀ r, r ∈ d.sloStats ↔ r ∈ T.map (·.1) ∧ r ∉ F
  reqId : ∀ r stat, d.sloStats.lookup r = some stat → stat.reqId = r
  /-- `finished_seqs` are the finished requests not fetched. -/
  finishedSeqs : ∀ r, r ∈ d.finishedSeqs ↔ r ∈ X ∧ r ∉ F
  seen : ∀ r ∈ X, r ∈ T.map (·.1)
  fetched : ∀ r ∈ F, r ∈ X
  fetched_nodup : F.Nodup
  active : d.activeNumRequests = ((T.map (·.1)).toFinset \ X.toFinset).card

variable {d : Detokenizer} {T : List (ℕ × ℕ)} {X F : List ℕ}

theorem inv_init : Inv init [] [] [] where
  streams _ := rfl
  stats r := by simp [init]
  reqId r stat h := by simp [init] at h
  finishedSeqs r := by simp [init]
  seen r h := by cases h
  fetched r h := by cases h
  fetched_nodup := List.nodup_nil
  active := by simp [init]

theorem reqId_insert {m : AList fun _ : ℕ => SloStat} {r : ℕ} {stat : SloStat}
    (hm : ∀ r stat, m.lookup r = some stat → stat.reqId = r) (hstat : stat.reqId = r) :
    ∀ q stat', (m.insert r stat).lookup q = some stat' → stat'.reqId = q := by
  intro q stat' h
  by_cases hq : q = r
  · subst hq
    rw [AList.lookup_insert] at h
    obtain rfl := Option.some_injective _ h
    exact hstat
  · rw [AList.lookup_insert_ne hq] at h
    exact hm q stat' h

theorem streams_append (hd : Inv d T X F) (r t q : ℕ) :
    Function.update d.tokenStreams r (d.tokenStreams r ++ [t]) q =
      ((T ++ [(r, t)]).filter (·.1 = q)).map (·.2) := by
  rw [List.filter_append, List.map_append, ← hd.streams]
  by_cases hq : q = r
  · subst hq
    simp
  · simp [hq, Ne.symm hq]

/-- **Noting a token** of a request that has not finished. -/
theorem Inv.noteToken (hd : Inv d T X F) (now : ℚ) {e : DecodeEntry} (he : e.reqId ∉ X) :
    Inv (d.noteToken now e) (T ++ [(e.reqId, e.tokenId)]) X F := by
  have hF : e.reqId ∉ F := fun h => he (hd.fetched _ h)
  have hseen : ∀ r ∈ X, r ∈ (T ++ [(e.reqId, e.tokenId)]).map (·.1) := by
    intro r hr
    rw [List.map_append]
    exact List.mem_append_left _ (hd.seen r hr)
  have hkeys : ∀ r, (r = e.reqId ∨ r ∈ d.sloStats) ↔
      r ∈ (T ++ [(e.reqId, e.tokenId)]).map (·.1) ∧ r ∉ F := by
    intro r
    rw [hd.stats]
    simp only [List.map_append, List.map_cons, List.map_nil, List.mem_append, List.mem_singleton]
    by_cases hr : r = e.reqId
    · subst hr
      simp [hF]
    · simp [hr]
  unfold Detokenizer.noteToken
  cases hstat : d.sloStats.lookup e.reqId with
  | some stat =>
    have hmem : e.reqId ∈ T.map (·.1) := by
      refine ((hd.stats _).1 ?_).1
      rw [← AList.lookup_isSome, hstat]
      rfl
    have hid : stat.reqId = e.reqId := hd.reqId _ _ hstat
    refine ⟨streams_append hd _ _, fun r => ?_, reqId_insert hd.reqId hid, hd.finishedSeqs, hseen,
      hd.fetched, hd.fetched_nodup, ?_⟩
    · rw [AList.mem_insert]
      exact hkeys r
    · have hset : ((T ++ [(e.reqId, e.tokenId)]).map (·.1)).toFinset = (T.map (·.1)).toFinset := by
        ext r
        simp only [List.map_append, List.map_cons, List.map_nil, List.mem_toFinset,
          List.mem_append, List.mem_singleton, or_iff_left_iff_imp]
        rintro rfl
        exact hmem
      rw [hset]
      exact hd.active
  | none =>
    have hmem : e.reqId ∉ T.map (·.1) := by
      intro hT
      exact AList.lookup_eq_none.1 hstat ((hd.stats _).2 ⟨hT, hF⟩)
    refine ⟨streams_append hd _ _, fun r => ?_, reqId_insert hd.reqId rfl, hd.finishedSeqs,
      hseen, hd.fetched, hd.fetched_nodup, ?_⟩
    · rw [AList.mem_insert]
      exact hkeys r
    · have hset : ((T ++ [(e.reqId, e.tokenId)]).map (·.1)).toFinset \ X.toFinset =
          insert e.reqId ((T.map (·.1)).toFinset \ X.toFinset) := by
        ext r
        simp only [List.map_append, List.map_cons, List.map_nil, Finset.mem_sdiff,
          List.mem_toFinset, List.mem_append, List.mem_singleton, Finset.mem_insert]
        by_cases hr : r = e.reqId
        · subst hr
          simp [he]
        · simp [hr]
      have hnot : e.reqId ∉ (T.map (·.1)).toFinset \ X.toFinset := by
        simp only [Finset.mem_sdiff, List.mem_toFinset, not_and]
        intro h
        exact absurd h hmem
      rw [hset, Finset.card_insert_of_notMem hnot, hd.active]
      push_cast
      rfl

theorem Inv.noteTokens (hd : Inv d T X F) (now : ℚ) {batch : BatchDecodeResult}
    (hbatch : ∀ e ∈ batch, e.reqId ∉ X) :
    Inv (batch.foldl (Detokenizer.noteToken now) d) (T ++ batch.tokens) X F := by
  induction batch generalizing d T with
  | nil => simpa [BatchDecodeResult.tokens] using hd
  | cons e batch ih =>
    have h := ih (hd.noteToken now (hbatch e (by simp))) fun e' he' => hbatch e' (by simp [he'])
    simpa [BatchDecodeResult.tokens] using h

/-- **Noting an end.** The assertion holds for a request that was seen and has not finished. -/
theorem Inv.noteEos (hd : Inv d T X F) (now : ℚ) {e : DecodeEntry} (hT : e.reqId ∈ T.map (·.1))
    (he : e.reqId ∉ X) :
    ∃ d', d.noteEos now e = .ok d' ∧ Inv d' T (X ++ BatchDecodeResult.finished [e]) F := by
  cases heos : e.isEos with
  | false =>
    refine ⟨d, by simp [Detokenizer.noteEos, heos], ?_⟩
    simpa [BatchDecodeResult.finished, heos] using hd
  | true =>
    have hF : e.reqId ∉ F := fun h => he (hd.fetched _ h)
    have hmem : e.reqId ∈ d.sloStats := (hd.stats _).2 ⟨hT, hF⟩
    obtain ⟨stat, hstat⟩ := Option.isSome_iff_exists.1 (AList.lookup_isSome.2 hmem)
    have hid : stat.reqId = e.reqId := hd.reqId _ _ hstat
    refine ⟨_, by simp only [Detokenizer.noteEos, heos, hstat, if_true]; rfl, ?_⟩
    rw [show BatchDecodeResult.finished [e] = [e.reqId] by simp [BatchDecodeResult.finished, heos]]
    refine ⟨hd.streams, fun r => ?_, reqId_insert hd.reqId hid, fun r => ?_,
      fun r hr => ?_, fun r hr => List.mem_append_left _ (hd.fetched r hr), hd.fetched_nodup, ?_⟩
    · rw [AList.mem_insert, ← hd.stats, or_iff_right_iff_imp]
      rintro rfl
      exact hmem
    · rw [Finset.mem_insert, hd.finishedSeqs, List.mem_append, List.mem_singleton]
      by_cases hr : r = e.reqId
      · subst hr
        simp [hF]
      · simp [hr]
    · rcases List.mem_append.1 hr with hr | hr
      · exact hd.seen r hr
      · rwa [List.mem_singleton.1 hr]
    · have hset : (T.map (·.1)).toFinset \ (X ++ [e.reqId]).toFinset =
          ((T.map (·.1)).toFinset \ X.toFinset).erase e.reqId := by
        ext r
        simp only [Finset.mem_sdiff, Finset.mem_erase, List.mem_toFinset, List.mem_append,
          List.mem_singleton, not_or]
        tauto
      have hin : e.reqId ∈ (T.map (·.1)).toFinset \ X.toFinset := by
        rw [Finset.mem_sdiff, List.mem_toFinset, List.mem_toFinset]
        exact ⟨hT, he⟩
      have hcard := Finset.card_erase_add_one hin
      rw [hset]
      show d.activeNumRequests - 1 = _
      rw [hd.active]
      omega

theorem Inv.noteEoses (hd : Inv d T X F) (now : ℚ) {batch : BatchDecodeResult}
    (hnodup : (batch.map (·.reqId)).Nodup) (hT : ∀ e ∈ batch, e.reqId ∈ T.map (·.1))
    (hX : ∀ e ∈ batch, e.reqId ∉ X) :
    ∃ d', batch.foldlM (Detokenizer.noteEos now) d = .ok d' ∧ Inv d' T (X ++ batch.finished) F := by
  induction batch generalizing d X with
  | nil => exact ⟨d, rfl, by simpa [BatchDecodeResult.finished] using hd⟩
  | cons e batch ih =>
    rw [List.map_cons, List.nodup_cons] at hnodup
    obtain ⟨d₁, hd₁, hinv₁⟩ := hd.noteEos now (hT e (by simp)) (hX e (by simp))
    obtain ⟨d₂, hd₂, hinv₂⟩ := ih hinv₁ hnodup.2 (fun e' he' => hT e' (by simp [he'])) (by
      intro e' he' hmem
      rcases List.mem_append.1 hmem with hmem | hmem
      · exact hX e' (by simp [he']) hmem
      · obtain ⟨e'', he'', heq⟩ := List.mem_map.1 hmem
        obtain rfl := List.mem_singleton.1 (List.mem_filter.1 he'').1
        exact hnodup.1 (heq ▸ List.mem_map_of_mem he'))
    refine ⟨d₂, ?_, ?_⟩
    · rw [List.foldlM_cons, hd₁]
      exact hd₂
    · rwa [List.append_assoc, BatchDecodeResult.finished, BatchDecodeResult.finished,
        ← List.map_append, ← List.filter_append] at hinv₂

theorem Inv.processBatch (hd : Inv d T X F) (now : ℚ) {batch : BatchDecodeResult}
    (hnodup : (batch.map (·.reqId)).Nodup) (hX : ∀ e ∈ batch, e.reqId ∉ X) :
    ∃ d', d.processBatch now batch = .ok d' ∧
      Inv d' (T ++ batch.tokens) (X ++ batch.finished) F := by
  refine (hd.noteTokens now hX).noteEoses now hnodup (fun e he => ?_) hX
  rw [List.map_append, BatchDecodeResult.tokens, List.map_map]
  exact List.mem_append_right _ (List.mem_map_of_mem he)

/-! ### Fetching -/

/-- The loop of a fetch, over finished requests. Their ends stay in `finished_seqs` until the set
is cleared, so the invariant says which of them are gone. -/
theorem fetch_loop {order : List ℕ} (hnodup : order.Nodup) (hmem : ∀ r ∈ order, r ∈ d.sloStats)
    (hreqId : ∀ r stat, d.sloStats.lookup r = some stat → stat.reqId = r) (res : List SloStat) :
    ∃ res' stats, order.foldlM fetchOne (res, d) = .ok (res ++ res', { d with sloStats := stats }) ∧
      res'.map (·.reqId) = order ∧
      ∀ r, stats.lookup r = if r ∈ order then none else d.sloStats.lookup r := by
  induction order generalizing d res with
  | nil => exact ⟨[], d.sloStats, by rw [List.append_nil]; rfl, rfl, by simp⟩
  | cons r order ih =>
    rw [List.nodup_cons] at hnodup
    obtain ⟨stat, hstat⟩ := Option.isSome_iff_exists.1 (AList.lookup_isSome.2 (hmem r (by simp)))
    have hlookup : ∀ q, (d.sloStats.erase r).lookup q =
        if q = r then none else d.sloStats.lookup q := by
      intro q
      by_cases hq : q = r
      · rw [if_pos hq, hq, AList.lookup_erase]
      · rw [if_neg hq, AList.lookup_erase_ne hq]
    obtain ⟨res', stats, hfold, hids, hstats⟩ :=
      @ih { d with sloStats := d.sloStats.erase r } hnodup.2
        (by
          intro q hq
          rw [AList.mem_erase]
          refine ⟨?_, hmem q (by simp [hq])⟩
          rintro rfl
          exact hnodup.1 hq)
        (by
          intro q stat' h
          rw [hlookup] at h
          split at h
          · cases h
          · exact hreqId q stat' h)
        (res ++ [stat])
    refine ⟨stat :: res', stats, ?_, ?_, fun q => ?_⟩
    · rw [List.foldlM_cons, fetchOne, hstat]
      simpa using hfold
    · rw [List.map_cons, hids, hreqId r stat hstat]
    · rw [hstats, hlookup]
      by_cases hq : q = r
      · simp [hq]
      · simp [hq]

/-- **A fetch** returns the statistics of the waiting requests, and nothing waits after it. -/
theorem Inv.fetchFinishedResults (hd : Inv d T X F) {order : List ℕ} (horder : d.Iterates order) :
    ∃ res d', d.fetchFinishedResults order = .ok (res, d') ∧ res.map (·.reqId) = order ∧
      Inv d' T X (F ++ order) := by
  have hwaiting : ∀ r, r ∈ order ↔ r ∈ X ∧ r ∉ F := by
    intro r
    rw [← hd.finishedSeqs, ← horder.2, List.mem_toFinset]
  obtain ⟨res, stats, hfold, hids, hstats⟩ :=
    fetch_loop horder.1
      (fun r hr => (hd.stats r).2 ⟨hd.seen r ((hwaiting r).1 hr).1, ((hwaiting r).1 hr).2⟩)
      hd.reqId []
  refine ⟨res, { d with sloStats := stats, finishedSeqs := ∅ }, ?_, hids, ?_⟩
  · rw [Detokenizer.fetchFinishedResults, hfold]
    rfl
  refine ⟨hd.streams, fun r => ?_, fun r stat h => ?_, fun r => ?_, hd.seen, fun r hr => ?_, ?_,
    hd.active⟩
  · show r ∈ stats ↔ _
    rw [← AList.lookup_isSome, hstats, List.mem_append, not_or]
    by_cases hr : r ∈ order
    · simp [hr]
    · rw [if_neg hr, AList.lookup_isSome, hd.stats]
      tauto
  · have h' : stats.lookup r = some stat := h
    rw [hstats] at h'
    split at h'
    · cases h'
    · exact hd.reqId r stat h'
  · have := hwaiting r
    simp only [Finset.notMem_empty, List.mem_append, false_iff]
    tauto
  · rcases List.mem_append.1 hr with hr | hr
    · exact hd.fetched r hr
    · exact ((hwaiting r).1 hr).1
  · refine List.nodup_append.2 ⟨hd.fetched_nodup, horder.1, ?_⟩
    rintro r hr _ hr' rfl
    exact ((hwaiting r).1 hr').2 hr

end Detokenizer

end StreamEP

import StreamEP.Pool.Contents

/-!
# The invariant of a pool

What holds of the pool of rank `d` between any two calls, and what each call does. Every call
succeeds on the batches a pool is given: new and looped-back tokens for layer `0`, rows for its
experts, and replies for its own requests. Calls change the contents by exactly these batches, or
by the batch they return.

## Rows the pool may hold

Which rows may be worked on is a predicate `okRow` that the caller chooses. The pool does not look
at the expert of a row, and whether a row belongs on a device depends on a placement that the pool
does not know.
-/

namespace StreamEP

open LayerScheduler

variable {W V : Type}

section Messages

variable [TensorRow V]

/-- A batch on its way to the experts: rows of attention layer `l`, all columns present. -/
structure ExpertMsg (okRow : Row W V → Prop) (l : ℕ) (b : TokenBatch W V) : Prop
    extends b.Full where
  tag : b.metadata.batchTag = .attention
  layerId : b.metadata.layerId = l
  /-- Its rows may be worked on at the receiver. -/
  rows : ∀ r ∈ b.rows, okRow r

/-- A batch on its way back to rank `d`: rows for attention layer `l`, new requests first. -/
structure ReplyMsg (d l : ℕ) (b : TokenBatch W V) : Prop extends b.Wf where
  tag : b.metadata.batchTag = .expert
  layerId : b.metadata.layerId = l
  prefillFirst : PrefillFirst b.metadata.initPrefillLens
  ranks : b.metadata.attnDpRanks.length = b.metadata.numTokens
  /-- Only `-1` stands for decoding, and all rows belong to the receiver. -/
  rows : ∀ r ∈ b.rows, -1 ≤ r.initPrefillLen ∧ r.attnDpRank = some d

theorem ExpertMsg.toWork {okRow : Row W V → Prop} {l : ℕ} {b : TokenBatch W V}
    (hb : ExpertMsg okRow l b) :
    ExpertWork okRow l { b with metadata := { b.metadata with batchTag := .expert } } :=
  ⟨⟨⟨⟨hb.reqIds, hb.initPrefillLens, hb.expIds, hb.topkWeights, hb.attnDpRanks⟩, hb.data,
    hb.hiddenDim⟩, hb.expIds_length, hb.topkWeights_length, hb.attnDpRanks_length⟩, rfl,
    hb.layerId, hb.rows⟩

end Messages

/-! ### Gathering -/

/-- A gathering pool of rank `d`, while rows are put into it. -/
structure Gathering (k d : ℕ) (p : TokenTopKPool V) : Prop extends p.Ok where
  /-- It waits for `k` rows. -/
  topK : p.topK = k
  entries : ∀ t ∈ p.pool, -1 ≤ t.initPrefillLen ∧ t.attnDpRank = d
  ready : ∀ t ∈ p.readyTokens, GatheredWork k d t

theorem Gathering.put {k d : ℕ} {p : TokenTopKPool V} (hp : Gathering k d p) (hk : 1 < k)
    {r : Row W V} (hr : -1 ≤ r.initPrefillLen ∧ r.attnDpRank = some d) :
    Gathering k d (p.put r) := by
  obtain ⟨hlen, hrank⟩ := hr
  refine ⟨hp.toOk.putRow (hp.topK ▸ hk) .., ?_, ?_, ?_⟩
  · rw [TokenTopKPool.put, TokenTopKPool.putRow_topK, hp.topK]
  all_goals
    rw [TokenTopKPool.put]
    rcases hp.toOk.putRow_cases r.reqId r.initPrefillLen (r.attnDpRank.getD 0) r.data with
      ⟨-, heq⟩ | ⟨t, ht, -, -, ⟨-, heq⟩ | ⟨hfull, heq⟩⟩ <;> rw [heq]
  · simpa [hrank, hlen] using hp.entries
  · rintro u hu
    rcases List.mem_cons.mp hu with rfl | hu
    · exact hp.entries t ht
    · exact hp.entries u (List.mem_of_mem_filter hu)
  · exact fun u hu => hp.entries u (List.mem_of_mem_filter hu)
  · exact hp.ready
  · exact hp.ready
  · rintro u hu
    rcases List.mem_append.mp hu with hu | hu
    · exact hp.ready u hu
    · rw [List.mem_singleton.mp hu]
      exact ⟨by rw [TokenTopKInfo.count_appendTensor, hfull, hp.topK], (hp.entries t ht).1,
        (hp.entries t ht).2⟩

theorem Gathering.foldl_put {k d : ℕ} {p : TokenTopKPool V} (hp : Gathering k d p) (hk : 1 < k)
    {rows : List (Row W V)} (hrows : ∀ r ∈ rows, -1 ≤ r.initPrefillLen ∧ r.attnDpRank = some d) :
    Gathering k d (rows.foldl TokenTopKPool.put p) := by
  induction rows generalizing p with
  | nil => exact hp
  | cons r rows ih =>
    exact ih (hp.put hk (hrows r (by simp))) fun x hx => hrows x (List.mem_cons_of_mem _ hx)

/-! ### The invariant -/

section Invariant

variable [TensorRow V]

/-- What holds of the pool of rank `d` with `N` layers and `top_k = k`. -/
structure UnifiedPool.Inv (N k d : ℕ) (okRow : Row W V → Prop) (p : UnifiedPool W V) :
    Prop where
  topK : p.topK = k
  numGroups : p.numGroups ≤ 1
  sched : p.layerScheduler.Holds N k d okRow
  thresholds : 1 ≤ p.attnScheduleTokenThreshold ∧ 1 ≤ p.expertScheduleTokenThreshold
  /-- There is a gathering pool per attention layer. -/
  numPools : 1 < k → p.topkPools.length = N + 1
  /-- Gathering pools belong to the rank and have nothing to emit. -/
  pools : ∀ (l : ℕ) (tp : TokenTopKPool V), p.topkPools[l]? = some tp →
    Gathering k d tp ∧ tp.readyTokens = []

namespace UnifiedPool.Inv

variable {N k d : ℕ} {okRow : Row W V → Prop} {p : UnifiedPool W V}

theorem withSched (hp : p.Inv N k d okRow) {s' : LayerScheduler W V}
    (hs' : s'.Holds N k d okRow) : { p with layerScheduler := s' }.Inv N k d okRow :=
  ⟨hp.topK, hp.numGroups, hs', hp.thresholds, hp.numPools, hp.pools⟩

theorem processAttnBatch (hp : p.Inv N k d okRow) {l : ℕ} (hl : l ≤ N) (hzero : l = 0 ∨ k ≤ 1)
    {b : TokenBatch W V} (hb : b.Wf) (hlayer : b.metadata.layerId = l)
    (hfirst : PrefillFirst b.metadata.initPrefillLens)
    (hlens : ∀ r ∈ b.rows, -1 ≤ r.initPrefillLen) :
    ∃ s', p.processAttnBatch b = .ok { p with layerScheduler := s' } ∧
      { p with layerScheduler := s' }.Inv N k d okRow ∧
      p.layerScheduler.Added s' ↑(b.rows.map (·.reqId)) 0 := by
  obtain ⟨s', hadd, hs', hcontents⟩ :=
    hp.sched.add_attn hl hzero (AttnWork.of_attnMetadata hb hlayer hfirst hlens)
  refine ⟨s', ?_, hp.withSched hs', hcontents⟩
  rw [UnifiedPool.processAttnBatch, hadd]
  rfl

/-- **New and looped-back tokens** are queued at the first attention layer. -/
theorem putBatch (hp : p.Inv N k d okRow) {b : TokenBatch W V} (hb : b.Wf)
    (hlayer : b.metadata.layerId = 0) (hfirst : PrefillFirst b.metadata.initPrefillLens)
    (hlens : ∀ r ∈ b.rows, -1 ≤ r.initPrefillLen) :
    ∃ s', p.putBatch b = .ok { p with layerScheduler := s' } ∧
      { p with layerScheduler := s' }.Inv N k d okRow ∧
      p.layerScheduler.Added s' ↑(b.rows.map (·.reqId)) 0 :=
  hp.processAttnBatch (b := { b with metadata := { b.metadata with batchTag := .tokenizer } })
    N.zero_le (.inl rfl)
    ⟨⟨hb.reqIds, hb.initPrefillLens, hb.expIds, hb.topkWeights, hb.attnDpRanks⟩, hb.data,
      hb.hiddenDim⟩ hlayer hfirst hlens

/-- **Rows for the experts** are queued at their expert layer. -/
theorem process_expertMsg (hp : p.Inv N k d okRow) {l : ℕ} (hl : l < N) {b : TokenBatch W V}
    (hb : ExpertMsg okRow l b) :
    ∃ s', p.processBatch b = .ok { p with layerScheduler := s' } ∧
      { p with layerScheduler := s' }.Inv N k d okRow ∧
      p.layerScheduler.Added s' 0 ↑(b.rows.map fun r => (l, r)) := by
  obtain ⟨s', hadd, hs', hcontents⟩ := hp.sched.add_expert hl hb.toWork
  refine ⟨s', ?_, hp.withSched hs', hcontents⟩
  rw [processBatch, hb.tag]
  show p.processExpertBatch b = _
  rw [processExpertBatch, ensure_of_true (by have := hp.numGroups; omega), ok_bind, hadd]
  rfl

/-- **Replies without gathering** are queued at their attention layer. -/
theorem process_replyMsg_one (hp : p.Inv N k d okRow) (hk : k ≤ 1) {l : ℕ} (hl : l ≤ N)
    {b : TokenBatch W V} (hb : ReplyMsg d l b) :
    ∃ s', p.processBatch b = .ok { p with layerScheduler := s' } ∧
      { p with layerScheduler := s' }.Inv N k d okRow ∧
      p.layerScheduler.Added s' ↑(b.rows.map (·.reqId)) 0 := by
  obtain ⟨s', hprocess, hinv, hcontents⟩ := hp.processAttnBatch hl (.inr hk) hb.toWf hb.layerId
    hb.prefillFirst fun r hr => (hb.rows r hr).1
  refine ⟨s', ?_, hinv, hcontents⟩
  rw [processBatch, hb.tag]
  show (if p.topK > 1 ∧ b.metadata.layerId > 0 then _ else _) = _
  rw [if_neg (by rw [hp.topK]; omega), hprocess]

omit [TensorRow V] in
theorem attnAddTokens_nil (s : LayerScheduler W V) {l : ℕ} (hl : l < s.numAttnLayers) :
    s.attnAddTokens l [] = .ok s := by
  rw [attnAddTokens, if_pos hl, modifyLayer]
  congr 1
  rw [show (fun L : UnifiedLayer W V => L.addTokens []) = id from rfl, List.modify_id]

/-- **Replies with gathering** go to the gathering pool of their layer, and what it emits is
queued there. -/
theorem process_replyMsg (hp : p.Inv N k d okRow) (hk : 1 < k) {l : ℕ} (hpos : 0 < l)
    (hl : l ≤ N) {b : TokenBatch W V} (hb : ReplyMsg d l b) :
    ∃ tp tp' s', p.topkPools[l]? = some tp ∧ tp' = b.rows.foldl TokenTopKPool.put tp ∧
      p.processBatch b = .ok { p with
        layerScheduler := s'
        topkPools := p.topkPools.set l { tp' with readyTokens := [] } } ∧
      { p with
        layerScheduler := s'
        topkPools := p.topkPools.set l { tp' with readyTokens := [] } }.Inv N k d okRow ∧
      p.layerScheduler.Added s' ↑(tp'.readyTokens.map (·.seqId)) 0 := by
  have hlen : l < p.topkPools.length := by
    rw [hp.numPools hk]
    omega
  have htp : p.topkPools[l]? = some p.topkPools[l] := List.getElem?_eq_getElem hlen
  have hgather := (hp.pools l _ htp).1.foldl_put hk hb.rows
  obtain ⟨s', hadd, hs', hcontents⟩ := hp.sched.add_tokens hpos hl hk hgather.ready
  refine ⟨p.topkPools[l], _, s', htp, rfl, ?_, ?_, hcontents⟩
  · rw [processBatch, hb.tag]
    show (if p.topK > 1 ∧ b.metadata.layerId > 0 then _ else _) = _
    rw [if_pos (by rw [hp.topK, hb.layerId]; exact ⟨hk, hpos⟩), processAttnBatchTopk, hb.layerId,
      htp]
    simp only [TokenTopKPool.putBatch_eq _ hb.toWf hb.ranks, ok_bind]
    by_cases hnone :
        (b.rows.foldl TokenTopKPool.put p.topkPools[l]).fetchReadyTokens.1.length = 0
    · -- nothing to emit: adding no tokens changes nothing
      have hnil : (b.rows.foldl TokenTopKPool.put p.topkPools[l]).readyTokens = [] :=
        List.length_eq_zero_iff.mp hnone
      rw [hnil] at hadd
      rw [if_pos hnone, ← Except.ok.inj ((attnAddTokens_nil _ (by
        rw [hp.sched.numAttn]; omega)).symm.trans hadd)]
      rfl
    · rw [if_neg hnone]
      show (p.layerScheduler.attnAddTokens l
        (b.rows.foldl TokenTopKPool.put p.topkPools[l]).readyTokens >>= _) = _
      rw [hadd]
      rfl
  · refine ⟨hp.topK, hp.numGroups, hs', hp.thresholds, fun _ => ?_, fun j tp hj => ?_⟩
    · rw [List.length_set, hp.numPools hk]
    · by_cases hjl : j = l
      · subst hjl
        rw [List.getElem?_set_self hlen] at hj
        obtain rfl := Option.some.inj hj
        exact ⟨⟨⟨hgather.nodup, hgather.count_pos, hgather.count_lt⟩, hgather.topK,
          hgather.entries, by simp⟩, rfl⟩
      · rw [List.getElem?_set_ne (Ne.symm hjl)] at hj
        exact hp.pools j tp hj

/-- **Picking a layer** leaves the contents as they are. -/
theorem schedule (hp : p.Inv N k d okRow) :
    { p with layerScheduler := p.layerScheduler.schedule.2 }.Inv N k d okRow ∧
      p.layerScheduler.Added p.layerScheduler.schedule.2 0 0 := by
  have hok := hp.sched.toOk.schedule
  obtain ⟨windows, sums, heq⟩ := schedule_frame p.layerScheduler
  rw [heq] at hok ⊢
  refine ⟨hp.withSched ⟨hok, hp.sched.numExpertLayers, hp.sched.useTokenQueue, hp.sched.holds⟩,
    (add_zero _).symm, fun f => ?_, fun i => le_rfl⟩
  rw [Multiset.map_zero, add_zero]
  rfl

theorem get_attn [Inhabited W] (S : StdSort) (gatherSum : List V → V) (hp : p.Inv N k d okRow)
    {i : ℕ} (hi : i ≤ N) (hpos : 0 < (p.layerScheduler.layerAt i).numTokens) :
    ∃ s' b, p.getBatchFromLayer S gatherSum i =
        ({ p with layerScheduler := s' }, .ok (some b)) ∧
      AttnWork i b ∧ 0 < b.metadata.numTokens ∧
      { p with layerScheduler := s' }.Inv N k d okRow ∧
      s'.attnIds + ↑(b.rows.map (·.reqId)) = p.layerScheduler.attnIds ∧
      (∀ {β : Type} (f : ℕ → Row W V → β), s'.expertWork f = p.layerScheduler.expertWork f) ∧
      ∃ tokens, tokens ++ (s'.layerAt i).queued = (p.layerScheduler.layerAt i).queued ∧
        (b.rows.map Row.core).Perm (tokens.map (coreRow gatherSum)) := by
  obtain ⟨s', b, hget, hwork, hnonempty, hs', hids, hrows, hperm⟩ :=
    hp.sched.get_attn S gatherSum hi hpos hp.thresholds.1
  refine ⟨s', b, ?_, hwork, hnonempty, hp.withSched hs', hids, hrows, hperm⟩
  have hattn : p.layerScheduler.isAttnLayer i = true := by
    simp only [isAttnLayer, hp.sched.numAttn, decide_eq_true_eq]
    omega
  rw [getBatchFromLayer, if_pos hattn, hget]

theorem pos_of_get [Inhabited W] {S : StdSort} {gatherSum : List V → V} (hp : p.Inv N k d okRow)
    {i : ℕ} (hi : i ≤ N) {p' : UnifiedPool W V} {b : TokenBatch W V}
    (hget : p.getBatchFromLayer S gatherSum i = (p', .ok (some b))) :
    0 < (p.layerScheduler.layerAt i).numTokens := by
  have hattn : p.layerScheduler.isAttnLayer i = true := by
    simp only [isAttnLayer, hp.sched.numAttn, decide_eq_true_eq]
    omega
  rw [getBatchFromLayer, if_pos hattn] at hget
  have hbatch : (p.layerScheduler.getBatchFromLayerRestricted S gatherSum i
      p.attnScheduleTokenThreshold).2 = .ok (some b) := congrArg Prod.snd hget
  refine hp.sched.toOk.pos_of_get S gatherSum ?_ hp.thresholds.1 (Prod.ext rfl hbatch)
  rw [hp.sched.numLayers_eq]
  omega

theorem get_expert [Inhabited W] (S : StdSort) (gatherSum : List V → V)
    (hexp : ∀ r, okRow r → ∀ e ∈ r.expId, e < maxNumExperts) (hp : p.Inv N k d okRow) {l : ℕ}
    (hl : l < N) (hpos : 0 < (p.layerScheduler.layerAt (N + 1 + l)).numTokens) :
    ∃ s' b, p.getBatchFromLayer S gatherSum (N + 1 + l : ℕ) =
        ({ p with layerScheduler := s' }, .ok (some b)) ∧
      ExpertWork okRow l b ∧ { p with layerScheduler := s' }.Inv N k d okRow ∧
      s'.attnIds = p.layerScheduler.attnIds ∧
      ∀ {β : Type} (f : ℕ → Row W V → β),
        s'.expertWork f + ↑(b.rows.map (f l)) = p.layerScheduler.expertWork f := by
  obtain ⟨s', b, hget, hwork, hs', hids, hrows⟩ :=
    hp.sched.get_expert S gatherSum hexp hl hpos hp.thresholds.2
  refine ⟨s', b, ?_, hwork, hp.withSched hs', hids, hrows⟩
  have hattn : ¬ p.layerScheduler.isAttnLayer (N + 1 + l : ℕ) = true := by
    simp only [isAttnLayer, hp.sched.numAttn, decide_eq_true_eq]
    omega
  rw [getBatchFromLayer, if_neg hattn, hget]

end UnifiedPool.Inv

/-! ### A new pool -/

theorem UnifiedPool.inv_create (ty : SchedulerType) (N k d : ℕ)
    (okRow : Row W V → Prop) {attn expert : ℤ} (ha : 1 ≤ attn) (he : 1 ≤ expert) :
    ((create ty N 1 k : UnifiedPool W V).setScheduleTokenThreshold attn expert).Inv N k d
      okRow where
  topK := rfl
  numGroups := le_rfl
  sched := by
    refine ⟨ok_create ty N k, rfl, rfl, fun i hi => ?_⟩
    show LayerHolds N k d okRow i
      ((LayerScheduler.create ty (N + 1) N k : LayerScheduler W V).layerAt i)
    rw [layerAt_create ty N k hi]
    split_ifs <;> constructor <;>
      simp [UnifiedLayer.createAttentionLayer, UnifiedLayer.createExpertLayer, UnifiedLayer.create]
  thresholds := ⟨ha, he⟩
  numPools hk := by simp [create, setScheduleTokenThreshold, hk]
  pools l tp hl := by
    simp only [create, setScheduleTokenThreshold] at hl
    split_ifs at hl with hk
    · obtain ⟨-, rfl⟩ := by simpa [List.getElem?_replicate] using hl
      exact ⟨⟨TokenTopKPool.ok_create k, rfl, by simp [TokenTopKPool.create],
        by simp [TokenTopKPool.create]⟩, rfl⟩
    · simp at hl

end Invariant

end StreamEP

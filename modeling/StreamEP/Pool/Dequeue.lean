import StreamEP.Pool.SchedRun

/-!
# Restricted and unrestricted dequeueing

`get_batch_from_layer_restricted` with a threshold that restricts nothing against
`get_batch_from_layer`. The header documents a threshold of zero or less as "no restriction",
and a threshold of at least `num_tokens` cannot restrict either; the branch that handed both
over to the unrestricted getter is commented out in the source.

What is left of it is two loops. The loop over batches stops as soon as the threshold is met, so
it takes nothing when the threshold is not positive, and it leaves batches without tokens at the
end of the queue when the threshold is met exactly. The sampler does queue such batches: it puts
a loop-back batch even when no request continues.

## Main results

* `LayerScheduler.restricted_refines_iff` — when the two getters agree
-/

namespace StreamEP

variable {W V : Type}

/-! ### The loop with a threshold that restricts nothing -/

theorem takeBatches_of_tokens_lt {t : ℤ} (q : List (TokenBatch W V)) {total : ℤ}
    (h : total + queuedTokens q < t) : (takeBatches t q total).result = q ∧
      (takeBatches t q total).rest = [] := by
  induction q generalizing total with
  | nil => exact ⟨rfl, rfl⟩
  | cons b q ih =>
    rw [queuedTokens_cons] at h
    push_cast at h
    have hfits : total + b.metadata.numTokens + queuedTokens q < t := by omega
    obtain ⟨hres, hrest⟩ := ih hfits
    rw [takeBatches_cons_of_fit q (by omega) (by omega)]
    exact ⟨congrArg (b :: ·) hres, hrest⟩

theorem eq_zero_of_queuedTokens {q : List (TokenBatch W V)} (h : queuedTokens q = 0) :
    ∀ c ∈ q, c.metadata.numTokens = 0 := by
  intro c hc
  exact List.sum_eq_zero_iff.mp h _ (List.mem_map_of_mem hc)

theorem takeBatches_of_tokens_eq {t : ℤ} (q : List (TokenBatch W V)) (total : ℤ)
    (h : t = total + queuedTokens q) :
    (takeBatches t q total).result ++ (takeBatches t q total).rest = q ∧
      ∀ c ∈ (takeBatches t q total).rest, c.metadata.numTokens = 0 := by
  revert h
  refine takeBatches_induction (P := fun q total r => t = total + queuedTokens q →
    r.result ++ r.rest = q ∧ ∀ c ∈ r.rest, c.metadata.numTokens = 0) ?_ ?_ ?_ ?_ q total
  · intro q total hle h
    have hzero : queuedTokens q = 0 := by omega
    exact ⟨rfl, eq_zero_of_queuedTokens hzero⟩
  · intro total _ _
    exact ⟨rfl, by simp⟩
  · intro b q total r _ _ ih h
    rw [queuedTokens_cons] at h
    push_cast at h
    obtain ⟨happ, hrest⟩ := ih (by omega)
    exact ⟨congrArg (b :: ·) happ, hrest⟩
  · intro b q total k _ ht hk h
    rw [queuedTokens_cons] at h
    push_cast at h
    omega

namespace LayerScheduler

/-! ### Batches as the pools queue them -/

/-- A batch as the pools pass it to layer `i`: attention batches name the rank of every token and
count each token once, expert batches are pieces that a dispatcher cut and hence not empty. -/
structure CarriedAt (numAttnLayers i : ℕ) (b : TokenBatch W V) : Prop where
  ranks : i < numAttnLayers → b.metadata.attnDpRanks.length = b.metadata.numTokens
  /-- Every token of an attention batch is counted as prefill or as decode. -/
  counts : i < numAttnLayers → b.metadata.numPrefillSeqs.getD 0 +
    b.metadata.numDecodeTokens.getD 0 = b.metadata.numTokens
  pos : numAttnLayers ≤ i → 0 < b.metadata.numTokens

/-- All queued batches are as the pools queue them. -/
def Carried (s : LayerScheduler W V) : Prop :=
  ∀ i < s.numLayers, ∀ b ∈ (s.layerAt i).batchQueue, CarriedAt s.numAttnLayers i b

theorem Carried.modifyLayer {s : LayerScheduler W V} (h : s.Carried)
    (hlen : s.layers.length = s.numLayers) {i : ℕ} (hi : i < s.numLayers)
    {f : UnifiedLayer W V → UnifiedLayer W V}
    (hf : ∀ b ∈ (f (s.layerAt i)).batchQueue, CarriedAt s.numAttnLayers i b) :
    (s.modifyLayer i f).Carried := by
  intro j hj
  by_cases hji : j = i
  · subst hji
    rw [layerAt_modifyLayer_self s (hlen ▸ hi)]
    exact hf
  · rw [layerAt_modifyLayer_of_ne s hji]
    exact h j hj

variable [TensorRow V]

/-- A piece with a token is again as the pools queue it: splitting recounts. -/
theorem CarriedAt.chunk {na i : ℕ} {b : TokenBatch W V} (hb : CarriedAt na i b)
    (hq : Queueable na i b) {off n : ℕ} (hpos : 0 < n) (hn : off + n ≤ b.metadata.numTokens) :
    CarriedAt na i (b.chunk off n) where
  ranks hi := by
    simp [hb.ranks hi]
    omega
  counts hi := by
    have htag := (hq.attention hi).1
    have hlen : ((b.metadata.initPrefillLens.drop off).take n).length = n := by
      simp [hq.initPrefillLens]
      omega
    have hle := List.countP_le_length (p := fun l : ℤ => decide (l ≠ -1))
      (l := (b.metadata.initPrefillLens.drop off).take n)
    simp only [TokenBatch.chunk_metadata, BatchMetadata.chunk, BatchMetadata.isAttention, htag,
      decide_true, if_true, Option.getD_some]
    omega
  pos _ := by simpa using hpos

section Fed

variable [Inhabited W] (S : StdSort) (gatherSum : List V → V)

/-- The states of a scheduler that the pools feed and the scheduling thread empties. -/
inductive Fed : LayerScheduler W V → Prop
  /-- A new scheduler has one attention layer more than expert layers. -/
  | create (ty : SchedulerType) (n topk : ℕ) : Fed (create ty (n + 1) n topk)
  /-- A pool adds a batch. -/
  | addBatch {s s' : LayerScheduler W V} {b : TokenBatch W V} (h : Fed s) (hb : s.Addable b)
      (hc : CarriedAt s.numAttnLayers (s.target b) b) (hs : s.addBatch b = .ok s') : Fed s'
  /-- A pool adds gathered tokens to an attention layer that gathers. -/
  | attnAddTokens {s s' : LayerScheduler W V} {l : ℕ} {ts : List (TokenTopKInfo V)} (h : Fed s)
      (hl : 0 < l) (huse : s.attnUseTokenQueue = true) (hts : ∀ t ∈ ts, -1 ≤ t.initPrefillLen)
      (hs : s.attnAddTokens l ts = .ok s') : Fed s'
  | schedule {s : LayerScheduler W V} (h : Fed s) : Fed s.schedule.2
  /-- A layer with work is served up to a positive threshold. -/
  | getRestricted {s : LayerScheduler W V} {i : ℕ} {t : ℤ} (h : Fed s) (hi : i < s.numLayers)
      (hq : (s.layerAt i).queued ≠ []) (ht : 1 ≤ t) :
      Fed (s.getBatchFromLayerRestricted S gatherSum i t).1
  /-- A layer with work is served whole. -/
  | get {s : LayerScheduler W V} {i : ℕ} (h : Fed s) (hi : i < s.numLayers)
      (hq : (s.layerAt i).queued ≠ []) : Fed (s.getBatchFromLayer S gatherSum i).1

/-- What the unrestricted getter leaves of the layer. -/
def emptied (usesTokenQueue : Bool) (L : UnifiedLayer W V) : UnifiedLayer W V :=
  if usesTokenQueue then L.getAllTokens.2 else L.getAllBatches.2

omit [Inhabited W] in
theorem LayerOk.emptied {na i : ℕ} {uses : Bool} {L : UnifiedLayer W V}
    (h : LayerOk na uses i L) : LayerOk na uses i (emptied uses L) := by
  cases uses with
  | true =>
    have hbq := h.batchQueue rfl
    refine ⟨h.layerId, ?_, fun _ => hbq, by simp, h.batches, by
      simp [LayerScheduler.emptied, UnifiedLayer.getAllTokens]⟩
    simp [LayerScheduler.emptied, UnifiedLayer.getAllTokens, UnifiedLayer.queued, hbq]
  | false =>
    have htq := h.tokenQueue rfl
    refine ⟨h.layerId, ?_, by simp, fun _ => htq, by
      simp [LayerScheduler.emptied, UnifiedLayer.getAllBatches], h.tokens⟩
    simp [LayerScheduler.emptied, UnifiedLayer.getAllBatches, UnifiedLayer.queued, htq]

theorem getBatchFromLayer_fst {s : LayerScheduler W V} {i : ℕ} (hi : i < s.numLayers) :
    (s.getBatchFromLayer S gatherSum i).1 =
      s.modifyLayer i fun _ => emptied (s.layerUsesTokenQueue i) (s.layerAt i) := by
  rw [getBatchFromLayer, if_neg (rangeCheck hi), Int.toNat_natCast]
  cases huses : s.layerUsesTokenQueue i with
  | true => rfl
  | false => rfl

omit [Inhabited W] in
theorem Ok.numTokens_pos {s : LayerScheduler W V} (hs : s.Ok) {i : ℕ} (hi : i < s.numLayers)
    (hq : (s.layerAt i).queued ≠ []) : 0 < (s.layerAt i).numTokens := by
  rw [(hs.layers i hi).numTokens]
  have := List.length_pos_iff.mpr hq
  omega

omit [Inhabited W] in
theorem Carried.served {s : LayerScheduler W V} (hs : s.Ok) (hc : s.Carried) {i : ℕ}
    (hi : i < s.numLayers) (t : ℤ) :
    ∀ b ∈ (served (s.layerUsesTokenQueue i) (s.layerAt i) t).batchQueue,
      CarriedAt s.numAttnLayers i b := by
  cases s.layerUsesTokenQueue i with
  | true => exact hc i hi
  | false =>
    have hq : ∀ b ∈ (s.layerAt i).batchQueue,
        Queueable s.numAttnLayers i b ∧ CarriedAt s.numAttnLayers i b :=
      fun b hb => ⟨(hs.layers i hi).batches b hb, hc i hi b hb⟩
    have hrest := (takeBatches_forall_of_pos (fun b off n hb hpos hn =>
      ⟨hb.1.chunk hn, hb.2.chunk hb.1 hpos hn⟩) t 0 hq).2
    exact fun b hb => (hrest b hb).2

variable {S gatherSum}

theorem Fed.inv {s : LayerScheduler W V} (h : Fed S gatherSum s) : s.Ok ∧ s.Carried := by
  induction h with
  | create ty n topk =>
    refine ⟨ok_create ty n topk, fun i hi => ?_⟩
    rw [layerAt_create ty n topk hi]
    split_ifs
    · simp [UnifiedLayer.createAttentionLayer, UnifiedLayer.create]
    · simp [UnifiedLayer.createExpertLayer, UnifiedLayer.create]
  | @addBatch s s' b _ hb hc hs ih =>
    obtain ⟨hi, heq, hok, -⟩ := ih.1.addBatch_spec hb
    obtain rfl := Except.ok.inj (hs.symm.trans heq)
    refine ⟨hok, ih.2.modifyLayer ih.1.length_layers hi fun c hcmem => ?_⟩
    rcases List.mem_append.mp hcmem with hold | hnew
    · exact ih.2 _ hi c hold
    · rw [List.mem_singleton.mp hnew]
      exact hc
  | @attnAddTokens s s' l ts _ hl huse hts hs ih =>
    have hlt : l < s.numAttnLayers := by
      by_contra hge
      rw [LayerScheduler.attnAddTokens, if_neg hge] at hs
      cases hs
    have hi : l < s.numLayers := Nat.lt_add_right _ hlt
    obtain ⟨heq, hok, -⟩ := ih.1.attnAddTokens_spec hl hlt huse hts
    obtain rfl := Except.ok.inj (hs.symm.trans heq)
    refine ⟨hok, ih.2.modifyLayer ih.1.length_layers hi fun c hc => ?_⟩
    rw [addTokens_eq] at hc
    exact ih.2 l hi c hc
  | @schedule s _ ih =>
    refine ⟨ih.1.schedule, ?_⟩
    obtain ⟨windows, sums, heq⟩ := schedule_frame s
    rw [heq]
    exact ih.2
  | @getRestricted s i t _ hi hq ht ih =>
    obtain ⟨b, hget⟩ := ih.1.get_spec S gatherSum hi (ih.1.numTokens_pos hi hq) ht
    rw [hget]
    have hserved := ((ih.1.layers i hi).serve (show 0 ≤ t by omega)).1
    exact ⟨ih.1.modifyLayer hi hserved,
      ih.2.modifyLayer ih.1.length_layers hi (ih.2.served ih.1 hi t)⟩
  | @get s i _ hi hq ih =>
    rw [getBatchFromLayer_fst S gatherSum hi]
    refine ⟨ih.1.modifyLayer hi (ih.1.layers i hi).emptied,
      ih.2.modifyLayer ih.1.length_layers hi fun b hb => ?_⟩
    cases huses : s.layerUsesTokenQueue i with
    | true =>
      rw [huses] at hb
      exact ih.2 i hi b hb
    | false =>
      rw [huses] at hb
      cases hb

end Fed

/-! ### Batches without tokens in a merge -/

section Merge

variable [Inhabited W]

omit [TensorRow V] [Inhabited W] in
theorem flatMap_append_of_nil {α β : Type} {f : α → List β} (xs : List α) {ys : List α}
    (h : ∀ y ∈ ys, f y = []) : (xs ++ ys).flatMap f = xs.flatMap f := by
  rw [List.flatMap_append, List.flatMap_eq_nil_iff.mpr h, List.append_nil]

omit [TensorRow V] [Inhabited W] in
theorem sum_map_append_of_zero {α : Type} {f : α → ℕ} (xs : List α) {ys : List α}
    (h : ∀ y ∈ ys, f y = 0) : ((xs ++ ys).map f).sum = (xs.map f).sum := by
  rw [List.map_append, List.sum_append,
    List.sum_eq_zero_iff.mpr (List.forall_mem_map.mpr h), Nat.add_zero]

omit [Inhabited W] in
theorem mergeByAttention_append {m : BatchMetadata W} (ms : List (BatchMetadata W))
    {es : List (BatchMetadata W)}
    (hcheck : ∀ e ∈ m :: ms ++ es, e.attentionBatchSafeCheck = true)
    (hprefill : ∀ e ∈ es, e.numPrefillSeqs.getD 0 = 0)
    (hdecode : ∀ e ∈ es, e.numDecodeTokens.getD 0 = 0) :
    BatchMetadata.mergeByAttention (m :: ms ++ es) = BatchMetadata.mergeByAttention (m :: ms) := by
  have htokens : ∀ e ∈ es, e.numPrefillTokens.getD 0 = 0 := by
    intro e he
    have hsafe := hcheck e (List.mem_append_right _ he)
    simp only [BatchMetadata.attentionBatchSafeCheck, Bool.and_eq_true,
      decide_eq_true_eq] at hsafe
    rw [hsafe.2, hprefill e he]
  have hp : ∀ {α : Type} (column : BatchMetadata W → List α),
      BatchMetadata.prefillEntries (m :: ms ++ es) column =
        BatchMetadata.prefillEntries (m :: ms) column :=
    fun column => flatMap_append_of_nil (m :: ms) fun e he => by rw [hprefill e he, List.take_zero]
  have hd : ∀ {α : Type} (column : BatchMetadata W → List α),
      BatchMetadata.decodeEntries (m :: ms ++ es) column =
        BatchMetadata.decodeEntries (m :: ms) column :=
    fun column => flatMap_append_of_nil (m :: ms) fun e he => by rw [hdecode e he, List.take_zero]
  rw [BatchMetadata.mergeByAttention, ensure_of_true hcheck, BatchMetadata.mergeByAttention,
    ensure_of_true fun e he => hcheck e (List.mem_append_left _ he), hp, hp, hd, hd,
    sum_map_append_of_zero _ hprefill, sum_map_append_of_zero _ htokens,
    sum_map_append_of_zero _ hdecode]
  rfl

theorem merge_attention_eq {b : TokenBatch W V} (htag : b.metadata.batchTag = .attention)
    (c : TokenBatch W V) (bs : List (TokenBatch W V)) :
    TokenBatch.merge (b :: c :: bs) =
      (BatchMetadata.mergeByAttention ((b :: c :: bs).map (·.metadata))).map fun m =>
        some ⟨(b :: c :: bs).flatMap (fun x => x.data.take (x.metadata.numPrefillTokens.getD 0)) ++
          (b :: c :: bs).flatMap fun x => (x.data.drop (x.metadata.numPrefillTokens.getD 0)).take
            (x.metadata.numDecodeTokens.getD 0), m⟩ := by
  have hexpert : b.metadata.isExpert = false := by simp [BatchMetadata.isExpert, htag]
  have hattention : b.metadata.isAttention = true := by simp [BatchMetadata.isAttention, htag]
  simp only [TokenBatch.merge, hexpert, hattention, Bool.false_eq_true, if_false, if_true,
    TokenBatch.mergeByAttention]
  cases BatchMetadata.mergeByAttention ((b :: c :: bs).map (·.metadata)) with
  | error e => rfl
  | ok m => rfl

/-- **Batches without tokens add nothing to an attention merge** of two or more batches. -/
theorem merge_append {na i : ℕ} {b c : TokenBatch W V} {bs es : List (TokenBatch W V)}
    (hi : i < na) (hq : ∀ x ∈ b :: c :: (bs ++ es), Queueable na i x)
    (hc : ∀ x ∈ es, CarriedAt na i x) (hempty : ∀ x ∈ es, x.metadata.numTokens = 0) :
    TokenBatch.merge (b :: c :: (bs ++ es)) = TokenBatch.merge (b :: c :: bs) := by
  have htag := ((hq b (by simp)).attention hi).1
  have hzero : ∀ x ∈ es, x.metadata.numPrefillSeqs.getD 0 = 0 ∧
      x.metadata.numDecodeTokens.getD 0 = 0 := by
    intro x hx
    have hcounts := (hc x hx).counts hi
    have hnone := hempty x hx
    omega
  have hdata : ∀ x ∈ es, x.data = [] := by
    intro x hx
    rw [← List.length_eq_zero_iff, (hq x (by simp [hx])).data, hempty x hx]
  have hcheck : ∀ m ∈ b.metadata :: (c :: bs).map (·.metadata) ++ es.map (·.metadata),
      m.attentionBatchSafeCheck = true := by
    intro m hm
    rw [← List.map_cons, ← List.map_append] at hm
    obtain ⟨x, hx, rfl⟩ := List.mem_map.mp hm
    exact ((hq x (by simpa using hx)).attention hi).2
  have hmeta := mergeByAttention_append ((c :: bs).map (·.metadata)) hcheck
    (List.forall_mem_map.mpr fun x hx => (hzero x hx).1)
    (List.forall_mem_map.mpr fun x hx => (hzero x hx).2)
  rw [← List.map_cons, ← List.map_append] at hmeta
  rw [merge_attention_eq htag, merge_attention_eq htag, ← List.cons_append, ← List.cons_append,
    hmeta, flatMap_append_of_nil _ fun x hx => by rw [hdata x hx, List.take_nil],
    flatMap_append_of_nil _ fun x hx => by rw [hdata x hx, List.drop_nil, List.take_nil]]

theorem attnDpRanks_of_merge {na i : ℕ} {b c m : TokenBatch W V} {bs : List (TokenBatch W V)}
    (hi : i < na) (hb : Queueable na i b) (hm : TokenBatch.merge (b :: c :: bs) = .ok (some m)) :
    m.metadata.attnDpRanks = [] := by
  rw [merge_attention_eq (hb.attention hi).1, BatchMetadata.mergeByAttention] at hm
  by_cases hcheck : ∀ m ∈ (b :: c :: bs).map (·.metadata), m.attentionBatchSafeCheck = true
  · rw [ensure_of_true hcheck] at hm
    cases hm
    rfl
  · rw [ensure_of_false hcheck] at hm
    cases hm

end Merge

/-! ### The two getters -/

section Refines

variable [Inhabited W] (S : StdSort) (gatherSum : List V → V)

/-- The restricted getter returns what the unrestricted one returns, leaves no token in the layer
and releases the mutex. -/
def Refines (s : LayerScheduler W V) (i : ℕ) (t : ℤ) : Prop :=
  ∃ s' b, s.getBatchFromLayerRestricted S gatherSum i t = (s', .ok (some b)) ∧
    (s.getBatchFromLayer S gatherSum i).2 = .ok (some b) ∧
    (s'.layerAt i).queued = [] ∧ s'.locked = false

omit [TensorRow V] [Inhabited W] in
/-- The threshold is met by the first batch, and the batches behind it hold no token. -/
def Lone (s : LayerScheduler W V) (i : ℕ) (t : ℤ) : Prop :=
  ∃ b rest, (s.layerAt i).batchQueue = b :: rest ∧ rest ≠ [] ∧
    (∀ c ∈ rest, c.metadata.numTokens = 0) ∧ t = b.metadata.numTokens

variable {S gatherSum} {s : LayerScheduler W V} {i : ℕ} {t : ℤ}

theorem getBatchFromLayer_of_tokens (hi : i < s.numLayers)
    (huses : s.layerUsesTokenQueue i = true) :
    (s.getBatchFromLayer S gatherSum i).2 =
      (TokenBatch.packTopkTokens S gatherSum i (s.layerAt i).tokenQueue).map some := by
  rw [getBatchFromLayer, if_neg (rangeCheck hi), Int.toNat_natCast, if_pos huses]
  rfl

theorem getBatchFromLayer_of_batches (hi : i < s.numLayers)
    (huses : s.layerUsesTokenQueue i = false) :
    (s.getBatchFromLayer S gatherSum i).2 = TokenBatch.merge (s.layerAt i).batchQueue := by
  rw [getBatchFromLayer, if_neg (rangeCheck hi), Int.toNat_natCast, if_neg (by simp [huses])]
  rfl

/-- A threshold that is not positive takes nothing: the batch getter throws with the mutex held,
the token getter packs no tokens. -/
theorem not_refines_of_nonpos (hi : i < s.numLayers) (ht : t ≤ 0) :
    ¬s.Refines S gatherSum i t := by
  rintro ⟨s', b, hget, -⟩
  cases huses : s.layerUsesTokenQueue i with
  | true =>
    have hsort : S.sort TokenTopKInfo.packLess ([] : List (TokenTopKInfo V)) = [] :=
      (S.perm (strictWeakOn_packLess (by simp))).eq_nil
    rw [getRestricted_of_tokens S gatherSum hi huses, Int.toNat_of_nonpos ht, List.take_zero,
      TokenBatch.packTopkTokens, hsort] at hget
    cases congrArg Prod.snd hget
  | false =>
    rw [getBatchFromLayerRestricted, if_neg (rangeCheck hi), Int.toNat_natCast,
      if_neg (by simp [huses])] at hget
    simp only [UnifiedLayer.getBatchesRestricted, takeBatches_of_le _ ht] at hget
    rw [ensure_of_false (by simp)] at hget
    cases congrArg Prod.snd hget

theorem Ok.get_all (S : StdSort) (gatherSum : List V → V) (hs : s.Ok) (hi : i < s.numLayers)
    (hq : (s.layerAt i).queued ≠ []) (ht : (s.layerAt i).queued.length ≤ t) :
    ∃ s' b, s.getBatchFromLayerRestricted S gatherSum i t = (s', .ok (some b)) ∧
      (s'.layerAt i).queued = [] ∧ s'.locked = false := by
  have hlen := List.length_pos_iff.mpr hq
  obtain ⟨b, hget⟩ := hs.get_spec S gatherSum hi (hs.numTokens_pos hi hq) (show 1 ≤ t by omega)
  obtain ⟨-, hsplit, htaken⟩ := (hs.layers i hi).serve (show 0 ≤ t by omega)
  refine ⟨_, b, hget, ?_, hs.unlocked⟩
  rw [layerAt_modifyLayer_self s (hs.length_layers ▸ hi), ← List.length_eq_zero_iff]
  have htotal := congrArg List.length hsplit
  rw [List.length_append] at htotal
  omega

/-- **The merged batches are the same**, unless one batch holds all tokens and batches without
tokens follow it. -/
theorem merge_takeBatches (hs : s.Ok) (hc : s.Carried) (hi : i < s.numLayers)
    (ht : (queuedTokens (s.layerAt i).batchQueue : ℤ) ≤ t)
    (hpos : 0 < queuedTokens (s.layerAt i).batchQueue) (hlone : ¬s.Lone i t) :
    TokenBatch.merge (takeBatches t (s.layerAt i).batchQueue 0).result =
      TokenBatch.merge (s.layerAt i).batchQueue := by
  rcases Int.lt_or_eq_of_le ht with hlt | heq
  · rw [(takeBatches_of_tokens_lt _ (by omega)).1]
  -- the threshold is met exactly, so only batches without tokens stay behind
  obtain ⟨happ, hempty⟩ := takeBatches_of_tokens_eq (s.layerAt i).batchQueue 0
    (show t = 0 + _ by omega)
  have htokens := takeBatches_tokens (t := t) (s.layerAt i).batchQueue 0
  have htotal := takeBatches_total (show (0 : ℤ) ≤ t by omega) (s.layerAt i).batchQueue
  generalize (takeBatches t (s.layerAt i).batchQueue 0).result = taken at *
  generalize (takeBatches t (s.layerAt i).batchQueue 0).rest = rest at *
  by_cases hrest : rest = []
  · rw [← happ, hrest, List.append_nil]
  match taken with
  | [] => simp only [queuedTokens_nil] at htokens; omega
  | [b] =>
    refine absurd ⟨b, rest, happ.symm, hrest, hempty, ?_⟩ hlone
    simp only [queuedTokens_cons, queuedTokens_nil] at htokens
    omega
  | b :: c :: bs =>
    have hq := (hs.layers i hi).batches
    have hcarried := hc i hi
    rw [← happ] at hq hcarried ⊢
    have hattn : i < s.numAttnLayers := by
      by_contra hexpert
      obtain ⟨e, he⟩ := List.exists_mem_of_ne_nil rest hrest
      have := (hcarried e (List.mem_append_right _ he)).pos (Nat.le_of_not_lt hexpert)
      have := hempty e he
      omega
    exact (merge_append hattn hq (fun x hx => hcarried x (List.mem_append_right _ hx))
      hempty).symm

/-- A lone batch keeps its ranks when it is taken alone and loses them when it is merged. -/
theorem not_refines_of_lone (hs : s.Ok) (hc : s.Carried) (hi : i < s.numLayers)
    (hq : (s.layerAt i).queued ≠ []) (hlone : s.Lone i t) : ¬s.Refines S gatherSum i t := by
  rintro ⟨s', m, hget, hall, -⟩
  obtain ⟨b, rest, hqueue, hrest, hempty, ht⟩ := hlone
  obtain ⟨c, bs, rfl⟩ := List.exists_cons_of_ne_nil hrest
  have hok := hs.layers i hi
  have huses : s.layerUsesTokenQueue i = false := by
    by_contra huses
    have hnil := hok.batchQueue (by simpa using huses)
    rw [hnil] at hqueue
    cases hqueue
  rw [huses] at hok
  have hattn : i < s.numAttnLayers := by
    by_contra hexpert
    have hcmem : c ∈ (s.layerAt i).batchQueue := by simp [hqueue]
    have := (hc i hi c hcmem).pos (Nat.le_of_not_lt hexpert)
    have := hempty c (by simp)
    omega
  have hbmem : b ∈ (s.layerAt i).batchQueue := by simp [hqueue]
  have hpos : 0 < b.metadata.numTokens := by
    have hnum := hs.numTokens_pos hi hq
    have hsum : queuedTokens (c :: bs) = 0 :=
      List.sum_eq_zero_iff.mpr (List.forall_mem_map.mpr hempty)
    rw [hok.numTokens, UnifiedLayer.length_queued, hok.tokenQueue rfl, hqueue, queuedTokens_cons,
      hsum] at hnum
    simpa using hnum
  have htake : takeBatches t (s.layerAt i).batchQueue 0 =
      ⟨[b], c :: bs, (b.metadata.numTokens : ℤ)⟩ := by
    rw [hqueue, takeBatches_cons_of_fit _ (by omega) (by omega), takeBatches_of_le _ (by omega)]
    simp
  rw [getRestricted_of_batches S gatherSum hi huses (by simpa [htake] using hpos)
    (by simp [htake]), htake] at hget
  rw [getBatchFromLayer_of_batches hi huses, hqueue] at hall
  have hm : b = m := Option.some.inj (Except.ok.inj (congrArg Prod.snd hget))
  have hnone := attnDpRanks_of_merge hattn (hok.batches b hbmem) hall
  have hranks := (hc i hi b hbmem).ranks hattn
  rw [hm, hnone] at hranks
  rw [hm] at hpos
  simp at hranks
  omega

/-- **When the restricted getter refines the unrestricted one.** With a threshold that is
documented as no restriction, or that covers all queued tokens, the two agree exactly when the
threshold is positive and is not met by a first batch that only empty batches follow. -/
theorem restricted_refines_iff (hs : Fed S gatherSum s) (hi : i < s.numLayers)
    (hq : (s.layerAt i).queued ≠ []) (ht : t ≤ 0 ∨ (s.layerAt i).queued.length ≤ t) :
    s.Refines S gatherSum i t ↔ 0 < t ∧ ¬s.Lone i t := by
  obtain ⟨hok, hc⟩ := hs.inv
  have hlen := List.length_pos_iff.mpr hq
  constructor
  · intro h
    refine ⟨?_, fun hlone => not_refines_of_lone hok hc hi hq hlone h⟩
    by_contra hneg
    exact not_refines_of_nonpos hi (by omega) h
  · rintro ⟨hpos, hlone⟩
    have hall : ((s.layerAt i).queued.length : ℤ) ≤ t := by omega
    obtain ⟨s', b, hget, hempty, hlock⟩ := hok.get_all S gatherSum hi hq hall
    refine ⟨s', b, hget, ?_, hempty, hlock⟩
    have hlayer := hok.layers i hi
    cases huses : s.layerUsesTokenQueue i with
    | true =>
      rw [huses] at hlayer
      rw [UnifiedLayer.length_queued, hlayer.batchQueue rfl, queuedTokens_nil] at hall
      rw [getRestricted_of_tokens S gatherSum hi huses,
        List.take_of_length_le (by omega)] at hget
      rw [getBatchFromLayer_of_tokens hi huses]
      exact congrArg Prod.snd hget
    | false =>
      rw [huses] at hlayer
      rw [UnifiedLayer.length_queued, hlayer.tokenQueue rfl, List.length_nil] at hall hlen
      obtain ⟨htotal, hne⟩ := hlayer.take_batches_ne_nil (hok.numTokens_pos hi hq)
        (show 1 ≤ t by omega)
      rw [getRestricted_of_batches S gatherSum hi huses htotal hne,
        merge_takeBatches hok hc hi (by omega) (by omega) hlone] at hget
      rw [getBatchFromLayer_of_batches hi huses]
      exact congrArg Prod.snd hget

end Refines

/-! ### One token in an expert layer -/

/-- A scheduler with one token for expert `0` of layer `0`. -/
def oneTokenQueued : LayerScheduler ℕ ℕ :=
  (create SchedRun.halfDecay 2 1 2).modifyLayer 2 (·.addBatch SchedRun.oneToken)

theorem fed_oneTokenQueued : Fed .stable List.sum oneTokenQueued := by
  refine .addBatch (.create SchedRun.halfDecay 1 2) SchedRun.addable_oneToken ?_ rfl
  exact ⟨by decide, by decide, by decide⟩

theorem restricted_refines_oneTokenQueued : oneTokenQueued.Refines .stable List.sum 2 1 := by
  refine (restricted_refines_iff fed_oneTokenQueued (by decide) (by decide)
    (.inr (by decide))).mpr ⟨by decide, ?_⟩
  rintro ⟨b, rest, hqueue, hrest, -⟩
  cases hqueue
  exact hrest rfl

/-- The documented threshold for no restriction: the getter throws, and nobody releases the
mutex. -/
theorem restricted_nonpos_throws :
    (oneTokenQueued.getBatchFromLayerRestricted .stable List.sum 2 0).1.locked = true ∧
      (∀ b, (oneTokenQueued.getBatchFromLayerRestricted .stable List.sum 2 0).2 ≠ .ok b) ∧
      (oneTokenQueued.getBatchFromLayer .stable List.sum 2).2 = .ok (some SchedRun.oneToken) ∧
      Fed .stable List.sum oneTokenQueued ∧ 2 < oneTokenQueued.numLayers ∧
      (oneTokenQueued.layerAt 2).queued ≠ [] := by
  refine ⟨rfl, ?_, rfl, fed_oneTokenQueued, by decide, by decide⟩
  intro b hb
  cases hb

end LayerScheduler

end StreamEP

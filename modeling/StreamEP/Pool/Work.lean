import StreamEP.Pool.UnifiedPool

/-!
# Work queued at a layer

What the batches queued at a layer look like, and that this survives cutting, merging and
packing. Attention work has the shape of `AttnShape`, expert work carries all columns and rows
that satisfy a predicate the caller chooses; both name their layer. A restricted getter returns
work of the same kind whose rows are exactly the tokens it took from the queue.
-/

namespace StreamEP

variable {W V : Type}

/-! ### Attention work -/

theorem PrefillFirst.sublist {xs ys : List ℤ} (h : PrefillFirst ys) (hs : xs.Sublist ys) :
    PrefillFirst xs := List.Pairwise.sublist hs h

section Work

variable [TensorRow V]

/-- A piece of an attention batch recounts its tokens and keeps the shape. -/
theorem TokenBatch.AttnShape.chunk {b : TokenBatch W V} (hb : b.AttnShape) {off n : ℕ}
    (hn : off + n ≤ b.metadata.numTokens) : (b.chunk off n).AttnShape where
  toWf := hb.toWf.chunk hn
  tag := by simpa using hb.tag
  prefillFirst := by
    simpa using hb.prefillFirst.sublist ((List.take_sublist _ _).trans (List.drop_sublist _ _))
  numPrefillSeqs := by
    simp [BatchMetadata.chunk, BatchMetadata.isAttention, hb.tag, numNew]
  numPrefillTokens := by
    simp [BatchMetadata.chunk, BatchMetadata.isAttention, hb.tag, numNew]
  numDecodeTokens := by
    simp [BatchMetadata.chunk, BatchMetadata.isAttention, hb.tag, numNew]

/-- Attention work of layer `l`. -/
structure AttnWork (l : ℕ) (b : TokenBatch W V) : Prop extends b.AttnShape where
  layerId : b.metadata.layerId = l
  /-- Only `-1` stands for decoding. -/
  lens : ∀ r ∈ b.rows, -1 ≤ r.initPrefillLen

/-- Expert work of layer `l` with rows that satisfy `okRow`. -/
structure ExpertWork (okRow : Row W V → Prop) (l : ℕ) (b : TokenBatch W V) : Prop
    extends b.Full where
  tag : b.metadata.batchTag = .expert
  layerId : b.metadata.layerId = l
  rows : ∀ r ∈ b.rows, okRow r

/-- A gathered token of rank `d`, complete with `k` rows. -/
structure GatheredWork (k d : ℕ) (t : TokenTopKInfo V) : Prop where
  count : t.count = k
  /-- Only `-1` stands for decoding. -/
  len : -1 ≤ t.initPrefillLen
  rank : t.attnDpRank = d

theorem forall_rows_chunk {b : TokenBatch W V} {P : Row W V → Prop} (h : ∀ r ∈ b.rows, P r)
    {off n : ℕ} (hn : off + n ≤ b.metadata.numTokens) : ∀ r ∈ (b.chunk off n).rows, P r := by
  intro r hr
  rw [TokenBatch.rows_chunk b hn] at hr
  exact h r (List.mem_of_mem_drop (List.mem_of_mem_take hr))

theorem AttnWork.chunk {l : ℕ} {b : TokenBatch W V} (hb : AttnWork l b) {off n : ℕ}
    (hn : off + n ≤ b.metadata.numTokens) : AttnWork l (b.chunk off n) where
  toAttnShape := hb.toAttnShape.chunk hn
  layerId := by simpa using hb.layerId
  lens := forall_rows_chunk hb.lens hn

theorem ExpertWork.chunk {okRow : Row W V → Prop} {l : ℕ} {b : TokenBatch W V}
    (hb : ExpertWork okRow l b) {off n : ℕ} (hn : off + n ≤ b.metadata.numTokens) :
    ExpertWork okRow l (b.chunk off n) where
  toFull := hb.toFull.chunk hn
  tag := by simpa using hb.tag
  layerId := by simpa using hb.layerId
  rows := forall_rows_chunk hb.rows hn

theorem AttnWork.merge [Inhabited W] {l : ℕ} {bs : List (TokenBatch W V)} (hne : bs ≠ [])
    (h : ∀ b ∈ bs, AttnWork l b) :
    ∃ m, TokenBatch.merge bs = .ok (some m) ∧ AttnWork l m ∧
      (m.rows.map Row.core).Perm ((bs.flatMap TokenBatch.rows).map Row.core) := by
  obtain ⟨m, hmerge, hshape, hl, hperm⟩ := TokenBatch.merge_attention hne
    (fun b hb => (h b hb).toAttnShape) fun b hb => (h b hb).layerId
  refine ⟨m, hmerge, ⟨hshape, hl, fun r hr => ?_⟩, hperm⟩
  -- the prefill length of a row is part of its core
  obtain ⟨r', hr', hcore⟩ := List.mem_map.mp (hperm.mem_iff.mp (List.mem_map_of_mem hr))
  obtain ⟨b, hb, hrb⟩ := List.mem_flatMap.mp hr'
  have hlen : r'.core.initPrefillLen = r.core.initPrefillLen :=
    congrArg (fun x : Row W V => x.initPrefillLen) hcore
  exact ((h b hb).lens r' hrb).trans_eq hlen

theorem ExpertWork.merge [Inhabited W] {okRow : Row W V → Prop}
    (hexp : ∀ r, okRow r → ∀ e ∈ r.expId, e < maxNumExperts) {l : ℕ}
    {bs : List (TokenBatch W V)} (hne : bs ≠ []) (h : ∀ b ∈ bs, ExpertWork okRow l b) :
    ∃ m, TokenBatch.merge bs = .ok (some m) ∧ ExpertWork okRow l m ∧
      m.rows.Perm (bs.flatMap TokenBatch.rows) := by
  obtain ⟨m, hmerge, hfull, htag, hl, hperm⟩ := TokenBatch.merge_expert hne
    (fun b hb => (h b hb).toFull) (fun b hb => (h b hb).tag) (fun b hb => (h b hb).layerId)
    fun b hb r hr => hexp r ((h b hb).rows r hr)
  refine ⟨m, hmerge, ⟨hfull, htag, hl, fun r hr => ?_⟩, hperm⟩
  obtain ⟨b, hb, hrb⟩ := List.mem_flatMap.mp (hperm.mem_iff.mp hr)
  exact (h b hb).rows r hrb

/-! ### What `process_attn_batch` queues -/

theorem countP_range_getD (lens : List ℤ) (f : ℤ → Bool) :
    (List.range lens.length).countP (fun i => f (lens.getD i 0)) = lens.countP f := by
  conv_rhs => rw [← TokenBatch.map_getD_range (l := lens) rfl 0, List.countP_map]
  simp [Function.comp_def]

/-- **The counts `process_attn_batch` writes** are those of the tokens. -/
theorem AttnWork.of_attnMetadata {l : ℕ} {b : TokenBatch W V} (hb : b.Wf)
    (hl : b.metadata.layerId = l) (hfirst : PrefillFirst b.metadata.initPrefillLens)
    (hlens : ∀ r ∈ b.rows, -1 ≤ r.initPrefillLen) :
    AttnWork l { b with metadata := UnifiedPool.attnMetadata b.metadata } := by
  have hlen : b.metadata.reqIds.length = b.metadata.initPrefillLens.length :=
    hb.reqIds.trans hb.initPrefillLens.symm
  have hnew : (List.range b.metadata.reqIds.length).countP
      (fun i => decide (b.metadata.initPrefillLens.getD i 0 ≠ -1)) =
      numNew b.metadata.initPrefillLens := by
    rw [hlen, countP_range_getD _ (fun x => decide (x ≠ -1)), numNew]
  have hold : (List.range b.metadata.reqIds.length).countP
      (fun i => !decide (b.metadata.initPrefillLens.getD i 0 ≠ -1)) =
      b.metadata.numTokens - numNew b.metadata.initPrefillLens := by
    have hsum := List.length_eq_countP_add_countP
      (fun i => decide (b.metadata.initPrefillLens.getD i 0 ≠ -1))
      (l := List.range b.metadata.reqIds.length)
    rw [hnew, List.length_range] at hsum
    have hcongr : (List.range b.metadata.reqIds.length).countP
        (fun i => !decide (b.metadata.initPrefillLens.getD i 0 ≠ -1)) =
        (List.range b.metadata.reqIds.length).countP
          (fun i => decide ¬decide (b.metadata.initPrefillLens.getD i 0 ≠ -1) = true) :=
      List.countP_congr fun i _ => by simp
    have hnum := hb.reqIds
    omega
  refine ⟨⟨⟨⟨hb.reqIds, hb.initPrefillLens, hb.expIds, hb.topkWeights, hb.attnDpRanks⟩, hb.data,
    hb.hiddenDim⟩, rfl, hfirst, congrArg some hnew, congrArg some hnew, congrArg some hold⟩, hl,
    hlens⟩

/-! ### What a getter returns -/

/-- The row a queued token becomes, up to the columns an attention merge drops. -/
def coreRow (gatherSum : List V → V) : Row W V ⊕ TokenTopKInfo V → Row W V
  | .inl r => r.core
  | .inr t => Row.core (t.toRow gatherSum)

namespace LayerScheduler

variable [Inhabited W] {s : LayerScheduler W V}

/-- **Serving an attention layer** returns attention work made of the tokens it took. -/
theorem Ok.get_attn (S : StdSort) (gatherSum : List V → V) (hs : s.Ok) {i : ℕ}
    (hi : i < s.numLayers) (hpos : 0 < (s.layerAt i).numTokens) {t : ℤ} (ht : 1 ≤ t) {k d : ℕ}
    (hbatches : ∀ b ∈ (s.layerAt i).batchQueue, AttnWork i b)
    (htokens : ∀ u ∈ (s.layerAt i).tokenQueue, GatheredWork k d u) :
    ∃ b, s.getBatchFromLayerRestricted S gatherSum i t =
        (s.modifyLayer i fun _ => served (s.layerUsesTokenQueue i) (s.layerAt i) t,
          .ok (some b)) ∧ AttnWork i b ∧
      (b.rows.map Row.core).Perm
        ((taken (s.layerUsesTokenQueue i) (s.layerAt i) t).map (coreRow gatherSum)) := by
  have hok := hs.layers i hi
  cases huses : s.layerUsesTokenQueue i with
  | true =>
    rw [huses] at hok
    have hmem : ∀ u ∈ (s.layerAt i).tokenQueue.take t.toNat, GatheredWork k d u :=
      fun u hu => htokens u (List.mem_of_mem_take hu)
    obtain ⟨b, hpack, hshape, hl, hperm⟩ := TokenBatch.packTopkTokens_spec (W := W) S gatherSum i
      (hok.take_tokens_ne_nil hpos ht) (fun u hu => (hmem u hu).len) fun u hu => (hmem u hu).count
    refine ⟨b, ?_, ⟨hshape, hl, fun r hr => ?_⟩, ?_⟩
    · rw [getRestricted_of_tokens S gatherSum hi huses, hpack]
      rfl
    · obtain ⟨u, hu, rfl⟩ := List.mem_map.mp (hperm.mem_iff.mp hr)
      exact (hmem u hu).len
    · simp only [taken, UnifiedLayer.getTokensRestricted, takeTokens_eq, Int.sub_zero, if_true]
      rw [List.map_map]
      exact (hperm.map Row.core).trans (by rw [List.map_map]; exact .refl _)
  | false =>
    rw [huses] at hok
    obtain ⟨htotal, hne⟩ := hok.take_batches_ne_nil hpos ht
    obtain ⟨b, hmerge, hwork, hperm⟩ := AttnWork.merge hne (takeBatches_forall
      (fun b _ _ hb hn => AttnWork.chunk hb hn) t 0 hbatches).1
    refine ⟨b, ?_, hwork, ?_⟩
    · rw [getRestricted_of_batches S gatherSum hi huses htotal hne, hmerge]
    · simp only [taken, Bool.false_eq_true, if_false]
      rw [List.map_map]
      exact hperm

/-- **Serving an expert layer** returns expert work made of the rows it took. -/
theorem Ok.get_expert (S : StdSort) (gatherSum : List V → V) (hs : s.Ok) {l : ℕ}
    (hl : s.numAttnLayers + l < s.numLayers)
    (hpos : 0 < (s.layerAt (s.numAttnLayers + l)).numTokens) {t : ℤ} (ht : 1 ≤ t)
    {okRow : Row W V → Prop} (hexp : ∀ r, okRow r → ∀ e ∈ r.expId, e < maxNumExperts)
    (hbatches : ∀ b ∈ (s.layerAt (s.numAttnLayers + l)).batchQueue, ExpertWork okRow l b) :
    ∃ b, s.getBatchFromLayerRestricted S gatherSum (s.numAttnLayers + l : ℕ) t =
        (s.modifyLayer (s.numAttnLayers + l) fun _ =>
          served false (s.layerAt (s.numAttnLayers + l)) t, .ok (some b)) ∧
      ExpertWork okRow l b ∧
      b.rows.Perm ((takeBatches t (s.layerAt (s.numAttnLayers + l)).batchQueue 0).result.flatMap
        TokenBatch.rows) := by
  have huses := s.layerUsesTokenQueue_expert l
  obtain ⟨htotal, hne⟩ := (hs.expertLayer hl).take_batches_ne_nil hpos ht
  obtain ⟨b, hmerge, hwork, hperm⟩ := ExpertWork.merge hexp hne (takeBatches_forall
    (fun b _ _ hb hn => ExpertWork.chunk hb hn) t 0 hbatches).1
  refine ⟨b, ?_, hwork, hperm⟩
  rw [getRestricted_of_batches S gatherSum hl huses htotal hne, hmerge]

end LayerScheduler

end Work

end StreamEP

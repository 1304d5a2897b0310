import StreamEP.Batch.Sort

/-!
# What an engine does with a batch

The steps of `disagmoe/frontend/engine.py` that turn a batch the pool handed out into the batch
that leaves the engine: `postprocess_batch_attn` after the attention of a layer,
`execute_batch_expert` for the experts of a layer, and `sample_results` at the final
pseudo-layer; with the two kernels of `csrc/cuda_ops/permute.cu` they use.

What attention and the gate compute is an argument: the hidden rows and the chosen experts with
their weights. Experts act row by row, as the function `expert` of `Kernels`.

## Main results

* `postprocessBatchAttn_spec` — one row per token and chosen expert
* `postprocessBatchAttn_aligned` — which row is which, and in which order
* `executeBatchExpert_spec` — every row becomes its weighted expert output
* `reply_aligned` — columns, hidden rows and weights are permuted alike
* `sampleResults_spec` — the continuing requests, all decoding
-/

namespace StreamEP

variable {W V : Type}

/-- The arithmetic of the model, exact. -/
structure Kernels (W V : Type) where
  /-- What expert `e` of layer `l` makes of a row. -/
  expert : ℕ → ℕ → V → V
  scale : W → V → V
  /-- The sum of the rows gathered for a token. -/
  gatherSum : List V → V
  /-- The weight `1.0`. -/
  one : W

/-- `permute_tokens`: output row `mappings[i]` is input row `i / topk`. -/
def permuteTokens [Inhabited V] (tokens : List V) (mappings : List ℕ) :
    Except String (List V) := do
  ensure (tokens.length ≠ 0) "division by zero"
  ensure (mappings.length % tokens.length = 0)
    "num_output_tokens must be divisible by num_input_tokens"
  let topk := mappings.length / tokens.length
  return Scatter.scatter (List.replicate mappings.length default) mappings
    ((List.range mappings.length).map fun i => tokens.getD (i / topk) default)

/-- `apply_weights_and_permute_tokens`: output row `mappings[i]` is input row `i` times weight
`i`. -/
def applyWeightsAndPermuteTokens [Inhabited V] (scale : W → V → V) (tokens : List V)
    (weights : List W) (mappings : List ℕ) : List V :=
  Scatter.scatter (List.replicate tokens.length default) mappings
    (List.zipWith scale weights tokens)

section Engine

variable [Inhabited W] [TensorRow V]

/-- `postprocess_batch_attn` on rank `attnDpRank`: `hiddens`, `expertIds` and `expertWeights` are
the results of the attention layer, the last two flattened. -/
def postprocessBatchAttn (topK attnDpRank : ℕ) (metaC : BatchMetadata W) (hiddens : List V)
    (expertIds : List ℕ) (expertWeights : List W) : Except String (TokenBatch W V) := do
  let m := metaC.duplicateTopk topK
  let m := { m with expIds := expertIds, topkWeights := expertWeights }
  let (expMappings, m) ← m.sortByExpert
  let m := { m with attnDpRanks := List.replicate expertIds.length attnDpRank }
  let hiddens ← permuteTokens hiddens expMappings
  return ⟨hiddens, m⟩

/-- `execute_batch_expert`. With `use_gdrcopy_optimization` the weights are the ones read before
sorting, without it they are read again after it. -/
def executeBatchExpert (S : StdSort) (K : Kernels W V) (useGdrcopyOptimization : Bool)
    (b : TokenBatch W V) : Except String (TokenBatch W V) := do
  let hiddens := List.zipWith (K.expert b.metadata.layerId) b.metadata.expIds b.data
  let topkWeights := b.metadata.topkWeights
  let (newMappings, m) ← b.metadata.sortByAttention S
  let topkWeights := if useGdrcopyOptimization then topkWeights else m.topkWeights
  let permutedTokens := applyWeightsAndPermuteTokens K.scale hiddens topkWeights newMappings
  let m := { m with expIds := [], topkWeights := [] }
  return ⟨permutedTokens, m.stepLayer⟩

/-- `sample_results` on rank `attnDpRank`: the sampler lets the rows `continueIds` go on with the
data `continuedData`. -/
def sampleResults (attnDpRank : ℕ) (b : TokenBatch W V) (continueIds : List ℕ)
    (continuedData : List V) : TokenBatch W V where
  data := continuedData
  metadata :=
    { b.metadata.indexSelect continueIds with
      initPrefillLens := List.replicate continueIds.length (-1)
      attnDpRanks := List.replicate continueIds.length attnDpRank
      layerId := 0 }

/-- `finish_req_ids`: the requests the sampler does not let go on. -/
def finishReqIds (b : TokenBatch W V) (continueIds : List ℕ) : List ℕ :=
  ((List.range b.metadata.numTokens).filter (· ∉ continueIds)).map fun i => (b.rowAt i).reqId

/-! ### After attention -/

/-- Row `i` after attention: copy `i % k` of token `i / k`. -/
def gateRow (k attnDpRank : ℕ) (b : TokenBatch W V) (hiddens : List V) (expertIds : List ℕ)
    (expertWeights : List W) (i : ℕ) : Row W V where
  reqId := (b.rowAt (i / k)).reqId
  expId := expertIds[i]?
  topkWeight := expertWeights[i]?
  attnDpRank := some attnDpRank
  initPrefillLen := (b.rowAt (i / k)).initPrefillLen
  data := hiddens[i / k]?.getD default

omit [Inhabited W] in
theorem duplicateTopk_columns (m : BatchMetadata W) {k : ℕ} (hk : 0 < k) :
    (m.duplicateTopk k).numTokens = m.numTokens * k ∧
      (m.duplicateTopk k).reqIds.length = m.reqIds.length * k ∧
      (m.duplicateTopk k).initPrefillLens.length = m.initPrefillLens.length * k ∧
      (∀ i, (m.duplicateTopk k).reqIds[i]? = m.reqIds[i / k]?) ∧
      ∀ i, (m.duplicateTopk k).initPrefillLens[i]? = m.initPrefillLens[i / k]? := by
  rw [BatchMetadata.duplicateTopk]
  split_ifs with hone
  · subst hone
    simp
  · exact ⟨rfl, length_repeatVector _ _, length_repeatVector _ _,
      getElem?_repeatVector _ hk, getElem?_repeatVector _ hk⟩

omit [Inhabited W] in
theorem duplicateTopk_frame (m : BatchMetadata W) (k : ℕ) :
    (m.duplicateTopk k).batchTag = m.batchTag ∧ (m.duplicateTopk k).layerId = m.layerId ∧
      (m.duplicateTopk k).tokenHiddenDim = m.tokenHiddenDim := by
  rw [BatchMetadata.duplicateTopk]
  split_ifs <;> exact ⟨rfl, rfl, rfl⟩

/-- The batch before `sort_by_expert` moves its rows. -/
def expanded (k attnDpRank : ℕ) (b : TokenBatch W V) (hiddens : List V) (expertIds : List ℕ)
    (expertWeights : List W) : TokenBatch W V where
  data := (List.range (b.metadata.numTokens * k)).map fun i => hiddens[i / k]?.getD default
  metadata :=
    { b.metadata.duplicateTopk k with
      expIds := expertIds
      topkWeights := expertWeights
      attnDpRanks := List.replicate (b.metadata.numTokens * k) attnDpRank }

section Expanded

variable {k rank : ℕ} {b : TokenBatch W V} {hiddens : List V} {ids : List ℕ} {weights : List W}

omit [Inhabited W] in
theorem full_expanded (hk : 0 < k) (hb : b.Wf) (hids : ids.length = b.metadata.numTokens * k)
    (hweights : weights.length = b.metadata.numTokens * k) :
    (expanded k rank b hiddens ids weights).Full := by
  obtain ⟨hnum, hreq, hlen, -⟩ := duplicateTopk_columns b.metadata hk
  have hdim := (duplicateTopk_frame b.metadata k).2.2
  have hids' : ids.length = (b.metadata.duplicateTopk k).numTokens := hids.trans hnum.symm
  have hweights' : weights.length = (b.metadata.duplicateTopk k).numTokens :=
    hweights.trans hnum.symm
  have hranks : (List.replicate (b.metadata.numTokens * k) rank).length =
      (b.metadata.duplicateTopk k).numTokens := by rw [List.length_replicate, hnum]
  refine ⟨⟨⟨?_, ?_, .of_length hids', .of_length hweights', .of_length hranks⟩, ?_,
    hdim.trans hb.hiddenDim⟩, hids', hweights', hranks⟩
  · exact hreq.trans (by rw [hb.reqIds]; exact hnum.symm)
  · exact hlen.trans (by rw [hb.initPrefillLens]; exact hnum.symm)
  · show ((List.range _).map _).length = (b.metadata.duplicateTopk k).numTokens
    rw [List.length_map, List.length_range, hnum]

omit [Inhabited W] in
theorem rowAt_expanded (hk : 0 < k) {i : ℕ} (hi : i < b.metadata.numTokens * k) :
    (expanded k rank b hiddens ids weights).rowAt i = gateRow k rank b hiddens ids weights i := by
  obtain ⟨-, -, -, hreq, hlen⟩ := duplicateTopk_columns b.metadata hk
  simp only [TokenBatch.rowAt, expanded, gateRow, hreq, hlen, List.getElem?_map,
    List.getElem?_range hi, List.getElem?_replicate_of_lt hi, Option.map_some, Option.getD_some]

omit [Inhabited W] in
theorem numTokens_expanded (hk : 0 < k) :
    (expanded k rank b hiddens ids weights).metadata.numTokens = b.metadata.numTokens * k :=
  (duplicateTopk_columns b.metadata hk).1

omit [Inhabited W] in
theorem rows_expanded (hk : 0 < k) : (expanded k rank b hiddens ids weights).rows =
    (List.range (b.metadata.numTokens * k)).map (gateRow k rank b hiddens ids weights) := by
  rw [TokenBatch.rows, numTokens_expanded hk]
  exact List.map_congr_left fun i hi => rowAt_expanded hk (List.mem_range.mp hi)

end Expanded

theorem permuteVector_replicate {α : Type} [Inhabited α] {n : ℕ} {pos : List ℕ}
    (h : pos.Perm (List.range n)) (a : α) :
    permuteVector (List.replicate n a) pos = List.replicate n a := by
  refine List.ext_getElem? fun j => ?_
  by_cases hj : j < n
  · have hlen : (Scatter.invPos n pos).length = n := Scatter.pos_length (Scatter.invPos_perm h)
    have hinv := List.getElem?_eq_getElem (hlen.symm ▸ hj : j < (Scatter.invPos n pos).length)
    rw [getElem?_permuteVector h (.of_length List.length_replicate) hinv,
      List.getElem?_replicate_of_lt hj, List.getElem?_replicate_of_lt]
    exact List.mem_range.mp ((Scatter.invPos_perm h).mem_iff.mp (List.getElem_mem _))
  · rw [List.getElem?_eq_none (by rw [length_permuteVector]; simpa using hj),
      List.getElem?_eq_none (by simpa using hj)]

omit [Inhabited W] [TensorRow V] in
theorem aligned_duplicateTopk {m : BatchMetadata W} (hm : m.Aligned) {k : ℕ} (hk : 0 < k)
    {ids : List ℕ} {weights : List W} (hids : ids.length = m.numTokens * k)
    (hweights : weights.length = m.numTokens * k) :
    { m.duplicateTopk k with expIds := ids, topkWeights := weights }.Aligned := by
  obtain ⟨hnum, hreq, hlen, -⟩ := duplicateTopk_columns m hk
  refine ⟨hreq.trans ?_, hlen.trans ?_, .of_length (hids.trans hnum.symm),
    .of_length (hweights.trans hnum.symm), ?_⟩
  · rw [hm.reqIds]
    exact hnum.symm
  · rw [hm.initPrefillLens]
    exact hnum.symm
  · show Column (m.duplicateTopk k).numTokens (m.duplicateTopk k).attnDpRanks
    rw [BatchMetadata.duplicateTopk]
    split_ifs with hone
    · exact hm.attnDpRanks
    · rcases hm.attnDpRanks with h | h
      · exact .inl (by simp [h, repeatVector])
      · exact .inr (by rw [length_repeatVector, h])

omit [TensorRow V] in
theorem permuteTokens_eq [Inhabited V] {tokens : List V} {mappings : List ℕ} {n k : ℕ}
    (hn : 0 < n) (htokens : tokens.length = n) (hmappings : mappings.length = n * k) :
    permuteTokens tokens mappings =
      .ok (Scatter.scatter (List.replicate (n * k) default) mappings
        ((List.range (n * k)).map fun i => tokens[i / k]?.getD default)) := by
  rw [permuteTokens, ensure_of_true (by omega), ok_bind,
    ensure_of_true (by rw [hmappings, htokens, Nat.mul_mod_right]), ok_bind, hmappings, htokens,
    Nat.mul_div_cancel_left k hn]
  simp only [List.getD_eq_getElem?_getD]
  rfl

section After

variable {k rank : ℕ} {b : TokenBatch W V} {hiddens : List V} {ids : List ℕ} {weights : List W}

omit [Inhabited W] in
theorem expertOrder_expanded_perm (hk : 0 < k) (hb : b.Wf)
    (hids : ids.length = b.metadata.numTokens * k)
    (hweights : weights.length = b.metadata.numTokens * k)
    (hexp : ∀ e ∈ ids, e < maxNumExperts) :
    (expanded k rank b hiddens ids weights).metadata.expertOrder.Perm
      (List.range (b.metadata.numTokens * k)) := by
  have hfull : (expanded k rank b hiddens ids weights).Full := full_expanded hk hb hids hweights
  have hperm := BatchMetadata.expertOrder_perm hfull.expIds_length hexp
  rwa [numTokens_expanded hk] at hperm

/-- After attention the expanded batch is sorted by expert, columns and rows together. -/
theorem postprocessBatchAttn_eq (hk : 0 < k) (hb : b.Wf) (hn : 0 < b.metadata.numTokens)
    (hhiddens : hiddens.length = b.metadata.numTokens)
    (hids : ids.length = b.metadata.numTokens * k)
    (hweights : weights.length = b.metadata.numTokens * k)
    (hexp : ∀ e ∈ ids, e < maxNumExperts) :
    postprocessBatchAttn k rank b.metadata hiddens ids weights =
      .ok ((expanded k rank b hiddens ids weights).permute
        (expanded k rank b hiddens ids weights).metadata.expertOrder) := by
  have hperm : (expanded k rank b hiddens ids weights).metadata.expertOrder.Perm _ :=
    expertOrder_expanded_perm hk hb hids hweights hexp
  have hsort := BatchMetadata.sortByExpert_eq
    (aligned_duplicateTopk hb.toAligned hk hids hweights)
    (hids.trans (duplicateTopk_columns b.metadata hk).1.symm) hexp
  have htokens := permuteTokens_eq hn hhiddens (Scatter.pos_length hperm)
  have hranks := permuteVector_replicate hperm rank
  rw [postprocessBatchAttn, hsort, ok_bind]
  show (permuteTokens hiddens (expanded k rank b hiddens ids weights).metadata.expertOrder >>= _)
    = _
  rw [htokens, ok_bind, TokenBatch.permute, numTokens_expanded hk]
  show Except.ok _ = Except.ok _
  congr 2
  rw [hids, BatchMetadata.permuteColumns, BatchMetadata.permuteColumns]
  congr 1
  exact hranks.symm

/-- **After attention** a batch has one row per token and chosen expert. -/
theorem postprocessBatchAttn_spec (hk : 0 < k) (hb : b.Wf) (hn : 0 < b.metadata.numTokens)
    (hhiddens : hiddens.length = b.metadata.numTokens)
    (hids : ids.length = b.metadata.numTokens * k)
    (hweights : weights.length = b.metadata.numTokens * k)
    (hexp : ∀ e ∈ ids, e < maxNumExperts) :
    ∃ b', postprocessBatchAttn k rank b.metadata hiddens ids weights = .ok b' ∧ b'.Full ∧
      b'.metadata.batchTag = b.metadata.batchTag ∧ b'.metadata.layerId = b.metadata.layerId ∧
      b'.rows.Perm ((List.range (b.metadata.numTokens * k)).map
        (gateRow k rank b hiddens ids weights)) := by
  have hfull : (expanded k rank b hiddens ids weights).Full := full_expanded hk hb hids hweights
  obtain ⟨htag, hlayer, -⟩ := duplicateTopk_frame b.metadata k
  refine ⟨_, postprocessBatchAttn_eq hk hb hn hhiddens hids hweights hexp, hfull.permute _, htag,
    hlayer, ?_⟩
  rw [← rows_expanded hk]
  exact TokenBatch.rows_permute_perm hfull.toWf
    (BatchMetadata.expertOrder_perm hfull.expIds_length hexp)

/-- **Rows after attention line up.** A list of pairs `(token, choice)` without repetition says
which row is which: row `p` belongs to the request of its token, carries its hidden row and its
prefill length, and names the expert and the weight of its choice. Rows are sorted by expert, and
rows for one expert by token and choice. -/
theorem postprocessBatchAttn_aligned (hk : 1 ≤ k) (hb : b.Wf) (hn : 0 < b.metadata.numTokens)
    (hhiddens : hiddens.length = b.metadata.numTokens)
    (hids : ids.length = b.metadata.numTokens * k)
    (hweights : weights.length = b.metadata.numTokens * k)
    (hexp : ∀ e ∈ ids, e < maxNumExperts) :
    ∃ (b' : TokenBatch W V) (source : List (ℕ × ℕ)),
      postprocessBatchAttn k rank b.metadata hiddens ids weights = .ok b' ∧
      source.Perm (List.range b.metadata.numTokens ×ˢ List.range k) ∧
      b'.rows.length = source.length ∧
      (∀ p i j : ℕ, source[p]? = some (i, j) → ∃ r, b'.rows[p]? = some r ∧
        b.metadata.reqIds[i]? = some r.reqId ∧
        b.metadata.initPrefillLens[i]? = some r.initPrefillLen ∧ hiddens[i]? = some r.data ∧
        r.expId = ids[i * k + j]? ∧ r.topkWeight = weights[i * k + j]?) ∧
      b'.metadata.expIds.Pairwise (· ≤ ·) ∧
      source.Pairwise fun x y => ids[x.1 * k + x.2]? = ids[y.1 * k + y.2]? →
        x.1 < y.1 ∨ x.1 = y.1 ∧ x.2 < y.2 := by
  have hfull : (expanded k rank b hiddens ids weights).Full := full_expanded hk hb hids hweights
  have hperm : (expanded k rank b hiddens ids weights).metadata.expertOrder.Perm _ :=
    expertOrder_expanded_perm hk hb hids hweights hexp
  have hstable := CountingSort.stableOrder_positions hexp
  rw [hids] at hstable
  have hrows := TokenBatch.rows_permute hfull.toWf
    (BatchMetadata.expertOrder_perm hfull.expIds_length hexp)
  rw [numTokens_expanded hk] at hrows
  -- a row of the expanded batch is a token and a choice, read off its index
  refine ⟨_, (Scatter.invPos (b.metadata.numTokens * k)
    (expanded k rank b hiddens ids weights).metadata.expertOrder).map fun i => (i / k, i % k),
    postprocessBatchAttn_eq hk hb hn hhiddens hids hweights hexp, ?_, ?_, ?_, ?_, ?_⟩
  · rw [← Scatter.map_divMod_range _ hk]
    exact (Scatter.invPos_perm hperm).map _
  · rw [hrows, List.length_map, List.length_map]
  · intro p i j hp
    rw [List.getElem?_map] at hp
    obtain ⟨a, ha, heq⟩ := Option.map_eq_some_iff.mp hp
    obtain ⟨rfl, rfl⟩ := Prod.mk.inj heq
    have halt := Scatter.pos_lt (Scatter.invPos_perm hperm) ha
    have hi : a / k < b.metadata.numTokens := Nat.div_lt_of_lt_mul (Nat.mul_comm k _ ▸ halt)
    have hreq := List.getElem?_eq_getElem (hb.reqIds ▸ hi : a / k < b.metadata.reqIds.length)
    have hlen := List.getElem?_eq_getElem
      (hb.initPrefillLens ▸ hi : a / k < b.metadata.initPrefillLens.length)
    have hdata := List.getElem?_eq_getElem (hhiddens ▸ hi : a / k < hiddens.length)
    refine ⟨gateRow k rank b hiddens ids weights a, ?_, ?_, ?_, ?_, ?_, ?_⟩
    · rw [hrows, List.getElem?_map, ha, Option.map_some, rowAt_expanded hk halt]
    · simp only [gateRow, TokenBatch.rowAt, hreq, Option.getD_some]
    · simp only [gateRow, TokenBatch.rowAt, hlen, Option.getD_some]
    · simp only [gateRow, hdata, Option.getD_some]
    · rw [Nat.div_add_mod']
      rfl
    · rw [Nat.div_add_mod']
      rfl
  · exact BatchMetadata.expIds_sorted hfull.expIds_length hexp
  · refine List.pairwise_map.mpr (hstable.sorted.imp ?_)
    intro x y hxy heq
    rw [Nat.div_add_mod', Nat.div_add_mod'] at heq
    have hlt : x < y := by
      rcases hxy with hlt | ⟨-, hlt⟩
      · rw [List.getD_eq_getElem?_getD, List.getD_eq_getElem?_getD, heq] at hlt
        exact absurd hlt (lt_irrefl _)
      · exact hlt
    rcases (Nat.div_le_div_right (c := k) hlt.le).lt_or_eq with hdiv | hdiv
    · exact .inl hdiv
    · refine .inr ⟨hdiv, ?_⟩
      have hx := Nat.div_add_mod x k
      have hy := Nat.div_add_mod y k
      rw [← hdiv] at hy
      omega

/-- Two tokens with two choices each. -/
theorem postprocessBatchAttn_aligned_two : ∃ (b' : TokenBatch ℕ ℕ) (source : List (ℕ × ℕ)),
    postprocessBatchAttn 2 0 (TokenBatch.forExperts 7 [0, 0]).metadata [70, 80] [3, 1, 1, 0]
        [5, 6, 7, 8] = .ok b' ∧
      source.Perm (List.range 2 ×ˢ List.range 2) ∧ b'.metadata.reqIds = [8, 7, 8, 7] := by
  obtain ⟨b', source, hpost, hperm, -⟩ := @postprocessBatchAttn_aligned ℕ ℕ _ _ 2 0
    (TokenBatch.forExperts 7 [0, 0]) [70, 80] [3, 1, 1, 0] [5, 6, 7, 8] (by decide)
    (TokenBatch.full_forExperts 7 [0, 0]).toWf (by decide) rfl rfl rfl (by decide)
  have hreq : (postprocessBatchAttn 2 0 (TokenBatch.forExperts 7 [0, 0]).metadata [70, 80]
      [3, 1, 1, 0] [5, 6, 7, 8]).map (·.metadata.reqIds) = .ok [8, 7, 8, 7] := by decide
  rw [hpost] at hreq
  exact ⟨b', source, hpost, hperm, Except.ok.inj hreq⟩

end After

/-! ### Experts -/

/-- What the experts of layer `l` make of a row: the weighted output, without the columns only
they need. -/
def Row.answer (K : Kernels W V) (l : ℕ) (r : Row W V) : Row W V :=
  { r with
    expId := none
    topkWeight := none
    data := K.scale (r.topkWeight.getD default) (K.expert l (r.expId.getD 0) r.data) }

/-- The batch with its weighted expert outputs, before `sort_by_attention` moves its rows. -/
def weighted (K : Kernels W V) (b : TokenBatch W V) : TokenBatch W V :=
  { b with
    data := List.zipWith K.scale b.metadata.topkWeights
      (List.zipWith (K.expert b.metadata.layerId) b.metadata.expIds b.data) }

/-- The last lines of `execute_batch_expert`: drop the gate columns and step the layer. -/
def stripped (b : TokenBatch W V) : TokenBatch W V :=
  { b with metadata := { b.metadata with expIds := [], topkWeights := [] }.stepLayer }

section Expert

variable {K : Kernels W V} {b : TokenBatch W V}

omit [Inhabited W] in
theorem full_weighted (hb : b.Full) : (weighted K b).Full := by
  refine ⟨⟨⟨hb.reqIds, hb.initPrefillLens, hb.expIds, hb.topkWeights, hb.attnDpRanks⟩, ?_,
    hb.hiddenDim⟩, hb.expIds_length, hb.topkWeights_length, hb.attnDpRanks_length⟩
  simp [weighted, hb.topkWeights_length, hb.expIds_length, hb.data]

theorem rows_stripped_weighted (hb : b.Full) :
    (stripped (weighted K b)).rows = b.rows.map (Row.answer K b.metadata.layerId) := by
  rw [TokenBatch.rows, TokenBatch.rows, List.map_map]
  refine List.map_congr_left fun i hi => ?_
  have hi' : i < b.metadata.numTokens := List.mem_range.mp hi
  have hw := List.getElem?_eq_getElem (hb.topkWeights_length ▸ hi' :
    i < b.metadata.topkWeights.length)
  have he := List.getElem?_eq_getElem (hb.expIds_length ▸ hi' : i < b.metadata.expIds.length)
  have hd := List.getElem?_eq_getElem (hb.data ▸ hi' : i < b.data.length)
  simp [TokenBatch.rowAt, stripped, weighted, BatchMetadata.stepLayer, Row.answer,
    List.getElem?_zipWith, hw, he, hd]

omit [Inhabited W] in
theorem rows_stripped (c : TokenBatch W V) : (stripped c).rows =
    c.rows.map fun r => { r with expId := none, topkWeight := none } := by
  rw [TokenBatch.rows, TokenBatch.rows, List.map_map]
  rfl

omit [Inhabited W] in
theorem wf_stripped {c : TokenBatch W V} (hc : c.Wf) : (stripped c).Wf :=
  ⟨⟨hc.reqIds, hc.initPrefillLens, column_nil _, column_nil _, hc.attnDpRanks⟩, hc.data,
    hc.hiddenDim⟩

/-- **The experts answer** every row with its weighted output, grouped by rank with new requests
first. -/
theorem executeBatchExpert_spec (S : StdSort) (hb : b.Full)
    (hlens : ∀ r ∈ b.rows, -1 ≤ r.initPrefillLen) :
    ∃ b', executeBatchExpert S K true b = .ok b' ∧ b'.Wf ∧
      b'.metadata.batchTag = b.metadata.batchTag ∧
      b'.metadata.layerId = b.metadata.layerId + 1 ∧
      b'.metadata.attnDpRanks.length = b'.metadata.numTokens ∧ AttnOrdered b'.rows ∧
      b'.rows.Perm (b.rows.map (Row.answer K b.metadata.layerId)) := by
  have hfull := full_weighted (K := K) hb
  have hlens' : ∀ x ∈ b.metadata.initPrefillLens, -1 ≤ x := by
    intro x hx
    rw [← hb.map_initPrefillLen] at hx
    obtain ⟨r, hr, rfl⟩ := List.mem_map.mp hx
    exact hlens r hr
  have hpos := BatchMetadata.attentionOrder_perm S hfull.toAligned hlens'
  refine ⟨stripped ((weighted K b).permute (b.metadata.attentionOrder S)), ?_,
    wf_stripped (hfull.toWf.permute _), rfl, rfl, ?_, ?_, ?_⟩
  · rw [executeBatchExpert, BatchMetadata.sortByAttention_eq S hb.toAligned hlens', ok_bind]
    have hlen : (List.zipWith (K.expert b.metadata.layerId) b.metadata.expIds b.data).length =
        b.metadata.numTokens := by simp [hb.expIds_length, hb.data]
    simp only [applyWeightsAndPermuteTokens, hlen, if_true]
    rfl
  · exact (length_permuteVector _ _).trans hb.attnDpRanks_length
  · rw [rows_stripped]
    exact List.pairwise_map.mpr
      (TokenBatch.attnOrdered_permute S hfull.toWf hb.attnDpRanks_length hlens')
  · rw [← rows_stripped_weighted hb, rows_stripped, rows_stripped]
    exact (TokenBatch.rows_permute_perm hfull.toWf hpos).map _

/-- **Replies line up.** The comparison of `sort_by_attention` is a strict weak order, and one list
of input rows without repetition says which output row is which: for the columns, for the hidden
rows, and for the weights read before sorting. Ranks ascend, so the rows of one rank are adjacent,
and its new requests come before the decoding ones. -/
theorem reply_aligned (S : StdSort) (scale : W → V → V) (hb : b.Full)
    (hlens : ∀ x ∈ b.metadata.initPrefillLens, -1 ≤ x) :
    StrictWeakOn b.metadata.attentionLess (List.range b.metadata.reqIds.length) ∧
      ∃ (positions : List ℕ) (m : BatchMetadata W) (source : List ℕ),
        b.metadata.sortByAttention S = .ok (positions, m) ∧
        source.Perm (List.range b.metadata.numTokens) ∧
        (∀ p i : ℕ, source[p]? = some i → m.reqIds[p]? = b.metadata.reqIds[i]? ∧
          m.initPrefillLens[p]? = b.metadata.initPrefillLens[i]? ∧
          m.attnDpRanks[p]? = b.metadata.attnDpRanks[i]? ∧
          ∃ w v, b.metadata.topkWeights[i]? = some w ∧ b.data[i]? = some v ∧
            (applyWeightsAndPermuteTokens scale b.data b.metadata.topkWeights positions)[p]? =
              some (scale w v)) ∧
        m.attnDpRanks.Pairwise (· ≤ ·) ∧
        ∀ (p q : ℕ) (rank : ℕ), p < q → m.attnDpRanks[p]? = some rank →
          m.attnDpRanks[q]? = some rank → m.initPrefillLens[p]? = some (-1) →
          m.initPrefillLens[q]? = some (-1) := by
  have hpos := BatchMetadata.attentionOrder_perm S hb.toAligned hlens
  have hordered := TokenBatch.attnOrdered_permute S hb.toWf hb.attnDpRanks_length hlens
  have hfull := hb.permute (b.metadata.attentionOrder S)
  have hranks := TokenBatch.map_attnDpRank hfull.attnDpRanks_length
  refine ⟨BatchMetadata.strictWeakOn_attentionLess hb.toAligned hlens,
    b.metadata.attentionOrder S, b.metadata.permuteColumns (b.metadata.attentionOrder S),
    Scatter.invPos b.metadata.numTokens (b.metadata.attentionOrder S),
    BatchMetadata.sortByAttention_eq S hb.toAligned hlens, Scatter.invPos_perm hpos, ?_, ?_, ?_⟩
  · intro p i hp
    have hi := Scatter.pos_lt (Scatter.invPos_perm hpos) hp
    have hw := List.getElem?_eq_getElem (hb.topkWeights_length ▸ hi :
      i < b.metadata.topkWeights.length)
    have hd := List.getElem?_eq_getElem (hb.data ▸ hi : i < b.data.length)
    refine ⟨getElem?_permuteVector hpos (.of_length hb.reqIds) hp,
      getElem?_permuteVector hpos (.of_length hb.initPrefillLens) hp,
      getElem?_permuteVector hpos hb.attnDpRanks hp, _, _, hw, hd, ?_⟩
    rw [applyWeightsAndPermuteTokens, Scatter.getElem?_scatter_invPos hpos (by simp [hb.data])
      (by simp [hb.topkWeights_length, hb.data]) hp, List.getElem?_zipWith, hw, hd]
  · have hsome : ((b.metadata.permuteColumns (b.metadata.attentionOrder S)).attnDpRanks.map
        some).Pairwise fun x y => x.getD 0 ≤ y.getD 0 := by
      refine hranks ▸ List.pairwise_map.mpr (hordered.imp ?_)
      intro x y hxy
      exact hxy.1
    rwa [List.pairwise_map] at hsome
  · intro p q rank hlt hp hq hnew
    have hqlt : q < b.metadata.numTokens :=
      (List.getElem?_eq_some_iff.mp hq).1.trans_eq hfull.attnDpRanks_length
    have hpair := List.pairwise_iff_getElem.mp hordered p q
      (by rw [TokenBatch.length_rows]; exact hlt.trans hqlt)
      (by rw [TokenBatch.length_rows]; exact hqlt) hlt
    simp only [TokenBatch.rows, List.getElem_map, List.getElem_range] at hpair
    have hold := hpair.2 (hp.trans hq.symm) (by
      show (_ : Option ℤ).getD 0 = -1
      exact hnew ▸ rfl)
    have hget := List.getElem?_eq_getElem (hfull.initPrefillLens.symm ▸ hqlt :
      q < (b.permute (b.metadata.attentionOrder S)).metadata.initPrefillLens.length)
    refine hget.trans (congrArg some ?_)
    rw [TokenBatch.rowAt] at hold
    simpa [hget] using hold

/-- Four replies for two ranks, one of them new on each. -/
def fourReplies : TokenBatch ℕ ℕ where
  data := [10, 20, 30, 40]
  metadata :=
    { (TokenBatch.forExperts 0 [0, 0, 1, 1]).metadata with
      topkWeights := [2, 3, 5, 7], attnDpRanks := [1, 0, 1, 0]
      initPrefillLens := [-1, 4, 3, -1] }

theorem full_fourReplies : fourReplies.Full :=
  ⟨⟨⟨rfl, rfl, .of_length rfl, .of_length rfl, .of_length rfl⟩, rfl, rfl⟩, rfl, rfl, rfl⟩

theorem reply_aligned_four : ∃ (positions : List ℕ) (m : BatchMetadata ℕ) (source : List ℕ),
    fourReplies.metadata.sortByAttention .stable = .ok (positions, m) ∧
      source.Perm (List.range 4) ∧ m.attnDpRanks = [0, 0, 1, 1] ∧
      m.initPrefillLens = [4, -1, 3, -1] := by
  obtain ⟨-, positions, m, source, hsort, hperm, -⟩ := reply_aligned .stable (· * ·)
    full_fourReplies (by decide)
  have hcolumns : (fourReplies.metadata.sortByAttention .stable).map
      (fun x => (x.2.attnDpRanks, x.2.initPrefillLens)) =
        .ok ([0, 0, 1, 1], [4, -1, 3, -1]) := by decide +kernel
  rw [hsort] at hcolumns
  obtain ⟨hranks, hlens⟩ := Prod.mk.inj (Except.ok.inj hcolumns)
  exact ⟨positions, m, source, hsort, hperm, hranks, hlens⟩

end Expert

/-! ### Sampling -/

section Sample

variable {b : TokenBatch W V} {continueIds : List ℕ} {continuedData : List V}

/-- **Sampling** keeps the requests the sampler lets go on, all decoding from now on. -/
theorem sampleResults_spec (rank : ℕ) (hb : b.Wf)
    (hids : ∀ i ∈ continueIds, i < b.metadata.numTokens)
    (hdata : continuedData.length = continueIds.length) :
    (sampleResults rank b continueIds continuedData).Wf ∧
      (sampleResults rank b continueIds continuedData).rows.map (·.reqId) =
        continueIds.map (fun i => (b.rowAt i).reqId) ∧
      ∀ x ∈ (sampleResults rank b continueIds continuedData).metadata.initPrefillLens,
        x = -1 := by
  have hcolumn : ∀ {α : Type} [Inhabited α] {c : List α}, Column b.metadata.numTokens c →
      Column continueIds.length (indexSelectVector c continueIds) := by
    intro α _ c hc
    rw [indexSelectVector]
    split_ifs with hnil
    · exact column_nil _
    · exact .of_length (List.length_map _)
  have hreq : (indexSelectVector b.metadata.reqIds continueIds).length = continueIds.length := by
    rw [indexSelectVector]
    split_ifs with hnil
    · have hzero : b.metadata.numTokens = 0 := by
        rw [← hb.reqIds, List.isEmpty_iff.mp hnil, List.length_nil]
      have : continueIds = [] := List.eq_nil_iff_forall_not_mem.mpr fun i hi => by
        have := hids i hi
        omega
      rw [this]
    · exact List.length_map _
  have hwf : (sampleResults rank b continueIds continuedData).Wf :=
    ⟨⟨hreq, List.length_replicate, hcolumn hb.expIds, hcolumn hb.topkWeights,
      .of_length List.length_replicate⟩, hdata, hb.hiddenDim⟩
  refine ⟨hwf, ?_, fun x hx => List.eq_of_mem_replicate hx⟩
  rw [hwf.map_reqId]
  show indexSelectVector b.metadata.reqIds continueIds = _
  refine List.ext_getElem? fun j => ?_
  by_cases hj : j < continueIds.length
  · have hget := List.getElem?_eq_getElem hj
    have hi := hids _ (List.getElem_mem hj)
    have hsel := TokenBatch.getElem?_indexSelectVector (.of_length hb.reqIds) hi hget
    rw [hsel, List.getElem?_map, hget, List.getElem?_eq_getElem (hb.reqIds ▸ hi)]
    simp [TokenBatch.rowAt, hb.reqIds, hi]
  · rw [List.getElem?_eq_none (hreq.le.trans (Nat.le_of_not_lt hj)),
      List.getElem?_eq_none (by simpa using hj)]

end Sample

end Engine

end StreamEP

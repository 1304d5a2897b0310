import StreamEP.Batch.Rows
import Mathlib.Data.List.Flatten
import Mathlib.Data.Prod.Lex

/-!
# Merging batches

What `merge_by_expert`, `merge_by_attention` and `pack_topk_tokens` do to the rows.

An expert merge never loses or invents a row: it concatenates and reorders. An attention merge
relies on the shape of its inputs, because it takes the first `num_prefill_seqs` rows of each to
be its new requests without looking at them. That shape is `AttnShape`: new requests first, and
counts that say so. It is what the merge produces again.

## Why the shape is an invariant

The counts of a batch are stored next to its rows and are trusted afterwards. `AttnShape` ties them
to the rows, so that a merge can be specified without the counts: its rows are the new requests of
all inputs, then the others, each part in the order of the inputs.
-/

namespace StreamEP

variable {α W V : Type}

namespace TokenBatch

/-! ### Concatenation -/

theorem rows_append [Inhabited V] {b c d : TokenBatch W V}
    (hn : d.metadata.numTokens = b.metadata.numTokens + c.metadata.numTokens)
    (hb : ∀ j < b.metadata.numTokens, d.rowAt j = b.rowAt j)
    (hc : ∀ j, d.rowAt (b.metadata.numTokens + j) = c.rowAt j) : d.rows = b.rows ++ c.rows := by
  rw [rows, rows, rows, hn, List.range_add, List.map_append, List.map_map]
  congr 1
  · exact List.map_congr_left fun j hj => hb j (List.mem_range.mp hj)
  · exact List.map_congr_left fun j _ => hc j

section Expert

variable [TensorRow V]

/-- Batches of layer `l` one after the other, as an expert batch. -/
def cat (l : ℕ) (bs : List (TokenBatch W V)) : TokenBatch W V where
  data := bs.flatMap (·.data)
  metadata :=
    { batchTag := .expert
      numTokens := (bs.map (·.metadata.numTokens)).sum
      tokenHiddenDim := TensorRow.size V
      layerId := l
      reqIds := bs.flatMap (·.metadata.reqIds)
      expIds := bs.flatMap (·.metadata.expIds)
      topkWeights := bs.flatMap (·.metadata.topkWeights)
      attnDpRanks := bs.flatMap (·.metadata.attnDpRanks)
      initPrefillLens := bs.flatMap (·.metadata.initPrefillLens) }

omit [TensorRow V] in
theorem length_flatMap_column {bs : List (TokenBatch W V)} {column : TokenBatch W V → List α}
    (h : ∀ b ∈ bs, (column b).length = b.metadata.numTokens) :
    (bs.flatMap column).length = (bs.map (·.metadata.numTokens)).sum := by
  rw [List.length_flatMap, List.map_congr_left h]

theorem full_cat (l : ℕ) {bs : List (TokenBatch W V)} (h : ∀ b ∈ bs, b.Full) :
    (cat l bs).Full where
  reqIds := length_flatMap_column fun b hb => (h b hb).reqIds
  initPrefillLens := length_flatMap_column fun b hb => (h b hb).initPrefillLens
  expIds := .of_length (length_flatMap_column fun b hb => (h b hb).expIds_length)
  topkWeights := .of_length (length_flatMap_column fun b hb => (h b hb).topkWeights_length)
  attnDpRanks := .of_length (length_flatMap_column fun b hb => (h b hb).attnDpRanks_length)
  data := length_flatMap_column fun b hb => (h b hb).data
  hiddenDim := rfl
  expIds_length := length_flatMap_column fun b hb => (h b hb).expIds_length
  topkWeights_length := length_flatMap_column fun b hb => (h b hb).topkWeights_length
  attnDpRanks_length := length_flatMap_column fun b hb => (h b hb).attnDpRanks_length

/-- A column that all batches have, or that none has. -/
def UniformColumn (bs : List (TokenBatch W V)) (column : TokenBatch W V → List α) : Prop :=
  (∀ b ∈ bs, (column b).length = b.metadata.numTokens) ∨ ∀ b ∈ bs, column b = []

omit [TensorRow V] in
theorem UniformColumn.tail {b : TokenBatch W V} {bs : List (TokenBatch W V)}
    {column : TokenBatch W V → List α} (h : UniformColumn (b :: bs) column) :
    UniformColumn bs column :=
  h.imp (fun h c hc => h c (List.mem_cons_of_mem _ hc))
    fun h c hc => h c (List.mem_cons_of_mem _ hc)

omit [TensorRow V] in
/-- Reading the concatenated column: first the entries of the head, then those of the tail. -/
theorem UniformColumn.getElem? {b : TokenBatch W V} {bs : List (TokenBatch W V)}
    {column : TokenBatch W V → List α} (h : UniformColumn (b :: bs) column) :
    (∀ j < b.metadata.numTokens, ((b :: bs).flatMap column)[j]? = (column b)[j]?) ∧
      ∀ j, ((b :: bs).flatMap column)[b.metadata.numTokens + j]? = (bs.flatMap column)[j]? := by
  rw [List.flatMap_cons]
  rcases h with h | h
  · have hlen := h b (by simp)
    refine ⟨fun j hj => List.getElem?_append_left (hlen ▸ hj), fun j => ?_⟩
    rw [← hlen, List.getElem?_append_right (Nat.le_add_right _ _), Nat.add_sub_cancel_left]
  · have hrest : bs.flatMap column = [] :=
      List.flatMap_eq_nil_iff.mpr fun c hc => h c (List.mem_cons_of_mem _ hc)
    simp [h b (by simp), hrest]

theorem rows_cat (l : ℕ) {bs : List (TokenBatch W V)} (h : ∀ b ∈ bs, b.Wf)
    (hexp : UniformColumn bs (·.metadata.expIds))
    (hweight : UniformColumn bs (·.metadata.topkWeights))
    (hrank : UniformColumn bs (·.metadata.attnDpRanks)) :
    (cat l bs).rows = bs.flatMap rows := by
  induction bs with
  | nil => rfl
  | cons b bs ih =>
    have hreq : UniformColumn (b :: bs) (·.metadata.reqIds) := .inl fun c hc => (h c hc).reqIds
    have hlen : UniformColumn (b :: bs) (·.metadata.initPrefillLens) :=
      .inl fun c hc => (h c hc).initPrefillLens
    have hdata : UniformColumn (b :: bs) (·.data) := .inl fun c hc => (h c hc).data
    rw [List.flatMap_cons, ← ih (fun c hc => h c (List.mem_cons_of_mem _ hc)) hexp.tail
      hweight.tail hrank.tail]
    refine rows_append (by simp [cat]) (fun j hj => ?_) fun j => ?_
    · exact rowAt_congr (hreq.getElem?.1 j hj) (hexp.getElem?.1 j hj) (hweight.getElem?.1 j hj)
        (hrank.getElem?.1 j hj) (hlen.getElem?.1 j hj) (hdata.getElem?.1 j hj)
    · exact rowAt_congr (hreq.getElem?.2 j) (hexp.getElem?.2 j) (hweight.getElem?.2 j)
        (hrank.getElem?.2 j) (hlen.getElem?.2 j) (hdata.getElem?.2 j)

theorem rows_cat_of_full (l : ℕ) {bs : List (TokenBatch W V)} (h : ∀ b ∈ bs, b.Full) :
    (cat l bs).rows = bs.flatMap rows :=
  rows_cat l (fun b hb => (h b hb).toWf) (.inl fun b hb => (h b hb).expIds_length)
    (.inl fun b hb => (h b hb).topkWeights_length) (.inl fun b hb => (h b hb).attnDpRanks_length)

variable [Inhabited W]

/-- The positions at which the expert merge places the rows of `bs`. -/
def expertPositions (bs : List (TokenBatch W V)) : List ℕ :=
  CountingSort.positions maxNumExperts (bs.flatMap (·.metadata.expIds))

omit [Inhabited W] in
theorem expertPositions_perm (l : ℕ) {bs : List (TokenBatch W V)} (h : ∀ b ∈ bs, b.Full)
    (hexp : ∀ b ∈ bs, ∀ e ∈ b.metadata.expIds, e < maxNumExperts) :
    (expertPositions bs).Perm (List.range (cat l bs).metadata.numTokens) := by
  have hlen := (full_cat l h).expIds_length
  rw [← hlen]
  refine CountingSort.positions_perm fun e he => ?_
  obtain ⟨b, hb, he⟩ := List.mem_flatMap.mp he
  exact hexp b hb e he

omit [TensorRow V] [Inhabited W] in
theorem scatter_eq_permuteVector [Inhabited α] {c : List α} {n : ℕ} {pos : List ℕ}
    (hc : c.length = n) (hpos : pos.length = n) :
    Scatter.scatter (List.replicate n default) pos c = permuteVector c pos := by
  cases c with
  | nil =>
    have hn : n = 0 := hc.symm
    subst hn
    rw [List.length_eq_zero_iff.mp hpos]
    rfl
  | cons x c => rw [permuteVector, if_neg (by simp), hc]

/-- A full batch without weights has no tokens, so the merge never writes a default weight. -/
theorem flatMap_weights {bs : List (TokenBatch W V)} (h : ∀ b ∈ bs, b.Full) :
    (bs.map (·.metadata)).flatMap (fun m =>
      if m.topkWeights.isEmpty then List.replicate m.numTokens default else m.topkWeights) =
      bs.flatMap (·.metadata.topkWeights) := by
  rw [List.flatMap_map]
  refine List.flatMap_congr fun b hb => ?_
  by_cases hw : b.metadata.topkWeights.isEmpty
  · have hnil := List.isEmpty_iff.mp hw
    have hn := (h b hb).topkWeights_length
    rw [if_pos hw, hnil, ← hn, hnil]
    rfl
  · rw [if_neg hw]

theorem mergeByExpert_metadata_eq {l : ℕ} {b : TokenBatch W V} {bs : List (TokenBatch W V)}
    (h : ∀ x ∈ b :: bs, x.Full) (hl : b.metadata.layerId = l)
    (hexp : ∀ x ∈ b :: bs, ∀ e ∈ x.metadata.expIds, e < maxNumExperts) :
    BatchMetadata.mergeByExpert ((b :: bs).map (·.metadata)) = .ok (expertPositions (b :: bs),
      (cat l (b :: bs)).metadata.permuteColumns (expertPositions (b :: bs))) := by
  have hfull := full_cat l h
  have hlen := Scatter.pos_length (expertPositions_perm l h hexp)
  have hcheck : ∀ m ∈ (b :: bs).map (·.metadata), m.numTokens = m.expIds.length := by
    intro m hm
    obtain ⟨x, hx, rfl⟩ := List.mem_map.mp hm
    exact (h x hx).expIds_length.symm
  have hdim : b.metadata.tokenHiddenDim = TensorRow.size V := (h b (by simp)).hiddenDim
  have hplace : ∀ {β : Type} [Inhabited β] (column : List β),
      column.length = (cat l (b :: bs)).metadata.numTokens →
      Scatter.scatter (List.replicate (cat l (b :: bs)).metadata.numTokens default)
        (expertPositions (b :: bs)) column = permuteVector column (expertPositions (b :: bs)) :=
    fun column hc => scatter_eq_permuteVector hc hlen
  rw [BatchMetadata.permuteColumns, ← hplace _ hfull.reqIds, ← hplace _ hfull.expIds_length,
    ← hplace _ hfull.attnDpRanks_length, ← hplace _ hfull.initPrefillLens,
    ← hplace _ hfull.topkWeights_length, BatchMetadata.mergeByExpert, ensure_of_true hcheck,
    flatMap_weights h]
  simp [expertPositions, cat, hl, hdim, List.flatMap_map, Function.comp_def, pure, Except.pure]

/-- The expert merge of two or more batches is the permuted concatenation. -/
theorem mergeByExpert_eq {l : ℕ} {b c : TokenBatch W V} {bs : List (TokenBatch W V)}
    (h : ∀ x ∈ b :: c :: bs, x.Full) (hl : b.metadata.layerId = l)
    (hexp : ∀ x ∈ b :: c :: bs, ∀ e ∈ x.metadata.expIds, e < maxNumExperts) :
    mergeByExpert (b :: c :: bs) =
      .ok (some ((cat l (b :: c :: bs)).permute (expertPositions (b :: c :: bs)))) := by
  rw [mergeByExpert, mergeByExpert_metadata_eq h hl hexp]
  · rfl
  · simp
  · simp

omit [Inhabited W] in
theorem Full.expId_lt {b : TokenBatch W V} (hb : b.Full) {m : ℕ}
    (h : ∀ r ∈ b.rows, ∀ e ∈ r.expId, e < m) : ∀ e ∈ b.metadata.expIds, e < m := by
  intro e he
  have hmem : some e ∈ b.rows.map (·.expId) := by
    rw [hb.map_expId]
    exact List.mem_map_of_mem he
  obtain ⟨r, hr, hre⟩ := List.mem_map.mp hmem
  exact h r hr e hre

/-- **Merging expert batches** of one layer succeeds and only reorders their rows. -/
theorem merge_expert {l : ℕ} {bs : List (TokenBatch W V)} (hne : bs ≠ [])
    (h : ∀ b ∈ bs, b.Full) (htag : ∀ b ∈ bs, b.metadata.batchTag = .expert)
    (hl : ∀ b ∈ bs, b.metadata.layerId = l)
    (hexp : ∀ b ∈ bs, ∀ r ∈ b.rows, ∀ e ∈ r.expId, e < maxNumExperts) :
    ∃ m, merge bs = .ok (some m) ∧ m.Full ∧ m.metadata.batchTag = .expert ∧
      m.metadata.layerId = l ∧ m.rows.Perm (bs.flatMap rows) := by
  match bs, hne with
  | [b], _ => exact ⟨b, rfl, h b (by simp), htag b (by simp), hl b (by simp), by simp⟩
  | b :: c :: bs, _ =>
    have hexp' : ∀ x ∈ b :: c :: bs, ∀ e ∈ x.metadata.expIds, e < maxNumExperts :=
      fun x hx => (h x hx).expId_lt (hexp x hx)
    have hfull := full_cat l h
    refine ⟨_, ?_, hfull.permute (expertPositions (b :: c :: bs)), rfl, rfl, ?_⟩
    · rw [merge, if_pos (by simp [BatchMetadata.isExpert, htag b (by simp)])]
      · exact mergeByExpert_eq h (hl b (by simp)) hexp'
      · simp
    · rw [← rows_cat_of_full l h]
      exact rows_permute_perm hfull.toWf (expertPositions_perm l h hexp')

end Expert

end TokenBatch

/-! ### New requests first -/

/-- No new request stands behind a decoding one. -/
def PrefillFirst (lens : List ℤ) : Prop := lens.Pairwise fun a b => a = -1 → b = -1

def numNew (lens : List ℤ) : ℕ := lens.countP (· ≠ -1)

theorem PrefillFirst.take_ne {lens : List ℤ} (h : PrefillFirst lens) :
    ∀ x ∈ lens.take (numNew lens), x ≠ -1 := by
  induction lens with
  | nil => simp
  | cons a lens ih =>
    obtain ⟨hrel, htail⟩ := List.pairwise_cons.mp h
    by_cases ha : a = -1
    · -- everything behind a decoding token is decoding, so nothing is taken
      have hzero : numNew (a :: lens) = 0 := by
        rw [numNew, List.countP_eq_zero]
        intro x hx
        rcases List.mem_cons.mp hx with rfl | hx
        · simp [ha]
        · simp [hrel x hx ha]
      simp [hzero]
    · have hsucc : numNew (a :: lens) = numNew lens + 1 := by simp [numNew, ha]
      rw [hsucc, List.take_succ_cons]
      intro x hx
      rcases List.mem_cons.mp hx with rfl | hx
      · exact ha
      · exact ih htail x hx

theorem PrefillFirst.drop_eq {lens : List ℤ} (h : PrefillFirst lens) :
    ∀ x ∈ lens.drop (numNew lens), x = -1 := by
  induction lens with
  | nil => simp
  | cons a lens ih =>
    obtain ⟨hrel, htail⟩ := List.pairwise_cons.mp h
    by_cases ha : a = -1
    · intro x hx
      rcases List.mem_cons.mp (List.mem_of_mem_drop hx) with rfl | hx
      · exact ha
      · exact hrel x hx ha
    · have hsucc : numNew (a :: lens) = numNew lens + 1 := by simp [numNew, ha]
      rw [hsucc, List.drop_succ_cons]
      exact ih htail

theorem prefillFirst_append {new old : List ℤ} (hnew : ∀ x ∈ new, x ≠ -1)
    (hold : ∀ x ∈ old, x = -1) : PrefillFirst (new ++ old) := by
  refine List.pairwise_append.mpr ⟨?_, ?_, fun x hx y hy _ => hold y hy⟩
  · exact List.pairwise_of_forall_mem_list fun x hx y _ h => absurd h (hnew x hx)
  · exact List.pairwise_of_forall_mem_list fun x _ y hy _ => hold y hy

theorem numNew_append (xs ys : List ℤ) : numNew (xs ++ ys) = numNew xs + numNew ys :=
  List.countP_append

theorem numNew_eq_length {xs : List ℤ} (h : ∀ x ∈ xs, x ≠ -1) : numNew xs = xs.length :=
  List.countP_eq_length.mpr fun x hx => by simpa using h x hx

theorem numNew_eq_zero {xs : List ℤ} (h : ∀ x ∈ xs, x = -1) : numNew xs = 0 :=
  List.countP_eq_zero.mpr fun x hx => by simpa using h x hx

theorem numNew_le_length (xs : List ℤ) : numNew xs ≤ xs.length := List.countP_le_length

namespace TokenBatch

/-! ### Merging attention batches -/

section Attention

variable [TensorRow V]

/-- The shape of an attention batch: new requests first, and counts that say how many. -/
structure AttnShape (b : TokenBatch W V) : Prop extends b.Wf where
  tag : b.metadata.batchTag = .attention
  prefillFirst : PrefillFirst b.metadata.initPrefillLens
  numPrefillSeqs : b.metadata.numPrefillSeqs = some (numNew b.metadata.initPrefillLens)
  numPrefillTokens : b.metadata.numPrefillTokens = some (numNew b.metadata.initPrefillLens)
  numDecodeTokens : b.metadata.numDecodeTokens =
    some (b.metadata.numTokens - numNew b.metadata.initPrefillLens)

/-- The batch without the columns an attention merge drops. -/
def clear (b : TokenBatch W V) : TokenBatch W V :=
  { b with metadata := { b.metadata with expIds := [], topkWeights := [], attnDpRanks := [] } }

theorem rows_clear (b : TokenBatch W V) : b.clear.rows = b.rows.map Row.core := by
  simp [rows, clear, rowAt, Row.core]

theorem Wf.clear {b : TokenBatch W V} (hb : b.Wf) : b.clear.Wf where
  reqIds := hb.reqIds
  initPrefillLens := hb.initPrefillLens
  expIds := column_nil _
  topkWeights := column_nil _
  attnDpRanks := column_nil _
  data := hb.data
  hiddenDim := hb.hiddenDim

def newPart (b : TokenBatch W V) : TokenBatch W V :=
  (b.chunk 0 (numNew b.metadata.initPrefillLens)).clear

def oldPart (b : TokenBatch W V) : TokenBatch W V :=
  (b.chunk (numNew b.metadata.initPrefillLens)
    (b.metadata.numTokens - numNew b.metadata.initPrefillLens)).clear

theorem Wf.numNew_le {b : TokenBatch W V} (hb : b.Wf) :
    numNew b.metadata.initPrefillLens ≤ b.metadata.numTokens :=
  hb.initPrefillLens ▸ numNew_le_length _

theorem Wf.newPart {b : TokenBatch W V} (hb : b.Wf) : b.newPart.Wf :=
  (hb.chunk (by have := hb.numNew_le; omega)).clear

theorem Wf.oldPart {b : TokenBatch W V} (hb : b.Wf) : b.oldPart.Wf :=
  (hb.chunk (by have := hb.numNew_le; omega)).clear

theorem Wf.rows_newPart {b : TokenBatch W V} (hb : b.Wf) :
    b.newPart.rows = (b.rows.take (numNew b.metadata.initPrefillLens)).map Row.core := by
  rw [TokenBatch.newPart, rows_clear, rows_chunk b (by have := hb.numNew_le; omega),
    List.drop_zero]

theorem Wf.rows_oldPart {b : TokenBatch W V} (hb : b.Wf) :
    b.oldPart.rows = (b.rows.drop (numNew b.metadata.initPrefillLens)).map Row.core := by
  rw [TokenBatch.oldPart, rows_clear, rows_chunk b (by have := hb.numNew_le; omega),
    List.take_of_length_le (by simp)]

/-- The batches an attention merge lines up: all new requests, then all decoding tokens. -/
def attnParts (bs : List (TokenBatch W V)) : List (TokenBatch W V) :=
  bs.map newPart ++ bs.map oldPart

/-- The result of an attention merge of batches of layer `l`. -/
def attnMerged (l : ℕ) (bs : List (TokenBatch W V)) : TokenBatch W V :=
  { cat l (attnParts bs) with
    metadata := { (cat l (attnParts bs)).metadata with
      batchTag := .attention
      numPrefillSeqs := some (bs.map fun b => numNew b.metadata.initPrefillLens).sum
      numPrefillTokens := some (bs.map fun b => numNew b.metadata.initPrefillLens).sum
      numDecodeTokens :=
        some (bs.map fun b => b.metadata.numTokens - numNew b.metadata.initPrefillLens).sum } }

theorem wf_of_mem_attnParts {bs : List (TokenBatch W V)} (h : ∀ b ∈ bs, b.Wf) :
    ∀ p ∈ attnParts bs, p.Wf := by
  intro p hp
  rcases List.mem_append.mp hp with hp | hp
  · obtain ⟨b, hb, rfl⟩ := List.mem_map.mp hp
    exact (h b hb).newPart
  · obtain ⟨b, hb, rfl⟩ := List.mem_map.mp hp
    exact (h b hb).oldPart

theorem rows_attnMerged (l : ℕ) {bs : List (TokenBatch W V)} (h : ∀ b ∈ bs, b.Wf) :
    (attnMerged l bs).rows =
      ((bs.flatMap fun b => b.rows.take (numNew b.metadata.initPrefillLens)) ++
        bs.flatMap fun b => b.rows.drop (numNew b.metadata.initPrefillLens)).map Row.core := by
  have habsent : ∀ {β : Type} {column : TokenBatch W V → List β},
      (∀ b, column (clear b) = []) → UniformColumn (attnParts bs) column := by
    intro β column hc
    refine .inr fun p hp => ?_
    rcases List.mem_append.mp hp with hp | hp
    · obtain ⟨b, -, rfl⟩ := List.mem_map.mp hp
      exact hc _
    · obtain ⟨b, -, rfl⟩ := List.mem_map.mp hp
      exact hc _
  have hcat : (attnMerged l bs).rows = (cat l (attnParts bs)).rows := rfl
  rw [hcat, rows_cat l (wf_of_mem_attnParts h) (habsent fun _ => rfl) (habsent fun _ => rfl)
    (habsent fun _ => rfl), attnParts, List.flatMap_append, List.flatMap_map, List.flatMap_map,
    List.map_append, List.map_flatMap, List.map_flatMap]
  congr 1
  · exact List.flatMap_congr fun b hb => (h b hb).rows_newPart
  · exact List.flatMap_congr fun b hb => (h b hb).rows_oldPart

theorem attnMerged_initPrefillLens (l : ℕ) {bs : List (TokenBatch W V)} (h : ∀ b ∈ bs, b.Wf) :
    (attnMerged l bs).metadata.initPrefillLens =
      (bs.flatMap fun b =>
        b.metadata.initPrefillLens.take (numNew b.metadata.initPrefillLens)) ++
      bs.flatMap fun b =>
        b.metadata.initPrefillLens.drop (numNew b.metadata.initPrefillLens) := by
  show (attnParts bs).flatMap (·.metadata.initPrefillLens) = _
  rw [attnParts, List.flatMap_append, List.flatMap_map, List.flatMap_map]
  congr 1
  · exact List.flatMap_congr fun b _ => by simp [newPart, clear]
  · refine List.flatMap_congr fun b hb => ?_
    have hlen := (h b hb).initPrefillLens
    simp only [oldPart, clear, chunk_metadata, BatchMetadata.chunk_initPrefillLens]
    rw [List.take_of_length_le (by simp [hlen])]

theorem attnMerged_numTokens (l : ℕ) (bs : List (TokenBatch W V)) :
    (attnMerged l bs).metadata.numTokens =
      (bs.map fun b => numNew b.metadata.initPrefillLens).sum +
        (bs.map fun b => b.metadata.numTokens - numNew b.metadata.initPrefillLens).sum := by
  show ((attnParts bs).map (·.metadata.numTokens)).sum = _
  rw [attnParts, List.map_append, List.sum_append, List.map_map, List.map_map]
  simp [newPart, oldPart, clear, Function.comp_def]

/-- **The merge of attention batches has the shape of one.** -/
theorem attnShape_attnMerged (l : ℕ) {bs : List (TokenBatch W V)} (h : ∀ b ∈ bs, b.AttnShape) :
    (attnMerged l bs).AttnShape := by
  have hwf : ∀ b ∈ bs, b.Wf := fun b hb => (h b hb).toWf
  have hlens := attnMerged_initPrefillLens l hwf
  have hnum := attnMerged_numTokens l bs
  have hnew : ∀ x ∈ bs.flatMap fun b =>
      b.metadata.initPrefillLens.take (numNew b.metadata.initPrefillLens), x ≠ -1 := by
    intro x hx
    obtain ⟨b, hb, hx⟩ := List.mem_flatMap.mp hx
    exact (h b hb).prefillFirst.take_ne x hx
  have hold : ∀ x ∈ bs.flatMap fun b =>
      b.metadata.initPrefillLens.drop (numNew b.metadata.initPrefillLens), x = -1 := by
    intro x hx
    obtain ⟨b, hb, hx⟩ := List.mem_flatMap.mp hx
    exact (h b hb).prefillFirst.drop_eq x hx
  have hcount : numNew (attnMerged l bs).metadata.initPrefillLens =
      (bs.map fun b => numNew b.metadata.initPrefillLens).sum := by
    rw [hlens, numNew_append, numNew_eq_length hnew, numNew_eq_zero hold, Nat.add_zero,
      List.length_flatMap]
    refine congrArg List.sum (List.map_congr_left fun b _ => ?_)
    rw [List.length_take, Nat.min_eq_left (numNew_le_length _)]
  have hparts := wf_of_mem_attnParts hwf
  exact {
    reqIds := length_flatMap_column fun p hp => (hparts p hp).reqIds
    initPrefillLens := length_flatMap_column fun p hp => (hparts p hp).initPrefillLens
    expIds := .inl (by simp [attnMerged, cat, attnParts, newPart, oldPart, clear])
    topkWeights := .inl (by simp [attnMerged, cat, attnParts, newPart, oldPart, clear])
    attnDpRanks := .inl (by simp [attnMerged, cat, attnParts, newPart, oldPart, clear])
    data := length_flatMap_column fun p hp => (hparts p hp).data
    hiddenDim := rfl
    tag := rfl
    prefillFirst := hlens ▸ prefillFirst_append hnew hold
    numPrefillSeqs := by rw [hcount]; rfl
    numPrefillTokens := by rw [hcount]; rfl
    numDecodeTokens := by rw [hcount, hnum, Nat.add_sub_cancel_left]; rfl }

theorem AttnShape.safeCheck {b : TokenBatch W V} (hb : b.AttnShape) :
    b.metadata.attentionBatchSafeCheck = true := by
  simp [BatchMetadata.attentionBatchSafeCheck, hb.numPrefillSeqs, hb.numPrefillTokens,
    hb.numDecodeTokens]

/-- The counts in the metadata are the ones the parts are cut by. -/
theorem prefillEntries_eq {bs : List (TokenBatch W V)} (h : ∀ b ∈ bs, b.AttnShape)
    (column : BatchMetadata W → List α) :
    BatchMetadata.prefillEntries (bs.map (·.metadata)) column =
      bs.flatMap fun b => (column b.metadata).take (numNew b.metadata.initPrefillLens) := by
  rw [BatchMetadata.prefillEntries, List.flatMap_map]
  exact List.flatMap_congr fun b hb => by rw [(h b hb).numPrefillSeqs]; rfl

theorem decodeEntries_eq {bs : List (TokenBatch W V)} (h : ∀ b ∈ bs, b.AttnShape)
    (column : BatchMetadata W → List α) :
    BatchMetadata.decodeEntries (bs.map (·.metadata)) column =
      bs.flatMap fun b => ((column b.metadata).drop (numNew b.metadata.initPrefillLens)).take
        (b.metadata.numTokens - numNew b.metadata.initPrefillLens) := by
  rw [BatchMetadata.decodeEntries, List.flatMap_map]
  exact List.flatMap_congr fun b hb => by
    rw [(h b hb).numPrefillSeqs, (h b hb).numDecodeTokens]; rfl

theorem mergeByAttention_metadata_eq {l : ℕ} {b : TokenBatch W V} {bs : List (TokenBatch W V)}
    (h : ∀ x ∈ b :: bs, x.AttnShape) (hl : b.metadata.layerId = l) :
    BatchMetadata.mergeByAttention ((b :: bs).map (·.metadata)) =
      .ok (attnMerged l (b :: bs)).metadata := by
  have hcheck : ∀ m ∈ (b :: bs).map (·.metadata), m.attentionBatchSafeCheck = true := by
    intro m hm
    obtain ⟨x, hx, rfl⟩ := List.mem_map.mp hm
    exact (h x hx).safeCheck
  have hshape := attnShape_attnMerged l h
  have hreq : BatchMetadata.prefillEntries ((b :: bs).map (·.metadata)) (·.reqIds) ++
      BatchMetadata.decodeEntries ((b :: bs).map (·.metadata)) (·.reqIds) =
      (attnMerged l (b :: bs)).metadata.reqIds := by
    rw [prefillEntries_eq h, decodeEntries_eq h]
    simp [attnMerged, cat, attnParts, newPart, oldPart, clear, List.flatMap_map]
  have hlens : BatchMetadata.prefillEntries ((b :: bs).map (·.metadata)) (·.initPrefillLens) ++
      BatchMetadata.decodeEntries ((b :: bs).map (·.metadata)) (·.initPrefillLens) =
      (attnMerged l (b :: bs)).metadata.initPrefillLens := by
    rw [prefillEntries_eq h, decodeEntries_eq h]
    simp [attnMerged, cat, attnParts, newPart, oldPart, clear, List.flatMap_map]
  have hsum : ∀ (f : BatchMetadata W → Option ℕ) (g : TokenBatch W V → ℕ),
      (∀ x ∈ b :: bs, f x.metadata = some (g x)) →
      (((b :: bs).map (·.metadata)).map fun m => (f m).getD 0).sum = ((b :: bs).map g).sum := by
    intro f g hfg
    rw [List.map_map]
    exact congrArg List.sum (List.map_congr_left fun x hx => by
      rw [Function.comp_apply, hfg x hx]; rfl)
  rw [BatchMetadata.mergeByAttention, ensure_of_true hcheck]
  refine congrArg Except.ok (BatchMetadata.ext rfl ?_ ?_ hl hreq ?_ ?_ ?_ hlens ?_ ?_ ?_)
  · exact (congrArg List.length hreq).trans hshape.reqIds
  · exact (h b (by simp)).hiddenDim
  · simp [attnMerged, cat, attnParts, newPart, oldPart, clear]
  · simp [attnMerged, cat, attnParts, newPart, oldPart, clear]
  · simp [attnMerged, cat, attnParts, newPart, oldPart, clear]
  · exact congrArg some (hsum _ _ fun x hx => (h x hx).numPrefillSeqs)
  · exact congrArg some (hsum _ _ fun x hx => (h x hx).numPrefillTokens)
  · exact congrArg some (hsum _ _ fun x hx => (h x hx).numDecodeTokens)

theorem mergeByAttention_eq {l : ℕ} {b c : TokenBatch W V} {bs : List (TokenBatch W V)}
    (h : ∀ x ∈ b :: c :: bs, x.AttnShape) (hl : b.metadata.layerId = l) :
    mergeByAttention (b :: c :: bs) = .ok (some (attnMerged l (b :: c :: bs))) := by
  have hdata : ((b :: c :: bs).map newPart).flatMap (·.data) ++
      ((b :: c :: bs).map oldPart).flatMap (·.data) = (attnMerged l (b :: c :: bs)).data :=
    List.flatMap_append.symm
  have hnew : (b :: c :: bs).flatMap (fun x => x.data.take (x.metadata.numPrefillTokens.getD 0)) =
      ((b :: c :: bs).map newPart).flatMap (·.data) := by
    rw [List.flatMap_map]
    exact List.flatMap_congr fun x hx => by rw [(h x hx).numPrefillTokens]; rfl
  have hold : (b :: c :: bs).flatMap (fun x =>
      (x.data.drop (x.metadata.numPrefillTokens.getD 0)).take
        (x.metadata.numDecodeTokens.getD 0)) =
      ((b :: c :: bs).map oldPart).flatMap (·.data) := by
    rw [List.flatMap_map]
    exact List.flatMap_congr fun x hx => by
      rw [(h x hx).numPrefillTokens, (h x hx).numDecodeTokens]; rfl
  rw [mergeByAttention, mergeByAttention_metadata_eq h hl]
  · simp only [ok_bind, hnew, hold, hdata]
    rfl
  · simp
  · simp

variable [Inhabited W]

/-- **Merging attention batches** of one layer succeeds, keeps the shape, and only reorders the
rows (up to the columns it drops). -/
theorem merge_attention {l : ℕ} {bs : List (TokenBatch W V)} (hne : bs ≠ [])
    (h : ∀ b ∈ bs, b.AttnShape) (hl : ∀ b ∈ bs, b.metadata.layerId = l) :
    ∃ m, merge bs = .ok (some m) ∧ m.AttnShape ∧ m.metadata.layerId = l ∧
      (m.rows.map Row.core).Perm ((bs.flatMap rows).map Row.core) := by
  match bs, hne with
  | [b], _ => exact ⟨b, rfl, h b (by simp), hl b (by simp), by simp⟩
  | b :: c :: bs, _ =>
    have hcore : Row.core ∘ Row.core = (Row.core : Row W V → Row W V) := rfl
    refine ⟨attnMerged l (b :: c :: bs), ?_, attnShape_attnMerged l h, rfl, ?_⟩
    · rw [merge, if_neg (by simp [BatchMetadata.isExpert, (h b (by simp)).tag]),
        if_pos (by simp [BatchMetadata.isAttention, (h b (by simp)).tag])]
      · exact mergeByAttention_eq h (hl b (by simp))
      · simp
    · rw [rows_attnMerged l fun x hx => (h x hx).toWf, List.map_map, hcore]
      refine List.Perm.map _ ((List.flatMap_append_perm _ _ _).trans ?_)
      refine List.Perm.of_eq (List.flatMap_congr fun x _ => ?_)
      rw [List.take_append_drop]

end Attention

end TokenBatch

/-! ### Packing gathered tokens -/

section Pack

variable [TensorRow V]

/-- New requests before decoding ones, new requests by id: the key `pack_topk_tokens` sorts by. -/
def packKey (t : TokenTopKInfo V) : ℕ ×ₗ ℕ :=
  if t.initPrefillLen = -1 then toLex (1, 0) else toLex (0, t.seqId)

omit [TensorRow V] in
theorem packLess_iff {a b : TokenTopKInfo V} (ha : -1 ≤ a.initPrefillLen)
    (hb : -1 ≤ b.initPrefillLen) : a.packLess b ↔ packKey a < packKey b := by
  rw [TokenTopKInfo.packLess, packKey, packKey]
  by_cases h1 : a.initPrefillLen = -1
  · by_cases h2 : b.initPrefillLen = -1
    · simp [h1, h2]
    · simp [h1, h2, Prod.Lex.toLex_lt_toLex]; omega
  · by_cases h2 : b.initPrefillLen = -1
    · simp [h1, h2, Prod.Lex.toLex_lt_toLex]; omega
    · simp [h1, h2, Prod.Lex.toLex_lt_toLex]

omit [TensorRow V] in
theorem strictWeakOn_packLess {tokens : List (TokenTopKInfo V)}
    (h : ∀ t ∈ tokens, -1 ≤ t.initPrefillLen) : StrictWeakOn TokenTopKInfo.packLess tokens :=
  strictWeakOn_of_key packKey fun a ha b hb => packLess_iff (h a ha) (h b hb)

def TokenTopKInfo.toRow (gatherSum : List V → V) (t : TokenTopKInfo V) : Row W V where
  reqId := t.seqId
  expId := none
  topkWeight := none
  attnDpRank := some t.attnDpRank
  initPrefillLen := t.initPrefillLen
  data := gatherSum t.topkTensors

/-- One row per gathered token, in order. -/
def packed (W : Type) (gatherSum : List V → V) (layerId : ℕ) (tokens : List (TokenTopKInfo V)) :
    TokenBatch W V :=
  ⟨tokens.map fun t => gatherSum t.topkTensors, BatchMetadata.packTopkTokens W layerId tokens⟩

theorem rows_packed (gatherSum : List V → V) (layerId : ℕ) (tokens : List (TokenTopKInfo V)) :
    (packed W gatherSum layerId tokens).rows = tokens.map (·.toRow gatherSum) := by
  refine List.ext_getElem? fun i => ?_
  by_cases hi : i < tokens.length
  · rw [TokenBatch.getElem?_rows hi, List.getElem?_map, List.getElem?_eq_getElem hi]
    simp [TokenBatch.rowAt, packed, BatchMetadata.packTopkTokens, TokenTopKInfo.toRow, hi]
  · rw [List.getElem?_eq_none (by simpa [packed, BatchMetadata.packTopkTokens] using hi),
      List.getElem?_eq_none (by simpa using hi)]

theorem attnShape_packed (gatherSum : List V → V) (layerId : ℕ)
    {tokens : List (TokenTopKInfo V)} (h : PrefillFirst (tokens.map (·.initPrefillLen))) :
    (packed W gatherSum layerId tokens).AttnShape := by
  have hcount : numNew (tokens.map (·.initPrefillLen)) =
      tokens.countP (·.initPrefillLen ≠ -1) := by
    rw [numNew, List.countP_map]; rfl
  have hsum := List.length_eq_countP_add_countP (fun t : TokenTopKInfo V => t.initPrefillLen ≠ -1)
    (l := tokens)
  exact {
    reqIds := by simp [packed, BatchMetadata.packTopkTokens]
    initPrefillLens := by simp [packed, BatchMetadata.packTopkTokens]
    expIds := column_nil _
    topkWeights := column_nil _
    attnDpRanks := .of_length (by simp [packed, BatchMetadata.packTopkTokens])
    data := by simp [packed, BatchMetadata.packTopkTokens]
    hiddenDim := rfl
    tag := rfl
    prefillFirst := h
    numPrefillSeqs := congrArg some hcount.symm
    numPrefillTokens := congrArg some hcount.symm
    numDecodeTokens := by
      refine congrArg some ?_
      show _ = tokens.length - numNew (tokens.map (·.initPrefillLen))
      rw [hcount]
      simp only [ne_eq, decide_not, Bool.not_eq_true', decide_eq_false_iff_not,
        not_not] at hsum ⊢
      omega }

omit [TensorRow V] in
theorem prefillFirst_sort (S : StdSort) {tokens : List (TokenTopKInfo V)}
    (h : ∀ t ∈ tokens, -1 ≤ t.initPrefillLen) :
    PrefillFirst ((S.sort TokenTopKInfo.packLess tokens).map (·.initPrefillLen)) := by
  have hperm := S.perm (strictWeakOn_packLess h)
  refine List.pairwise_map.mpr ((S.sorted (strictWeakOn_packLess h)).imp_of_mem ?_)
  intro a b ha hb hle haold
  by_contra hbnew
  refine hle ?_
  have hb' := h b (hperm.mem_iff.mp hb)
  simp only [TokenTopKInfo.packLess, haold, or_true, if_true, decide_eq_true_eq]
  omega

/-- **Packing gathered tokens** that hold equally many rows succeeds, gives one row per token and
puts new requests first. -/
theorem TokenBatch.packTopkTokens_spec (S : StdSort) (gatherSum : List V → V) (layerId : ℕ)
    {k : ℕ} {tokens : List (TokenTopKInfo V)} (hne : tokens ≠ [])
    (hlen : ∀ t ∈ tokens, -1 ≤ t.initPrefillLen) (hk : ∀ t ∈ tokens, t.count = k) :
    ∃ b : TokenBatch W V, packTopkTokens S gatherSum layerId tokens = .ok b ∧ b.AttnShape ∧
      b.metadata.layerId = layerId ∧ b.rows.Perm (tokens.map (·.toRow gatherSum)) := by
  have hperm := S.perm (strictWeakOn_packLess hlen)
  refine ⟨packed W gatherSum layerId (S.sort TokenTopKInfo.packLess tokens), ?_,
    attnShape_packed gatherSum layerId (prefillFirst_sort S hlen), rfl, ?_⟩
  · rw [packTopkTokens]
    cases hsort : S.sort TokenTopKInfo.packLess tokens with
    | nil => exact absurd (List.nil_perm.mp (hsort ▸ hperm)) hne
    | cons t ts =>
      have hcount : ∀ u ∈ t :: ts, u.topkTensors.take t.count = u.topkTensors := by
        intro u hu
        have hmem : ∀ v ∈ t :: ts, v.count = k := fun v hv =>
          hk v (hperm.mem_iff.mp (hsort ▸ hv))
        rw [hmem t (by simp), ← hmem u hu]
        exact List.take_length
      simp only [packed]
      rw [List.map_congr_left fun u hu => by rw [hcount u hu]]
  · rw [rows_packed]
    exact hperm.map _

end Pack

end StreamEP

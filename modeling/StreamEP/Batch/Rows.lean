import StreamEP.Batch.TokenBatch

/-!
# Batches as lists of rows

The metadata of a batch is a set of parallel columns and its data a list of rows; which entries
belong together is only a matter of position. This file reads a batch as a list of `Row`s, one
per token with everything that is stored about it, and says what every batch operation does to
that list: a permutation reorders it, a split cuts it, a merge concatenates and reorders it. All
later files reason about rows and never about columns.

A column is either absent or has one entry per token (`Column`). `Wf` says so of every column of
a batch, and that the request ids, prefill lengths and data rows are present. `rowAt_congr` is
the only place where the columns are looked at together: a row of a new batch is a row of an old
one as soon as every column agrees at the two places.
-/

namespace StreamEP

variable {α W V : Type}

/-! ### Columns -/

/-- A column is absent or has one entry per token. -/
def Column (n : ℕ) (c : List α) : Prop := c = [] ∨ c.length = n

theorem Column.of_length {n : ℕ} {c : List α} (h : c.length = n) : Column n c := Or.inr h

theorem column_nil (n : ℕ) : Column n ([] : List α) := Or.inl rfl

/-- Where the entry at place `j` of a permuted column comes from. -/
theorem getElem?_permuteVector [Inhabited α] {n : ℕ} {pos : List ℕ}
    (h : pos.Perm (List.range n)) {l : List α} (hl : Column n l) {i j : ℕ}
    (hj : (Scatter.invPos n pos)[j]? = some i) : (permuteVector l pos)[j]? = l[i]? := by
  rcases hl with rfl | hl
  · rfl
  · by_cases hnil : l = []
    · subst hnil; rfl
    · rw [permuteVector, if_neg (by simpa using hnil)]
      exact Scatter.getElem?_scatter_invPos h (by simpa using hl) hl hj

theorem column_permuteVector [Inhabited α] {n : ℕ} {pos : List ℕ} {c : List α}
    (hc : Column n c) : Column n (permuteVector c pos) := by
  rcases hc with rfl | hc
  · exact column_nil n
  · by_cases hnil : c = []
    · subst hnil; exact column_nil n
    · refine Or.inr ?_
      rw [permuteVector, if_neg (by simpa using hnil), Scatter.length_scatter,
        List.length_replicate, hc]

theorem length_permuteVector [Inhabited α] (c : List α) (pos : List ℕ) :
    (permuteVector c pos).length = c.length := by
  cases c with
  | nil => rfl
  | cons x c => simp [permuteVector]

theorem length_repeatVector (c : List α) (k : ℕ) :
    (repeatVector c k).length = c.length * k := by
  simp [repeatVector]

theorem getElem?_repeatVector (l : List α) {k : ℕ} (hk : 0 < k) (j : ℕ) :
    (repeatVector l k)[j]? = l[j / k]? := by
  induction l generalizing j with
  | nil => simp [repeatVector]
  | cons x l ih =>
    rw [repeatVector, List.flatMap_cons, ← repeatVector]
    by_cases hj : j < k
    · rw [List.getElem?_append_left (by simpa using hj), Nat.div_eq_of_lt hj,
        List.getElem?_replicate_of_lt hj]
      rfl
    · have hdiv : j / k = (j - k) / k + 1 := Nat.div_eq_sub_div hk (Nat.le_of_not_lt hj)
      rw [List.getElem?_append_right (by simpa using Nat.le_of_not_lt hj), List.length_replicate,
        ih, hdiv, List.getElem?_cons_succ]

theorem getElem?_splitLengths (c : List α) {sizes : List ℕ} {i : ℕ} (hi : i < sizes.length) :
    (sizes.splitLengths c)[i]? =
      some ((c.drop (sizes.take i).sum).take (sizes.getD i 0)) := by
  induction sizes generalizing c i with
  | nil => simp at hi
  | cons n sizes ih =>
    rw [List.splitLengths_cons]
    cases i with
    | zero => simp
    | succ i =>
      rw [List.getElem?_cons_succ, ih _ (by simpa using hi), List.take_succ_cons, List.sum_cons,
        List.drop_drop, List.getD_cons_succ]

theorem splitLengths_eq_map_range (c : List α) (sizes : List ℕ) :
    sizes.splitLengths c = (List.range sizes.length).map fun i =>
      (c.drop (sizes.take i).sum).take (sizes.getD i 0) := by
  refine List.ext_getElem? fun i => ?_
  by_cases hi : i < sizes.length
  · rw [getElem?_splitLengths c hi, List.getElem?_map, List.getElem?_range hi]
    rfl
  · rw [List.getElem?_eq_none (by simpa using hi), List.getElem?_eq_none (by simpa using hi)]

theorem splitVectorBySize_eq (c : List α) (sizes : List ℕ) :
    splitVectorBySize c sizes = sizes.splitLengths c := by
  cases c with
  | nil => simp [splitVectorBySize, splitLengths_eq_map_range, List.map_const']
  | cons x c => rfl

theorem getD_splitVectorBySize (c : List α) {sizes : List ℕ} {i : ℕ} (hi : i < sizes.length) :
    (splitVectorBySize c sizes).getD i [] =
      (c.drop (sizes.take i).sum).take (sizes.getD i 0) := by
  rw [splitVectorBySize_eq, List.getD_eq_getElem?_getD, getElem?_splitLengths c hi]
  rfl

theorem column_chunk {n : ℕ} {c : List α} (hc : Column n c) {off m : ℕ} (hm : off + m ≤ n) :
    Column m ((c.drop off).take m) := by
  rcases hc with rfl | hc
  · exact Or.inl (by simp)
  · refine Or.inr ?_
    rw [List.length_take, List.length_drop]
    omega

theorem getElem?_chunk (l : List α) {off m j : ℕ} (hj : j < m) :
    ((l.drop off).take m)[j]? = l[off + j]? := by
  rw [List.getElem?_take_of_lt hj, List.getElem?_drop]

/-! ### Rows -/

/-- Everything a batch stores about one token. An absent column is `none`. -/
structure Row (W V : Type) where
  reqId : ℕ
  expId : Option ℕ
  topkWeight : Option W
  /-- The attention rank that owns the request. -/
  attnDpRank : Option ℕ
  /-- `-1` once the request is decoding. -/
  initPrefillLen : ℤ
  data : V
deriving DecidableEq, Repr

/-- The row without the columns that merging attention batches drops. -/
def Row.core (r : Row W V) : Row W V :=
  { r with expId := none, topkWeight := none, attnDpRank := none }

/-- The columns of a metadata record are parallel. -/
structure BatchMetadata.Aligned (m : BatchMetadata W) : Prop where
  reqIds : m.reqIds.length = m.numTokens
  initPrefillLens : m.initPrefillLens.length = m.numTokens
  expIds : Column m.numTokens m.expIds
  topkWeights : Column m.numTokens m.topkWeights
  attnDpRanks : Column m.numTokens m.attnDpRanks

namespace TokenBatch

section View

variable [Inhabited V]

def rowAt (b : TokenBatch W V) (i : ℕ) : Row W V where
  reqId := b.metadata.reqIds[i]?.getD 0
  expId := b.metadata.expIds[i]?
  topkWeight := b.metadata.topkWeights[i]?
  attnDpRank := b.metadata.attnDpRanks[i]?
  initPrefillLen := b.metadata.initPrefillLens[i]?.getD 0
  data := b.data[i]?.getD default

def rows (b : TokenBatch W V) : List (Row W V) :=
  (List.range b.metadata.numTokens).map b.rowAt

@[simp] theorem length_rows (b : TokenBatch W V) : b.rows.length = b.metadata.numTokens := by
  simp [rows]

theorem getElem?_rows {b : TokenBatch W V} {i : ℕ} (hi : i < b.metadata.numTokens) :
    b.rows[i]? = some (b.rowAt i) := by
  rw [rows, List.getElem?_map, List.getElem?_range hi]
  rfl

/-- Two rows are the same when all columns agree at the two places. -/
theorem rowAt_congr {b b' : TokenBatch W V} {i j : ℕ}
    (hreq : b'.metadata.reqIds[j]? = b.metadata.reqIds[i]?)
    (hexp : b'.metadata.expIds[j]? = b.metadata.expIds[i]?)
    (hweight : b'.metadata.topkWeights[j]? = b.metadata.topkWeights[i]?)
    (hrank : b'.metadata.attnDpRanks[j]? = b.metadata.attnDpRanks[i]?)
    (hlen : b'.metadata.initPrefillLens[j]? = b.metadata.initPrefillLens[i]?)
    (hdata : b'.data[j]? = b.data[i]?) : b'.rowAt j = b.rowAt i := by
  simp only [rowAt, hreq, hexp, hweight, hrank, hlen, hdata]

/-- A batch whose rows are the rows of `b` at the places `σ`. -/
theorem rows_eq_map {b b' : TokenBatch W V} {σ : List ℕ} (hn : b'.metadata.numTokens = σ.length)
    (h : ∀ j i, σ[j]? = some i → b'.rowAt j = b.rowAt i) : b'.rows = σ.map b.rowAt := by
  refine List.ext_getElem? fun j => ?_
  by_cases hj : j < σ.length
  · rw [getElem?_rows (hn ▸ hj), List.getElem?_map, List.getElem?_eq_getElem hj,
      h j σ[j] (List.getElem?_eq_getElem hj)]
    rfl
  · rw [List.getElem?_eq_none (by simpa [hn] using hj),
      List.getElem?_eq_none (by simpa using hj)]

end View

/-- Metadata columns and data rows are parallel, and the declared shape is that of the data. -/
structure Wf [TensorRow V] (b : TokenBatch W V) : Prop extends b.metadata.Aligned where
  data : b.data.length = b.metadata.numTokens
  /-- The declared row size is the size of the rows. -/
  hiddenDim : b.metadata.tokenHiddenDim = TensorRow.size V

/-- A well-formed batch in which every column is present. -/
structure Full [TensorRow V] (b : TokenBatch W V) : Prop extends b.Wf where
  expIds_length : b.metadata.expIds.length = b.metadata.numTokens
  topkWeights_length : b.metadata.topkWeights.length = b.metadata.numTokens
  attnDpRanks_length : b.metadata.attnDpRanks.length = b.metadata.numTokens

/-! ### Columns back from rows -/

theorem map_getD_range {l : List α} {n : ℕ} (hl : l.length = n) (d : α) :
    (List.range n).map (fun i => l[i]?.getD d) = l := by
  subst hl
  refine List.ext_getElem? fun i => ?_
  by_cases hi : i < l.length
  · simp [hi]
  · simp [Nat.le_of_not_lt hi]

section Columns

variable [TensorRow V] {b : TokenBatch W V}

theorem Wf.map_reqId (hb : b.Wf) : b.rows.map (·.reqId) = b.metadata.reqIds := by
  rw [rows, List.map_map]
  exact map_getD_range hb.reqIds 0

theorem Wf.map_initPrefillLen (hb : b.Wf) :
    b.rows.map (·.initPrefillLen) = b.metadata.initPrefillLens := by
  rw [rows, List.map_map]
  exact map_getD_range hb.initPrefillLens 0

theorem map_expId (h : b.metadata.expIds.length = b.metadata.numTokens) :
    b.rows.map (·.expId) = b.metadata.expIds.map some := by
  rw [rows, List.map_map, Scatter.map_some_eq_map_range, h]
  rfl

theorem Full.map_expId (hb : b.Full) : b.rows.map (·.expId) = b.metadata.expIds.map some :=
  TokenBatch.map_expId hb.expIds_length

theorem map_attnDpRank (h : b.metadata.attnDpRanks.length = b.metadata.numTokens) :
    b.rows.map (·.attnDpRank) = b.metadata.attnDpRanks.map some := by
  rw [rows, List.map_map, Scatter.map_some_eq_map_range, h]
  rfl

end Columns

/-! ### Permuting -/

end TokenBatch

/-- All columns permuted: what `permute_token_infos` computes when it does not throw. -/
def BatchMetadata.permuteColumns [Inhabited W] (m : BatchMetadata W) (pos : List ℕ) :
    BatchMetadata W :=
  { m with
    reqIds := permuteVector m.reqIds pos
    expIds := permuteVector m.expIds pos
    attnDpRanks := permuteVector m.attnDpRanks pos
    initPrefillLens := permuteVector m.initPrefillLens pos
    topkWeights := permuteVector m.topkWeights pos }

theorem BatchMetadata.permuteTokenInfos_eq [Inhabited W] {m : BatchMetadata W} (hm : m.Aligned)
    {pos : List ℕ} (h : pos.Perm (List.range m.numTokens)) :
    m.permuteTokenInfos pos = .ok (m.permuteColumns pos) := by
  have hlen := Scatter.pos_length h
  cases pos with
  | nil =>
    -- nothing to permute: every column is empty
    have hn : m.numTokens = 0 := hlen.symm
    have hid : ∀ {β : Type} [Inhabited β] {c : List β}, Column m.numTokens c →
        permuteVector c [] = c := by
      intro β _ c hc
      rw [hc.elim id fun h => List.length_eq_zero_iff.mp (h.trans hn)]
      rfl
    rw [permuteColumns, hid (.of_length hm.reqIds), hid (.of_length hm.initPrefillLens),
      hid hm.expIds, hid hm.topkWeights, hid hm.attnDpRanks]
    rfl
  | cons p pos =>
    simp [permuteTokenInfos, permuteColumns, hlen, pure, Except.pure]

theorem BatchMetadata.Aligned.permuteColumns [Inhabited W] {m : BatchMetadata W}
    (hm : m.Aligned) (pos : List ℕ) : (m.permuteColumns pos).Aligned where
  reqIds := (length_permuteVector _ _).trans hm.reqIds
  initPrefillLens := (length_permuteVector _ _).trans hm.initPrefillLens
  expIds := column_permuteVector hm.expIds
  topkWeights := column_permuteVector hm.topkWeights
  attnDpRanks := column_permuteVector hm.attnDpRanks

namespace TokenBatch

section Permute

variable [Inhabited W] [TensorRow V]

def permute (b : TokenBatch W V) (pos : List ℕ) : TokenBatch W V :=
  ⟨Scatter.scatter (List.replicate b.metadata.numTokens default) pos b.data,
    b.metadata.permuteColumns pos⟩

theorem Wf.permute {b : TokenBatch W V} (hb : b.Wf) (pos : List ℕ) : (b.permute pos).Wf where
  toAligned := hb.toAligned.permuteColumns pos
  data := by simp [TokenBatch.permute, BatchMetadata.permuteColumns]
  hiddenDim := hb.hiddenDim

theorem Full.permute {b : TokenBatch W V} (hb : b.Full) (pos : List ℕ) :
    (b.permute pos).Full where
  toWf := hb.toWf.permute pos
  expIds_length := (length_permuteVector _ _).trans hb.expIds_length
  topkWeights_length := (length_permuteVector _ _).trans hb.topkWeights_length
  attnDpRanks_length := (length_permuteVector _ _).trans hb.attnDpRanks_length

theorem rows_permute {b : TokenBatch W V} (hb : b.Wf) {pos : List ℕ}
    (h : pos.Perm (List.range b.metadata.numTokens)) :
    (b.permute pos).rows = (Scatter.invPos b.metadata.numTokens pos).map b.rowAt := by
  refine rows_eq_map (by simp [permute, BatchMetadata.permuteColumns]) fun j i hj => ?_
  exact rowAt_congr (getElem?_permuteVector h (.of_length hb.reqIds) hj)
    (getElem?_permuteVector h hb.expIds hj) (getElem?_permuteVector h hb.topkWeights hj)
    (getElem?_permuteVector h hb.attnDpRanks hj)
    (getElem?_permuteVector h (.of_length hb.initPrefillLens) hj)
    (Scatter.getElem?_scatter_invPos h (by simp) hb.data hj)

theorem rows_permute_perm {b : TokenBatch W V} (hb : b.Wf) {pos : List ℕ}
    (h : pos.Perm (List.range b.metadata.numTokens)) : (b.permute pos).rows.Perm b.rows := by
  rw [rows_permute hb h]
  exact (Scatter.invPos_perm h).map _

end Permute

/-! ### Splitting -/

end TokenBatch

/-- The metadata of `n` consecutive tokens from `off` on. -/
def BatchMetadata.chunk (m : BatchMetadata W) (off n : ℕ) : BatchMetadata W :=
  let piece : BatchMetadata W :=
    { batchTag := m.batchTag
      numTokens := n
      tokenHiddenDim := m.tokenHiddenDim
      layerId := m.layerId
      reqIds := (m.reqIds.drop off).take n
      expIds := (m.expIds.drop off).take n
      topkWeights := (m.topkWeights.drop off).take n
      attnDpRanks := (m.attnDpRanks.drop off).take n
      initPrefillLens := (m.initPrefillLens.drop off).take n }
  if m.isAttention then
    let numPrefillTokens := piece.initPrefillLens.countP (· ≠ -1)
    { piece with
      numPrefillSeqs := some numPrefillTokens
      numPrefillTokens := some numPrefillTokens
      numDecodeTokens := some (n - numPrefillTokens) }
  else piece

section ChunkFields

variable (m : BatchMetadata W) (off n : ℕ)

@[simp] theorem BatchMetadata.chunk_batchTag : (m.chunk off n).batchTag = m.batchTag := by
  rw [chunk]; split <;> rfl

@[simp] theorem BatchMetadata.chunk_numTokens : (m.chunk off n).numTokens = n := by
  rw [chunk]; split <;> rfl

@[simp] theorem BatchMetadata.chunk_tokenHiddenDim :
    (m.chunk off n).tokenHiddenDim = m.tokenHiddenDim := by
  rw [chunk]; split <;> rfl

@[simp] theorem BatchMetadata.chunk_layerId : (m.chunk off n).layerId = m.layerId := by
  rw [chunk]; split <;> rfl

@[simp] theorem BatchMetadata.chunk_reqIds :
    (m.chunk off n).reqIds = (m.reqIds.drop off).take n := by
  rw [chunk]; split <;> rfl

@[simp] theorem BatchMetadata.chunk_expIds :
    (m.chunk off n).expIds = (m.expIds.drop off).take n := by
  rw [chunk]; split <;> rfl

@[simp] theorem BatchMetadata.chunk_topkWeights :
    (m.chunk off n).topkWeights = (m.topkWeights.drop off).take n := by
  rw [chunk]; split <;> rfl

@[simp] theorem BatchMetadata.chunk_attnDpRanks :
    (m.chunk off n).attnDpRanks = (m.attnDpRanks.drop off).take n := by
  rw [chunk]; split <;> rfl

@[simp] theorem BatchMetadata.chunk_initPrefillLens :
    (m.chunk off n).initPrefillLens = (m.initPrefillLens.drop off).take n := by
  rw [chunk]; split <;> rfl

end ChunkFields

theorem BatchMetadata.splitWithSizes_eq (m : BatchMetadata W) (sizes : List ℕ) :
    m.splitWithSizes sizes = (List.range sizes.length).map fun i =>
      m.chunk (sizes.take i).sum (sizes.getD i 0) := by
  refine List.map_congr_left fun i hi => ?_
  have hi' := List.mem_range.mp hi
  rw [chunk, getD_splitVectorBySize _ hi', getD_splitVectorBySize _ hi',
    getD_splitVectorBySize _ hi', getD_splitVectorBySize _ hi', getD_splitVectorBySize _ hi']

theorem BatchMetadata.Aligned.chunk {m : BatchMetadata W} (hm : m.Aligned) {off n : ℕ}
    (hn : off + n ≤ m.numTokens) : (m.chunk off n).Aligned where
  reqIds := by simp [hm.reqIds]; omega
  initPrefillLens := by simp [hm.initPrefillLens]; omega
  expIds := by simpa using column_chunk hm.expIds hn
  topkWeights := by simpa using column_chunk hm.topkWeights hn
  attnDpRanks := by simpa using column_chunk hm.attnDpRanks hn

namespace TokenBatch

/-- The batch of `n` consecutive tokens from `off` on. -/
def chunk (b : TokenBatch W V) (off n : ℕ) : TokenBatch W V :=
  ⟨(b.data.drop off).take n, b.metadata.chunk off n⟩

@[simp] theorem chunk_metadata (b : TokenBatch W V) (off n : ℕ) :
    (b.chunk off n).metadata = b.metadata.chunk off n := rfl

theorem splitWithSizes_eq (b : TokenBatch W V) (sizes : List ℕ) :
    b.splitWithSizes sizes = (List.range sizes.length).map fun i =>
      b.chunk (sizes.take i).sum (sizes.getD i 0) := by
  rw [splitWithSizes, BatchMetadata.splitWithSizes_eq, splitLengths_eq_map_range,
    List.zipWith_map, List.zipWith_self]
  rfl

theorem sum_take_add_getD_le {sizes : List ℕ} {n i : ℕ} (h : sizes.sum ≤ n)
    (hi : i < sizes.length) : (sizes.take i).sum + sizes.getD i 0 ≤ n := by
  have hsplit : (sizes.take (i + 1)).sum = (sizes.take i).sum + sizes.getD i 0 := by
    rw [List.take_add_one, List.sum_append, List.getElem?_eq_getElem hi]
    simp [List.getElem?_eq_getElem hi]
  have hsum := congrArg List.sum (List.take_append_drop (i + 1) sizes)
  rw [List.sum_append] at hsum
  omega

theorem exists_chunk_of_mem_splitWithSizes {b p : TokenBatch W V} {sizes : List ℕ}
    (h : sizes.sum ≤ b.metadata.numTokens) (hp : p ∈ b.splitWithSizes sizes) :
    ∃ off n, off + n ≤ b.metadata.numTokens ∧ p = b.chunk off n := by
  rw [splitWithSizes_eq] at hp
  obtain ⟨i, hi, rfl⟩ := List.mem_map.mp hp
  exact ⟨_, _, sum_take_add_getD_le h (List.mem_range.mp hi), rfl⟩

section Chunk

variable [TensorRow V]

theorem Wf.chunk {b : TokenBatch W V} (hb : b.Wf) {off n : ℕ}
    (hn : off + n ≤ b.metadata.numTokens) : (b.chunk off n).Wf where
  toAligned := hb.toAligned.chunk hn
  data := by simp [TokenBatch.chunk, hb.data]; omega
  hiddenDim := by simpa using hb.hiddenDim

theorem Full.chunk {b : TokenBatch W V} (hb : b.Full) {off n : ℕ}
    (hn : off + n ≤ b.metadata.numTokens) : (b.chunk off n).Full where
  toWf := hb.toWf.chunk hn
  expIds_length := by simp [hb.expIds_length]; omega
  topkWeights_length := by simp [hb.topkWeights_length]; omega
  attnDpRanks_length := by simp [hb.attnDpRanks_length]; omega

theorem rows_chunk (b : TokenBatch W V) {off n : ℕ} (hn : off + n ≤ b.metadata.numTokens) :
    (b.chunk off n).rows = (b.rows.drop off).take n := by
  refine List.ext_getElem? fun j => ?_
  by_cases hj : j < n
  · rw [getElem?_rows (by simpa using hj), getElem?_chunk _ hj, getElem?_rows (by omega)]
    congr 1
    exact rowAt_congr (by simpa using getElem?_chunk _ hj) (by simpa using getElem?_chunk _ hj)
      (by simpa using getElem?_chunk _ hj) (by simpa using getElem?_chunk _ hj)
      (by simpa using getElem?_chunk _ hj) (getElem?_chunk _ hj)
  · rw [List.getElem?_eq_none (by simpa using hj), List.getElem?_eq_none]
    rw [List.length_take]
    omega

theorem rows_splitWithSizes (b : TokenBatch W V) {sizes : List ℕ}
    (h : sizes.sum ≤ b.metadata.numTokens) :
    (b.splitWithSizes sizes).map rows = sizes.splitLengths b.rows := by
  rw [splitWithSizes_eq, splitLengths_eq_map_range, List.map_map]
  exact List.map_congr_left fun i hi =>
    rows_chunk b (sum_take_add_getD_le h (List.mem_range.mp hi))

theorem flatMap_rows_splitWithSizes (b : TokenBatch W V) {sizes : List ℕ}
    (h : sizes.sum = b.metadata.numTokens) : (b.splitWithSizes sizes).flatMap rows = b.rows := by
  rw [List.flatMap_def, rows_splitWithSizes b h.le,
    List.flatten_splitLengths _ _ (by simp [h])]

end Chunk

end TokenBatch

end StreamEP

import StreamEP.Batch.Merge

/-!
# Sorting and selecting

The two reorderings of a batch on its way to the experts and back. `sort_by_expert` is a counting
sort and needs expert ids below its array size. `sort_by_attention` hands a comparison to an
unstable library sort; that comparison treats `-1` as "decoding" and is a strict weak order only
when no prefill length is smaller. Under these conditions both succeed and permute the columns.

Merging expert batches is the same counting sort over their concatenation, so it is a stable sort
by expert (`TokenBatch.mergeByExpert_stable`).

After `sort_by_attention` the rows of one rank are adjacent and its new requests come first
(`AttnOrdered`). Each consecutive run of equal ranks therefore has the shape an attention batch
needs, which is what the reply path relies on.

## Main results

* `BatchMetadata.sortByExpert_eq`, `BatchMetadata.sortByAttention_eq`
* `TokenBatch.mergeByExpert_stable` — an expert merge is a stable sort
* `TokenBatch.attnOrdered_permute` — the rows after `sort_by_attention`
-/

namespace StreamEP

variable {W V : Type}

namespace BatchMetadata

section Expert

variable [Inhabited W]

/-- The positions of `sort_by_expert`. -/
def expertOrder (m : BatchMetadata W) : List ℕ := CountingSort.positions maxNumExperts m.expIds

omit [Inhabited W] in
theorem expertOrder_perm {m : BatchMetadata W} (hlen : m.expIds.length = m.numTokens)
    (hexp : ∀ e ∈ m.expIds, e < maxNumExperts) :
    m.expertOrder.Perm (List.range m.numTokens) :=
  hlen ▸ CountingSort.positions_perm hexp

theorem sortByExpert_eq {m : BatchMetadata W} (hm : m.Aligned)
    (hlen : m.expIds.length = m.numTokens) (hexp : ∀ e ∈ m.expIds, e < maxNumExperts) :
    m.sortByExpert = .ok (m.expertOrder, m.permuteColumns m.expertOrder) := by
  have hperm := permuteTokenInfos_eq hm (expertOrder_perm hlen hexp)
  rw [expertOrder] at hperm
  rw [sortByExpert, hperm]
  rfl

end Expert

theorem expIds_sorted [Inhabited W] {m : BatchMetadata W} (hlen : m.expIds.length = m.numTokens)
    (hexp : ∀ e ∈ m.expIds, e < maxNumExperts) :
    (m.permuteColumns m.expertOrder).expIds.Pairwise (· ≤ ·) := by
  have horder := CountingSort.stableOrder_positions hexp
  have hperm := expertOrder_perm hlen hexp
  have hread : (m.permuteColumns m.expertOrder).expIds =
      (Scatter.invPos m.expIds.length m.expertOrder).map fun i => m.expIds.getD i 0 := by
    refine List.ext_getElem? fun j => ?_
    by_cases hj : j < m.numTokens
    · obtain ⟨i, hi, hp⟩ := Scatter.exists_getElem?_invPos hperm hj
      have hlt : i < m.expIds.length := by
        rw [hlen, ← Scatter.pos_length hperm]
        exact (List.getElem?_eq_some_iff.mp hp).1
      rw [hlen, List.getElem?_map, hi, Option.map_some, List.getD_eq_getElem _ _ hlt,
        ← List.getElem?_eq_getElem hlt]
      exact getElem?_permuteVector hperm (.of_length hlen) hi
    · rw [List.getElem?_eq_none, List.getElem?_eq_none]
      · simpa [hlen] using hj
      · show (permuteVector m.expIds m.expertOrder).length ≤ j
        rw [length_permuteVector, hlen]
        exact Nat.le_of_not_lt hj
  rw [hread]
  exact horder.keys_sorted

end BatchMetadata

/-! ### An expert merge is a stable sort -/

namespace TokenBatch

variable [Inhabited W] [TensorRow V]

/-- **Merging expert batches is a stable sort** of their concatenation: row `i` goes to place
`positions[i]`, with everything that is stored about it; places are ordered by expert and, for one
expert, by place in the concatenation; and the metadata is what `sort_by_expert` makes of the
concatenated metadata. -/
theorem mergeByExpert_stable {l : ℕ} {bs : List (TokenBatch W V)} (htwo : 2 ≤ bs.length)
    (hfull : ∀ b ∈ bs, b.Full) (hl : ∀ b ∈ bs, b.metadata.layerId = l)
    (hexp : ∀ b ∈ bs, ∀ e ∈ b.metadata.expIds, e < maxNumExperts) :
    ∃ m positions, mergeByExpert bs = .ok (some m) ∧
      (cat l bs).metadata.sortByExpert = .ok (positions, m.metadata) ∧
      m.rows.length = (bs.flatMap rows).length ∧
      positions.Perm (List.range (bs.flatMap rows).length) ∧
      (∀ i p : ℕ, positions[i]? = some p → m.rows[p]? = (bs.flatMap rows)[i]?) ∧
      ∀ i j p q : ℕ, positions[i]? = some p → positions[j]? = some q →
        (p < q ↔ (bs.flatMap (·.metadata.expIds)).getD i 0 <
            (bs.flatMap (·.metadata.expIds)).getD j 0 ∨
          (bs.flatMap (·.metadata.expIds)).getD i 0 =
            (bs.flatMap (·.metadata.expIds)).getD j 0 ∧ i < j) := by
  match bs, htwo with
  | b :: c :: bs, _ =>
    have hcat := full_cat l hfull
    have hperm := expertPositions_perm l hfull hexp
    have hrows := rows_cat_of_full l hfull
    have hnum : ((b :: c :: bs).flatMap rows).length =
        (cat l (b :: c :: bs)).metadata.numTokens := by rw [← hrows, length_rows]
    have hkeys : ∀ e ∈ (b :: c :: bs).flatMap (·.metadata.expIds), e < maxNumExperts := by
      intro e he
      obtain ⟨x, hx, he⟩ := List.mem_flatMap.mp he
      exact hexp x hx e he
    refine ⟨_, expertPositions (b :: c :: bs), mergeByExpert_eq hfull (hl b (by simp)) hexp, ?_,
      ?_, ?_, ?_, ?_⟩
    · exact BatchMetadata.sortByExpert_eq hcat.toAligned hcat.expIds_length hkeys
    · rw [length_rows, hnum]
      rfl
    · rw [hnum]
      exact hperm
    · intro i p hp
      have hinv := Scatter.getElem?_invPos_of_pos hperm hp
      have hi : i < (cat l (b :: c :: bs)).metadata.numTokens := by
        rw [← Scatter.pos_length hperm]
        exact (List.getElem?_eq_some_iff.mp hp).1
      rw [rows_permute hcat.toWf hperm, List.getElem?_map, hinv, ← hrows, getElem?_rows hi]
      rfl
    · intro i j p q hp hq
      have hi := (List.getElem?_eq_some_iff.mp hp).1
      have hj := (List.getElem?_eq_some_iff.mp hq).1
      rw [expertPositions, CountingSort.length_positions] at hi hj
      rw [expertPositions, CountingSort.getElem?_positions hkeys hi] at hp
      rw [expertPositions, CountingSort.getElem?_positions hkeys hj] at hq
      rw [← Option.some.inj hp, ← Option.some.inj hq]
      exact CountingSort.stableSlot_lt_iff hi hj

/-- **The expert column of merged batches** does not decrease when it does not in any of them; one
batch alone is passed on as it is. -/
theorem merge_expIds_sorted {l : ℕ} {bs : List (TokenBatch W V)} {m : TokenBatch W V}
    (hfull : ∀ b ∈ bs, b.Full) (htag : ∀ b ∈ bs, b.metadata.batchTag = .expert)
    (hl : ∀ b ∈ bs, b.metadata.layerId = l)
    (hexp : ∀ b ∈ bs, ∀ e ∈ b.metadata.expIds, e < maxNumExperts)
    (hsorted : ∀ b ∈ bs, b.metadata.expIds.Pairwise (· ≤ ·))
    (hmerge : merge bs = .ok (some m)) : m.metadata.expIds.Pairwise (· ≤ ·) := by
  match bs, hmerge with
  | [], hmerge => cases hmerge
  | [b], hmerge =>
    obtain rfl := Option.some.inj (Except.ok.inj hmerge)
    exact hsorted b (by simp)
  | b :: c :: bs, hmerge =>
    have hcat := full_cat l hfull
    have hkeys : ∀ e ∈ (cat l (b :: c :: bs)).metadata.expIds, e < maxNumExperts := by
      intro e he
      obtain ⟨x, hx, he⟩ := List.mem_flatMap.mp he
      exact hexp x hx e he
    rw [merge, if_pos (by simp [BatchMetadata.isExpert, htag b (by simp)]),
      mergeByExpert_eq hfull (hl b (by simp)) hexp] at hmerge
    · obtain rfl := Option.some.inj (Except.ok.inj hmerge)
      exact BatchMetadata.expIds_sorted hcat.expIds_length hkeys
    · simp

/-- One token for each of the given experts, for requests `r, r + 1, …`. -/
def forExperts (r : ℕ) (experts : List ℕ) : TokenBatch ℕ ℕ where
  data := List.range' (10 * r) experts.length
  metadata :=
    { batchTag := .expert
      numTokens := experts.length
      tokenHiddenDim := 1
      layerId := 0
      reqIds := List.range' r experts.length
      expIds := experts
      topkWeights := experts.map fun _ => 1
      attnDpRanks := experts.map fun _ => 0
      initPrefillLens := experts.map fun _ => -1 }

omit [Inhabited W] [TensorRow V] in
theorem full_forExperts (r : ℕ) (experts : List ℕ) : (forExperts r experts).Full where
  reqIds := List.length_range'
  initPrefillLens := List.length_map _
  expIds := .of_length rfl
  topkWeights := .of_length (List.length_map _)
  attnDpRanks := .of_length (List.length_map _)
  data := List.length_range'
  hiddenDim := rfl
  expIds_length := rfl
  topkWeights_length := List.length_map _
  attnDpRanks_length := List.length_map _

theorem mergeByExpert_stable_unsorted : ∃ m positions,
    mergeByExpert [forExperts 0 [2, 0], forExperts 5 [2, 0, 1]] = .ok (some m) ∧
      (cat 0 [forExperts 0 [2, 0], forExperts 5 [2, 0, 1]]).metadata.sortByExpert =
        .ok (positions, m.metadata) ∧
      m.metadata.reqIds = [1, 6, 7, 0, 5] := by
  obtain ⟨m, positions, hmerge, hsort, -⟩ := @mergeByExpert_stable ℕ ℕ _ _ 0
    [forExperts 0 [2, 0], forExperts 5 [2, 0, 1]] (by decide) (by simp [full_forExperts])
    (by decide) (by decide)
  have hmeta : (cat 0 [forExperts 0 [2, 0], forExperts 5 [2, 0, 1]]).metadata.sortByExpert.map
      (·.2.reqIds) = .ok [1, 6, 7, 0, 5] := by decide
  rw [hsort] at hmeta
  exact ⟨m, positions, hmerge, hsort, Except.ok.inj hmeta⟩

/-- The batch before its weights are known. -/
def weightless (b : TokenBatch ℕ ℕ) : TokenBatch ℕ ℕ :=
  { b with metadata := { b.metadata with topkWeights := [] } }

theorem wf_weightless {b : TokenBatch ℕ ℕ} (h : b.Wf) : (weightless b).Wf :=
  { h with topkWeights := column_nil _ }

/-- Two batches without weights. The merge fills the column with zeros, and `sort_by_expert` leaves
it empty, so that the metadata of the merge is not what sorting makes of the concatenation. -/
theorem mergeByExpert_weightless :
    (∀ b ∈ [weightless (forExperts 0 [1]), weightless (forExperts 5 [0])],
      b.Wf ∧ b.metadata.batchTag = .expert ∧ b.metadata.layerId = 0) ∧
    (mergeByExpert [weightless (forExperts 0 [1]), weightless (forExperts 5 [0])]).map
        (·.map (·.metadata.topkWeights)) = .ok (some [0, 0]) ∧
    ¬ ∃ m positions,
      mergeByExpert [weightless (forExperts 0 [1]), weightless (forExperts 5 [0])] =
        .ok (some m) ∧
      (cat 0 [weightless (forExperts 0 [1]), weightless (forExperts 5 [0])]).metadata.sortByExpert =
        .ok (positions, m.metadata) := by
  have hmerge : (mergeByExpert [weightless (forExperts 0 [1]), weightless (forExperts 5 [0])]).map
      (·.map (·.metadata.topkWeights)) = .ok (some [0, 0]) := by decide
  have hsort : (cat 0 [weightless (forExperts 0 [1]),
      weightless (forExperts 5 [0])]).metadata.sortByExpert.map (·.2.topkWeights) = .ok [] := by
    decide
  refine ⟨fun b hb => ?_, hmerge, ?_⟩
  · rcases List.mem_pair.mp hb with rfl | rfl
    · exact ⟨wf_weightless (full_forExperts 0 [1]).toWf, rfl, rfl⟩
    · exact ⟨wf_weightless (full_forExperts 5 [0]).toWf, rfl, rfl⟩
  · rintro ⟨m, positions, hm, hpos⟩
    rw [hm] at hmerge
    rw [hpos] at hsort
    have hfilled := Option.some.inj (Except.ok.inj hmerge)
    rw [Except.ok.inj hsort] at hfilled
    cases hfilled

end TokenBatch

/-! ### `sort_by_attention` -/

namespace BatchMetadata

/-- The key `sort_by_attention` compares: rank, then decoding or not, then the id of a new
request. -/
def attentionKey (m : BatchMetadata W) (i : ℕ) : ℕ ×ₗ ℕ ×ₗ ℕ :=
  toLex (m.attnDpRanks.getD i 0,
    if m.initPrefillLens.getD i 0 = -1 then toLex (1, 0) else toLex (0, m.reqIds.getD i 0))

theorem attentionLess_iff {m : BatchMetadata W} {i j : ℕ}
    (hi : -1 ≤ m.initPrefillLens.getD i 0) (hj : -1 ≤ m.initPrefillLens.getD j 0) :
    m.attentionLess i j ↔ m.attentionKey i < m.attentionKey j := by
  rw [attentionLess, attentionKey, attentionKey, Prod.Lex.toLex_lt_toLex]
  generalize m.attnDpRanks.getD i 0 = ri, m.attnDpRanks.getD j 0 = rj at *
  generalize m.initPrefillLens.getD i 0 = pi, m.initPrefillLens.getD j 0 = pj at *
  generalize m.reqIds.getD i 0 = qi, m.reqIds.getD j 0 = qj at *
  by_cases hrank : ri = rj
  · subst hrank
    by_cases h1 : pi = -1
    · by_cases h2 : pj = -1
      · simp [h1, h2]
      · simp [h1, h2, Prod.Lex.toLex_lt_toLex]; omega
    · by_cases h2 : pj = -1
      · simp [h1, h2, Prod.Lex.toLex_lt_toLex]; omega
      · simp [h1, h2, Prod.Lex.toLex_lt_toLex]
  · simp [hrank]

theorem strictWeakOn_attentionLess {m : BatchMetadata W} (hm : m.Aligned)
    (hlen : ∀ x ∈ m.initPrefillLens, -1 ≤ x) :
    StrictWeakOn m.attentionLess (List.range m.reqIds.length) := by
  have hge : ∀ i ∈ List.range m.reqIds.length, -1 ≤ m.initPrefillLens.getD i 0 := by
    intro i hi
    have hi' : i < m.initPrefillLens.length := by
      rw [hm.initPrefillLens, ← hm.reqIds]
      exact List.mem_range.mp hi
    rw [List.getD_eq_getElem _ _ hi']
    exact hlen _ (List.getElem_mem hi')
  exact strictWeakOn_of_key m.attentionKey fun i hi j hj =>
    attentionLess_iff (hge i hi) (hge j hj)

/-- The indices in the order of `sort_by_attention`. -/
def attentionRank (S : StdSort) (m : BatchMetadata W) : List ℕ :=
  S.sort m.attentionLess (List.range m.reqIds.length)

/-- The positions of `sort_by_attention`. -/
def attentionOrder (S : StdSort) (m : BatchMetadata W) : List ℕ :=
  Scatter.invPos m.numTokens (m.attentionRank S)

theorem attentionRank_perm (S : StdSort) {m : BatchMetadata W} (hm : m.Aligned)
    (hlen : ∀ x ∈ m.initPrefillLens, -1 ≤ x) :
    (m.attentionRank S).Perm (List.range m.numTokens) :=
  hm.reqIds ▸ S.perm (strictWeakOn_attentionLess hm hlen)

theorem attentionOrder_perm (S : StdSort) {m : BatchMetadata W} (hm : m.Aligned)
    (hlen : ∀ x ∈ m.initPrefillLens, -1 ≤ x) :
    (m.attentionOrder S).Perm (List.range m.numTokens) :=
  Scatter.invPos_perm (attentionRank_perm S hm hlen)

theorem sortByAttention_eq [Inhabited W] (S : StdSort) {m : BatchMetadata W} (hm : m.Aligned)
    (hlen : ∀ x ∈ m.initPrefillLens, -1 ≤ x) :
    m.sortByAttention S = .ok (m.attentionOrder S, m.permuteColumns (m.attentionOrder S)) := by
  have hperm := permuteTokenInfos_eq hm (attentionOrder_perm S hm hlen)
  rw [attentionOrder, attentionRank, ← hm.reqIds] at hperm ⊢
  rw [sortByAttention, hperm]
  rfl

end BatchMetadata

/-- Grouped by rank, and new requests first within a rank. -/
def AttnOrdered (rows : List (Row W V)) : Prop :=
  rows.Pairwise fun a b => a.attnDpRank.getD 0 ≤ b.attnDpRank.getD 0 ∧
    (a.attnDpRank = b.attnDpRank → a.initPrefillLen = -1 → b.initPrefillLen = -1)

namespace TokenBatch

variable [TensorRow V]

theorem rows_permute_attentionOrder [Inhabited W] (S : StdSort) {b : TokenBatch W V} (hb : b.Wf)
    (hlen : ∀ x ∈ b.metadata.initPrefillLens, -1 ≤ x) :
    (b.permute (b.metadata.attentionOrder S)).rows =
      (b.metadata.attentionRank S).map b.rowAt := by
  rw [rows_permute hb (BatchMetadata.attentionOrder_perm S hb.toAligned hlen),
    BatchMetadata.attentionOrder,
    Scatter.invPos_invPos (BatchMetadata.attentionRank_perm S hb.toAligned hlen)]

/-- **After `sort_by_attention`** the rows are grouped by rank with new requests first. -/
theorem attnOrdered_permute [Inhabited W] (S : StdSort) {b : TokenBatch W V} (hb : b.Wf)
    (hrank : b.metadata.attnDpRanks.length = b.metadata.numTokens)
    (hlen : ∀ x ∈ b.metadata.initPrefillLens, -1 ≤ x) :
    AttnOrdered (b.permute (b.metadata.attentionOrder S)).rows := by
  rw [rows_permute_attentionOrder S hb hlen]
  have hsorted := S.sorted (BatchMetadata.strictWeakOn_attentionLess hb.toAligned hlen)
  have hmem := BatchMetadata.attentionRank_perm S hb.toAligned hlen
  refine List.pairwise_map.mpr (hsorted.imp_of_mem fun {i j} hi hj hle => ?_)
  have hi' : i < b.metadata.numTokens := List.mem_range.mp (hmem.mem_iff.mp hi)
  have hj' : j < b.metadata.numTokens := List.mem_range.mp (hmem.mem_iff.mp hj)
  have hri := List.getElem?_eq_getElem (hrank ▸ hi' : i < b.metadata.attnDpRanks.length)
  have hrj := List.getElem?_eq_getElem (hrank ▸ hj' : j < b.metadata.attnDpRanks.length)
  have hpj := hlen _ (List.getElem_mem (hb.initPrefillLens ▸ hj' :
    j < b.metadata.initPrefillLens.length))
  have hpj' := List.getElem?_eq_getElem (hb.initPrefillLens ▸ hj' :
    j < b.metadata.initPrefillLens.length)
  simp only [rowAt, hri, hrj, hpj', Option.getD_some, Option.some.injEq]
  simp only [BatchMetadata.attentionLess, List.getD_eq_getElem?_getD, hri, hrj, hpj',
    Option.getD_some, Bool.not_eq_true] at hle
  by_cases hr : b.metadata.attnDpRanks[j] = b.metadata.attnDpRanks[i]
  · refine ⟨hr.ge, fun _ hp => ?_⟩
    rw [if_neg (not_not.mpr hr), if_pos (Or.inr hp)] at hle
    have hle' := of_decide_eq_false hle
    omega
  · rw [if_pos hr] at hle
    exact ⟨Nat.le_of_not_lt (of_decide_eq_false hle), fun h => absurd h.symm hr⟩

/-! ### `index_select` -/

omit [TensorRow V] in
theorem getElem?_indexSelectVector {α : Type} [Inhabited α] {n : ℕ} {l : List α}
    (hl : Column n l) {indices : List ℕ} {i j : ℕ} (hi : i < n) (hj : indices[j]? = some i) :
    (indexSelectVector l indices)[j]? = l[i]? := by
  rcases hl with rfl | hl
  · rfl
  · subst hl
    rw [indexSelectVector, if_neg (by simpa using List.ne_nil_of_length_pos (Nat.zero_lt_of_lt hi)),
      List.getElem?_map, hj, List.getElem?_eq_getElem hi]
    simp [hi]

end TokenBatch

end StreamEP

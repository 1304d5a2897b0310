import StreamEP.Engine.Forward

/-!
# The weights of an expert batch, staged in two ways

`execute_batch_expert` multiplies every expert output by its gate weight in the kernel
`apply_weights_and_permute_tokens`, which reads weights and rows by the index of the input row.
With GDR staging the weights are the ones read before `sort_by_attention`. Without it they are
read from the metadata again, and `sort_by_attention` has permuted them there: place `i` then
holds the weight of the row that was sorted to place `i`.

## What the two paths have in common

Both stage some list of weights, and what leaves the engine depends on the path through that list
only. The development is therefore about `stagedWeights`. A particular kernel may hide a wrong
weight, for example when all expert outputs are zero. The condition under which the paths agree is
about the batch and not about the outputs, so it is stated for all kernels at once.

## Main results

* `executeBatchExpert_eq` — either path scales by its staged weights, sorts and strips
* `stagingIndependent_iff` — the paths agree under all kernels exactly when sorting leaves the
  weights where they are
-/

namespace StreamEP

variable {W V : Type} [Inhabited W] [TensorRow V]

/-- The weights the kernel is given: as they were before sorting, or as sorting left them. -/
def stagedWeights (S : StdSort) (useGdrcopyOptimization : Bool) (m : BatchMetadata W) : List W :=
  if useGdrcopyOptimization then m.topkWeights
  else permuteVector m.topkWeights (m.attentionOrder S)

/-- The batch with its expert outputs times the weights `ws`, before its rows are moved. -/
def weightedBy (K : Kernels W V) (ws : List W) (b : TokenBatch W V) : TokenBatch W V :=
  { b with
    data := List.zipWith K.scale ws
      (List.zipWith (K.expert b.metadata.layerId) b.metadata.expIds b.data) }

def TokenBatch.weightAt (b : TokenBatch W V) (i : ℕ) : W := (b.rowAt i).topkWeight.getD default

/-- What the expert of row `i` makes of it. -/
def Kernels.outputAt (K : Kernels W V) (b : TokenBatch W V) (i : ℕ) : V :=
  K.expert b.metadata.layerId ((b.rowAt i).expId.getD 0) (b.rowAt i).data

/-- With either staging, row `p` of the result is the row that sorting puts at place `p`, with
its expert output times its own weight. -/
def StagingIndependent (S : StdSort) (K : Kernels W V) (b : TokenBatch W V) : Prop :=
  ∀ useGdrcopyOptimization, ∃ b',
    executeBatchExpert S K useGdrcopyOptimization b = .ok b' ∧
    b'.rows = (b.metadata.attentionRank S).map fun i =>
      (b.rowAt i).answer K b.metadata.layerId

variable {S : StdSort} {K : Kernels W V} {b : TokenBatch W V} {ws : List W}

theorem length_stagedWeights (hb : b.Full) (gdr : Bool) :
    (stagedWeights S gdr b.metadata).length = b.metadata.numTokens := by
  cases gdr with
  | true => exact hb.topkWeights_length
  | false => exact (length_permuteVector _ _).trans hb.topkWeights_length

omit [Inhabited W] in
theorem wf_weightedBy (hb : b.Full) (hws : ws.length = b.metadata.numTokens) :
    (weightedBy K ws b).Wf := by
  refine ⟨hb.toAligned, ?_, hb.hiddenDim⟩
  simp [weightedBy, hws, hb.expIds_length, hb.data]

theorem executeBatchExpert_eq (hb : b.Full) (hlens : ∀ x ∈ b.metadata.initPrefillLens, -1 ≤ x)
    (gdr : Bool) : executeBatchExpert S K gdr b =
      .ok (stripped ((weightedBy K (stagedWeights S gdr b.metadata) b).permute
        (b.metadata.attentionOrder S))) := by
  have hlen : (List.zipWith (K.expert b.metadata.layerId) b.metadata.expIds b.data).length =
      b.metadata.numTokens := by simp [hb.expIds_length, hb.data]
  rw [executeBatchExpert, BatchMetadata.sortByAttention_eq S hb.toAligned hlens, ok_bind]
  simp only [applyWeightsAndPermuteTokens, hlen]
  rfl

/-- A row before sorting: its expert output times the weight at its place. -/
theorem rowAt_weightedBy (hb : b.Full) (hws : ws.length = b.metadata.numTokens)
    {i : ℕ} (hi : i < b.metadata.numTokens) :
    (weightedBy K ws b).rowAt i =
      { b.rowAt i with data := K.scale (ws[i]?.getD default) (K.outputAt b i) } := by
  have hw := List.getElem?_eq_getElem (hws ▸ hi : i < ws.length)
  have he := List.getElem?_eq_getElem (hb.expIds_length ▸ hi : i < b.metadata.expIds.length)
  have hd := List.getElem?_eq_getElem (hb.data ▸ hi : i < b.data.length)
  simp [TokenBatch.rowAt, weightedBy, Kernels.outputAt, List.getElem?_zipWith, hw, he, hd]

theorem rows_executeBatchExpert (hb : b.Full)
    (hlens : ∀ x ∈ b.metadata.initPrefillLens, -1 ≤ x) (gdr : Bool) :
    (stripped ((weightedBy K (stagedWeights S gdr b.metadata) b).permute
      (b.metadata.attentionOrder S))).rows =
      (b.metadata.attentionRank S).map fun i =>
        { b.rowAt i with
          expId := none
          topkWeight := none
          data := K.scale ((stagedWeights S gdr b.metadata)[i]?.getD default)
            (K.outputAt b i) } := by
  have hws : (stagedWeights S gdr b.metadata).length = b.metadata.numTokens :=
    length_stagedWeights hb gdr
  have hrank := BatchMetadata.attentionRank_perm S hb.toAligned hlens
  have hrows := TokenBatch.rows_permute_attentionOrder S (wf_weightedBy (K := K) hb hws) hlens
  rw [rows_stripped, show (weightedBy K (stagedWeights S gdr b.metadata) b).metadata =
    b.metadata from rfl] at *
  rw [hrows, List.map_map]
  refine List.map_congr_left fun i hi => ?_
  rw [Function.comp_apply, rowAt_weightedBy hb hws (List.mem_range.mp (hrank.mem_iff.mp hi))]

/-- Under one kernel the paths agree when the staged weight of every row scales its expert output
as its own weight does. -/
theorem stagingIndependent_iff_scale (hb : b.Full)
    (hlens : ∀ x ∈ b.metadata.initPrefillLens, -1 ≤ x) :
    StagingIndependent S K b ↔ ∀ i < b.metadata.numTokens,
      K.scale ((stagedWeights S false b.metadata)[i]?.getD default) (K.outputAt b i) =
        K.scale (b.weightAt i) (K.outputAt b i) := by
  have hrank := BatchMetadata.attentionRank_perm S hb.toAligned hlens
  have hmem : ∀ i, i ∈ b.metadata.attentionRank S ↔ i < b.metadata.numTokens := fun i => by
    rw [hrank.mem_iff, List.mem_range]
  constructor
  · intro h i hi
    obtain ⟨b', hexec, hrows⟩ := h false
    rw [executeBatchExpert_eq hb hlens] at hexec
    rw [← Except.ok.inj hexec, rows_executeBatchExpert hb hlens, List.map_inj_left] at hrows
    exact congrArg Row.data (hrows i ((hmem i).mpr hi))
  · intro h gdr
    refine ⟨_, executeBatchExpert_eq hb hlens gdr, ?_⟩
    rw [rows_executeBatchExpert hb hlens]
    refine List.map_congr_left fun i hi => ?_
    have hscale : K.scale ((stagedWeights S gdr b.metadata)[i]?.getD default) (K.outputAt b i) =
        K.scale (b.weightAt i) (K.outputAt b i) := by
      cases gdr with
      | true => rfl
      | false => exact h i ((hmem i).mp hi)
    rw [hscale]
    rfl

omit [Inhabited W] [TensorRow V] in
theorem eq_of_forall_scale [Nontrivial V] {w w' : W} (v : V)
    (h : ∀ K : Kernels W V, K.scale w v = K.scale w' v) : w = w' := by
  classical
  obtain ⟨v₀, v₁, hne⟩ := exists_pair_ne V
  by_contra hw
  have heq := h ⟨fun _ _ v => v, fun x _ => if x = w then v₀ else v₁, fun _ => v₀, w⟩
  exact hne (by simpa [Ne.symm hw] using heq)

/-- **The two stagings agree** under all kernels exactly when `sort_by_attention` leaves the column
`topk_weights` of the batch as it is. -/
theorem stagingIndependent_iff [Nontrivial V] (S : StdSort) (hb : b.Full)
    (hlens : ∀ x ∈ b.metadata.initPrefillLens, -1 ≤ x) :
    (∀ K : Kernels W V, StagingIndependent S K b) ↔
      ∃ positions m, b.metadata.sortByAttention S = .ok (positions, m) ∧
        m.topkWeights = b.metadata.topkWeights := by
  have hsorted : (∃ positions m, b.metadata.sortByAttention S = .ok (positions, m) ∧
      m.topkWeights = b.metadata.topkWeights) ↔
        stagedWeights S false b.metadata = b.metadata.topkWeights := by
    rw [BatchMetadata.sortByAttention_eq S hb.toAligned hlens]
    constructor
    · rintro ⟨positions, m, heq, hweights⟩
      obtain ⟨-, rfl⟩ := Prod.mk.inj (Except.ok.inj heq)
      exact hweights
    · exact fun hweights => ⟨_, _, rfl, hweights⟩
  have hlen := length_stagedWeights (S := S) hb false
  rw [hsorted]
  constructor
  · intro h
    refine List.ext_getElem? fun i => ?_
    rcases lt_or_ge i b.metadata.numTokens with hi | hi
    · -- the expert of the kernel is the identity, so that its output is the same for all kernels
      have hstaged := List.getElem?_eq_getElem (hlen ▸ hi)
      have hown := List.getElem?_eq_getElem (hb.topkWeights_length ▸ hi)
      have heq := eq_of_forall_scale (b.rowAt i).data fun K => (stagingIndependent_iff_scale
        (K := { K with expert := fun _ _ v => v }) hb hlens).mp (h _) i hi
      rw [hstaged, hown, Option.some_inj]
      simpa [hstaged, hown, TokenBatch.weightAt, TokenBatch.rowAt] using heq
    · rw [List.getElem?_eq_none (hlen ▸ hi), List.getElem?_eq_none (hb.topkWeights_length ▸ hi)]
  · intro hweights K
    refine (stagingIndependent_iff_scale hb hlens).mpr fun i _ => ?_
    rw [hweights]
    rfl

/-- Experts that pass rows on, and products for the weighted outputs. -/
def productKernels : Kernels ℕ ℕ := ⟨fun _ _ v => v, (· * ·), List.sum, 1⟩

/-- Four replies of which sorting moves three, and these have the same weight. -/
def evenReplies : TokenBatch ℕ ℕ :=
  { fourReplies with metadata := { fourReplies.metadata with topkWeights := [2, 2, 5, 2] } }

theorem stagingIndependent_evenReplies :
    StagingIndependent .stable productKernels evenReplies := by
  refine (stagingIndependent_iff .stable
    ⟨⟨⟨rfl, rfl, .of_length rfl, .of_length rfl, .of_length rfl⟩, rfl, rfl⟩, rfl, rfl, rfl⟩
    (by decide)).mpr ?_ productKernels
  have hsort : (evenReplies.metadata.sortByAttention .stable).map (·.2.topkWeights) =
      .ok [2, 2, 5, 2] := by decide +kernel
  cases h : evenReplies.metadata.sortByAttention .stable with
  | error message => rw [h] at hsort; cases hsort
  | ok result =>
    rw [h] at hsort
    exact ⟨result.1, result.2, rfl, Except.ok.inj hsort⟩

/-- The replies `20, 40, 30, 10` have the weights `3, 7, 5, 2`; without GDR staging they are
multiplied by `7, 2, 5, 3`. -/
theorem fourReplies_staging :
    (executeBatchExpert .stable productKernels true fourReplies).map (·.data) =
        .ok [60, 280, 150, 20] ∧
      (executeBatchExpert .stable productKernels false fourReplies).map (·.data) =
        .ok [140, 80, 150, 30] := by
  constructor
  · decide +kernel
  · decide +kernel

end StreamEP

import StreamEP.Engine.CudaGraph

/-!
# The CUDA graphs of the experts

`CUDAGraphExpertsExecutor` of `disagmoe/executor/cuda_graph.py` captures graphs for batch sizes that
double from 128 on, and stages a batch in the first rows of static buffers. The buffers have
`max_batch_size_expert` rows; the last graph has the first size that is not smaller, which is larger
unless the sizes hit that number. The captured slices are then shorter than their graph, and the
padding kernel (`csrc/cuda_ops/indices_copy_pad.cu`) writes behind the buffers.

Accesses are listed, and whether they are inside is a predicate. Offsets are natural numbers: that
`row * hidden_size` fits an `int` is not followed.

## Main results

* `CUDAGraphExpertsExecutor.forall_doubleSizes_le_iff` — the sizes end at the maximum if they hit it
* `CUDAGraphExpertsExecutor.bucketsFit_iff`
-/

namespace StreamEP

open Kernel

/-! ### The padding kernel

A copy is a destination and, unless a constant is written, the source entry. -/

/-- What a thread of the last block copies below a bound; other blocks do not. -/
def lastBlockThread (ctas bound : ℕ) (source : ℕ → Option ℕ) (block tid : ℕ) :
    List (ℕ × Option ℕ) :=
  if block = ctas then (strided tid numThreads bound).map fun i => (i, source i) else []

/-- The copies of `copy_and_pad_kernel` to `out_batch_sizes`. -/
def batchSizesCopies (tokensPerBlock numTokens numExperts : ℕ) : List (ℕ × Option ℕ) :=
  fusedLaunch tokensPerBlock numTokens
    (lastBlockThread (tokenCtas tokensPerBlock numTokens) numExperts some)

/-- The copies of `copy_and_pad_kernel` to `out_m_indices`. -/
def mIndicesCopies (tokensPerBlock numTokens paddedBsz : ℕ) : List (ℕ × Option ℕ) :=
  fusedLaunch tokensPerBlock numTokens
    (lastBlockThread (tokenCtas tokensPerBlock numTokens) paddedBsz
      fun i => if i < numTokens then some i else none)

/-- What a thread of another block copies to `out_hiddens`. -/
def hiddensThread (tokensPerBlock numTokens hiddenSize block tid : ℕ) : List (ℕ × Option ℕ) :=
  if block = tokenCtas tokensPerBlock numTokens then []
  else (blockTokens tokensPerBlock numTokens block).flatMap fun row =>
    let vecEnd := hiddenSize / vecSizeHidden * vecSizeHidden
    (strided (tid * vecSizeHidden) (numThreads * vecSizeHidden) vecEnd).flatMap fun i =>
      (List.range vecSizeHidden).map fun j =>
        let offset := row * hiddenSize + (i / vecSizeHidden * vecSizeHidden + j)
        (offset, some offset)

/-- The copies of `copy_and_pad_kernel` to `out_hiddens`. -/
def hiddensCopies (tokensPerBlock numTokens hiddenSize : ℕ) : List (ℕ × Option ℕ) :=
  fusedLaunch tokensPerBlock numTokens (hiddensThread tokensPerBlock numTokens hiddenSize)

/-- Copies between tensors of these lengths stay inside. -/
def InBounds (outLength inLength : ℕ) (copies : List (ℕ × Option ℕ)) : Prop :=
  ∀ x ∈ copies, x.1 < outLength ∧ ∀ i ∈ x.2, i < inLength

section Copies

variable {tokensPerBlock T : ℕ}

theorem mem_lastBlock {bound : ℕ} {source : ℕ → Option ℕ} {x : ℕ × Option ℕ} :
    x ∈ fusedLaunch tokensPerBlock T (lastBlockThread (tokenCtas tokensPerBlock T) bound source) ↔
      x.1 < bound ∧ x.2 = source x.1 := by
  constructor
  · intro hx
    obtain ⟨block, -, tid, -, hx⟩ := mem_launch.mp hx
    rw [lastBlockThread] at hx
    split_ifs at hx
    · obtain ⟨i, hi, rfl⟩ := List.mem_map.mp hx
      exact ⟨(lt_of_mem_stridedFrom hi).2, rfl⟩
    · cases hx
  · rintro ⟨hlt, hsource⟩
    obtain ⟨tid, htid, hmem⟩ : ∃ tid < numThreads, x.1 ∈ strided (tid * 1) (numThreads * 1) bound :=
      exists_thread (by decide) Nat.one_pos hlt (one_dvd x.1)
    rw [Nat.mul_one, Nat.mul_one] at hmem
    refine mem_launch.mpr ⟨tokenCtas tokensPerBlock T, Nat.lt_add_of_pos_left Nat.one_pos, tid,
      htid, ?_⟩
    rw [lastBlockThread, if_pos rfl]
    exact List.mem_map.mpr ⟨x.1, hmem, by rw [← hsource]⟩

theorem inBounds_batchSizesCopies {numExperts outLength inLength : ℕ}
    (hout : numExperts ≤ outLength) (hin : numExperts ≤ inLength) :
    InBounds outLength inLength (batchSizesCopies tokensPerBlock T numExperts) := by
  intro x hx
  obtain ⟨hlt, hsource⟩ := mem_lastBlock.mp hx
  refine ⟨hlt.trans_le hout, fun i hi => ?_⟩
  rw [hsource, Option.mem_some_iff] at hi
  exact hi ▸ hlt.trans_le hin

theorem inBounds_mIndicesCopies_iff {padded outLength inLength : ℕ} :
    InBounds outLength inLength (mIndicesCopies tokensPerBlock T padded) ↔
      padded ≤ outLength ∧ min T padded ≤ inLength := by
  constructor
  · intro h
    constructor
    · by_contra hgt
      have hwrite := (h (outLength, if outLength < T then some outLength else none)
        (mem_lastBlock.mpr ⟨not_le.mp hgt, rfl⟩)).1
      exact absurd hwrite (lt_irrefl _)
    · by_contra hgt
      obtain ⟨hT, hpadded⟩ := lt_min_iff.mp (not_le.mp hgt)
      have hread := (h (inLength, some inLength) (mem_lastBlock.mpr ⟨hpadded, (if_pos hT).symm⟩)).2
      exact absurd (hread inLength rfl) (lt_irrefl _)
  · rintro ⟨hout, hin⟩ x hx
    obtain ⟨hlt, hsource⟩ := mem_lastBlock.mp hx
    refine ⟨hlt.trans_le hout, fun i hi => ?_⟩
    rw [hsource] at hi
    split_ifs at hi with hT
    · rw [Option.mem_some_iff] at hi
      exact hi ▸ (lt_min hT hlt).trans_le hin
    · cases hi

theorem inBounds_hiddensCopies {H rows : ℕ} (hT : T ≤ rows) :
    InBounds (rows * H) (T * H) (hiddensCopies tokensPerBlock T H) := by
  intro x hx
  obtain ⟨block, -, tid, -, hx⟩ := mem_launch.mp hx
  rw [hiddensThread] at hx
  split_ifs at hx
  · cases hx
  · obtain ⟨row, hrow, hx⟩ := List.mem_flatMap.mp hx
    obtain ⟨i, hi, hx⟩ := List.mem_flatMap.mp hx
    obtain ⟨j, hj, rfl⟩ := List.mem_map.mp hx
    -- a vector that starts before the last whole one ends there
    have hvec : i / vecSizeHidden < H / vecSizeHidden :=
      Nat.div_lt_of_lt_mul (Nat.mul_comm _ vecSizeHidden ▸ (lt_of_mem_stridedFrom hi).2)
    have hentry : i / vecSizeHidden * vecSizeHidden + j < H := by
      calc i / vecSizeHidden * vecSizeHidden + j
          < i / vecSizeHidden * vecSizeHidden + vecSizeHidden :=
            Nat.add_lt_add_left (List.mem_range.mp hj) _
        _ = (i / vecSizeHidden + 1) * vecSizeHidden := (Nat.succ_mul _ _).symm
        _ ≤ H / vecSizeHidden * vecSizeHidden := Nat.mul_le_mul_right _ hvec
        _ ≤ H := Nat.div_mul_le_self H vecSizeHidden
    have hoffset : row * H + (i / vecSizeHidden * vecSizeHidden + j) < T * H := by
      have hnext : (row + 1) * H ≤ T * H :=
        Nat.mul_le_mul_right H (lt_of_mem_stridedFrom hrow).2
      rw [Nat.succ_mul] at hnext
      omega
    refine ⟨hoffset.trans_le (Nat.mul_le_mul_right H hT), fun k hk => ?_⟩
    rw [Option.mem_some_iff] at hk
    exact hk ▸ hoffset

end Copies

/-! ### The executor -/

/-- `CUDAGraphExpertsExecutor` with its buffers, and the parts of the configurations that it
reads. -/
structure CUDAGraphExpertsExecutor where
  /-- `max_batch_size_expert`, the number of rows of the static inputs -/
  maxBatchSize : ℕ
  hiddenSize : ℕ
  localNumExperts : ℕ
  /-- Whether `expert_cls` is one of the CUTLASS classes. -/
  cutlass : Bool
  /-- `with_bias` of the operators -/
  withBias : Bool
  graphBatchSizes : List ℕ

/-- The shapes of a batch: `hidden_states.shape[0]`, and the lengths of `batch_sizes` and of
`m_indices`. -/
structure ExpertInputs where
  numTokens : ℕ
  numBatchSizes : ℕ
  numMIndices : ℕ

/-- The shapes of `make_expert_dummy_inputs`. -/
def makeExpertDummyInputs (batchSize numExpertsPerRank : ℕ) : ExpertInputs where
  numTokens := batchSize
  numBatchSizes := numExpertsPerRank
  numMIndices := numExpertsPerRank * (batchSize / numExpertsPerRank)

namespace CUDAGraphExpertsExecutor

/-- The loop of `get_graph_batch_sizes` and the size behind it. -/
def doubleSizes (graphMaxBatchSize bsz : ℕ) (hbsz : 0 < bsz) : List ℕ :=
  if bsz < graphMaxBatchSize then
    bsz :: doubleSizes graphMaxBatchSize (bsz * 2) (Nat.mul_pos hbsz Nat.two_pos)
  else [bsz]
termination_by graphMaxBatchSize - bsz

def getGraphBatchSizes (graphMaxBatchSize : ℕ) : Except String (List ℕ) := do
  ensure (graphMaxBatchSize > 0) "graph_max_batch_size > 0"
  if graphMaxBatchSize ≤ 128 then
    return [graphMaxBatchSize]
  return doubleSizes graphMaxBatchSize 128 (by decide)

/-- `__init__` and `create_cuda_graph_buffers` -/
def createCudaGraphBuffers (maxBatchSize hiddenSize localNumExperts : ℕ) (cutlass withBias : Bool) :
    Except String CUDAGraphExpertsExecutor := do
  let graphBatchSizes ← getGraphBatchSizes maxBatchSize
  return ⟨maxBatchSize, hiddenSize, localNumExperts, cutlass, withBias, graphBatchSizes⟩

def getBucketByNumTokens (ex : CUDAGraphExpertsExecutor) (batchSize : ℕ) : Except String ℕ :=
  match ex.graphBatchSizes.find? (batchSize ≤ ·) with
  | some size => .ok size
  | none => .error s!"No available graph for batch size={batchSize}"

/-- The number of rows of `static_input_hiddens[:n]` and of `static_input_m_indices[:n]`: a slice
ends with its tensor. -/
def sliceRows (ex : CUDAGraphExpertsExecutor) (n : ℕ) : ℕ := min n ex.maxBatchSize

/-- `dst.copy_(src)` for tensors with these many rows: a single row is repeated. -/
def CopyAllowed (dst src : ℕ) : Prop := src = dst ∨ src = 1

/-- `cuda_graph_preprocess`: the shapes of the copies are allowed and the kernel, with the default
of `tokens_per_block`, stays inside the tensors. -/
def Preprocesses (ex : CUDAGraphExpertsExecutor) (x : ExpertInputs) (bucketSize : ℕ) : Prop :=
  if ex.cutlass then
    CopyAllowed (ex.sliceRows x.numTokens) x.numTokens ∧
      CopyAllowed ex.localNumExperts x.numBatchSizes ∧
      (ex.withBias → CopyAllowed (ex.sliceRows x.numTokens) x.numMIndices)
  else
    InBounds (ex.maxBatchSize * ex.hiddenSize) (x.numTokens * ex.hiddenSize)
        (hiddensCopies 2 x.numTokens ex.hiddenSize) ∧
      InBounds ex.localNumExperts x.numBatchSizes
        (batchSizesCopies 2 x.numTokens x.numBatchSizes) ∧
      InBounds ex.maxBatchSize x.numMIndices (mIndicesCopies 2 x.numTokens bucketSize)

/-- **The buckets fit** the static buffers, in `capture` and in every `run` of a batch with one
index for each row. -/
structure BucketsFit (ex : CUDAGraphExpertsExecutor) : Prop where
  increasing : ex.graphBatchSizes.Pairwise (· < ·)
  bucket : ∀ n, 1 ≤ n → n ≤ ex.maxBatchSize → ∃ b, ex.getBucketByNumTokens n = .ok b ∧
    b ∈ ex.graphBatchSizes ∧ n ≤ b ∧ ∀ size ∈ ex.graphBatchSizes, n ≤ size → b ≤ size
  le : ∀ b ∈ ex.graphBatchSizes, b ≤ ex.maxBatchSize
  slice : ∀ b ∈ ex.graphBatchSizes, ex.sliceRows b = b
  capture : ∀ b ∈ ex.graphBatchSizes,
    ex.Preprocesses (makeExpertDummyInputs b ex.localNumExperts) b
  run : ∀ n, 1 ≤ n → n ≤ ex.maxBatchSize → ∀ b, ex.getBucketByNumTokens n = .ok b →
    ex.Preprocesses ⟨n, ex.localNumExperts, n⟩ b

/-! ### The sizes -/

section Sizes

variable {n b : ℕ} (hb : 0 < b)

theorem le_of_mem_doubleSizes {x : ℕ} (hx : x ∈ doubleSizes n b hb) : b ≤ x := by
  fun_induction doubleSizes n b hb with
  | case1 b hb hlt ih =>
    rcases List.mem_cons.mp hx with rfl | hx
    · exact le_rfl
    · have := ih hx
      omega
  | case2 b hb hge => exact (List.mem_singleton.mp hx).ge

theorem pairwise_doubleSizes : (doubleSizes n b hb).Pairwise (· < ·) := by
  fun_induction doubleSizes n b hb with
  | case1 b hb hlt ih =>
    refine .cons (fun x hx => ?_) ih
    have := le_of_mem_doubleSizes _ hx
    omega
  | case2 b hb hge => exact List.pairwise_singleton _ b

theorem exists_mem_doubleSizes : ∃ x ∈ doubleSizes n b hb, n ≤ x := by
  fun_induction doubleSizes n b hb with
  | case1 b hb hlt ih =>
    obtain ⟨x, hx, hn⟩ := ih
    exact ⟨x, List.mem_cons_of_mem _ hx, hn⟩
  | case2 b hb hge => exact ⟨b, List.mem_singleton_self b, not_lt.mp hge⟩

theorem dvd_of_mem_doubleSizes {x : ℕ} (hx : x ∈ doubleSizes n b hb) : b ∣ x := by
  fun_induction doubleSizes n b hb with
  | case1 b hb hlt ih =>
    rcases List.mem_cons.mp hx with rfl | hx
    · exact dvd_rfl
    · exact (Nat.dvd_mul_right b 2).trans (ih hx)
  | case2 b hb hge => exact (List.mem_singleton.mp hx) ▸ dvd_rfl

theorem self_mem_doubleSizes : b ∈ doubleSizes n b hb := by
  rw [doubleSizes]
  split_ifs
  · exact List.mem_cons_self
  · exact List.mem_singleton_self b

/-- **The sizes stay below the maximum** if and only if they hit it. -/
theorem forall_doubleSizes_le_iff :
    (∀ x ∈ doubleSizes n b hb, x ≤ n) ↔ ∃ k, n = b * 2 ^ k := by
  fun_induction doubleSizes n b hb with
  | case1 b hb hlt ih =>
    rw [List.forall_mem_cons, ih]
    constructor
    · rintro ⟨-, k, rfl⟩
      exact ⟨k + 1, by rw [pow_succ', mul_assoc]⟩
    · rintro ⟨k, rfl⟩
      refine ⟨hlt.le, ?_⟩
      cases k with
      | zero => exact absurd hlt (by rw [pow_zero, mul_one]; exact lt_irrefl b)
      | succ k => exact ⟨k, by rw [pow_succ', mul_assoc]⟩
  | case2 b hb hge =>
    rw [List.forall_mem_singleton]
    constructor
    · intro hle
      exact ⟨0, by rw [pow_zero, mul_one]; exact le_antisymm (not_lt.mp hge) hle⟩
    · rintro ⟨k, rfl⟩
      exact Nat.le_mul_of_pos_right b (Nat.two_pow_pos k)

end Sizes

/-- The sizes of the graphs; the maximum is in general not one of them. -/
structure Sizes (n : ℕ) (sizes : List ℕ) : Prop where
  increasing : sizes.Pairwise (· < ·)
  exists_ge : ∃ x ∈ sizes, n ≤ x
  le_iff : (∀ x ∈ sizes, x ≤ n) ↔ n ≤ 128 ∨ ∃ k, n = 128 * 2 ^ k
  dvd_iff : ∀ d, (∀ x ∈ sizes, d ∣ x) ↔ d ∣ min n 128

theorem exists_getGraphBatchSizes {n : ℕ} (hn : 0 < n) :
    ∃ sizes, getGraphBatchSizes n = .ok sizes ∧ Sizes n sizes := by
  by_cases hsmall : n ≤ 128
  · refine ⟨[n], ?_, List.pairwise_singleton _ n, ⟨n, List.mem_singleton_self n, le_rfl⟩, ?_, ?_⟩
    · rw [getGraphBatchSizes, ensure_of_true hn, ok_bind, if_pos hsmall]
      rfl
    · rw [List.forall_mem_singleton]
      exact iff_of_true le_rfl (.inl hsmall)
    · intro d
      rw [List.forall_mem_singleton, min_eq_left hsmall]
  · have hpos : 0 < 128 := by decide
    refine ⟨doubleSizes n 128 hpos, ?_, pairwise_doubleSizes hpos, exists_mem_doubleSizes hpos,
      ?_, ?_⟩
    · rw [getGraphBatchSizes, ensure_of_true hn, ok_bind, if_neg hsmall]
      rfl
    · rw [forall_doubleSizes_le_iff, or_iff_right hsmall]
    · intro d
      rw [min_eq_right (not_le.mp hsmall).le]
      exact ⟨fun h => h 128 (self_mem_doubleSizes hpos),
        fun h x hx => h.trans (dvd_of_mem_doubleSizes hpos hx)⟩

/-! ### Buckets -/

section Buckets

variable {ex : CUDAGraphExpertsExecutor} {n b : ℕ}

theorem exists_bucket (hsizes : Sizes ex.maxBatchSize ex.graphBatchSizes)
    (hn : n ≤ ex.maxBatchSize) :
    ∃ b, ex.getBucketByNumTokens n = .ok b ∧ b ∈ ex.graphBatchSizes ∧ n ≤ b ∧
      ∀ size ∈ ex.graphBatchSizes, n ≤ size → b ≤ size := by
  obtain ⟨size, hmem, hle⟩ := hsizes.exists_ge
  have hsome : (ex.graphBatchSizes.find? (n ≤ ·)).isSome :=
    List.find?_isSome.mpr ⟨size, hmem, decide_eq_true (hn.trans hle)⟩
  obtain ⟨b, hb⟩ := Option.isSome_iff_exists.mp hsome
  obtain ⟨hnb, before, after, hsplit, hbefore⟩ := List.find?_eq_some_iff_append.mp hb
  have hpairwise := hsizes.increasing
  rw [hsplit, List.pairwise_append, List.pairwise_cons] at hpairwise
  refine ⟨b, by rw [getBucketByNumTokens, hb], hsplit ▸ by simp, by simpa using hnb, ?_⟩
  intro size' hmem' hn'
  rw [hsplit, List.mem_append, List.mem_cons] at hmem'
  rcases hmem' with hmem' | rfl | hmem'
  · exact absurd hn' (by simpa using hbefore size' hmem')
  · exact le_rfl
  · exact (hpairwise.2.1.1 size' hmem').le

/-- A batch is staged inside the buffers if its bucket has no more rows than they. -/
theorem preprocesses_run (hn : n ≤ ex.maxBatchSize) (hb : b ≤ ex.maxBatchSize) :
    ex.Preprocesses ⟨n, ex.localNumExperts, n⟩ b := by
  rw [Preprocesses]
  split_ifs
  · have hslice : ex.sliceRows n = n := min_eq_left hn
    exact ⟨.inl hslice.symm, .inl rfl, fun _ => .inl hslice.symm⟩
  · exact ⟨inBounds_hiddensCopies hn, inBounds_batchSizesCopies le_rfl le_rfl,
      inBounds_mIndicesCopies_iff.mpr ⟨hb, min_le_left n b⟩⟩

theorem le_mul_div_iff {d : ℕ} : b ≤ d * (b / d) ↔ d ∣ b := by
  rw [Nat.dvd_iff_mod_eq_zero]
  have := Nat.div_add_mod b d
  omega

theorem preprocesses_capture_iff (hb : b ≤ ex.maxBatchSize) :
    ex.Preprocesses (makeExpertDummyInputs b ex.localNumExperts) b ↔
      ((ex.cutlass = false ∨ ex.withBias = true) → ex.localNumExperts ∣ b) := by
  have hslice : ex.sliceRows b = b := min_eq_left hb
  rw [Preprocesses, makeExpertDummyInputs]
  split_ifs with hcutlass
  · rw [hslice, hcutlass]
    constructor
    · rintro ⟨-, -, hbias⟩ h
      rcases hbias (h.resolve_left (by decide)) with heq | hone
      · exact le_mul_div_iff.mp heq.ge
      · rw [Nat.eq_one_of_mul_eq_one_right hone]
        exact one_dvd b
    · intro h
      exact ⟨.inl rfl, .inl rfl, fun hbias => .inl (Nat.mul_div_cancel' (h (.inr hbias)))⟩
  · rw [inBounds_mIndicesCopies_iff, min_self, le_mul_div_iff]
    constructor
    · rintro ⟨-, -, -, hdvd⟩ -
      exact hdvd
    · intro h
      exact ⟨inBounds_hiddensCopies hb, inBounds_batchSizesCopies le_rfl le_rfl, hb,
        h (.inl (Bool.not_eq_true _ ▸ hcutlass))⟩

end Buckets

/-- **The buckets fit** the static buffers exactly if the sizes hit the maximum, and an index is
made for every row at capture. -/
theorem bucketsFit_iff (maxBatchSize hiddenSize localNumExperts : ℕ) (cutlass withBias : Bool)
    (hmax : 0 < maxBatchSize) :
    ∃ ex, createCudaGraphBuffers maxBatchSize hiddenSize localNumExperts cutlass withBias = .ok ex ∧
      (ex.BucketsFit ↔
        (maxBatchSize ≤ 128 ∨ ∃ k, maxBatchSize = 128 * 2 ^ k) ∧
          ((cutlass = false ∨ withBias = true) → localNumExperts ∣ min maxBatchSize 128)) ∧
      ex.graphBatchSizes.Pairwise (· < ·) ∧
      ∀ n, 1 ≤ n → n ≤ maxBatchSize → ∃ b, ex.getBucketByNumTokens n = .ok b ∧
        b ∈ ex.graphBatchSizes ∧ n ≤ b ∧ ∀ size ∈ ex.graphBatchSizes, n ≤ size → b ≤ size := by
  obtain ⟨sizes, hget, hsizes⟩ := exists_getGraphBatchSizes hmax
  refine ⟨⟨maxBatchSize, hiddenSize, localNumExperts, cutlass, withBias, sizes⟩, ?_, ?_,
    hsizes.increasing, fun n _ hn => exists_bucket hsizes hn⟩
  · rw [createCudaGraphBuffers, hget]
    rfl
  · constructor
    · intro hfit
      refine ⟨hsizes.le_iff.mp hfit.le, fun hneeds => (hsizes.dvd_iff _).mp fun b hb => ?_⟩
      exact (preprocesses_capture_iff (hfit.le b hb)).mp (hfit.capture b hb) hneeds
    · rintro ⟨hmaximum, hdvd⟩
      have hle := hsizes.le_iff.mpr hmaximum
      refine ⟨hsizes.increasing, fun n _ hn => exists_bucket hsizes hn, hle,
        fun b hb => min_eq_left (hle b hb), fun b hb => ?_, fun n _ hn b hb => ?_⟩
      · exact (preprocesses_capture_iff (hle b hb)).mpr fun hneeds =>
          (hsizes.dvd_iff _).mpr (hdvd hneeds) b hb
      · obtain ⟨b', hb', hmem, -⟩ := exists_bucket hsizes hn
        exact preprocesses_run hn (hle b (Except.ok.inj (hb'.symm.trans hb) ▸ hmem))

theorem bucketsFit_iff_at_512 :
    0 < 512 ∧ ∃ ex, createCudaGraphBuffers 512 4096 8 false false = .ok ex ∧ ex.BucketsFit := by
  obtain ⟨ex, hex, hfit, -⟩ := bucketsFit_iff 512 4096 8 false false (by decide)
  exact ⟨by decide, ex, hex, hfit.mpr ⟨.inr ⟨2, by decide⟩, fun _ => by decide⟩⟩

/-- A maximum of 200 has a graph with 256 rows. A batch of 200 rows goes there; the slices have 200
rows, and the kernel writes indices up to 255. -/
theorem bucket_of_200 :
    ∃ ex, createCudaGraphBuffers 200 8 1 false false = .ok ex ∧
      ex.getBucketByNumTokens 200 = .ok 256 ∧ ex.maxBatchSize = 200 ∧ ex.sliceRows 256 = 200 ∧
      (255, none) ∈ mIndicesCopies 2 200 256 ∧ ¬ ex.Preprocesses ⟨200, 1, 200⟩ 256 := by
  have hsizes : doubleSizes 200 128 (by decide) = [128, 256] := by
    rw [doubleSizes, if_pos (by decide), doubleSizes, if_neg (by decide)]
  refine ⟨⟨200, 8, 1, false, false, [128, 256]⟩, ?_, rfl, rfl, rfl,
    mem_lastBlock.mpr ⟨by decide, rfl⟩, ?_⟩
  · rw [createCudaGraphBuffers, getGraphBatchSizes, hsizes]
    rfl
  · intro h
    exact absurd (inBounds_mIndicesCopies_iff.mp h.2.2).1 (by decide)

end CUDAGraphExpertsExecutor

end StreamEP

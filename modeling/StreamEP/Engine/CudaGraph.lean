import StreamEP.Admission.StashSupply
import StreamEP.Engine.Stash
import StreamEP.Kv.Isolation
import StreamEP.Lib.Kernel

/-!
# Staging a batch for a CUDA graph

`CUDAGraphAttnExecutor` of `disagmoe/executor/cuda_graph.py` replays graphs that were captured for
a few batch sizes. A batch is staged in static buffers, in the first rows of the smallest graph it
fits: one fused kernel (`csrc/cuda_ops/cuda_graph.cu`) copies the batch and pads the metadata, and
two fills redirect the padded rows. Whatever earlier batches left there, a padded row then appends
to the spare block of the cache and uses the spare row of the stash, which are never handed out.

The kernel is followed thread by thread; its threads may run in any order. Buffers are flat, with
the strides of the source.

## Main results

* `getGraphBatchSizes_spec` — the sizes grow
* `CUDAGraphAttnExecutor.run_staged`
* `CUDAGraphAttnExecutor.Runs.stashRun` — what a stash run assumes of the padding
-/

namespace StreamEP

open Kernel Relation

/-! ### The sizes of the graphs -/

/-- The loop of `get_graph_batch_sizes`: `lo` is `bsz_stage[i - 1]`, and the list has the
`bsz_stage[i]` and `bsz_inc[i]` that are left. -/
def extendSizes (graphMaxBatchSize : ℕ) : ℕ → List (ℕ × ℕ) → List ℕ → List ℕ
  | _, [], graphBsz => graphBsz
  | lo, (hi, inc) :: stages, graphBsz =>
    if graphMaxBatchSize > hi then
      extendSizes graphMaxBatchSize hi stages (graphBsz ++ strided lo inc hi)
    else if (graphBsz ++ strided lo inc graphMaxBatchSize).getLast? = some graphMaxBatchSize then
      graphBsz ++ strided lo inc graphMaxBatchSize
    else graphBsz ++ strided lo inc graphMaxBatchSize ++ [graphMaxBatchSize]

def getGraphBatchSizes (graphMaxBatchSize : ℕ) : Except String (List ℕ) := do
  ensure (graphMaxBatchSize ≤ 1024) "graph_max_batch_size <= 1024"
  return extendSizes graphMaxBatchSize 8 [(128, 32), (256, 64), (512, 128), (1024, 256)] [1]

theorem pairwise_append_strided {l : List ℕ} {lo inc hi : ℕ} (hinc : 0 < inc)
    (hl : l.Pairwise (· < ·)) (hlo : ∀ x ∈ l, x < lo) :
    (l ++ strided lo inc hi).Pairwise (· < ·) := by
  refine List.pairwise_append.mpr ⟨hl, pairwise_stridedFrom hinc hi hi lo, ?_⟩
  intro x hx y hy
  exact (hlo x hx).trans_le (lt_of_mem_stridedFrom hy).1

/-- A growing list that does not end with its bound stays below it. -/
theorem lt_of_getLast?_ne {l : List ℕ} {n : ℕ} (hl : l.Pairwise (· < ·)) (hn : ∀ x ∈ l, x ≤ n)
    (hlast : l.getLast? ≠ some n) : ∀ x ∈ l, x < n := by
  rcases List.eq_nil_or_concat l with rfl | ⟨l, y, rfl⟩
  · exact fun x hx => absurd hx List.not_mem_nil
  · rw [List.concat_eq_append] at hl hn hlast ⊢
    rw [List.getLast?_concat, Ne, Option.some_inj] at hlast
    have hy : y < n := lt_of_le_of_ne (hn y (by simp)) hlast
    intro x hx
    rw [List.mem_append, List.mem_singleton] at hx
    rcases hx with hx | rfl
    · exact ((List.pairwise_append.mp hl).2.2 x hx y (List.mem_singleton_self y)).trans hy
    · exact hy

theorem extendSizes_spec {n : ℕ} (stages : List (ℕ × ℕ)) {lo : ℕ} {l : List ℕ}
    (hstages : (lo :: stages.map (·.1)).Pairwise (· < ·)) (hinc : ∀ x ∈ stages, 0 < x.2)
    (hl : l.Pairwise (· < ·)) (hlo : ∀ x ∈ l, x < lo) (hn : ∀ x ∈ l, x ≤ n) :
    (extendSizes n lo stages l).Pairwise (· < ·) ∧ ∀ x ∈ extendSizes n lo stages l, x ≤ n := by
  induction stages generalizing lo l with
  | nil => exact ⟨hl, hn⟩
  | cons stage stages ih =>
    obtain ⟨hi, inc⟩ := stage
    have hinc' : 0 < inc := hinc (hi, inc) List.mem_cons_self
    have hle : ∀ x ∈ l ++ strided lo inc n, x ≤ n := by
      intro x hx
      rcases List.mem_append.mp hx with hx | hx
      · exact hn x hx
      · exact (lt_of_mem_stridedFrom hx).2.le
    rw [extendSizes]
    split_ifs with hgt hlast
    · rw [List.map_cons, List.pairwise_cons] at hstages
      have hlohi : lo < hi := hstages.1 hi List.mem_cons_self
      refine ih hstages.2 (fun x hx => hinc x (List.mem_cons_of_mem _ hx))
        (pairwise_append_strided hinc' hl hlo) ?_ ?_
      · intro x hx
        rcases List.mem_append.mp hx with hx | hx
        · exact (hlo x hx).trans hlohi
        · exact (lt_of_mem_stridedFrom hx).2
      · intro x hx
        rcases List.mem_append.mp hx with hx | hx
        · exact hn x hx
        · exact ((lt_of_mem_stridedFrom hx).2.trans hgt).le
    · exact ⟨pairwise_append_strided hinc' hl hlo, hle⟩
    · have hlt := lt_of_getLast?_ne (pairwise_append_strided hinc' hl hlo) hle hlast
      constructor
      · refine List.pairwise_append.mpr ⟨pairwise_append_strided hinc' hl hlo,
          List.pairwise_singleton _ n, fun x hx y hy => ?_⟩
        rw [List.mem_singleton.mp hy]
        exact hlt x hx
      · intro x hx
        rcases List.mem_append.mp hx with hx | hx
        · exact hle x hx
        · exact (List.mem_singleton.mp hx).le

theorem getGraphBatchSizes_spec {n : ℕ} (hn : 0 < n) {sizes : List ℕ}
    (h : getGraphBatchSizes n = .ok sizes) :
    sizes.Pairwise (· < ·) ∧ ∀ x ∈ sizes, x ≤ n := by
  obtain ⟨-, hsizes⟩ := ensure_bind_eq_ok.mp h
  rw [← Except.ok.inj hsizes]
  exact extendSizes_spec _ (by decide) (by decide) (by decide) (by decide)
    (List.forall_mem_singleton.mpr hn)

/-! ### Buffers -/

/-- An attention batch as `run` gets it; `numPages` and `blockTableStride` are the shape and the
stride of `block_tables`. -/
structure GraphBatch (V : Type) where
  /-- `hidden_states.shape[0]` -/
  numTokens : ℕ
  /-- `hidden_states` -/
  hidden : ℕ → V
  positions : ℕ → ℤ
  blockTables : ℕ → ℤ
  /-- `meta.block_tables.shape[1]` -/
  numPages : ℕ
  /-- `meta.block_tables.stride(0)` -/
  blockTableStride : ℕ
  slotMapping : ℕ → ℤ
  /-- `meta.seq_lens_tensor` -/
  seqLens : ℕ → ℤ
  /-- `meta.context_lens_tensor` -/
  contextLens : ℕ → ℤ
  seqStartLoc : ℕ → ℤ
  stashSlots : ℕ → ℤ

structure StaticBuffers (V : Type) where
  staticInput : ℕ → V
  staticPositions : ℕ → ℤ
  staticBlockTable : ℕ → ℤ
  staticSlotMapping : ℕ → ℤ
  staticSeqLens : ℕ → ℤ
  staticContextLens : ℕ → ℤ
  staticSeqStartLoc : ℕ → ℤ
  staticStashSlots : ℕ → ℤ

variable {V : Type}

/-! ### The fused kernel -/

def numThreads : ℕ := 128

/-- `VEC_SIZE_HIDDEN`: a `float4` holds eight `bfloat16`. -/
def vecSizeHidden : ℕ := 8

def vecSizeBlockTable : ℕ := 1

def tokenCtas (tokensPerBlock T : ℕ) : ℕ := (T + tokensPerBlock - 1) / tokensPerBlock

/-- The tokens of a block: it returns at the first one that is not in the batch. -/
def blockTokens (tokensPerBlock T block : ℕ) : List ℕ :=
  stridedFrom 1 T tokensPerBlock (block * tokensPerBlock)

/-- What a thread of the last block writes to a metadata buffer; other blocks do not. -/
def metadataThread (ctas bound : ℕ) (value : ℕ → ℤ) (block tid : ℕ) : List (ℕ × ℤ) :=
  if block = ctas then (strided tid numThreads bound).map fun i => (i, value i) else []

/-- What a thread of another block writes to `out_hidden`. -/
def hiddenThread (tokensPerBlock H : ℕ) (x : GraphBatch V) (block tid : ℕ) : List (ℕ × V) :=
  if block = tokenCtas tokensPerBlock x.numTokens then []
  else (blockTokens tokensPerBlock x.numTokens block).flatMap fun token =>
    (strided (tid * vecSizeHidden) (numThreads * vecSizeHidden) H).flatMap fun i =>
      (List.range vecSizeHidden).map fun j =>
        (token * H + (i / vecSizeHidden * vecSizeHidden + j),
          x.hidden (token * H + (i / vecSizeHidden * vecSizeHidden + j)))

/-- What a thread writes to `out_block_tables` for a token. -/
def pageWrites (outStride : ℕ) (x : GraphBatch V) (tid token : ℕ) : List (ℕ × ℤ) :=
  let vecEnd := x.numPages / vecSizeBlockTable * vecSizeBlockTable
  (strided (tid * vecSizeBlockTable) (numThreads * vecSizeBlockTable) vecEnd ++
    strided (vecEnd + tid) numThreads x.numPages).map fun i =>
      (token * outStride + i, x.blockTables (token * x.blockTableStride + i))

/-- What a thread of another block writes to `out_block_tables`. -/
def blockTableThread (tokensPerBlock outStride : ℕ) (x : GraphBatch V) (block tid : ℕ) :
    List (ℕ × ℤ) :=
  if block = tokenCtas tokensPerBlock x.numTokens then []
  else (blockTokens tokensPerBlock x.numTokens block).flatMap (pageWrites outStride x tid)

/-- The writes of a launch for `T` tokens: a block for every few tokens and one for the metadata. -/
def fusedLaunch {α : Type} (tokensPerBlock T : ℕ) (thread : ℕ → ℕ → List (ℕ × α)) :
    List (ℕ × α) :=
  launch (1 + tokenCtas tokensPerBlock T) numThreads thread

/-- The loop of the last block over a metadata buffer: `count` entries are copied, and the others
below `bound` are padded. -/
def PaddedCopy (tokensPerBlock T count bound : ℕ) (src : ℕ → ℤ) (pad : ℤ) (mem mem' : ℕ → ℤ) :
    Prop :=
  Executes (fusedLaunch tokensPerBlock T (metadataThread (tokenCtas tokensPerBlock T) bound
    fun i => if i < count then src i else pad)) mem mem'

/-- `cuda_graph_preprocess` with `fused_copy`: what a launch of `preprocess_fused_cuda` may
leave. -/
structure PreprocessFused (tokensPerBlock H outStride padded : ℕ) (x : GraphBatch V)
    (buf buf' : StaticBuffers V) : Prop where
  hidden : Executes (fusedLaunch tokensPerBlock x.numTokens (hiddenThread tokensPerBlock H x))
    buf.staticInput buf'.staticInput
  blockTable : Executes (fusedLaunch tokensPerBlock x.numTokens
    (blockTableThread tokensPerBlock outStride x)) buf.staticBlockTable buf'.staticBlockTable
  positions : PaddedCopy tokensPerBlock x.numTokens x.numTokens padded x.positions 0
    buf.staticPositions buf'.staticPositions
  slotMapping : PaddedCopy tokensPerBlock x.numTokens x.numTokens padded x.slotMapping (-1)
    buf.staticSlotMapping buf'.staticSlotMapping
  seqLens : PaddedCopy tokensPerBlock x.numTokens x.numTokens padded x.seqLens 0
    buf.staticSeqLens buf'.staticSeqLens
  contextLens : PaddedCopy tokensPerBlock x.numTokens x.numTokens padded x.contextLens 0
    buf.staticContextLens buf'.staticContextLens
  seqStartLoc : PaddedCopy tokensPerBlock x.numTokens (x.numTokens + 1) (padded + 1) x.seqStartLoc 0
    buf.staticSeqStartLoc buf'.staticSeqStartLoc
  stashSlots : buf'.staticStashSlots = buf.staticStashSlots

theorem exists_preprocessFused (tokensPerBlock H outStride padded : ℕ) (x : GraphBatch V)
    (buf : StaticBuffers V) :
    ∃ buf', PreprocessFused tokensPerBlock H outStride padded x buf buf' :=
  ⟨⟨_, _, _, _, _, _, _, _⟩, executes_applyWrites _ _, executes_applyWrites _ _,
    executes_applyWrites _ _, executes_applyWrites _ _, executes_applyWrites _ _,
    executes_applyWrites _ _, executes_applyWrites _ _, rfl⟩

variable {tokensPerBlock T H outStride padded : ℕ} {x : GraphBatch V}

theorem mem_metadata {count bound : ℕ} {src : ℕ → ℤ} {pad : ℤ} {i : ℕ} {v : ℤ} :
    (i, v) ∈ fusedLaunch tokensPerBlock T (metadataThread (tokenCtas tokensPerBlock T) bound
        fun i => if i < count then src i else pad) ↔
      i < bound ∧ v = if i < count then src i else pad := by
  constructor
  · intro hy
    obtain ⟨block, -, tid, -, hy⟩ := mem_launch.mp hy
    rw [metadataThread] at hy
    split_ifs at hy
    · obtain ⟨j, hj, heq⟩ := List.mem_map.mp hy
      obtain ⟨rfl, rfl⟩ := Prod.mk.inj heq
      exact ⟨(lt_of_mem_stridedFrom hj).2, rfl⟩
    · cases hy
  · rintro ⟨hi, rfl⟩
    obtain ⟨tid, htid, hmem⟩ : ∃ tid < numThreads, i ∈ strided (tid * 1) (numThreads * 1) bound :=
      exists_thread (by decide) Nat.one_pos hi (one_dvd i)
    rw [Nat.mul_one, Nat.mul_one] at hmem
    refine mem_launch.mpr ⟨tokenCtas tokensPerBlock T, Nat.lt_add_of_pos_left Nat.one_pos, tid,
      htid, ?_⟩
    rw [metadataThread, if_pos rfl]
    exact List.mem_map_of_mem hmem

section PaddedCopy

variable {count bound : ℕ} {src : ℕ → ℤ} {pad : ℤ} {mem mem' : ℕ → ℤ} {i : ℕ}

theorem PaddedCopy.apply (h : PaddedCopy tokensPerBlock T count bound src pad mem mem')
    (hi : i < bound) : mem' i = if i < count then src i else pad :=
  @Executes.apply _ (fun i => if i < count then src i else pad) _ _ _ i h
    (fun _ hy => (mem_metadata.mp hy).2) ⟨_, mem_metadata.mpr ⟨hi, rfl⟩⟩

theorem PaddedCopy.frame (h : PaddedCopy tokensPerBlock T count bound src pad mem mem')
    (hi : bound ≤ i) : mem' i = mem i :=
  Executes.frame h fun _ hv => absurd (mem_metadata.mp hv).1 (not_lt.mpr hi)

end PaddedCopy

theorem exists_block (htpb : 0 < tokensPerBlock) {token : ℕ} (htoken : token < T) :
    ∃ block < tokenCtas tokensPerBlock T, token ∈ blockTokens tokensPerBlock T block := by
  have hdiv := Nat.div_add_mod token tokensPerBlock
  have hmod := Nat.mod_lt token htpb
  refine ⟨token / tokensPerBlock, ?_,
    mem_stridedFrom.mpr ⟨htoken, token % tokensPerBlock, hmod, ?_⟩⟩
  · rw [tokenCtas, show T + tokensPerBlock - 1 = T - 1 + tokensPerBlock by omega,
      Nat.add_div_right _ htpb, Nat.lt_succ_iff]
    exact Nat.div_le_div_right (by omega)
  · rw [Nat.mul_comm]
    omega

theorem mem_hidden (htpb : 0 < tokensPerBlock) (hH : vecSizeHidden ∣ H) {a : ℕ} {v : V} :
    (a, v) ∈ fusedLaunch tokensPerBlock x.numTokens (hiddenThread tokensPerBlock H x) ↔
      (∃ token < x.numTokens, ∃ k < H, a = token * H + k) ∧ v = x.hidden a := by
  have hvec : 0 < vecSizeHidden := by decide
  constructor
  · intro hy
    obtain ⟨block, -, tid, -, hy⟩ := mem_launch.mp hy
    rw [hiddenThread] at hy
    split_ifs at hy
    · cases hy
    · obtain ⟨token, htoken, hy⟩ := List.mem_flatMap.mp hy
      obtain ⟨i, hi, hy⟩ := List.mem_flatMap.mp hy
      obtain ⟨j, hj, heq⟩ := List.mem_map.mp hy
      obtain ⟨rfl, rfl⟩ := Prod.mk.inj heq
      refine ⟨⟨token, (lt_of_mem_stridedFrom htoken).2, _, ?_, rfl⟩, rfl⟩
      -- a vector that starts below `H` ends there
      obtain ⟨size, rfl⟩ := hH
      have hdiv : i / vecSizeHidden < size :=
        Nat.div_lt_of_lt_mul (lt_of_mem_stridedFrom hi).2
      have hj' := List.mem_range.mp hj
      calc i / vecSizeHidden * vecSizeHidden + j
          < i / vecSizeHidden * vecSizeHidden + vecSizeHidden := Nat.add_lt_add_left hj' _
        _ = (i / vecSizeHidden + 1) * vecSizeHidden := (Nat.succ_mul _ _).symm
        _ ≤ size * vecSizeHidden := Nat.mul_le_mul_right _ hdiv
        _ = vecSizeHidden * size := Nat.mul_comm _ _
  · rintro ⟨⟨token, htoken, k, hk, rfl⟩, rfl⟩
    -- the vector of entry `k` starts at a multiple of the vector size
    have hstart : k / vecSizeHidden * vecSizeHidden < H :=
      (Nat.div_mul_le_self k vecSizeHidden).trans_lt hk
    obtain ⟨block, hblock, hmem⟩ := exists_block htpb htoken
    obtain ⟨tid, htid, hi⟩ : ∃ tid < numThreads, k / vecSizeHidden * vecSizeHidden ∈
        strided (tid * vecSizeHidden) (numThreads * vecSizeHidden) H :=
      exists_thread (by decide) hvec hstart (Nat.dvd_mul_left _ _)
    have hentry : k / vecSizeHidden * vecSizeHidden / vecSizeHidden * vecSizeHidden +
        k % vecSizeHidden = k := by
      rw [Nat.mul_div_cancel _ hvec, Nat.div_add_mod']
    refine mem_launch.mpr ⟨block, hblock.trans (Nat.lt_add_of_pos_left Nat.one_pos), tid, htid, ?_⟩
    rw [hiddenThread, if_neg hblock.ne]
    refine List.mem_flatMap.mpr ⟨token, hmem, List.mem_flatMap.mpr ⟨_, hi, List.mem_map.mpr
      ⟨k % vecSizeHidden, List.mem_range.mpr (Nat.mod_lt k hvec), ?_⟩⟩⟩
    rw [hentry]

/-- The threads write the pages of a token, whatever the width of a row. -/
theorem exists_mem_pageWrites {token : ℕ} {y : ℕ × ℤ} :
    (∃ tid < numThreads, y ∈ pageWrites outStride x tid token) ↔ ∃ i < x.numPages,
      y = (token * outStride + i, x.blockTables (token * x.blockTableStride + i)) := by
  constructor
  · rintro ⟨tid, -, hy⟩
    obtain ⟨i, hi, rfl⟩ := List.mem_map.mp hy
    refine ⟨i, ?_, rfl⟩
    rcases List.mem_append.mp hi with hi | hi
    · simpa [vecSizeBlockTable] using (lt_of_mem_stridedFrom hi).2
    · exact (lt_of_mem_stridedFrom hi).2
  · rintro ⟨i, hi, rfl⟩
    obtain ⟨tid, htid, hthread⟩ : ∃ tid < numThreads, i ∈ strided (tid * vecSizeBlockTable)
        (numThreads * vecSizeBlockTable) (x.numPages / vecSizeBlockTable * vecSizeBlockTable) :=
      exists_thread (by decide) (by decide) (by simpa [vecSizeBlockTable] using hi) (one_dvd i)
    exact ⟨tid, htid, List.mem_map.mpr ⟨i, List.mem_append_left _ hthread, rfl⟩⟩

theorem mem_blockTable (htpb : 0 < tokensPerBlock) {y : ℕ × ℤ} :
    y ∈ fusedLaunch tokensPerBlock x.numTokens (blockTableThread tokensPerBlock outStride x) ↔
      ∃ token < x.numTokens, ∃ i < x.numPages,
        y = (token * outStride + i, x.blockTables (token * x.blockTableStride + i)) := by
  constructor
  · intro hy
    obtain ⟨block, -, tid, htid, hy⟩ := mem_launch.mp hy
    rw [blockTableThread] at hy
    split_ifs at hy
    · cases hy
    · obtain ⟨token, htoken, hy⟩ := List.mem_flatMap.mp hy
      exact ⟨token, (lt_of_mem_stridedFrom htoken).2, exists_mem_pageWrites.mp ⟨tid, htid, hy⟩⟩
  · rintro ⟨token, htoken, hpage⟩
    obtain ⟨block, hblock, hmem⟩ := exists_block htpb htoken
    obtain ⟨tid, htid, hy⟩ := exists_mem_pageWrites.mpr hpage
    refine mem_launch.mpr ⟨block, hblock.trans (Nat.lt_add_of_pos_left Nat.one_pos), tid, htid, ?_⟩
    rw [blockTableThread, if_neg hblock.ne]
    exact List.mem_flatMap.mpr ⟨token, hmem, hy⟩

/-- What is written for a token stays in its row of a table with rows of `width` entries. -/
def KeepsRows (width : ℕ) (x : GraphBatch V) : Prop :=
  ∀ token < x.numTokens, ∀ tid < numThreads, ∀ y ∈ pageWrites width x tid token,
    token * width ≤ y.1 ∧ y.1 < (token + 1) * width

theorem keepsRows_iff {width : ℕ} : KeepsRows width x ↔ x.numTokens = 0 ∨ x.numPages ≤ width := by
  constructor
  · intro h
    by_contra! hwide
    -- the entry after the last one of the first row
    obtain ⟨tid, htid, hy⟩ := (@exists_mem_pageWrites V width x 0 _).mpr ⟨width, hwide.2, rfl⟩
    have hlt := (h 0 (Nat.pos_of_ne_zero hwide.1) tid htid _ hy).2
    simp at hlt
  · intro h token htoken tid htid y hy
    obtain ⟨i, hi, rfl⟩ := exists_mem_pageWrites.mp ⟨tid, htid, hy⟩
    have hwidth : i < width := hi.trans_le (h.resolve_left (Nat.ne_zero_of_lt htoken))
    rw [Nat.succ_mul]
    exact ⟨Nat.le_add_right _ _, Nat.add_lt_add_left hwidth _⟩

section PreprocessFused

variable {buf buf' : StaticBuffers V} {token : ℕ}

theorem PreprocessFused.hidden_apply
    (h : PreprocessFused tokensPerBlock H outStride padded x buf buf') (htpb : 0 < tokensPerBlock)
    (hH : vecSizeHidden ∣ H) (htoken : token < x.numTokens) {k : ℕ} (hk : k < H) :
    buf'.staticInput (token * H + k) = x.hidden (token * H + k) :=
  Executes.apply h.hidden (fun _ hy => ((mem_hidden htpb hH).mp hy).2)
    ⟨_, (mem_hidden htpb hH).mpr ⟨⟨token, htoken, k, hk, rfl⟩, rfl⟩⟩

theorem PreprocessFused.hidden_frame
    (h : PreprocessFused tokensPerBlock H outStride padded x buf buf') (htpb : 0 < tokensPerBlock)
    (hH : vecSizeHidden ∣ H) {a : ℕ} (ha : x.numTokens * H ≤ a) :
    buf'.staticInput a = buf.staticInput a := by
  refine Executes.frame h.hidden fun v hv => ?_
  obtain ⟨⟨token, htoken, k, hk, rfl⟩, -⟩ := (mem_hidden htpb hH).mp hv
  have hrow : (token + 1) * H ≤ x.numTokens * H := Nat.mul_le_mul_right H htoken
  rw [Nat.succ_mul] at hrow
  omega

theorem PreprocessFused.blockTable_apply
    (h : PreprocessFused tokensPerBlock H outStride padded x buf buf') (htpb : 0 < tokensPerBlock)
    (hfits : x.numPages ≤ outStride) (htoken : token < x.numTokens) {i : ℕ}
    (hi : i < x.numPages) : buf'.staticBlockTable (token * outStride + i) =
      x.blockTables (token * x.blockTableStride + i) := by
  have haddress : ∀ token i, i < x.numPages →
      (token * outStride + i) / outStride = token ∧ (token * outStride + i) % outStride = i := by
    intro token i hi
    have hlt : i < outStride := hi.trans_le hfits
    rw [Nat.mul_comm token, Nat.mul_add_div (by omega), Nat.div_eq_of_lt hlt, Nat.mul_add_mod,
      Nat.mod_eq_of_lt hlt]
    exact ⟨rfl, rfl⟩
  have hagree : Agree (fun a => x.blockTables (a / outStride * x.blockTableStride + a % outStride))
      (fusedLaunch tokensPerBlock x.numTokens (blockTableThread tokensPerBlock outStride x)) := by
    intro y hy
    obtain ⟨token, -, i, hi, rfl⟩ := (mem_blockTable htpb).mp hy
    obtain ⟨hdiv, hmod⟩ := haddress token i hi
    show _ = x.blockTables _
    rw [hdiv, hmod]
  have hvalue := Executes.apply h.blockTable hagree
    ⟨_, (mem_blockTable htpb).mpr ⟨token, htoken, i, hi, rfl⟩⟩
  obtain ⟨hdiv, hmod⟩ := haddress token i hi
  rw [hvalue, hdiv, hmod]

theorem PreprocessFused.blockTable_frame
    (h : PreprocessFused tokensPerBlock H outStride padded x buf buf') (htpb : 0 < tokensPerBlock)
    (hfits : x.numPages ≤ outStride) {a : ℕ} (ha : x.numTokens * outStride ≤ a) :
    buf'.staticBlockTable a = buf.staticBlockTable a := by
  refine Executes.frame h.blockTable fun v hv => ?_
  obtain ⟨token, htoken, i, hi, heq⟩ := (mem_blockTable htpb).mp hv
  obtain rfl := congrArg Prod.fst heq
  have hrow : (token + 1) * outStride ≤ x.numTokens * outStride :=
    Nat.mul_le_mul_right outStride htoken
  rw [Nat.succ_mul] at hrow
  simp only at ha
  omega

end PreprocessFused

/-! ### The executor -/

/-- `CUDAGraphAttnExecutor`, with the parts of the configurations that it reads. -/
structure CUDAGraphAttnExecutor where
  hiddenSize : ℕ
  maxSeqLen : ℕ
  blockSize : ℕ
  maxAttnGraphBsz : ℕ
  numCacheBlocks : ℕ
  graphBatchSizes : List ℕ
  /-- The sizes are those of `get_graph_batch_sizes`. -/
  sizes : getGraphBatchSizes maxAttnGraphBsz = .ok graphBatchSizes
  blockSize_pos : 0 < blockSize

namespace CUDAGraphAttnExecutor

/-- The number of columns of `static_block_table`. -/
def width (ex : CUDAGraphAttnExecutor) : ℕ := ex.maxSeqLen / ex.blockSize

def stashScratchSlot (ex : CUDAGraphAttnExecutor) : ℕ :=
  maxRunningReqs ex.numCacheBlocks ex.blockSize

def kvScratchBlock (ex : CUDAGraphAttnExecutor) : ℕ := ex.numCacheBlocks

def getBucketByNumTokens (ex : CUDAGraphAttnExecutor) (batchSize : ℕ) : Except String ℕ :=
  match ex.graphBatchSizes.find? (batchSize ≤ ·) with
  | some size => .ok size
  | none => .error s!"No available graph for batch size={batchSize}"

/-- `dst[lo : hi].fill_(value)` -/
def fillRows (lo hi : ℕ) (value : ℤ) (dst : ℕ → ℤ) : ℕ → ℤ :=
  fun i => if lo ≤ i ∧ i < hi then value else dst i

/-- `dst[lo : hi, 0].fill_(value)` -/
def fillColumn (width lo hi : ℕ) (value : ℤ) (dst : ℕ → ℤ) : ℕ → ℤ :=
  fun a => if a % width = 0 ∧ lo ≤ a / width ∧ a / width < hi then value else dst a

/-- What `run` does after the preprocessing: the slots of the stash, and the first column of the
padded rows. -/
def padRows (ex : CUDAGraphAttnExecutor) (x : GraphBatch V) (batchSize : ℕ)
    (buf : StaticBuffers V) : Except String (StaticBuffers V) := do
  let slots := fun i => if i < x.numTokens then x.stashSlots i else buf.staticStashSlots i
  if x.numTokens < batchSize then
    ensure (0 < ex.width) "index 0 is out of bounds for dimension 1 with size 0"
    return { buf with
      staticStashSlots := fillRows x.numTokens batchSize ex.stashScratchSlot slots
      staticBlockTable := fillColumn ex.width x.numTokens batchSize ex.kvScratchBlock
        buf.staticBlockTable }
  else
    return { buf with staticStashSlots := slots }

/-- **`run` up to the replay**, with `fused_copy` and `stash_slots`: the graph it takes and what it
may leave in the buffers. `tokens_per_block` has its default. -/
def Runs (ex : CUDAGraphAttnExecutor) (x : GraphBatch V) (buf : StaticBuffers V) (batchSize : ℕ)
    (buf' : StaticBuffers V) : Prop :=
  ex.getBucketByNumTokens x.numTokens = .ok batchSize ∧
    ∃ mid, PreprocessFused 2 ex.hiddenSize ex.width batchSize x buf mid ∧
      ex.padRows x batchSize mid = .ok buf'

variable {ex : CUDAGraphAttnExecutor} {buf buf' : StaticBuffers V} {n b : ℕ}

theorem pairwise_graphBatchSizes (ex : CUDAGraphAttnExecutor) :
    ex.graphBatchSizes.Pairwise fun size size' => 0 < size' → size < size' := by
  rcases Nat.eq_zero_or_pos ex.maxAttnGraphBsz with hzero | hpos
  · have hsizes := ex.sizes
    rw [hzero] at hsizes
    rw [← Except.ok.inj hsizes]
    decide
  · refine (getGraphBatchSizes_spec hpos ex.sizes).1.imp ?_
    intro size size' h _
    exact h

theorem getBucketByNumTokens_spec (hn : 1 ≤ n) (h : ex.getBucketByNumTokens n = .ok b) :
    b ∈ ex.graphBatchSizes ∧ n ≤ b ∧ ∀ size ∈ ex.graphBatchSizes, n ≤ size → b ≤ size := by
  rw [getBucketByNumTokens] at h
  cases hfind : ex.graphBatchSizes.find? (n ≤ ·) with
  | none =>
    rw [hfind] at h
    cases h
  | some size =>
    rw [hfind] at h
    obtain rfl := Except.ok.inj h
    obtain ⟨hle, before, after, hsplit, hbefore⟩ := List.find?_eq_some_iff_append.mp hfind
    have hpairwise := ex.pairwise_graphBatchSizes
    rw [hsplit, List.pairwise_append, List.pairwise_cons] at hpairwise
    refine ⟨hsplit ▸ by simp, by simpa using hle, ?_⟩
    intro size' hmem hn'
    rw [hsplit, List.mem_append, List.mem_cons] at hmem
    rcases hmem with hmem | rfl | hmem
    · exact absurd hn' (by simpa using hbefore size' hmem)
    · exact le_rfl
    · exact (hpairwise.2.1.1 size' hmem (hn.trans hn')).le

theorem exists_getBucketByNumTokens (h : ∃ size ∈ ex.graphBatchSizes, n ≤ size) :
    ∃ b, ex.getBucketByNumTokens n = .ok b := by
  obtain ⟨size, hmem, hle⟩ := h
  have hsome : (ex.graphBatchSizes.find? (n ≤ ·)).isSome :=
    List.find?_isSome.mpr ⟨size, hmem, decide_eq_true hle⟩
  obtain ⟨b, hb⟩ := Option.isSome_iff_exists.mp hsome
  exact ⟨b, by rw [getBucketByNumTokens, hb]⟩

/-! ### The fills -/

theorem padRows_eq_ok {x : GraphBatch V} :
    ex.padRows x b buf = .ok buf' ↔ (x.numTokens < b → 0 < ex.width) ∧ buf' = { buf with
      staticStashSlots := fillRows x.numTokens b ex.stashScratchSlot
        fun i => if i < x.numTokens then x.stashSlots i else buf.staticStashSlots i
      staticBlockTable := fillColumn ex.width x.numTokens b ex.kvScratchBlock
        buf.staticBlockTable } := by
  rw [padRows]
  by_cases hlt : x.numTokens < b
  · rw [if_pos hlt, ensure_bind_eq_ok]
    constructor
    · rintro ⟨hwidth, heq⟩
      exact ⟨fun _ => hwidth, (Except.ok.inj heq).symm⟩
    · rintro ⟨hwidth, rfl⟩
      exact ⟨hwidth hlt, rfl⟩
  · have hrows : ∀ value dst, fillRows x.numTokens b value dst = dst := by
      intro value dst
      funext i
      exact if_neg fun h => hlt (h.1.trans_lt h.2)
    have hcolumn : ∀ value dst, fillColumn ex.width x.numTokens b value dst = dst := by
      intro value dst
      funext a
      exact if_neg fun h => hlt (h.2.1.trans_lt h.2.2)
    rw [if_neg hlt, hrows, hcolumn]
    constructor
    · intro heq
      exact ⟨fun h => absurd h hlt, (Except.ok.inj heq).symm⟩
    · rintro ⟨-, rfl⟩
      rfl

section fillColumn

variable {width lo hi row : ℕ} {value : ℤ} {dst : ℕ → ℤ}

theorem fillColumn_head (hwidth : 0 < width) (hlo : lo ≤ row) (hhi : row < hi) :
    fillColumn width lo hi value dst (row * width) = value := by
  have hdiv : row * width / width = row := Nat.mul_div_cancel row hwidth
  exact if_pos ⟨Nat.mul_mod_left row width, by rwa [hdiv], by rwa [hdiv]⟩

theorem fillColumn_of_lt {i : ℕ} (hi' : i < width) (hrow : row < lo) :
    fillColumn width lo hi value dst (row * width + i) = dst (row * width + i) := by
  have hdiv : (row * width + i) / width = row := by
    rw [Nat.mul_comm, Nat.mul_add_div (by omega), Nat.div_eq_of_lt hi', Nat.add_zero]
  refine if_neg fun h => ?_
  rw [hdiv] at h
  exact absurd h.2.1 (not_le.mpr hrow)

theorem fillColumn_of_le (hwidth : lo < hi → 0 < width) {a : ℕ} (ha : hi * width ≤ a) :
    fillColumn width lo hi value dst a = dst a := by
  refine if_neg fun h => ?_
  have hpos : 0 < width := hwidth (h.2.1.trans_lt h.2.2)
  exact absurd h.2.2 (not_lt.mpr ((Nat.le_div_iff_mul_le hpos).mpr ha))

end fillColumn

/-! ### Staged batches -/

/-- Rows from `b` on keep their contents. -/
structure Untouched (H width b : ℕ) (buf buf' : StaticBuffers V) : Prop where
  hidden : ∀ a, b * H ≤ a → buf'.staticInput a = buf.staticInput a
  blockTable : ∀ a, b * width ≤ a → buf'.staticBlockTable a = buf.staticBlockTable a
  positions : ∀ i, b ≤ i → buf'.staticPositions i = buf.staticPositions i
  slotMapping : ∀ i, b ≤ i → buf'.staticSlotMapping i = buf.staticSlotMapping i
  seqLens : ∀ i, b ≤ i → buf'.staticSeqLens i = buf.staticSeqLens i
  contextLens : ∀ i, b ≤ i → buf'.staticContextLens i = buf.staticContextLens i
  seqStartLoc : ∀ i, b < i → buf'.staticSeqStartLoc i = buf.staticSeqStartLoc i
  stashSlots : ∀ i, b ≤ i → buf'.staticStashSlots i = buf.staticStashSlots i

/-- **A staged batch**: `x` in the first rows of graph `b`, and the other rows padded. -/
structure Staged (ex : CUDAGraphAttnExecutor) (x : GraphBatch V) (b : ℕ)
    (buf buf' : StaticBuffers V) : Prop where
  /-- There is a graph of this size. -/
  mem : b ∈ ex.graphBatchSizes
  fits : x.numTokens ≤ b
  /-- The batch does not fit a smaller graph. -/
  least : ∀ size ∈ ex.graphBatchSizes, x.numTokens ≤ size → b ≤ size
  /-- Buffers with rows have rows for the graph. -/
  rows : 0 < ex.maxAttnGraphBsz → b ≤ ex.maxAttnGraphBsz
  hidden : ∀ row < x.numTokens, ∀ k < ex.hiddenSize,
    buf'.staticInput (row * ex.hiddenSize + k) = x.hidden (row * ex.hiddenSize + k)
  positions : ∀ row < x.numTokens, buf'.staticPositions row = x.positions row
  slotMapping : ∀ row < x.numTokens, buf'.staticSlotMapping row = x.slotMapping row
  seqLens : ∀ row < x.numTokens, buf'.staticSeqLens row = x.seqLens row
  contextLens : ∀ row < x.numTokens, buf'.staticContextLens row = x.contextLens row
  seqStartLoc : ∀ i ≤ x.numTokens, buf'.staticSeqStartLoc i = x.seqStartLoc i
  blockTable : ∀ row < x.numTokens, ∀ i < x.numPages,
    buf'.staticBlockTable (row * ex.width + i) = x.blockTables (row * x.blockTableStride + i)
  stashSlots : ∀ row < x.numTokens, buf'.staticStashSlots row = x.stashSlots row
  padded_contextLens : ∀ row, x.numTokens ≤ row → row < b → buf'.staticContextLens row = 0
  padded_blockTable : ∀ row, x.numTokens ≤ row → row < b →
    buf'.staticBlockTable (row * ex.width) = ex.numCacheBlocks
  padded_stashSlots : ∀ row, x.numTokens ≤ row → row < b →
    buf'.staticStashSlots row = maxRunningReqs ex.numCacheBlocks ex.blockSize
  /-- Rows of larger graphs are left alone. -/
  untouched : Untouched ex.hiddenSize ex.width b buf buf'

theorem Runs.untouched {x : GraphBatch V} (h : ex.Runs x buf b buf') (hn : 1 ≤ x.numTokens)
    (hH : vecSizeHidden ∣ ex.hiddenSize) (hpages : x.numPages ≤ ex.width) :
    Untouched ex.hiddenSize ex.width b buf buf' := by
  obtain ⟨hbucket, mid, hmid, hpad⟩ := h
  obtain ⟨-, hfits, -⟩ := getBucketByNumTokens_spec hn hbucket
  obtain ⟨hwidth, rfl⟩ := padRows_eq_ok.mp hpad
  constructor
  case hidden =>
    intro a ha
    exact hmid.hidden_frame Nat.two_pos hH ((Nat.mul_le_mul_right _ hfits).trans ha)
  case blockTable =>
    intro a ha
    exact (fillColumn_of_le hwidth ha).trans
      (hmid.blockTable_frame Nat.two_pos hpages ((Nat.mul_le_mul_right _ hfits).trans ha))
  case positions => exact fun i hi => hmid.positions.frame hi
  case slotMapping => exact fun i hi => hmid.slotMapping.frame hi
  case seqLens => exact fun i hi => hmid.seqLens.frame hi
  case contextLens => exact fun i hi => hmid.contextLens.frame hi
  case seqStartLoc => exact fun i hi => hmid.seqStartLoc.frame hi
  case stashSlots =>
    intro i hi
    have hfilled : ¬ (x.numTokens ≤ i ∧ i < b) := fun h => absurd h.2 (not_lt.mpr hi)
    have hcopied : ¬ i < x.numTokens := not_lt.mpr (hfits.trans hi)
    exact (if_neg hfilled).trans ((if_neg hcopied).trans (congrFun hmid.stashSlots i))

theorem Runs.staged {x : GraphBatch V} (h : ex.Runs x buf b buf') (hn : 1 ≤ x.numTokens)
    (hH : vecSizeHidden ∣ ex.hiddenSize) (hpages : x.numPages ≤ ex.width) :
    ex.Staged x b buf buf' := by
  have huntouched := h.untouched hn hH hpages
  obtain ⟨hbucket, mid, hmid, hpad⟩ := h
  obtain ⟨hmem, hfits, hleast⟩ := getBucketByNumTokens_spec hn hbucket
  obtain ⟨hwidth, rfl⟩ := padRows_eq_ok.mp hpad
  have hrows : ∀ row < x.numTokens, row < b := fun row hrow => hrow.trans_le hfits
  exact {
    mem := hmem
    fits := hfits
    least := hleast
    rows := fun hpos => (getGraphBatchSizes_spec hpos ex.sizes).2 b hmem
    hidden := fun row hrow k hk => hmid.hidden_apply Nat.two_pos hH hrow hk
    positions := fun row hrow => (hmid.positions.apply (hrows row hrow)).trans (if_pos hrow)
    slotMapping := fun row hrow => (hmid.slotMapping.apply (hrows row hrow)).trans (if_pos hrow)
    seqLens := fun row hrow => (hmid.seqLens.apply (hrows row hrow)).trans (if_pos hrow)
    contextLens := fun row hrow => (hmid.contextLens.apply (hrows row hrow)).trans (if_pos hrow)
    seqStartLoc := fun i hi => (hmid.seqStartLoc.apply (Nat.lt_succ_of_le (hi.trans hfits))).trans
      (if_pos (Nat.lt_succ_of_le hi))
    -- the fill starts after the last row of the batch
    blockTable := fun row hrow i hi => (fillColumn_of_lt (hi.trans_le hpages) hrow).trans
      (hmid.blockTable_apply Nat.two_pos hpages hrow hi)
    stashSlots := fun row hrow => (if_neg fun h => absurd h.1 (not_le.mpr hrow)).trans (if_pos hrow)
    padded_contextLens := fun row hlo hhi => (hmid.contextLens.apply hhi).trans
      (if_neg (not_lt.mpr hlo))
    padded_blockTable := fun row hlo hhi => fillColumn_head (hwidth (hlo.trans_lt hhi)) hlo hhi
    padded_stashSlots := fun row hlo hhi => if_pos ⟨hlo, hhi⟩
    untouched := huntouched }

theorem exists_runs {x : GraphBatch V} (h : ∃ size ∈ ex.graphBatchSizes, x.numTokens ≤ size)
    (hwidth : 0 < ex.width) (buf : StaticBuffers V) : ∃ b buf', ex.Runs x buf b buf' := by
  obtain ⟨b, hb⟩ := exists_getBucketByNumTokens h
  obtain ⟨mid, hmid⟩ := exists_preprocessFused 2 ex.hiddenSize ex.width b x buf
  exact ⟨b, _, hb, mid, hmid, padRows_eq_ok.mpr ⟨fun _ => hwidth, rfl⟩⟩

/-! ### Padded rows -/

/-- `flash_attn_with_kvcache` with `k` and `v`: the block to which a row appends its token. -/
def appendBlock (pageSize stride : ℕ) (blockTable cacheSeqlens : ℕ → ℤ) (row : ℕ) : ℤ :=
  blockTable (row * stride + (cacheSeqlens row / pageSize).toNat)

/-- `b1` of `_sw_prep_kernel`: the first whole block of the window that ends after `c`. -/
def firstWhole (pageSize window : ℕ) (c : ℤ) : ℤ :=
  (max (c + 1 - window) 0 + pageSize - 1) / pageSize

/-- `bt_a` of `_sw_prep_kernel` -/
def windowTable (pageSize window nb stride numPages : ℕ) (contextLens blockTable : ℕ → ℤ) (a : ℕ) :
    ℤ :=
  blockTable (a / nb * stride +
    (min (firstWhole pageSize window (contextLens (a / nb)) + (a % nb : ℕ)) (numPages - 1)).toNat)

/-- `seq_a` of `_sw_prep_kernel` -/
def windowSeqlens (pageSize window : ℕ) (contextLens : ℕ → ℤ) (row : ℕ) : ℤ :=
  contextLens row - firstWhole pageSize window (contextLens row) * pageSize

/-- `_paged_decode_attention` on the static buffers: the block to which a row appends, with or
without a sliding window. -/
def pagedAppendBlock (ex : CUDAGraphAttnExecutor) (buf : StaticBuffers V) (row : ℕ) :
    Option ℕ → ℤ
  | none => appendBlock ex.blockSize ex.width buf.staticBlockTable buf.staticContextLens row
  | some window =>
    let nb := (window / ex.blockSize + 1).nextPowerOfTwo
    appendBlock ex.blockSize nb
      (windowTable ex.blockSize window nb ex.width ex.width buf.staticContextLens
        buf.staticBlockTable)
      (windowSeqlens ex.blockSize window buf.staticContextLens) row

/-- Padded rows do not meet what the allocators hand out. -/
structure Harmless (ex : CUDAGraphAttnExecutor) (n b : ℕ) (buf : StaticBuffers V) : Prop where
  /-- The block to which a padded row appends is never free and never in the list of a request. -/
  append : ∀ row, n ≤ row → row < b → ∀ slidingWindow : Option ℕ,
    (∀ window ∈ slidingWindow, ex.blockSize ≤ window) →
    ∀ (W : Type) (firstLayer : ℕ) (s : KvRun.State W),
      ReflTransGen KvRun.Step (KvRun.State.init W ex.blockSize ex.numCacheBlocks firstLayer) s →
      ∀ block ∈ s.mgr.blockMgr.pool, ex.pagedAppendBlock buf row slidingWindow ≠ block
  /-- The row of the stash that a padded row reads and writes is not given to a request. -/
  stash : ∀ row, n ≤ row → row < b → ∀ p : StashPool,
    ReflTransGen StashPool.Step (.create (maxRunningReqs ex.numCacheBlocks ex.blockSize)) p →
    ∀ reqId slot p', p.stashSlotOf reqId = .ok (slot, p') → buf.staticStashSlots row ≠ slot

theorem pagedAppendBlock_of_contextLens {row : ℕ} (hcontext : buf.staticContextLens row = 0)
    (hwidth : 0 < ex.width) {slidingWindow : Option ℕ}
    (hwindow : ∀ window ∈ slidingWindow, ex.blockSize ≤ window) :
    ex.pagedAppendBlock buf row slidingWindow = buf.staticBlockTable (row * ex.width) := by
  cases slidingWindow with
  | none => simp [pagedAppendBlock, appendBlock, hcontext]
  | some window =>
    have hpos := ex.blockSize_pos
    have hle : ex.blockSize ≤ window := hwindow window rfl
    -- the window of the first token starts in the first block
    have hfirst : firstWhole ex.blockSize window 0 = 0 := by
      have hmax : max (0 + 1 - (window : ℤ)) 0 = 0 := max_eq_right (by omega)
      rw [firstWhole, hmax]
      exact Int.ediv_eq_zero_of_lt (by omega) (by omega)
    have hnb : 0 < (window / ex.blockSize + 1).nextPowerOfTwo :=
      Nat.pos_of_isPowerOfTwo (Nat.isPowerOfTwo_nextPowerOfTwo _)
    have hseq : windowSeqlens ex.blockSize window buf.staticContextLens row = 0 := by
      rw [windowSeqlens, hcontext, hfirst, Int.zero_mul, Int.sub_zero]
    have hcolumn : min (0 + ((0 : ℕ) : ℤ)) ((ex.width : ℤ) - 1) = 0 := min_eq_left (by omega)
    simp only [pagedAppendBlock, appendBlock, hseq, windowTable, Int.zero_ediv, Int.toNat_zero,
      Nat.add_zero, Nat.mul_div_cancel _ hnb, Nat.mul_mod_left, hcontext, hfirst, hcolumn]

theorem Staged.harmless {x : GraphBatch V} (h : ex.Staged x b buf buf')
    (hwidth : x.numTokens < b → 0 < ex.width) : ex.Harmless x.numTokens b buf' := by
  constructor
  case append =>
    intro row hlo hhi slidingWindow hwindow W firstLayer s hrun block hblock
    have hpool := (KvRun.Inv.of_steps ex.blockSize_pos hrun).pool
    rw [hpool, Multiset.mem_range] at hblock
    rw [pagedAppendBlock_of_contextLens (h.padded_contextLens row hlo hhi)
      (hwidth (hlo.trans_lt hhi)) hwindow, h.padded_blockTable row hlo hhi]
    exact_mod_cast hblock.ne'
  case stash =>
    intro row hlo hhi p hrun reqId slot p' hslot
    obtain ⟨hpart, hlookup, -⟩ := (StashPool.Partitioned.of_steps hrun).stashSlotOf hslot
    rw [h.padded_stashSlots row hlo hhi]
    exact_mod_cast (hpart.lt_of_lookup hlookup).ne'

/-- **Padding is harmless.** A batch that fits a graph is staged in the smallest one, whatever the
buffers held before, and the padded rows of that graph append to no block and use no row of the
stash that is ever handed out. -/
theorem run_staged (ex : CUDAGraphAttnExecutor) (x : GraphBatch V) (hn : 1 ≤ x.numTokens)
    (hfits : ∃ size ∈ ex.graphBatchSizes, x.numTokens ≤ size)
    (hH : 8 ∣ ex.hiddenSize) (hpages : x.numPages ≤ ex.width) (buf : StaticBuffers V) :
    (0 < ex.width → ∃ b buf', ex.Runs x buf b buf') ∧
      ∀ b buf', ex.Runs x buf b buf' →
        ex.Staged x b buf buf' ∧ ex.Harmless x.numTokens b buf' := by
  constructor
  · exact fun hwidth => exists_runs hfits hwidth buf
  · intro b buf' hrun
    have hstaged := hrun.staged hn hH hpages
    obtain ⟨-, mid, -, hpad⟩ := hrun
    exact ⟨hstaged, hstaged.harmless (padRows_eq_ok.mp hpad).1⟩

/-- Graphs for one and eight tokens, over a cache of ten blocks. -/
def twoGraphs : CUDAGraphAttnExecutor where
  hiddenSize := 8
  maxSeqLen := 16
  blockSize := 4
  maxAttnGraphBsz := 8
  numCacheBlocks := 10
  graphBatchSizes := [1, 8]
  sizes := rfl
  blockSize_pos := by decide

/-- Three tokens whose tables have two columns. -/
def threeTokens : GraphBatch ℕ where
  numTokens := 3
  hidden := id
  positions i := i + 5
  blockTables a := a
  numPages := 2
  blockTableStride := 2
  slotMapping i := i
  seqLens i := i + 6
  contextLens i := i + 5
  seqStartLoc i := i
  stashSlots _ := 0

/-- Five padded rows over tables that name block 7. -/
theorem run_staged_three :
    ∃ buf', twoGraphs.Runs threeTokens ⟨id, 0, fun _ => 7, 0, 0, 9, 0, 0⟩ 8 buf' ∧
      twoGraphs.Staged threeTokens 8 ⟨id, 0, fun _ => 7, 0, 0, 9, 0, 0⟩ buf' ∧
      twoGraphs.Harmless 3 8 buf' := by
  obtain ⟨hexists, hall⟩ := run_staged twoGraphs threeTokens (by decide) ⟨8, by decide, by decide⟩
    (by decide) (by decide) ⟨id, 0, fun _ => 7, 0, 0, 9, 0, 0⟩
  obtain ⟨b, buf', hrun⟩ := hexists (by decide)
  obtain rfl : 8 = b := Except.ok.inj hrun.1
  exact ⟨buf', hrun, hall 8 buf' hrun⟩

/-! ### The view of the stash -/

section Stash

variable {cfg : StashRun.Config}

theorem getBucketByNumTokens_eq_some (hsizes : cfg.graphBatchSizes = ex.graphBatchSizes) :
    cfg.getBucketByNumTokens n = some b ↔ ex.getBucketByNumTokens n = .ok b := by
  rw [StashRun.Config.getBucketByNumTokens, hsizes, getBucketByNumTokens]
  cases ex.graphBatchSizes.find? (n ≤ ·) with
  | none => simp
  | some size => simp

theorem Staged.copyStashSlots {x : GraphBatch V} (h : ex.Staged x b buf buf')
    (hscratch : cfg.stashScratchSlot = ex.stashScratchSlot) {slots : List ℕ}
    (hlength : slots.length = x.numTokens)
    (hslots : ∀ (i slot : ℕ), slots[i]? = some slot → x.stashSlots i = slot) {R : Type}
    (s : StashRun.State R) :
    ((s.copyStashSlots cfg slots b).staticStashSlots.take b).map ((↑) : ℕ → ℤ) =
      (List.range b).map buf'.staticStashSlots := by
  have hfits := h.fits
  have hpadded : (slots ++ List.replicate (b - slots.length) cfg.stashScratchSlot).length = b := by
    rw [List.length_append, List.length_replicate]
    omega
  rw [StashRun.State.copyStashSlots, List.take_left' hpadded]
  refine List.ext_getElem? fun row => ?_
  rw [List.getElem?_map, List.getElem?_map]
  rcases lt_or_ge row b with hrow | hrow
  · rw [List.getElem?_range hrow, Option.map_some]
    rcases lt_or_ge row x.numTokens with hn | hn
    · rw [List.getElem?_append_left (by omega), List.getElem?_eq_getElem (by omega),
        Option.map_some, h.stashSlots row hn, hslots row _ (List.getElem?_eq_getElem (by omega))]
    · rw [List.getElem?_append_right (by omega), List.getElem?_replicate, if_pos (by omega),
        Option.map_some, h.padded_stashSlots row hn hrow, hscratch]
      rfl
  · rw [List.getElem?_eq_none (by omega), List.getElem?_eq_none (by simpa using hrow)]
    rfl

/-- **A stash run pads as the executor does.** It takes the same graph, and the graph reads the rows
of `copyStashSlots`. -/
theorem Runs.stashRun {x : GraphBatch V} (h : ex.Runs x buf b buf') (hn : 1 ≤ x.numTokens)
    (hH : vecSizeHidden ∣ ex.hiddenSize) (hpages : x.numPages ≤ ex.width)
    (hsizes : cfg.graphBatchSizes = ex.graphBatchSizes)
    (hscratch : cfg.stashScratchSlot = ex.stashScratchSlot) {slots : List ℕ}
    (hlength : slots.length = x.numTokens)
    (hslots : ∀ (i slot : ℕ), slots[i]? = some slot → x.stashSlots i = slot) {R : Type}
    (s : StashRun.State R) :
    cfg.getBucketByNumTokens slots.length = some b ∧
      ((s.copyStashSlots cfg slots b).staticStashSlots.take b).map ((↑) : ℕ → ℤ) =
        (List.range b).map buf'.staticStashSlots := by
  rw [hlength, getBucketByNumTokens_eq_some hsizes]
  exact ⟨h.1, (h.staged hn hH hpages).copyStashSlots hscratch hlength hslots s⟩

end Stash

end CUDAGraphAttnExecutor

end StreamEP

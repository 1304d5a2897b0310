import Mathlib.Data.List.ProdSigma
import StreamEP.Engine.Forward
import StreamEP.Lib.Interleave
import StreamEP.Lib.Kernel

/-!
# The kernels that move tokens

`permute_tokens`, `apply_weights_and_permute_tokens` and `gather_tokens` of
`csrc/cuda_ops/permute.cu` and `gather_and_sum_tokens` of `csrc/cuda_ops/gather_and_sum.cu` fill
the rows of a tensor from rows that lie elsewhere. All four cut a row into chunks: the grid has a
block for every row and every chunk, the four warps of a block share the chunk out, and a thread
moves vectors of four elements, 32 vectors apart. The first three move a row in one pass;
`gather_and_sum_tokens` makes a pass for each of the `topk` rows it adds up, and reads back what
the pass before has written.

A launcher picks the largest chunk of a short list that divides `hidden_size`, and falls back on
chunks of 128. The grid has `hidden_size / chunk_size` chunks, so what is left of a row after the
last whole chunk belongs to no block. That is nothing exactly when 128 or 960 divides
`hidden_size`; the launchers only assert that `hidden_size` is positive.

Rows are laid out one after another, and addresses count elements. The tensor that is filled and
the rows that are read lie apart. The offset of a row is a product of two `int`s: one that does
not fit has no meaning, and the launch does not count as one (`Job.Launches`). Alignment is left
out: rows of a length that the chunks divide start at a multiple of a vector if the tensors do.

## Main results

* `TokenKernels.mem_elements_iff` — an element has one owner
* `TokenKernels.Job.Meets.rowsMoved_iff`
* `TokenKernels.rows_moved_iff` — for the four kernels
* `TokenKernels.permuteTokens_refines`, `TokenKernels.applyWeightsAndPermuteTokens_refines` — what
  the engine takes the kernels for
-/

namespace StreamEP

namespace TokenKernels

open Kernel

/-! ### The elements of a thread -/

def warpSize : ℕ := 32

/-- `num_threads`: the threads of a block. -/
def numThreads : ℕ := 128

/-- `VEC_SIZE`: the elements of a vector. -/
def vecSize : ℕ := 4

/-- The chunk that the launchers pick for a `hidden_size`. -/
def chunkSize (hiddenSize : ℕ) : ℕ :=
  if hiddenSize % 2048 = 0 then 2048
  else if hiddenSize % 960 = 0 then 960
  else if hiddenSize % 512 = 0 then 512
  else if hiddenSize % 256 = 0 then 256
  else 128

/-- The loop of `move_one_token_kernel`: the elements of a row that thread `tid` moves in chunk
`chunkId`. -/
def elements (chunk chunkId tid : ℕ) : List ℕ :=
  let numWarps := numThreads / warpSize
  let idInWarp := tid % warpSize
  let wid := tid / warpSize
  let chunkBase := chunkId * chunk
  let taskPerWarp := chunk / numWarps / vecSize
  let warpBase := wid * taskPerWarp
  (strided idInWarp warpSize taskPerWarp).flatMap fun i =>
    (List.range vecSize).map fun e => chunkBase + ((warpBase + i) * vecSize + e)

/-- The chunk and the thread that an element of a row belongs to, where a warp has `task` vectors
of a chunk. -/
def owner (task off : ℕ) : ℕ × ℕ :=
  let vec := off % (16 * task) / 4
  (off / (16 * task), vec / task * 32 + vec % task % 32)

variable {task chunkId tid off hiddenSize : ℕ}

theorem mem_elements :
    off ∈ elements (16 * task) chunkId tid ↔
      ∃ i < task, i % 32 = tid % 32 ∧
        ∃ e < 4, off = chunkId * (16 * task) + ((tid / 32 * task + i) * 4 + e) := by
  have htask : 16 * task / (numThreads / warpSize) / vecSize = task := by
    simp only [numThreads, warpSize, vecSize]
    omega
  simp only [elements, htask, List.mem_flatMap, List.mem_map, List.mem_range]
  rw [warpSize, vecSize]
  constructor
  · rintro ⟨i, hi, e, he, rfl⟩
    obtain ⟨hlt, k, hk⟩ := (mem_strided (by decide)).mp hi
    exact ⟨i, hlt, by omega, e, he, rfl⟩
  · rintro ⟨i, hi, hmod, e, he, rfl⟩
    refine ⟨i, (mem_strided (by decide)).mpr ⟨hi, i / 32, by omega⟩, e, he, rfl⟩

theorem mem_elements_iff (htask : 0 < task) (htid : tid < numThreads) :
    off ∈ elements (16 * task) chunkId tid ↔ owner task off = (chunkId, tid) := by
  rw [mem_elements]
  have hchunk : 0 < 16 * task := by omega
  rw [numThreads] at htid
  constructor
  · rintro ⟨i, hi, hmod, e, he, rfl⟩
    have hwarp : (tid / 32 + 1) * task ≤ 4 * task := Nat.mul_le_mul_right task (by omega)
    rw [Nat.succ_mul] at hwarp
    -- off the chunk, the vector and the warp, one after another
    obtain ⟨hdiv, hrem⟩ := (Nat.div_mod_unique hchunk).mpr
      ⟨show (tid / 32 * task + i) * 4 + e + 16 * task * chunkId =
        chunkId * (16 * task) + ((tid / 32 * task + i) * 4 + e) by
          rw [Nat.mul_comm chunkId]; omega, by omega⟩
    have hvec : ((tid / 32 * task + i) * 4 + e) / 4 = tid / 32 * task + i := by omega
    obtain ⟨hwid, hi'⟩ := (Nat.div_mod_unique htask).mpr
      ⟨show i + task * (tid / 32) = tid / 32 * task + i by
        rw [Nat.mul_comm task]; omega, hi⟩
    simp only [owner, hdiv, hrem, hvec, hwid, hi', Prod.mk.injEq, true_and]
    omega
  · intro h
    obtain ⟨hdiv, hthread⟩ := Prod.mk.inj h
    have hoff := Nat.div_add_mod off (16 * task)
    rw [hdiv, Nat.mul_comm] at hoff
    generalize hrem : off % (16 * task) = r at hoff hthread
    have hvec := Nat.div_add_mod (r / 4) task
    have hi : r / 4 % task < task := Nat.mod_lt _ htask
    generalize r / 4 % task = i at hvec hi hthread
    generalize r / 4 / task = wid at hvec hthread
    have hwid : tid / 32 = wid := by omega
    refine ⟨i, hi, by omega, r % 4, Nat.mod_lt r (by decide), ?_⟩
    rw [hwid, Nat.mul_comm wid, hvec]
    omega

theorem owner_lt (htask : 0 < task) (off : ℕ) : (owner task off).2 < numThreads := by
  have hrem : off % (16 * task) < 16 * task := Nat.mod_lt _ (by omega)
  have hwid : off % (16 * task) / 4 / task < 4 := (Nat.div_lt_iff_lt_mul htask).mpr (by omega)
  simp only [owner, numThreads]
  omega

theorem nodup_elements : (elements (16 * task) chunkId tid).Nodup := by
  refine List.Pairwise.imp (R := (· < ·)) Nat.ne_of_lt ?_
  refine List.pairwise_flatMap.mpr ⟨fun i _ => ?_, ?_⟩
  · refine List.pairwise_map.mpr (List.pairwise_lt_range.imp fun h => ?_)
    omega
  · refine (pairwise_stridedFrom (by decide) _ _ _).imp fun {i j} hij x hx y hy => ?_
    obtain ⟨e, he, rfl⟩ := List.mem_map.mp hx
    obtain ⟨e', -, rfl⟩ := List.mem_map.mp hy
    rw [List.mem_range, vecSize] at he
    rw [vecSize]
    omega

theorem exists_task (hiddenSize : ℕ) : ∃ task, 0 < task ∧ chunkSize hiddenSize = 16 * task := by
  unfold chunkSize
  split_ifs
  exacts [⟨128, by decide⟩, ⟨60, by decide⟩, ⟨32, by decide⟩, ⟨16, by decide⟩, ⟨8, by decide⟩]

/-- The chunk divides the row for the multiples of 128 and of 960. -/
theorem chunkSize_dvd_iff :
    chunkSize hiddenSize ∣ hiddenSize ↔ 128 ∣ hiddenSize ∨ 960 ∣ hiddenSize := by
  unfold chunkSize
  split_ifs <;> omega

/-! ### Launches -/

/-- Where a row is read: row `r` of a tensor, or at the address that a table of pointers has at
`index`. -/
inductive Source
  | row (r : ℕ)
  | pointer (index addr : ℕ)

def Source.addr (hiddenSize : ℕ) : Source → ℕ
  | .row r => r * hiddenSize
  | .pointer _ addr => addr

/-- The `int` that a thread computes to find the row. -/
def Source.offset (hiddenSize : ℕ) : Source → ℕ
  | .row r => r * hiddenSize
  | .pointer index _ => index

/-- What the four kernels have of their own: a launch fills one row of the destination in each
column of blocks. -/
structure Job (α : Type) where
  /-- The number of rows, the first dimension of the grid. -/
  numTokens : ℕ
  /-- The row of the destination that block `token` fills. -/
  row : ℕ → ℕ
  /-- How often a thread goes over its elements. -/
  passes : ℕ
  /-- What block `token` reads in a pass. -/
  source : ℕ → ℕ → Source
  /-- What a pass of block `token` makes of the element it reads and the one it finds. -/
  update : ℕ → ℕ → α → α → α

variable {α F : Type}

namespace Job

/-- The thread is one of the grid: its block is `(i.1, i.2.1)`, and `i.2.2` is its number. -/
def InGrid (job : Job α) (hiddenSize : ℕ) (i : ℕ × ℕ × ℕ) : Prop :=
  i.1 < job.numTokens ∧ i.2.1 < hiddenSize / chunkSize hiddenSize ∧ i.2.2 < numThreads

instance (job : Job α) (hiddenSize : ℕ) (i : ℕ × ℕ × ℕ) : Decidable (job.InGrid hiddenSize i) :=
  inferInstanceAs (Decidable (_ ∧ _ ∧ _))

/-- The updates of a thread, in its order: pass by pass over its elements. -/
def thread (job : Job α) (hiddenSize : ℕ) (src : ℕ → α) (i : ℕ × ℕ × ℕ) : List (ℕ × (α → α)) :=
  if job.InGrid hiddenSize i then
    (List.range job.passes).flatMap fun pass =>
      (elements (chunkSize hiddenSize) i.2.1 i.2.2).map fun off =>
        (job.row i.1 * hiddenSize + off,
          job.update i.1 pass (src ((job.source i.1 pass).addr hiddenSize + off)))
  else []

/-- The addresses that a thread reads in the rows it is given. -/
def reads (job : Job α) (hiddenSize : ℕ) (i : ℕ × ℕ × ℕ) : List ℕ :=
  if job.InGrid hiddenSize i then
    (List.range job.passes).flatMap fun pass =>
      (elements (chunkSize hiddenSize) i.2.1 i.2.2).map fun off =>
        (job.source i.1 pass).addr hiddenSize + off
  else []

/-- What the passes of block `token` make of element `j` of its row, where there was `v`. -/
def outcome (job : Job α) (hiddenSize : ℕ) (src : ℕ → α) (token j : ℕ) (v : α) : α :=
  (List.range job.passes).foldl
    (fun v pass => job.update token pass (src ((job.source token pass).addr hiddenSize + j)) v) v

/-- The second dimension of the grid is one that CUDA accepts, and the offsets fit an `int`. -/
structure Launches (job : Job α) (hiddenSize : ℕ) : Prop where
  pos : 0 < hiddenSize / chunkSize hiddenSize
  /-- `gridDim.y` has 16 bits. -/
  le : hiddenSize / chunkSize hiddenSize ≤ 65535
  dest : ∀ token < job.numTokens, job.row token * hiddenSize < 2 ^ 31
  src : ∀ token < job.numTokens, ∀ pass < job.passes,
    (job.source token pass).offset hiddenSize < 2 ^ 31

end Job

/-- `permute_tokens`: `topk` is the number of copies of a row. -/
def permuteTokens (numInputTokens numOutputTokens : ℕ) (mappings : ℕ → ℕ) : Job α where
  numTokens := numOutputTokens
  row := mappings
  passes := 1
  source token _ := .row (token / (numOutputTokens / numInputTokens))
  update _ _ x _ := x

/-- `apply_weights_and_permute_tokens`: `hmul` is `__hmul2` on one element. -/
def applyWeightsAndPermuteTokens (hmul : α → α → α) (float2bfloat16 : F → α) (numTokens : ℕ)
    (weights : ℕ → F) (mappings : ℕ → ℕ) : Job α where
  numTokens := numTokens
  row := mappings
  passes := 1
  source token _ := .row token
  update token _ x _ := hmul x (float2bfloat16 (weights token))

def gatherTokens (numTokens : ℕ) (srcPtr : ℕ → ℕ) : Job α where
  numTokens := numTokens
  row token := token
  passes := 1
  source token _ := .pointer token (srcPtr token)
  update _ _ x _ := x

/-- `gather_and_sum_tokens`: the first pass copies, whatever `topk` is, and each later one adds.
`hadd` is `__hadd2` on one element. -/
def gatherAndSumTokens (hadd : α → α → α) (n topk : ℕ) (srcPtr : ℕ → ℕ) : Job α where
  numTokens := n
  row token := token
  passes := max 1 topk
  source token pass := .pointer (token * topk + pass) (srcPtr (token * topk + pass))
  update _ pass x acc := if pass = 0 then x else hadd x acc

/-! ### What a launch leaves -/

/-- The first `n` entries of a table are `0, …, n - 1` in some order. -/
structure IsPermutation (n : ℕ) (row : ℕ → ℕ) : Prop where
  lt : ∀ i < n, row i < n
  inj : ∀ i < n, ∀ j < n, row i = row j → i = j
  surj : ∀ r < n, ∃ i < n, row i = r

/-- **All rows are filled, and nothing else is touched**: `given` has the addresses of the rows
that are handed to the kernel, and `value` says what element `j` of the row of `token` is to be. -/
structure RowsMoved (job : Job α) (hiddenSize : ℕ) (src : ℕ → α) (given : ℕ → Prop)
    (value : ℕ → ℕ → α) : Prop where
  /-- There is nothing to do, or the kernel is launched. -/
  launches : job.numTokens = 0 ∨ job.Launches hiddenSize
  executes : ∃ updates, Interleave (job.thread hiddenSize src) updates
  covers : ∀ a < job.numTokens * hiddenSize, ∃ i, ∃ u ∈ job.thread hiddenSize src i, u.1 = a
  writes : ∀ i, ∀ u ∈ job.thread hiddenSize src i, u.1 < job.numTokens * hiddenSize
  /-- Only the rows that are given are read. -/
  reads : ∀ i, ∀ a ∈ job.reads hiddenSize i, given a
  /-- Whatever the order and whatever was there, every element gets its value. -/
  values : ∀ updates mem, Interleave (job.thread hiddenSize src) updates →
    ∀ token < job.numTokens, ∀ j < hiddenSize,
      applyUpdates updates mem (job.row token * hiddenSize + j) = value token j

/-- What a kernel has to see to, chunks apart: its rows are the rows of the destination, it makes a
pass, it reads the rows that are given, and its passes make `value` of whatever was there. -/
structure Job.Meets (job : Job α) (hiddenSize : ℕ) (src : ℕ → α) (given : ℕ → Prop)
    (value : ℕ → ℕ → α) : Prop where
  row : IsPermutation job.numTokens job.row
  passes : 0 < job.passes
  given : ∀ token < job.numTokens, ∀ pass < job.passes, ∀ j < hiddenSize,
    given ((job.source token pass).addr hiddenSize + j)
  value : ∀ token < job.numTokens, ∀ j < hiddenSize, ∀ v,
    job.outcome hiddenSize src token j v = value token j

namespace Job

variable {job : Job α} {src : ℕ → α} {given : ℕ → Prop} {value : ℕ → ℕ → α} {i : ℕ × ℕ × ℕ}

theorem mem_thread {u : ℕ × (α → α)} :
    u ∈ job.thread hiddenSize src i ↔ job.InGrid hiddenSize i ∧ ∃ pass < job.passes,
      ∃ off ∈ elements (chunkSize hiddenSize) i.2.1 i.2.2,
        (job.row i.1 * hiddenSize + off,
          job.update i.1 pass (src ((job.source i.1 pass).addr hiddenSize + off))) = u := by
  rw [thread]
  split_ifs with h <;> simp [h]

theorem mem_reads {a : ℕ} :
    a ∈ job.reads hiddenSize i ↔ job.InGrid hiddenSize i ∧ ∃ pass < job.passes,
      ∃ off ∈ elements (chunkSize hiddenSize) i.2.1 i.2.2,
        (job.source i.1 pass).addr hiddenSize + off = a := by
  rw [reads]
  split_ifs with h <;> simp [h]

/-- The threads of a grid stay in the whole chunks of a row. -/
theorem InGrid.lt {off : ℕ} (hi : job.InGrid hiddenSize i)
    (hoff : off ∈ elements (chunkSize hiddenSize) i.2.1 i.2.2) :
    off < hiddenSize / chunkSize hiddenSize * chunkSize hiddenSize := by
  obtain ⟨task, htask, hchunk⟩ := exists_task hiddenSize
  obtain ⟨-, hy, htid⟩ := hi
  rw [hchunk] at hoff hy ⊢
  have hown := (mem_elements_iff htask htid).mp hoff
  have hdiv : off / (16 * task) = i.2.1 := congrArg Prod.fst hown
  exact (Nat.div_lt_iff_lt_mul (by omega)).mp (hdiv ▸ hy)

theorem InGrid.lt_hiddenSize {off : ℕ} (hi : job.InGrid hiddenSize i)
    (hoff : off ∈ elements (chunkSize hiddenSize) i.2.1 i.2.2) : off < hiddenSize :=
  Nat.lt_of_lt_of_le (hi.lt hoff) (Nat.div_mul_le_self _ _)

/-- The threads of a grid reach all of the whole chunks of a row. -/
theorem exists_inGrid {token off : ℕ} (htoken : token < job.numTokens)
    (hoff : off < hiddenSize / chunkSize hiddenSize * chunkSize hiddenSize) :
    ∃ c tid, job.InGrid hiddenSize (token, c, tid) ∧
      off ∈ elements (chunkSize hiddenSize) c tid := by
  obtain ⟨task, htask, hchunk⟩ := exists_task hiddenSize
  have htid := owner_lt htask off
  refine ⟨(owner task off).1, (owner task off).2, ⟨htoken, ?_, htid⟩, ?_⟩
  · rw [hchunk] at hoff ⊢
    exact (Nat.div_lt_iff_lt_mul (by omega)).mpr hoff
  · rw [hchunk, mem_elements_iff htask htid]

/-- A thread that owns an element leaves there what its passes make of the element. -/
theorem applyUpdates_thread {j : ℕ} (hi : job.InGrid hiddenSize i)
    (hj : j ∈ elements (chunkSize hiddenSize) i.2.1 i.2.2) (mem : ℕ → α) :
    applyUpdates (job.thread hiddenSize src i) mem (job.row i.1 * hiddenSize + j) =
      job.outcome hiddenSize src i.1 j (mem (job.row i.1 * hiddenSize + j)) := by
  have hone : (elements (chunkSize hiddenSize) i.2.1 i.2.2).filter (· == j) = [j] := by
    obtain ⟨task, -, hchunk⟩ := exists_task hiddenSize
    rw [List.filter_beq, List.count_eq_one_of_mem (hchunk ▸ nodup_elements) hj]
    rfl
  have hfilter : (job.thread hiddenSize src i).filter (·.1 == job.row i.1 * hiddenSize + j) =
      (List.range job.passes).map fun pass => (job.row i.1 * hiddenSize + j,
        job.update i.1 pass (src ((job.source i.1 pass).addr hiddenSize + j))) := by
    rw [thread, if_pos hi, List.filter_flatMap, List.map_eq_flatMap]
    refine List.flatMap_congr fun pass _ => ?_
    rw [List.filter_map]
    have hsame : ((·.1 == job.row i.1 * hiddenSize + j) ∘ fun off =>
        (job.row i.1 * hiddenSize + off,
          job.update i.1 pass (src ((job.source i.1 pass).addr hiddenSize + off)))) =
        (· == j) := by
      funext off
      exact Bool.eq_iff_iff.mpr (by simp)
    rw [hsame, hone, List.map_singleton]
  rw [applyUpdates_apply, hfilter, List.foldl_map, outcome]

theorem row_add_inj {r r' j j' : ℕ} (hj : j < hiddenSize) (hj' : j' < hiddenSize)
    (h : r * hiddenSize + j = r' * hiddenSize + j') : r = r' ∧ j = j' := by
  have hpos : 0 < hiddenSize := Nat.lt_of_le_of_lt (Nat.zero_le j) hj
  obtain ⟨hr, hmod⟩ := (Nat.div_mod_unique hpos).mpr
    ⟨show j + hiddenSize * r = r * hiddenSize + j by rw [Nat.mul_comm, Nat.add_comm], hj⟩
  obtain ⟨hr', hmod'⟩ := (Nat.div_mod_unique hpos).mpr
    ⟨show j' + hiddenSize * r' = r' * hiddenSize + j' by rw [Nat.mul_comm, Nat.add_comm], hj'⟩
  rw [h] at hr hmod
  exact ⟨hr.symm.trans hr', hmod.symm.trans hmod'⟩

/-- The threads of a launch that may take part in an interleaving. -/
theorem exists_interleave (job : Job α) (hiddenSize : ℕ) (src : ℕ → α) :
    ∃ updates, Interleave (job.thread hiddenSize src) updates := by
  refine ⟨_, Interleave.exists_of_nodup ((List.range job.numTokens).product
    ((List.range (hiddenSize / chunkSize hiddenSize)).product (List.range numThreads)))
    (List.nodup_range.product (List.nodup_range.product List.nodup_range)) ?_⟩
  rintro ⟨token, c, tid⟩ hi
  refine if_neg fun hgrid => hi ?_
  obtain ⟨htoken, hc, htid⟩ := hgrid
  exact List.pair_mem_product.mpr ⟨List.mem_range.mpr htoken,
    List.pair_mem_product.mpr ⟨List.mem_range.mpr hc, List.mem_range.mpr htid⟩⟩

/-- With whole chunks, an element of a row has what the passes of its block make of it. -/
theorem apply_of_dvd {updates : List (ℕ × (α → α))} {token j : ℕ}
    (hrow : IsPermutation job.numTokens job.row) (hdvd : chunkSize hiddenSize ∣ hiddenSize)
    (h : Interleave (job.thread hiddenSize src) updates) (mem : ℕ → α)
    (htoken : token < job.numTokens) (hj : j < hiddenSize) :
    applyUpdates updates mem (job.row token * hiddenSize + j) =
      job.outcome hiddenSize src token j (mem (job.row token * hiddenSize + j)) := by
  have hwhole : j < hiddenSize / chunkSize hiddenSize * chunkSize hiddenSize := by
    rwa [Nat.div_mul_cancel hdvd]
  obtain ⟨c, tid, hgrid, hmem⟩ := exists_inGrid htoken hwhole
  refine (h.apply_of_owner (i := (token, c, tid)) ?_ mem).trans (applyUpdates_thread hgrid hmem mem)
  intro i hi u hu hua
  -- a thread that updates the same address has the same row and the same element
  obtain ⟨hgrid', pass, -, off, hoff, rfl⟩ := mem_thread.mp hu
  obtain ⟨hr, rfl⟩ := row_add_inj (hgrid'.lt_hiddenSize hoff) hj hua
  have htok : i.1 = token := hrow.inj _ hgrid'.1 _ htoken hr
  obtain ⟨task, htask, hchunk⟩ := exists_task hiddenSize
  rw [hchunk] at hoff hmem
  have hown := (mem_elements_iff htask hgrid'.2.2).mp hoff
  rw [(mem_elements_iff htask hgrid.2.2).mp hmem] at hown
  exact hi (Prod.ext htok hown.symm)

/-- What lies after the last whole chunk of a row belongs to no thread. -/
theorem ne_of_mem_thread {r j : ℕ} {u : ℕ × (α → α)} (hu : u ∈ job.thread hiddenSize src i)
    (hle : hiddenSize / chunkSize hiddenSize * chunkSize hiddenSize ≤ j) (hj : j < hiddenSize) :
    u.1 ≠ r * hiddenSize + j := by
  obtain ⟨hgrid, pass, -, off, hoff, rfl⟩ := mem_thread.mp hu
  intro heq
  have hlt := hgrid.lt hoff
  rw [(row_add_inj (hgrid.lt_hiddenSize hoff) hj heq).2] at hlt
  exact absurd hlt (Nat.not_lt.mpr hle)

theorem dvd_of_rowsMoved (h : RowsMoved job hiddenSize src given value) (hn : job.numTokens ≠ 0) :
    chunkSize hiddenSize ∣ hiddenSize := by
  by_contra hdvd
  have hlt : hiddenSize / chunkSize hiddenSize * chunkSize hiddenSize < hiddenSize :=
    Nat.lt_of_le_of_ne (Nat.div_mul_le_self _ _) fun heq => hdvd ⟨_, (Nat.mul_comm _ _ ▸ heq).symm⟩
  have hle : hiddenSize ≤ job.numTokens * hiddenSize :=
    Nat.le_mul_of_pos_left _ (Nat.pos_of_ne_zero hn)
  obtain ⟨i, u, hu, hua⟩ := h.covers _ (Nat.lt_of_lt_of_le hlt hle)
  refine ne_of_mem_thread hu (Nat.le_refl _) hlt (r := 0) ?_
  rw [hua, Nat.zero_mul, Nat.zero_add]

/-- **A launch fills its rows** if the chunks divide them, and only then. -/
theorem Meets.rowsMoved_iff (hjob : job.Meets hiddenSize src given value) :
    RowsMoved job hiddenSize src given value ↔
      job.numTokens = 0 ∨ chunkSize hiddenSize ∣ hiddenSize ∧ job.Launches hiddenSize := by
  constructor
  · intro h
    by_cases hn : job.numTokens = 0
    · exact .inl hn
    · exact .inr ⟨dvd_of_rowsMoved h hn, h.launches.resolve_left hn⟩
  · intro h
    have hthread : ∀ i, ∀ u ∈ job.thread hiddenSize src i, u.1 < job.numTokens * hiddenSize := by
      intro i u hu
      obtain ⟨hgrid, pass, -, off, hoff, rfl⟩ := mem_thread.mp hu
      calc job.row i.1 * hiddenSize + off
          < job.row i.1 * hiddenSize + hiddenSize :=
            Nat.add_lt_add_left (hgrid.lt_hiddenSize hoff) _
        _ = (job.row i.1 + 1) * hiddenSize := (Nat.succ_mul _ _).symm
        _ ≤ job.numTokens * hiddenSize := Nat.mul_le_mul_right _ (hjob.row.lt _ hgrid.1)
    have hreads : ∀ i, ∀ a ∈ job.reads hiddenSize i, given a := by
      intro i a ha
      obtain ⟨hgrid, pass, hpass, off, hoff, rfl⟩ := mem_reads.mp ha
      exact hjob.given _ hgrid.1 pass hpass off (hgrid.lt_hiddenSize hoff)
    refine ⟨h.imp_right And.right, exists_interleave job hiddenSize src, ?_, hthread, hreads, ?_⟩
    · intro a ha
      have hhidden : 0 < hiddenSize := Nat.pos_of_lt_mul_left ha
      obtain ⟨token, htoken, hr⟩ := hjob.row.surj (a / hiddenSize)
        ((Nat.div_lt_iff_lt_mul hhidden).mpr ha)
      have hdvd := (h.resolve_left fun h0 => by omega).1
      have hwhole : a % hiddenSize < hiddenSize / chunkSize hiddenSize * chunkSize hiddenSize := by
        rw [Nat.div_mul_cancel hdvd]
        exact Nat.mod_lt a hhidden
      obtain ⟨c, tid, hgrid, hmem⟩ := exists_inGrid htoken hwhole
      refine ⟨(token, c, tid), _, mem_thread.mpr ⟨hgrid, 0, hjob.passes, _, hmem, rfl⟩, ?_⟩
      rw [hr, Nat.mul_comm]
      exact Nat.div_add_mod a hiddenSize
    · intro updates mem hrun token htoken j hj
      have hdvd := (h.resolve_left fun h0 => by omega).1
      exact (apply_of_dvd hjob.row hdvd hrun mem htoken hj).trans (hjob.value token htoken j hj _)

end Job

/-! ### The four kernels -/

/-- The chunks divide the rows, the grid is not too high, and the offset of the last of `n` rows
fits an `int`. -/
def Whole (hiddenSize n : ℕ) : Prop :=
  (128 ∣ hiddenSize ∨ 960 ∣ hiddenSize) ∧ hiddenSize / chunkSize hiddenSize ≤ 65535 ∧
    (n - 1) * hiddenSize < 2 ^ 31

theorem Job.launches_iff {job : Job α} (hrow : IsPermutation job.numTokens job.row)
    (hpos : 0 < hiddenSize) (hn : job.numTokens ≠ 0) :
    chunkSize hiddenSize ∣ hiddenSize ∧ job.Launches hiddenSize ↔
      Whole hiddenSize job.numTokens ∧ ∀ token < job.numTokens, ∀ pass < job.passes,
        (job.source token pass).offset hiddenSize < 2 ^ 31 := by
  rw [chunkSize_dvd_iff]
  constructor
  · rintro ⟨hdvd, hlaunch⟩
    obtain ⟨token, htoken, hr⟩ := hrow.surj (job.numTokens - 1) (by omega)
    exact ⟨⟨hdvd, hlaunch.le, hr ▸ hlaunch.dest token htoken⟩, hlaunch.src⟩
  · rintro ⟨⟨hdvd, hle, hlast⟩, hsrc⟩
    refine ⟨hdvd, ?_, hle, ?_, hsrc⟩
    · have hchunk := chunkSize_dvd_iff.mpr hdvd
      exact Nat.div_pos (Nat.le_of_dvd hpos hchunk) (Nat.pos_of_dvd_of_pos hchunk hpos)
    · intro token htoken
      have hr := hrow.lt token htoken
      exact Nat.lt_of_le_of_lt (Nat.mul_le_mul_right _ (by omega)) hlast

/-- A kernel whose sources are found as soon as its rows are. -/
theorem Job.Meets.rowsMoved_iff_whole {job : Job α} {src : ℕ → α} {given : ℕ → Prop}
    {value : ℕ → ℕ → α} (hjob : job.Meets hiddenSize src given value) (hpos : 0 < hiddenSize)
    (hsource : ∀ token < job.numTokens, ∀ pass < job.passes,
      (job.source token pass).offset hiddenSize ≤ token * hiddenSize) :
    RowsMoved job hiddenSize src given value ↔
      job.numTokens = 0 ∨ Whole hiddenSize job.numTokens := by
  rw [hjob.rowsMoved_iff]
  refine or_congr_right' fun hn => ?_
  rw [launches_iff hjob.row hpos hn, and_iff_left_iff_imp]
  intro hwhole token htoken pass hpass
  have hle : token * hiddenSize ≤ (job.numTokens - 1) * hiddenSize :=
    Nat.mul_le_mul_right _ (by omega)
  exact Nat.lt_of_le_of_lt (Nat.le_trans (hsource token htoken pass hpass) hle) hwhole.2.2

theorem isPermutation_id (n : ℕ) : IsPermutation n fun i => i :=
  ⟨fun _ h => h, fun _ _ _ _ h => h, fun r h => ⟨r, h, rfl⟩⟩

/-- The sum of the rows, as `gather_and_sum_tokens` forms it: each row is added to what there
is. -/
def sumRows (hadd : α → α → α) (topk : ℕ) (x : ℕ → α) : α :=
  (List.range' 1 (topk - 1)).foldl (fun acc k => hadd (x k) acc) (x 0)

theorem foldl_passes_eq_sumRows (hadd : α → α → α) {topk : ℕ} (htopk : 0 < topk) (x : ℕ → α)
    (v : α) : (List.range (max 1 topk)).foldl
      (fun v pass => if pass = 0 then x pass else hadd (x pass) v) v = sumRows hadd topk x := by
  obtain ⟨k, rfl⟩ := Nat.exists_eq_succ_of_ne_zero (Nat.ne_of_gt htopk)
  rw [Nat.max_eq_right htopk, List.range_eq_range', List.range'_succ, List.foldl_cons,
    if_pos rfl, sumRows]
  refine List.foldl_ext _ _ _ fun acc pass hpass => if_neg ?_
  have := (List.mem_range'_1.mp hpass).1
  omega

theorem pointers_fit_iff {n topk : ℕ} (hn : n ≠ 0) (htopk : 0 < topk) :
    (∀ token < n, ∀ pass < max 1 topk, token * topk + pass < 2 ^ 31) ↔ n * topk ≤ 2 ^ 31 := by
  rw [Nat.max_eq_right htopk]
  obtain ⟨m, rfl⟩ := Nat.exists_eq_succ_of_ne_zero hn
  rw [Nat.succ_mul]
  constructor
  · intro h
    have := h m (Nat.lt_succ_self m) (topk - 1) (by omega)
    omega
  · intro h token htoken pass hpass
    have hle : token * topk ≤ m * topk := Nat.mul_le_mul_right _ (Nat.le_of_lt_succ htoken)
    omega

/-- Pointer `p` of the first `n` is the address of a row that has address `a`. -/
def InRows (hiddenSize n : ℕ) (srcPtr : ℕ → ℕ) (a : ℕ) : Prop :=
  ∃ p < n, srcPtr p ≤ a ∧ a < srcPtr p + hiddenSize

theorem row_add_lt {r j n : ℕ} (hr : r < n) (hj : j < hiddenSize) :
    r * hiddenSize + j < n * hiddenSize := by
  have hle : (r + 1) * hiddenSize ≤ n * hiddenSize := Nat.mul_le_mul_right _ hr
  rw [Nat.succ_mul] at hle
  omega

theorem permuteTokens_meets (src : ℕ → α) {numInputTokens numOutputTokens : ℕ} {mappings : ℕ → ℕ}
    (hin : 0 < numInputTokens) (hdvd : numInputTokens ∣ numOutputTokens)
    (hmap : IsPermutation numOutputTokens mappings) :
    (permuteTokens numInputTokens numOutputTokens mappings).Meets hiddenSize src
      (· < numInputTokens * hiddenSize)
      fun token j => src (token / (numOutputTokens / numInputTokens) * hiddenSize + j) := by
  refine ⟨hmap, Nat.one_pos, fun token htoken _ _ j hj => row_add_lt ?_ hj, fun _ _ _ _ _ => rfl⟩
  obtain ⟨topk, rfl⟩ := hdvd
  rw [Nat.mul_div_cancel_left _ hin]
  exact Nat.div_lt_of_lt_mul (by rwa [Nat.mul_comm])

theorem applyWeightsAndPermuteTokens_meets (hmul : α → α → α) (float2bfloat16 : F → α)
    (src : ℕ → α) {numTokens : ℕ} (weights : ℕ → F) {mappings : ℕ → ℕ}
    (hmap : IsPermutation numTokens mappings) :
    (applyWeightsAndPermuteTokens hmul float2bfloat16 numTokens weights mappings).Meets hiddenSize
      src (· < numTokens * hiddenSize)
      fun token j => hmul (src (token * hiddenSize + j)) (float2bfloat16 (weights token)) :=
  ⟨hmap, Nat.one_pos, fun _ htoken _ _ _ hj => row_add_lt htoken hj, fun _ _ _ _ _ => rfl⟩

theorem gatherTokens_meets (src : ℕ → α) (numTokens : ℕ) (srcPtr : ℕ → ℕ) :
    (gatherTokens numTokens srcPtr).Meets hiddenSize src (InRows hiddenSize numTokens srcPtr)
      fun token j => src (srcPtr token + j) := by
  refine ⟨isPermutation_id numTokens, Nat.one_pos, ?_, fun _ _ _ _ _ => rfl⟩
  intro token htoken _ _ j hj
  exact ⟨token, htoken, Nat.le_add_right _ _, Nat.add_lt_add_left hj _⟩

theorem gatherAndSumTokens_meets (hadd : α → α → α) (src : ℕ → α) (n : ℕ) {topk : ℕ}
    (htopk : 0 < topk) (srcPtr : ℕ → ℕ) :
    (gatherAndSumTokens hadd n topk srcPtr).Meets hiddenSize src
      (InRows hiddenSize (n * topk) srcPtr)
      fun token j => sumRows hadd topk fun k => src (srcPtr (token * topk + k) + j) := by
  refine ⟨isPermutation_id n, Nat.lt_of_lt_of_le Nat.one_pos (Nat.le_max_left 1 topk), ?_, ?_⟩
  · intro token htoken pass hpass j hj
    have hlt : token * topk + pass < n * topk :=
      row_add_lt htoken (by rwa [← Nat.max_eq_right htopk])
    exact ⟨token * topk + pass, hlt, Nat.le_add_right _ _, Nat.add_lt_add_left hj _⟩
  · intro token _ j _ v
    exact foldl_passes_eq_sumRows hadd htopk (fun k => src (srcPtr (token * topk + k) + j)) v

/-- **The kernels fill whole rows** exactly if 128 or 960 divides `hidden_size`, as long as the
offsets and the grid stay in their limits. -/
theorem rows_moved_iff (hpos : 0 < hiddenSize) (hmul hadd : α → α → α) (float2bfloat16 : F → α)
    (src : ℕ → α) :
    (∀ numInputTokens numOutputTokens mappings, 0 < numInputTokens →
      numInputTokens ∣ numOutputTokens → IsPermutation numOutputTokens mappings →
      (RowsMoved (permuteTokens numInputTokens numOutputTokens mappings) hiddenSize src
          (· < numInputTokens * hiddenSize)
          (fun token j => src (token / (numOutputTokens / numInputTokens) * hiddenSize + j)) ↔
        numOutputTokens = 0 ∨ Whole hiddenSize numOutputTokens)) ∧
    (∀ numTokens weights mappings, IsPermutation numTokens mappings →
      (RowsMoved (applyWeightsAndPermuteTokens hmul float2bfloat16 numTokens weights mappings)
          hiddenSize src (· < numTokens * hiddenSize)
          (fun token j => hmul (src (token * hiddenSize + j)) (float2bfloat16 (weights token))) ↔
        numTokens = 0 ∨ Whole hiddenSize numTokens)) ∧
    (∀ numTokens srcPtr,
      RowsMoved (gatherTokens numTokens srcPtr) hiddenSize src
          (InRows hiddenSize numTokens srcPtr) (fun token j => src (srcPtr token + j)) ↔
        numTokens = 0 ∨ Whole hiddenSize numTokens) ∧
    (∀ n topk srcPtr, 0 < topk →
      (RowsMoved (gatherAndSumTokens hadd n topk srcPtr) hiddenSize src
          (InRows hiddenSize (n * topk) srcPtr)
          (fun token j => sumRows hadd topk fun k => src (srcPtr (token * topk + k) + j)) ↔
        n = 0 ∨ Whole hiddenSize n ∧ n * topk ≤ 2 ^ 31)) := by
  refine ⟨?_, ?_, ?_, ?_⟩
  · intro numInputTokens numOutputTokens mappings hin hdvd hmap
    refine (permuteTokens_meets src hin hdvd hmap).rowsMoved_iff_whole hpos fun token _ _ _ => ?_
    exact Nat.mul_le_mul_right _ (Nat.div_le_self _ _)
  · intro numTokens weights mappings hmap
    refine (applyWeightsAndPermuteTokens_meets hmul float2bfloat16 src weights
      hmap).rowsMoved_iff_whole hpos fun token _ _ _ => ?_
    exact Nat.le_refl _
  · intro numTokens srcPtr
    refine (gatherTokens_meets src numTokens srcPtr).rowsMoved_iff_whole hpos fun token _ _ _ => ?_
    exact Nat.le_mul_of_pos_right token hpos
  · intro n topk srcPtr htopk
    have hjob := @gatherAndSumTokens_meets hiddenSize α hadd src n topk htopk srcPtr
    rw [hjob.rowsMoved_iff]
    refine or_congr_right' fun hn => ?_
    rw [Job.launches_iff hjob.row hpos hn]
    exact and_congr_right' (pointers_fit_iff hn htopk)

/-- Rows of 2880 elements, three chunks each: two tokens go to two rows each, in reverse; they
are weighted; a row is gathered three times; and four rows are added up in pairs. -/
theorem rows_moved_2880 :
    RowsMoved (permuteTokens 2 4 fun i => 3 - i) 2880 id (· < 2 * 2880)
      (fun token j => id (token / (4 / 2) * 2880 + j)) ∧
    RowsMoved (applyWeightsAndPermuteTokens (· * ·) id 2 (fun i => i + 1) fun i => 1 - i) 2880 id
      (· < 2 * 2880) (fun token j => id (token * 2880 + j) * id (token + 1)) ∧
    RowsMoved (gatherTokens 3 fun _ => 64) 2880 id (InRows 2880 3 fun _ => 64)
      (fun _ j => id (64 + j)) ∧
    RowsMoved (gatherAndSumTokens (· + ·) 2 2 fun i => i * 2880) 2880 id
      (InRows 2880 (2 * 2) fun i => i * 2880)
      (fun token j => sumRows (· + ·) 2 fun k => id ((token * 2 + k) * 2880 + j)) := by
  have hpos : 0 < 2880 := by decide
  obtain ⟨hpermute, hweights, hgather, hsum⟩ := rows_moved_iff hpos (· * ·) (· + ·) (id : ℕ → ℕ) id
  have hwhole : ∀ n ≤ 4, Whole 2880 n := by
    intro n hn
    have hmul : (n - 1) * 2880 ≤ 3 * 2880 := Nat.mul_le_mul_right _ (by omega)
    exact ⟨.inr ⟨3, rfl⟩, by decide, by omega⟩
  refine ⟨(hpermute 2 4 _ (by decide) ⟨2, rfl⟩ ⟨?_, ?_, ?_⟩).mpr (.inr (hwhole 4 (by decide))),
    (hweights 2 (fun i => i + 1) _ ⟨?_, ?_, ?_⟩).mpr (.inr (hwhole 2 (by decide))),
    (hgather 3 _).mpr (.inr (hwhole 3 (by decide))),
    (hsum 2 2 _ (by decide)).mpr (.inr ⟨hwhole 2 (by decide), by decide⟩)⟩
  · intro i hi
    omega
  · intro i hi j hj h
    omega
  · intro r hr
    exact ⟨3 - r, by omega, by omega⟩
  · intro i hi
    omega
  · intro i hi j hj h
    omega
  · intro r hr
    exact ⟨1 - r, by omega, by omega⟩

/-- Rows of 192 elements, which the launchers accept: there is one chunk of 128, and the last 64
elements of a row stay as they were, for each of the kernels. -/
theorem rows_not_moved_192 :
    (permuteTokens 1 1 id : Job ℕ).Launches 192 ∧
    (∀ updates mem, Interleave ((permuteTokens 1 1 id : Job ℕ).thread 192 id) updates →
      ∀ j, 128 ≤ j → j < 192 → applyUpdates updates mem j = mem j) ∧
    ¬RowsMoved (permuteTokens 1 1 id) 192 id (· < 1 * 192)
      (fun token j => token / (1 / 1) * 192 + j) ∧
    ¬RowsMoved (applyWeightsAndPermuteTokens (· * ·) id 1 (fun _ => 1) id) 192 id (· < 1 * 192)
      (fun token j => (token * 192 + j) * 1) ∧
    ¬RowsMoved (gatherTokens 1 fun _ => 0) 192 id (InRows 192 1 fun _ => 0) (fun _ j => 0 + j) ∧
    ¬RowsMoved (gatherAndSumTokens (· + ·) 1 2 fun i => i * 192) 192 id
      (InRows 192 2 fun i => i * 192)
      (fun token j => sumRows (· + ·) 2 fun k => (token * 2 + k) * 192 + j) := by
  have hdvd : ¬chunkSize 192 ∣ 192 := by decide
  refine ⟨⟨by decide, by decide, ?_, ?_⟩, ?_, ?_, ?_, ?_, ?_⟩
  · intro token htoken
    obtain rfl : token = 0 := Nat.lt_one_iff.mp htoken
    decide
  · intro token htoken pass _
    obtain rfl : token = 0 := Nat.lt_one_iff.mp htoken
    show 0 / (1 / 1) * 192 < 2 ^ 31
    decide
  · intro updates mem h j hle hj
    have hstale := h.frame (a := 0 * 192 + j)
      (fun i u hu => Job.ne_of_mem_thread hu (by exact hle) hj) mem
    rwa [Nat.zero_mul, Nat.zero_add] at hstale
  all_goals exact fun h => hdvd (Job.dvd_of_rowsMoved h Nat.one_ne_zero)

/-! ### The kernels and the engine

The engine takes a tensor for the list of its rows, and `permute_tokens` and
`apply_weights_and_permute_tokens` for functions on such lists. -/

def rowOf (hiddenSize : ℕ) (mem : ℕ → α) (r : ℕ) : List α :=
  (List.range hiddenSize).map fun j => mem (r * hiddenSize + j)

/-- The first `n` rows of a memory. -/
def rows (hiddenSize n : ℕ) (mem : ℕ → α) : List (List α) :=
  (List.range n).map (rowOf hiddenSize mem)

@[simp] theorem length_rows (hiddenSize n : ℕ) (mem : ℕ → α) :
    (rows hiddenSize n mem).length = n := by
  rw [rows, List.length_map, List.length_range]

theorem isPermutation_of_perm {n : ℕ} {mappings : List ℕ} (h : mappings.Perm (List.range n)) :
    IsPermutation n fun i => mappings.getD i 0 := by
  have hlen : mappings.length = n := Scatter.pos_length h
  have hnd : mappings.Nodup := Scatter.pos_nodup h
  have hget : ∀ i (hi : i < mappings.length), mappings.getD i 0 = mappings[i] :=
    fun i hi => List.getD_eq_getElem _ _ hi
  refine ⟨fun i hi => ?_, fun i hi j hj hij => ?_, fun r hr => ?_⟩
  · rw [← hlen] at hi
    exact List.mem_range.mp (h.mem_iff.mp (hget i hi ▸ List.getElem_mem hi))
  · rw [← hlen] at hi hj
    exact (hnd.getElem_inj_iff).mp ((hget i hi).symm.trans (hij.trans (hget j hj)))
  · obtain ⟨i, hi, hir⟩ := List.getElem_of_mem (h.mem_iff.mpr (List.mem_range.mpr hr))
    exact ⟨i, hlen ▸ hi, (hget i hi).trans hir⟩

/-- A launch that moves its rows leaves the rows that a scatter leaves. -/
theorem RowsMoved.rows_eq_scatter {job : Job α} {src : ℕ → α} {given : ℕ → Prop}
    {value : ℕ → ℕ → α} {updates : List (ℕ × (α → α))} {mappings : List ℕ} {xs : List (List α)}
    (h : RowsMoved job hiddenSize src given value)
    (hmap : mappings.Perm (List.range job.numTokens))
    (hrow : job.row = fun i => mappings.getD i 0) (hlen : xs.length = job.numTokens)
    (hxs : ∀ token < job.numTokens,
      xs[token]? = some ((List.range hiddenSize).map (value token)))
    (hrun : Interleave (job.thread hiddenSize src) updates) (mem : ℕ → α) :
    Scatter.scatter (List.replicate job.numTokens default) mappings xs =
      rows hiddenSize job.numTokens (applyUpdates updates mem) := by
  have hlenMap : mappings.length = job.numTokens := Scatter.pos_length hmap
  refine List.ext_getElem? fun r => ?_
  by_cases hr : r < job.numTokens
  · obtain ⟨i, hi, hir⟩ := (isPermutation_of_perm hmap).surj r hr
    have hget : mappings[i]? = some r := by
      rw [List.getElem?_eq_getElem (hlenMap ▸ hi), ← hir, List.getD_eq_getElem]
    rw [Scatter.getElem?_scatter (Scatter.pos_nodup hmap) (hlenMap.trans hlen.symm)
      hget (by rwa [List.length_replicate]), hxs i hi, rows, List.getElem?_map,
      List.getElem?_range hr, Option.map_some, rowOf]
    refine congrArg some (List.map_congr_left fun j hj => ?_)
    rw [← h.values updates mem hrun i hi j (List.mem_range.mp hj), hrow, ← hir]
  · rw [List.getElem?_eq_none (by rw [Scatter.length_scatter, List.length_replicate]; omega),
      List.getElem?_eq_none (by rw [length_rows]; omega)]

/-- **`permute_tokens` is what the engine takes it for.** -/
theorem permuteTokens_refines {numInputTokens : ℕ} {mappings : List ℕ} {src : ℕ → α}
    {updates : List (ℕ × (α → α))} (hin : 0 < numInputTokens)
    (hdvd : numInputTokens ∣ mappings.length)
    (hmap : mappings.Perm (List.range mappings.length)) (hpos : 0 < hiddenSize)
    (hwhole : Whole hiddenSize mappings.length)
    (hrun : Interleave ((permuteTokens numInputTokens mappings.length
      fun i => mappings.getD i 0).thread hiddenSize src) updates) (mem : ℕ → α) :
    StreamEP.permuteTokens (rows hiddenSize numInputTokens src) mappings =
      .ok (rows hiddenSize mappings.length (applyUpdates updates mem)) := by
  have hperm := isPermutation_of_perm hmap
  have hmoved := ((permuteTokens_meets src hin hdvd hperm).rowsMoved_iff_whole hpos
    fun _ _ _ _ => Nat.mul_le_mul_right _ (Nat.div_le_self _ _)).mpr (.inr hwhole)
  have hxs : ∀ token < mappings.length, ((List.range mappings.length).map fun i =>
      (rows hiddenSize numInputTokens src).getD (i / (mappings.length / numInputTokens))
        default)[token]? = some ((List.range hiddenSize).map fun j =>
          src (token / (mappings.length / numInputTokens) * hiddenSize + j)) := by
    intro token htoken
    have hlt : token / (mappings.length / numInputTokens) < numInputTokens := by
      refine Nat.div_lt_of_lt_mul ?_
      rwa [Nat.div_mul_cancel hdvd]
    rw [List.getElem?_map, List.getElem?_range htoken, Option.map_some, rows,
      List.getD_eq_getElem _ _ (by rwa [List.length_map, List.length_range]), List.getElem_map,
      List.getElem_range, rowOf]
  have hscatter := hmoved.rows_eq_scatter hmap rfl
    (by rw [List.length_map, List.length_range]; rfl) hxs hrun mem
  rw [StreamEP.permuteTokens, length_rows]
  rw [ensure_of_true (Nat.ne_of_gt hin), ensure_of_true (Nat.mod_eq_zero_of_dvd hdvd)]
  exact congrArg Except.ok hscatter

/-- Two tokens of 2880 elements go to two rows each. -/
theorem permuteTokens_refines_2880 : ∃ updates : List (ℕ × (ℕ → ℕ)),
    StreamEP.permuteTokens (rows 2880 2 id) [3, 1, 0, 2] =
      .ok (rows 2880 4 (applyUpdates updates 0)) := by
  obtain ⟨updates, hrun⟩ :=
    Job.exists_interleave (permuteTokens 2 4 fun i => [3, 1, 0, 2].getD i 0) 2880 id
  exact ⟨updates, permuteTokens_refines (by decide) (by decide) (by decide) (by decide)
    ⟨.inr ⟨3, rfl⟩, by decide, by decide⟩ hrun 0⟩

/-- **`apply_weights_and_permute_tokens` is what the engine takes it for**: a row is scaled
element by element. -/
theorem applyWeightsAndPermuteTokens_refines {hmul : α → α → α} {float2bfloat16 : F → α}
    {weights : List F} {w₀ : F} {mappings : List ℕ} {src : ℕ → α}
    {updates : List (ℕ × (α → α))} (hmap : mappings.Perm (List.range weights.length))
    (hpos : 0 < hiddenSize) (hwhole : Whole hiddenSize weights.length)
    (hrun : Interleave ((applyWeightsAndPermuteTokens hmul float2bfloat16 weights.length
      (fun i => weights.getD i w₀) fun i => mappings.getD i 0).thread hiddenSize src) updates)
    (mem : ℕ → α) :
    StreamEP.applyWeightsAndPermuteTokens (fun w => List.map fun x => hmul x (float2bfloat16 w))
        (rows hiddenSize weights.length src) weights mappings =
      rows hiddenSize weights.length (applyUpdates updates mem) := by
  have hmoved := ((applyWeightsAndPermuteTokens_meets hmul float2bfloat16 src
    (fun i => weights.getD i w₀) (isPermutation_of_perm hmap)).rowsMoved_iff_whole hpos
    fun _ _ _ _ => Nat.le_refl _).mpr (.inr hwhole)
  rw [StreamEP.applyWeightsAndPermuteTokens, length_rows]
  refine hmoved.rows_eq_scatter hmap rfl ?_ ?_ hrun mem
  · rw [List.length_zipWith, length_rows, Nat.min_self]
    rfl
  · intro token htoken
    have htoken' : token < weights.length := htoken
    rw [List.getElem?_zipWith, List.getElem?_eq_getElem htoken', rows, List.getElem?_map,
      List.getElem?_range htoken', Option.map_some, rowOf, List.getD_eq_getElem _ _ htoken']
    simp only [List.map_map]
    rfl

end TokenKernels

end StreamEP

import StreamEP.Engine.CudaGraph
import Mathlib.Data.Nat.Log

/-!
# Attention over a sliding window

`sliding_window_decode_attention` of `disagmoe/models/sliding_window.py` attends to the last `W`
positions of a sequence in two parts. `_sw_prep_kernel` gives flash attention a table that starts
at the first page wholly inside the window, and `_sw_merge_kernel` gathers the positions before
that page by itself. Each kernel computes where the window starts and where its first whole page is
on its own, with a rounding of its own.

A position of a sequence is in the slot `page * P + offset` of the cache, where the page is the
entry of the sequence's table. `flash_attn_with_kvcache` appends the new token at the logical
position `cache_seqlens` of the table it is given and attends to the positions up to it.

## Main results

* `SlidingWindow.cacheSlot_trimmedTable` — the trimmed table is the table from the first whole page
* `SlidingWindow.sliding_window_covers`
-/

namespace StreamEP

namespace SlidingWindow

open CUDAGraphAttnExecutor

/-- `triton.next_power_of_2` -/
def nextPowerOf2 (n : ℕ) : ℕ := 2 ^ Nat.clog 2 n

/-- `NB` -/
def tableWidth (pageSize window : ℕ) : ℕ := nextPowerOf2 (window / pageSize + 1)

/-- The slot of a position, by a table with the given stride. -/
def cacheSlot (pageSize stride : ℕ) (blockTable : ℕ → ℤ) (row position : ℕ) : ℤ :=
  blockTable (row * stride + position / pageSize) * pageSize + (position % pageSize : ℕ)

/-! ### The two parts -/

section Parts

variable (pageSize window stride numPages : ℕ) (contextLens blockTable : ℕ → ℤ) (row : ℕ)

/-- The column of `block_table` that `_sw_prep_kernel` copies to column `j`. -/
def prepColumn (j : ℕ) : ℤ :=
  min (firstWhole pageSize window (contextLens row) + j) (numPages - 1)

/-- `bt_a` as `_sw_prep_kernel` leaves it -/
def trimmedTable : ℕ → ℤ :=
  windowTable pageSize window (tableWidth pageSize window) stride numPages contextLens blockTable

/-- `seq_a` of a row -/
def seqA : ℤ := windowSeqlens pageSize window contextLens row

/-- The slot to which flash attention appends the new token. -/
def appendSlot : ℤ :=
  cacheSlot pageSize (tableWidth pageSize window)
    (trimmedTable pageSize window stride numPages contextLens blockTable) row
    (seqA pageSize window contextLens row).toNat

/-- The slots that flash attention reads: logical positions up to `seq_a`, which is the new
token. -/
def flashSlots : List ℤ :=
  (List.range ((seqA pageSize window contextLens row).toNat + 1)).map
    (cacheSlot pageSize (tableWidth pageSize window)
      (trimmedTable pageSize window stride numPages contextLens blockTable) row)

/-- `start` -/
def windowStart (c : ℤ) : ℤ := max (c + 1 - window) 0

/-- `off` of `_sw_merge_kernel` -/
def boundaryOffset (c : ℤ) : ℤ := windowStart window c % pageSize

/-- `cnt` -/
def boundaryCount (c : ℤ) : ℤ :=
  if boundaryOffset pageSize window c > 0 then pageSize - boundaryOffset pageSize window c else 0

/-- `b0` -/
def boundaryColumn (c : ℤ) : ℤ := windowStart window c / pageSize

/-- The offset in the boundary page that lane `p` addresses. -/
def boundaryLane (c : ℤ) (p : ℕ) : ℤ :=
  min (boundaryOffset pageSize window c + p) (pageSize - 1)

/-- The slots that `_sw_merge_kernel` reads: one for every valid lane. -/
def boundarySlots : List ℤ :=
  ((List.range pageSize).filter fun p : ℕ => (p : ℤ) < boundaryCount pageSize window
    (contextLens row)).map fun p =>
      blockTable (row * stride + (boundaryColumn pageSize window (contextLens row)).toNat) *
        pageSize + boundaryLane pageSize window (contextLens row) p

end Parts

/-! ### The window in natural numbers -/

section Arithmetic

variable {pageSize window c : ℕ}

theorem le_tableWidth (pageSize window : ℕ) : window / pageSize + 1 ≤ tableWidth pageSize window :=
  Nat.le_pow_clog (by decide) _

theorem windowStart_eq (window c : ℕ) : windowStart window c = ((c + 1 - window : ℕ) : ℤ) := by
  rw [windowStart]
  omega

/-- The first whole page, counted up from the start of the window. -/
theorem firstWhole_eq (hpage : 0 < pageSize) (window c : ℕ) :
    firstWhole pageSize window c = (((c + 1 - window + (pageSize - 1)) / pageSize : ℕ) : ℤ) := by
  have hstart := windowStart_eq window c
  rw [windowStart] at hstart
  rw [firstWhole, hstart, Int.natCast_div]
  congr 1
  omega

theorem boundaryCount_eq (hpage : 0 < pageSize) (window c : ℕ) :
    boundaryCount pageSize window c = ((if (c + 1 - window) % pageSize = 0 then 0
      else pageSize - (c + 1 - window) % pageSize : ℕ) : ℤ) := by
  have hoff : boundaryOffset pageSize window c = (((c + 1 - window) % pageSize : ℕ) : ℤ) := by
    rw [boundaryOffset, windowStart_eq, Int.natCast_mod]
  have hlt := Nat.mod_lt (c + 1 - window) hpage
  rw [boundaryCount, hoff]
  split_ifs <;> omega

theorem start_add_count (hpage : 0 < pageSize) (start : ℕ) :
    start + (if start % pageSize = 0 then 0 else pageSize - start % pageSize) =
      (start + (pageSize - 1)) / pageSize * pageSize := by
  have hdiv := Nat.div_add_mod' start pageSize
  have hmod := Nat.mod_lt start hpage
  split_ifs with hzero
  · have hq : (start + (pageSize - 1)) / pageSize = start / pageSize := by
      refine Nat.div_eq_of_lt_le (by omega) ?_
      rw [Nat.succ_mul]
      omega
    rw [hq]
    omega
  · have hq : (start + (pageSize - 1)) / pageSize = start / pageSize + 1 := by
      refine Nat.div_eq_of_lt_le ?_ ?_
      · rw [Nat.succ_mul]
        omega
      · rw [Nat.succ_mul, Nat.succ_mul]
        omega
    rw [hq, Nat.succ_mul]
    omega

theorem firstWhole_mul_le (hpage : 0 < pageSize) (hwindow : pageSize ≤ window) (c : ℕ) :
    (c + 1 - window + (pageSize - 1)) / pageSize * pageSize ≤ c := by
  rcases Nat.eq_zero_or_pos (c + 1 - window) with hzero | hpos
  · rw [hzero, Nat.zero_add, Nat.div_eq_of_lt (by omega), Nat.zero_mul]
    exact Nat.zero_le c
  · refine (Nat.div_mul_le_self _ _).trans ?_
    omega

theorem start_le_firstWhole_mul (hpage : 0 < pageSize) (start : ℕ) :
    start ≤ (start + (pageSize - 1)) / pageSize * pageSize := by
  rw [← start_add_count hpage]
  exact Nat.le_add_right _ _

end Arithmetic

/-! ### Flash attention -/

section Flash

variable {pageSize window stride numPages c row : ℕ} {contextLens blockTable : ℕ → ℤ}

/-- `b1` as a natural number. -/
def wholeColumn (pageSize window c : ℕ) : ℕ := (c + 1 - window + (pageSize - 1)) / pageSize

theorem seqA_eq (hpage : 0 < pageSize) (hwindow : pageSize ≤ window)
    (hc : contextLens row = c) :
    seqA pageSize window contextLens row =
      ((c - wholeColumn pageSize window c * pageSize : ℕ) : ℤ) := by
  have hle := firstWhole_mul_le hpage hwindow c
  rw [seqA, windowSeqlens, hc, firstWhole_eq hpage, wholeColumn, Nat.cast_sub hle, Nat.cast_mul]

/-- A position from the first whole page on, by its logical position. -/
theorem div_add_wholeColumn (hpage : 0 < pageSize) (q l : ℕ) :
    (q * pageSize + l) / pageSize = q + l / pageSize ∧
      (q * pageSize + l) % pageSize = l % pageSize := by
  constructor
  · rw [Nat.add_comm, Nat.add_mul_div_right _ _ hpage, Nat.add_comm]
  · rw [Nat.add_comm, Nat.add_mul_mod_self_right]

/-- The columns that flash attention needs: below the width of the trimmed table, and copied from
the column that is meant. -/
theorem column_lt (hpage : 0 < pageSize) (hwindow : pageSize ≤ window)
    (hpages : c / pageSize + 1 ≤ numPages) {l : ℕ}
    (hl : l ≤ c - wholeColumn pageSize window c * pageSize) :
    l / pageSize < tableWidth pageSize window ∧
      wholeColumn pageSize window c + l / pageSize ≤ c / pageSize ∧ c / pageSize < numPages := by
  have hle := firstWhole_mul_le hpage hwindow c
  have hstart := start_le_firstWhole_mul hpage (c + 1 - window)
  rw [← wholeColumn] at hle hstart
  refine ⟨?_, ?_, hpages⟩
  · refine lt_of_lt_of_le ?_ (le_tableWidth pageSize window)
    refine Nat.lt_succ_of_le (Nat.div_le_div_right ?_)
    omega
  · rw [← (div_add_wholeColumn hpage _ l).1]
    exact Nat.div_le_div_right (by omega)

/-- **The trimmed table is the table from the first whole page on**, as far as flash attention
reads it. -/
theorem cacheSlot_trimmedTable (hpage : 0 < pageSize) (hwindow : pageSize ≤ window)
    (hpages : c / pageSize + 1 ≤ numPages) (hc : contextLens row = c) {l : ℕ}
    (hl : l ≤ c - wholeColumn pageSize window c * pageSize) :
    cacheSlot pageSize (tableWidth pageSize window)
        (trimmedTable pageSize window stride numPages contextLens blockTable) row l =
      cacheSlot pageSize stride blockTable row
        (wholeColumn pageSize window c * pageSize + l) := by
  obtain ⟨hwidth, hcol, hlast⟩ := column_lt hpage hwindow hpages hl
  obtain ⟨hdiv, hmod⟩ := div_add_wholeColumn hpage (wholeColumn pageSize window c) l
  obtain ⟨hrow, hcolumn⟩ := div_add_wholeColumn (Nat.zero_lt_of_lt hwidth) row (l / pageSize)
  rw [Nat.div_eq_of_lt hwidth, Nat.add_zero] at hrow
  rw [Nat.mod_eq_of_lt hwidth] at hcolumn
  have hmin : min (firstWhole pageSize window c + ((l / pageSize : ℕ) : ℤ)) (numPages - 1) =
      ((wholeColumn pageSize window c + l / pageSize : ℕ) : ℤ) := by
    rw [firstWhole_eq hpage, ← wholeColumn, Nat.cast_add]
    omega
  rw [cacheSlot, trimmedTable, windowTable, hrow, hcolumn, hc, hmin, Int.toNat_natCast, cacheSlot,
    hdiv, hmod]

theorem flashSlots_eq (hpage : 0 < pageSize) (hwindow : pageSize ≤ window)
    (hpages : c / pageSize + 1 ≤ numPages) (hc : contextLens row = c) :
    flashSlots pageSize window stride numPages contextLens blockTable row =
      (List.range' (wholeColumn pageSize window c * pageSize)
        (c + 1 - wholeColumn pageSize window c * pageSize)).map
          (cacheSlot pageSize stride blockTable row) := by
  have hle : wholeColumn pageSize window c * pageSize ≤ c := firstWhole_mul_le hpage hwindow c
  rw [flashSlots, seqA_eq hpage hwindow hc, Int.toNat_natCast, List.range'_eq_map_range,
    List.map_map, ← Nat.sub_add_comm hle]
  refine List.map_congr_left fun l hl => ?_
  rw [List.mem_range] at hl
  exact cacheSlot_trimmedTable hpage hwindow hpages hc (by omega)

end Flash

/-! ### The boundary -/

section Boundary

variable {pageSize window stride c row : ℕ} {contextLens blockTable : ℕ → ℤ}

theorem filter_range_lt {n m : ℕ} (h : m ≤ n) :
    ((List.range n).filter fun p : ℕ => (p : ℤ) < (m : ℤ)) = List.range m := by
  obtain ⟨k, rfl⟩ := Nat.exists_eq_add_of_le h
  rw [List.range_add, List.filter_append, List.filter_eq_self.mpr, List.filter_eq_nil_iff.mpr,
    List.append_nil]
  · intro p hp
    obtain ⟨q, -, rfl⟩ := List.mem_map.mp hp
    simp
  · intro p hp
    simpa using hp

/-- The merge kernel reads the positions from the start of the window to the first whole page. -/
theorem boundarySlots_eq (hpage : 0 < pageSize) (hc : contextLens row = c) :
    boundarySlots pageSize window stride contextLens blockTable row =
      (List.range' (c + 1 - window)
        (wholeColumn pageSize window c * pageSize - (c + 1 - window))).map
          (cacheSlot pageSize stride blockTable row) := by
  have hcount : wholeColumn pageSize window c * pageSize - (c + 1 - window) =
      if (c + 1 - window) % pageSize = 0 then 0 else pageSize - (c + 1 - window) % pageSize := by
    rw [wholeColumn, ← start_add_count hpage]
    omega
  have hlt := Nat.mod_lt (c + 1 - window) hpage
  have hle : (if (c + 1 - window) % pageSize = 0 then 0
      else pageSize - (c + 1 - window) % pageSize) ≤ pageSize := by
    split_ifs <;> omega
  rw [boundarySlots, hc, boundaryCount_eq hpage, filter_range_lt hle, hcount,
    List.range'_eq_map_range, List.map_map]
  refine List.map_congr_left fun p hp => ?_
  rw [List.mem_range] at hp
  -- a lane below the count stays in the page of the start
  have hlane : (c + 1 - window) % pageSize + p < pageSize := by
    split_ifs at hp <;> omega
  have hdiv := Nat.div_add_mod' (c + 1 - window) pageSize
  obtain ⟨hcol, hmod⟩ := div_add_wholeColumn hpage ((c + 1 - window) / pageSize)
    ((c + 1 - window) % pageSize + p)
  rw [← Nat.add_assoc, hdiv, Nat.div_eq_of_lt hlane, Nat.add_zero] at hcol
  rw [← Nat.add_assoc, hdiv, Nat.mod_eq_of_lt hlane] at hmod
  rw [Function.comp_apply, cacheSlot, hcol, hmod, boundaryColumn, boundaryLane, boundaryOffset,
    windowStart_eq, ← Int.natCast_div, ← Int.natCast_mod, Int.toNat_natCast]
  congr 1
  omega

end Boundary

/-! ### The window -/

section Window

variable {pageSize window stride numPages c row : ℕ} {contextLens blockTable : ℕ → ℤ}

theorem cacheSlot_injOn (hpage : 0 < pageSize)
    (hdistinct : ∀ i ≤ c / pageSize, ∀ j ≤ c / pageSize,
      blockTable (row * stride + i) = blockTable (row * stride + j) → i = j)
    {x y : ℕ} (hx : x ≤ c) (hy : y ≤ c)
    (h : cacheSlot pageSize stride blockTable row x = cacheSlot pageSize stride blockTable row y) :
    x = y := by
  have hpage' : (0 : ℤ) < pageSize := by omega
  have hmod : x % pageSize = y % pageSize := by
    have hm := congrArg (· % (pageSize : ℤ)) h
    simp only [cacheSlot, Int.mul_add_emod_self_right] at hm
    rw [Int.emod_eq_of_lt (by omega) (by exact_mod_cast Nat.mod_lt x hpage),
      Int.emod_eq_of_lt (by omega) (by exact_mod_cast Nat.mod_lt y hpage)] at hm
    exact_mod_cast hm
  have hdiv : x / pageSize = y / pageSize := by
    refine hdistinct _ (Nat.div_le_div_right hx) _ (Nat.div_le_div_right hy) ?_
    rw [cacheSlot, cacheSlot, hmod] at h
    exact Int.eq_of_mul_eq_mul_right hpage'.ne' (add_right_cancel h)
  rw [← Nat.div_add_mod x pageSize, ← Nat.div_add_mod y pageSize, hdiv, hmod]

/-- **What the two parts do for a row** with `c` tokens before the new one, by a table whose rows
have `numPages` columns. -/
structure CoversWindow (pageSize window stride numPages c : ℕ) (contextLens blockTable : ℕ → ℤ)
    (row : ℕ) : Prop where
  /-- `seq_a` is a length. -/
  seqA_nonneg : 0 ≤ seqA pageSize window contextLens row
  /-- The two parts read the slots of the positions of the window, in order. -/
  window_eq : boundarySlots pageSize window stride contextLens blockTable row ++
      flashSlots pageSize window stride numPages contextLens blockTable row =
    (List.range' (c + 1 - window) (c + 1 - (c + 1 - window))).map
      (cacheSlot pageSize stride blockTable row)
  once : (boundarySlots pageSize window stride contextLens blockTable row ++
    flashSlots pageSize window stride numPages contextLens blockTable row).Nodup
  /-- The new token is written to the page and the offset of position `c`. -/
  append_eq : appendSlot pageSize window stride numPages contextLens blockTable row =
    blockTable (row * stride + c / pageSize) * pageSize + (c % pageSize : ℕ)
  /-- The columns that flash attention needs are in the trimmed table and are not clamped. -/
  columns : ∀ l : ℕ, (l : ℤ) ≤ seqA pageSize window contextLens row →
    l / pageSize < tableWidth pageSize window ∧
    prepColumn pageSize window numPages contextLens row (l / pageSize) =
      firstWhole pageSize window (contextLens row) + (l / pageSize : ℕ)
  /-- Every column that `_sw_prep_kernel` reads is in the row. -/
  prep_bounds : ∀ j < tableWidth pageSize window,
    0 ≤ prepColumn pageSize window numPages contextLens row j ∧
    prepColumn pageSize window numPages contextLens row j < numPages
  /-- The column that `_sw_merge_kernel` reads is in the row. -/
  merge_bounds : 0 ≤ boundaryColumn pageSize window (contextLens row) ∧
    boundaryColumn pageSize window (contextLens row) < numPages
  /-- Every lane of `_sw_merge_kernel` addresses the page. -/
  lanes : ∀ p < pageSize, 0 ≤ boundaryLane pageSize window (contextLens row) p ∧
    boundaryLane pageSize window (contextLens row) p < pageSize
  /-- With pages of a cache of `numBlocks`, every slot is in the cache. -/
  slots : ∀ numBlocks : ℕ, (∀ i ≤ c / pageSize, 0 ≤ blockTable (row * stride + i) ∧
      blockTable (row * stride + i) < numBlocks) →
    ∀ slot ∈ boundarySlots pageSize window stride contextLens blockTable row ++
      flashSlots pageSize window stride numPages contextLens blockTable row,
      0 ≤ slot ∧ slot < numBlocks * pageSize

/-- The slot of a position of the sequence is in the cache. -/
theorem cacheSlot_bounds (hpage : 0 < pageSize) {numBlocks x : ℕ}
    (hblocks : ∀ i ≤ c / pageSize, 0 ≤ blockTable (row * stride + i) ∧
      blockTable (row * stride + i) < numBlocks) (hx : x ≤ c) :
    0 ≤ cacheSlot pageSize stride blockTable row x ∧
      cacheSlot pageSize stride blockTable row x < numBlocks * pageSize := by
  obtain ⟨hge, hlt⟩ := hblocks _ (Nat.div_le_div_right hx)
  have hmod : ((x % pageSize : ℕ) : ℤ) < pageSize := by exact_mod_cast Nat.mod_lt x hpage
  rw [cacheSlot]
  constructor
  · have := Int.mul_nonneg hge (Int.natCast_nonneg pageSize)
    omega
  · calc blockTable (row * stride + x / pageSize) * pageSize + (x % pageSize : ℕ)
        < blockTable (row * stride + x / pageSize) * pageSize + pageSize := by omega
      _ = (blockTable (row * stride + x / pageSize) + 1) * pageSize := by ring
      _ ≤ numBlocks * pageSize := by gcongr; omega

/-- The two parts read the slots of the positions of the window, in order. -/
theorem boundarySlots_append_flashSlots (hpage : 0 < pageSize) (hwindow : pageSize ≤ window)
    (hc : contextLens row = c) (hpages : c / pageSize + 1 ≤ numPages) :
    boundarySlots pageSize window stride contextLens blockTable row ++
        flashSlots pageSize window stride numPages contextLens blockTable row =
      (List.range' (c + 1 - window) (c + 1 - (c + 1 - window))).map
        (cacheSlot pageSize stride blockTable row) := by
  have hle : wholeColumn pageSize window c * pageSize ≤ c := firstWhole_mul_le hpage hwindow c
  have hstart : c + 1 - window ≤ wholeColumn pageSize window c * pageSize :=
    start_le_firstWhole_mul hpage (c + 1 - window)
  rw [boundarySlots_eq hpage hc, flashSlots_eq hpage hwindow hpages hc, ← List.map_append]
  congr 1
  have happend := @List.range'_append_1 (c + 1 - window)
    (wholeColumn pageSize window c * pageSize - (c + 1 - window))
    (c + 1 - wholeColumn pageSize window c * pageSize)
  rw [Nat.add_sub_cancel' hstart] at happend
  rw [happend]
  congr 1
  omega

theorem boundaryColumn_bounds (hwindow : 0 < window) (hpages : c / pageSize + 1 ≤ numPages) :
    0 ≤ boundaryColumn pageSize window c ∧ boundaryColumn pageSize window c < numPages := by
  have hcol : (c + 1 - window) / pageSize ≤ c / pageSize := Nat.div_le_div_right (by omega)
  rw [boundaryColumn, windowStart_eq, ← Int.natCast_div]
  constructor
  · exact Int.natCast_nonneg _
  · exact_mod_cast Nat.lt_of_le_of_lt hcol hpages

/-- **The split covers the window exactly.** For every page size, window of at least a page, number
of tokens and row with a column for each of their pages: the boundary and the positions that flash
attention attends to are the last `window` positions, each once, and no access leaves its row, its
page or the cache. -/
theorem sliding_window_covers (hpage : 0 < pageSize) (hwindow : pageSize ≤ window)
    (hc : contextLens row = c) (hpages : c / pageSize + 1 ≤ numPages)
    (hdistinct : ∀ i ≤ c / pageSize, ∀ j ≤ c / pageSize,
      blockTable (row * stride + i) = blockTable (row * stride + j) → i = j) :
    CoversWindow pageSize window stride numPages c contextLens blockTable row := by
  have hle : wholeColumn pageSize window c * pageSize ≤ c := firstWhole_mul_le hpage hwindow c
  have hseq := @seqA_eq pageSize window c row contextLens hpage hwindow hc
  have hall := @boundarySlots_append_flashSlots pageSize window stride numPages c row contextLens
    blockTable hpage hwindow hc hpages
  have hmem : ∀ x ∈ List.range' (c + 1 - window) (c + 1 - (c + 1 - window)), x ≤ c := by
    intro x hx
    rw [List.mem_range'_1] at hx
    omega
  constructor
  case seqA_nonneg =>
    rw [hseq]
    exact Int.natCast_nonneg _
  case window_eq => exact hall
  case once =>
    rw [hall]
    refine List.Nodup.map_on (fun x hx y hy h => ?_) List.nodup_range'
    exact cacheSlot_injOn hpage hdistinct (hmem x hx) (hmem y hy) h
  case append_eq =>
    rw [appendSlot, hseq, Int.toNat_natCast, cacheSlot_trimmedTable hpage hwindow hpages hc le_rfl,
      Nat.add_sub_cancel' hle, cacheSlot]
  case columns =>
    intro l hl
    rw [hseq] at hl
    obtain ⟨hwidth, hcol, -⟩ := column_lt hpage hwindow hpages (by exact_mod_cast hl)
    refine ⟨hwidth, min_eq_left ?_⟩
    rw [hc, firstWhole_eq hpage, ← wholeColumn]
    omega
  case prep_bounds =>
    intro j hj
    have hlast : wholeColumn pageSize window c ≤ c / pageSize :=
      (Nat.le_div_iff_mul_le hpage).mpr hle
    rw [prepColumn, hc, firstWhole_eq hpage, ← wholeColumn]
    omega
  case merge_bounds =>
    rw [hc]
    exact boundaryColumn_bounds (Nat.lt_of_lt_of_le hpage hwindow) hpages
  case lanes =>
    intro p hp
    have hoff : 0 ≤ boundaryOffset pageSize window (contextLens row) :=
      Int.emod_nonneg _ (by omega)
    rw [boundaryLane]
    omega
  case slots =>
    intro numBlocks hblocks slot hslot
    rw [hall] at hslot
    obtain ⟨x, hx, rfl⟩ := List.mem_map.mp hslot
    exact cacheSlot_bounds hpage hblocks (hmem x hx)

/-- Pages of 16, a window of 40 and 100 tokens: the window starts at 61, in the middle of a page. -/
theorem sliding_window_covers_unaligned :
    ∃ blockTable : ℕ → ℤ,
      CoversWindow 16 40 8 7 100 (fun _ => 100) blockTable 0 ∧
      seqA 16 40 (fun _ => 100) 0 = 36 ∧ boundaryCount 16 40 100 = 3 :=
  ⟨fun a => a, sliding_window_covers (by decide) (by decide) rfl (by decide)
    (fun i _ j _ h => by simpa using h), by decide, by decide⟩

end Window

end SlidingWindow

end StreamEP

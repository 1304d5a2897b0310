import StreamEP.Kv.BlockManager

/-!
# The tables given to the kernels

Both variants of `prepare_block_table` lay the block lists of a batch out in rows as wide as the
longest list and read the slot of the newest token of every request from its row. For requests
whose lists reach far enough, the entry read is one of the request's own blocks, not the `-1` that
fills up shorter rows.
-/

namespace StreamEP

variable {W : Type}

/-- The slot of position `pos` of a request with these blocks. -/
def slotAt (blockSize : ℕ) (blocks : List ℕ) (pos : ℕ) : ℕ :=
  blocks.getD (pos / blockSize) 0 * blockSize + pos % blockSize

namespace BlockManager

@[simp] theorem readAt_natCast {α : Type} {l : List α} {i : ℕ} {a : α} (h : l[i]? = some a) :
    readAt l (i : ℤ) = .ok a := by
  simp [readAt, h]

theorem map_range_getD {α β : Type} (f : α → β) (l : List α) (d : α) :
    (List.range l.length).map (fun i => f (l.getD i d)) = l.map f := by
  refine List.ext_getElem (by simp) fun i _ hi => ?_
  simp only [List.getElem_map, List.getElem_range]
  rw [List.getD_eq_getElem _ _ (by simpa using hi)]

theorem le_numPages {lists : List (List ℕ)} {l : List ℕ} (h : l ∈ lists) :
    l.length ≤ numPages lists := by
  have hmax : ∀ (xs : List ℕ) (a x : ℕ), (x = a ∨ x ∈ xs) → x ≤ xs.foldl max a := by
    intro xs
    induction xs with
    | nil => simp
    | cons y xs ih =>
      rintro a x (rfl | hx)
      · exact (le_max_left x y).trans (ih _ _ (.inl rfl))
      · rcases List.mem_cons.1 hx with rfl | hx
        · exact (le_max_right a x).trans (ih _ _ (.inl rfl))
        · exact ih _ _ (.inr hx)
  exact hmax _ 0 _ (.inr (List.mem_map_of_mem h))

def tableRows (lists : List (List ℕ)) : List (List ℤ) :=
  lists.map fun l => Scatter.padRow (numPages lists) (-1 : ℤ) (l.map (↑))

/-- The table is made of the lists, each filled up with `-1`. -/
theorem blockTable_eq (lists : List (List ℕ)) (k : ℕ) :
    blockTable (lists.length * numPages lists + k) (numPages lists) lists =
      (tableRows lists).flatten ++ List.replicate k (-1) := by
  have hpos : ∀ start, Scatter.rowPositions (numPages lists) lists start =
      Scatter.rowPositions (numPages lists) (lists.map (List.map ((↑) : ℕ → ℤ))) start := by
    intro start
    simp [Scatter.rowPositions, List.zipIdx_map, List.flatMap_map]
  have hrows : ∀ row ∈ lists.map (List.map ((↑) : ℕ → ℤ)), row.length ≤ numPages lists := by
    intro row hrow
    obtain ⟨l, hl, rfl⟩ := List.mem_map.1 hrow
    simpa using le_numPages hl
  have h := @Scatter.scatter_rows _ _ _ hrows [] 0 (by simp) k (-1)
  rw [blockTable, hpos, List.map_flatten]
  simpa [tableRows, List.map_map, Function.comp_def] using h

/-- A batch of requests with blocks: `lists` are their lists, and `lens` their lengths, at least
one and covered by the lists. -/
structure Holds (s : BlockManager) (m : BatchMetadata W) (lists : List (List ℕ))
    (lens : List ℕ) : Prop where
  /-- There is room for a token in a block. -/
  blockSize : 0 < s.blockSize
  reqIds : m.reqIds.length = m.numTokens
  lookups : m.reqIds.map s.blockTables.lookup = lists.map some
  lens_length : lens.length = m.numTokens
  covered : ∀ (i : ℕ) (l : List ℕ) (n : ℕ), lists[i]? = some l → lens[i]? = some n →
    0 < n ∧ (n - 1) / s.blockSize < l.length

variable {s : BlockManager} {m : BatchMetadata W} {lists : List (List ℕ)} {lens : List ℕ}

theorem Holds.lists_length (h : Holds s m lists lens) : lists.length = m.numTokens := by
  have := congrArg List.length h.lookups
  simpa [h.reqIds] using this.symm

theorem Holds.seqBlockLists_eq (h : Holds s m lists lens) : s.seqBlockLists m = .ok lists := by
  have hn := h.lists_length
  have hget : ∀ i ∈ List.range m.numTokens, s.seqBlockList m i = .ok (lists.getD i []) := by
    intro i hi
    rw [List.mem_range] at hi
    obtain ⟨r, hr⟩ : ∃ r, m.reqIds[i]? = some r := ⟨_, List.getElem?_eq_getElem (h.reqIds ▸ hi)⟩
    obtain ⟨l, hl⟩ : ∃ l, lists[i]? = some l := ⟨_, List.getElem?_eq_getElem (hn ▸ hi)⟩
    have hlook := congrArg (·[i]?) h.lookups
    simp only [List.getElem?_map, hr, hl, Option.map_some, Option.some.injEq] at hlook
    rw [seqBlockList, readAt_natCast hr, ok_bind, hlook, List.getD_eq_getElem?_getD, hl]
    rfl
  rw [seqBlockLists, mapM_eq_ok hget, ← hn, map_range_getD (fun l => l), List.map_id']

/-- The slot of the newest token of every request. -/
def newestSlots (blockSize : ℕ) (lists : List (List ℕ)) (lens : List ℕ) : List ℤ :=
  List.zipWith (fun l n => (slotAt blockSize l (n - 1) : ℤ)) lists lens

theorem length_of_mem_tableRows {lists : List (List ℕ)} {row : List ℤ}
    (h : row ∈ tableRows lists) : row.length = numPages lists := by
  obtain ⟨l, hl, rfl⟩ := List.mem_map.1 h
  exact Scatter.length_padRow (by simpa using le_numPages hl) _

theorem length_tableRows_flatten (lists : List (List ℕ)) :
    (tableRows lists).flatten.length = lists.length * numPages lists := by
  rw [List.length_flatten, List.map_congr_left fun row h => length_of_mem_tableRows h]
  simp [tableRows, Function.comp_def]

theorem getElem?_tableRows_flatten {lists : List (List ℕ)} {l : List ℕ} {i j : ℕ}
    (hl : lists[i]? = some l) (hj : j < l.length) :
    (tableRows lists).flatten[i * numPages lists + j]? = some ((l[j] : ℕ) : ℤ) := by
  have hrow : (tableRows lists)[i]? =
      some (Scatter.padRow (numPages lists) (-1 : ℤ) (l.map (↑))) := by
    simp [tableRows, hl]
  rw [Scatter.getElem?_flatten (fun _ => length_of_mem_tableRows)
    (hj.trans_le (le_numPages (List.mem_of_getElem? hl))) hrow, Scatter.padRow,
    List.getElem?_append_left (by simpa using hj), List.getElem?_map, List.getElem?_eq_getElem hj]
  rfl

/-- **The entry a slot is read from is a block of the request**, whatever follows the table. -/
theorem Holds.slotOf_eq (h : Holds s m lists lens) (rest : List ℤ) {i : ℕ}
    (hi : i < m.numTokens) :
    slotOf s.blockSize (numPages lists) ((tableRows lists).flatten ++ rest) (lens.map (↑)) i =
      .ok ((newestSlots s.blockSize lists lens).getD i 0) := by
  obtain ⟨l, hl⟩ : ∃ l, lists[i]? = some l :=
    ⟨_, List.getElem?_eq_getElem (h.lists_length ▸ hi)⟩
  obtain ⟨n, hn⟩ : ∃ n, lens[i]? = some n :=
    ⟨_, List.getElem?_eq_getElem (h.lens_length ▸ hi)⟩
  obtain ⟨hpos, hlt⟩ := h.covered i l n hl hn
  have hlast : (n : ℤ) - 1 = ((n - 1 : ℕ) : ℤ) := by omega
  have hentry : ((tableRows lists).flatten ++ rest)[i * numPages lists + (n - 1) / s.blockSize]? =
      some ((l.getD ((n - 1) / s.blockSize) 0 : ℕ) : ℤ) := by
    have hread := getElem?_tableRows_flatten hl hlt
    rw [List.getElem?_append_left (List.getElem?_eq_some_iff.1 hread).1, hread,
      List.getD_eq_getElem _ _ hlt]
  have hslot : (newestSlots s.blockSize lists lens).getD i 0 = slotAt s.blockSize l (n - 1) := by
    rw [newestSlots, List.getD_eq_getElem?_getD, List.getElem?_zipWith, hl, hn]
    rfl
  have hindex : (i : ℤ) * numPages lists + ((n - 1 : ℕ) : ℤ).tdiv s.blockSize =
      ((i * numPages lists + (n - 1) / s.blockSize : ℕ) : ℤ) := by
    rw [Int.tdiv_eq_ediv_of_nonneg (by omega)]
    push_cast
    rfl
  rw [slotOf, readAt_natCast (a := (n : ℤ)) (by simp [hn]), ok_bind, hlast, hslot]
  show (readAt _ _ >>= _) = _
  rw [hindex, readAt_natCast hentry, ok_bind, slotAt, Int.tmod_eq_emod_of_nonneg (by omega)]
  push_cast
  rfl

theorem Holds.prepareBlockTableGdr_eq (h : Holds s m lists lens) :
    s.prepareBlockTableGdr m (lens.map (↑)) =
      .ok (numPages lists, (tableRows lists).flatten, newestSlots s.blockSize lists lens) := by
  have hlen : (newestSlots s.blockSize lists lens).length = m.numTokens := by
    simp [newestSlots, h.lists_length, h.lens_length]
  have htable := blockTable_eq lists 0
  rw [h.lists_length, Nat.add_zero, List.replicate_zero, List.append_nil] at htable
  have hslots := mapM_eq_ok fun i hi => h.slotOf_eq [] (List.mem_range.1 hi)
  rw [List.append_nil] at hslots
  rw [prepareBlockTableGdr, h.seqBlockLists_eq, ok_bind]
  show (List.mapM _ (List.range m.numTokens) >>= _) = _
  rw [htable, hslots, ← hlen, map_range_getD (fun x => x), List.map_id']
  rfl

theorem Holds.prepareBlockTable_eq (h : Holds s m lists lens) :
    s.prepareBlockTable m (lens.map (↑)) =
      .ok ((tableRows lists).flatten ++ newestSlots s.blockSize lists lens) := by
  have hlen : (newestSlots s.blockSize lists lens).length = m.numTokens := by
    simp [newestSlots, h.lists_length, h.lens_length]
  have hwidth := length_tableRows_flatten lists
  rw [h.lists_length] at hwidth
  have htable := blockTable_eq lists m.numTokens
  rw [h.lists_length] at htable
  -- after `k` rounds the first `k` slots are written
  have hfold : ∀ k ≤ m.numTokens, (List.range k).foldlM
      (fun table i => do
        let slot ← slotOf s.blockSize (numPages lists) table (lens.map (↑)) i
        return table.set (m.numTokens * numPages lists + i) slot)
      ((tableRows lists).flatten ++ List.replicate m.numTokens (-1)) =
      (.ok ((tableRows lists).flatten ++ ((newestSlots s.blockSize lists lens).take k ++
        List.replicate (m.numTokens - k) (-1))) : Except String (List ℤ)) := by
    intro k hk
    induction k with
    | zero => simp; rfl
    | succ k ih =>
      rw [List.range_succ, List.foldlM_append, ih (by omega), ok_bind, List.foldlM_cons,
        h.slotOf_eq _ (by omega)]
      show Except.ok _ = Except.ok _
      rw [List.set_append_right _ _ (by omega), hwidth, Nat.add_sub_cancel_left,
        List.set_append_right _ _ (by simp)]
      have htake : ((newestSlots s.blockSize lists lens).take k).length = k := by
        rw [List.length_take]
        omega
      rw [htake, Nat.sub_self, show m.numTokens - k = (m.numTokens - (k + 1)) + 1 by omega,
        List.replicate_succ, List.set_cons_zero, List.take_succ_eq_append_getElem (by omega),
        List.getD_eq_getElem _ _ (by omega), List.append_assoc, List.singleton_append]
  rw [prepareBlockTable, h.seqBlockLists_eq, ok_bind]
  show List.foldlM _ (blockTable _ _ _) (List.range m.numTokens) = _
  rw [htable]
  refine (hfold m.numTokens le_rfl).trans ?_
  rw [Nat.sub_self, List.replicate_zero, List.append_nil, ← hlen, List.take_length]

theorem Holds.seqLens_eq (h : Holds s m lists lens) :
    seqLens m (lens.map (↑)) = .ok (lens.map (↑)) := by
  have hread : ∀ i ∈ List.range m.numTokens,
      readAt (lens.map ((↑) : ℕ → ℤ)) i = .ok ((lens.map ((↑) : ℕ → ℤ)).getD i 0) := by
    intro i hi
    refine readAt_natCast ?_
    rw [List.mem_range, ← h.lens_length] at hi
    rw [List.getD_eq_getElem _ _ (by simpa using hi), List.getElem?_eq_getElem (by simpa using hi)]
  rw [seqLens, mapM_eq_ok hread]
  have := map_range_getD (fun x => x) (lens.map ((↑) : ℕ → ℤ)) 0
  rw [List.length_map, h.lens_length, List.map_id'] at this
  rw [this]

theorem Holds.prepareSeqInfoGdr_eq (h : Holds s m lists lens) :
    prepareSeqInfoGdr m (lens.map (↑)) =
      .ok (lens.map (↑), lens.map fun (n : ℕ) => (n : ℤ) - 1,
        (lens.map ((↑) : ℕ → ℤ)).scanl (· + ·) 0) := by
  rw [prepareSeqInfoGdr, h.seqLens_eq, ok_bind, List.map_map]
  rfl

theorem Holds.prepareSeqInfo_eq (h : Holds s m lists lens) :
    prepareSeqInfo m (lens.map (↑)) =
      .ok (lens.map (↑) ++ (lens.map fun (n : ℕ) => (n : ℤ) - 1) ++
        (lens.map ((↑) : ℕ → ℤ)).scanl (· + ·) 0) := by
  rw [prepareSeqInfo, h.seqLens_eq, ok_bind, List.map_map]
  rfl

end BlockManager

end StreamEP

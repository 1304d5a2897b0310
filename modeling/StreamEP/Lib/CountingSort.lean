import StreamEP.Lib.Scatter
import Mathlib.Data.List.Count
import Mathlib.Data.List.GetD
import Mathlib.Data.List.TakeDrop

/-!
# Counting sort as a position list

The textbook counting sort over keys below a bound `m`: count every key, turn the counts into
prefix sums, then hand out places from left to right, each key drawing from its own counter. The
counter of key `e` lives in cell `e - 1` of the prefix sums, and key `0` has a counter of its own
that starts at `0`; that is how an in-place implementation avoids a second array.

The result is a position list in the sense of `Scatter`. `stableSlot` says in one formula where
entry `i` goes: past every smaller key, and past every equal key to its left.
-/

namespace StreamEP

namespace CountingSort

/-! ### The algorithm -/

/-- How often each of the keys `0, …, m - 1` occurs. -/
def counts (m : ℕ) (keys : List ℕ) : List ℕ :=
  keys.foldl (fun c k => c.modify k (· + 1)) (List.replicate m 0)

/-- Running sums, starting from `acc`. -/
def prefixSums (acc : ℕ) : List ℕ → List ℕ
  | [] => []
  | x :: xs => (acc + x) :: prefixSums (acc + x) xs

/-- Hand out places: key `0` draws from `first`, key `e + 1` from cell `e` of `cnts`. -/
def assign : List ℕ → List ℕ → ℕ → List ℕ
  | [], _, _ => []
  | 0 :: keys, cnts, first => first :: assign keys cnts (first + 1)
  | (e + 1) :: keys, cnts, first =>
    cnts.getD e 0 :: assign keys (cnts.modify e (· + 1)) first

/-- The place of every entry under counting sort with keys below `m`. -/
def positions (m : ℕ) (keys : List ℕ) : List ℕ :=
  assign keys (prefixSums 0 (counts m keys)) 0

@[simp] theorem length_assign (keys cnts : List ℕ) (first : ℕ) :
    (assign keys cnts first).length = keys.length := by
  induction keys generalizing cnts first with
  | nil => rfl
  | cons k keys ih => cases k <;> simp [assign, ih]

@[simp] theorem length_positions (m : ℕ) (keys : List ℕ) :
    (positions m keys).length = keys.length :=
  length_assign _ _ _

/-! ### The counters -/

theorem length_foldl_modify (keys l : List ℕ) :
    (keys.foldl (fun l k => l.modify k (· + 1)) l).length = l.length := by
  induction keys generalizing l with
  | nil => rfl
  | cons k keys ih => rw [List.foldl_cons, ih, List.length_modify]

theorem getElem?_foldl_modify (keys l : List ℕ) (e : ℕ) :
    (keys.foldl (fun l k => l.modify k (· + 1)) l)[e]? = l[e]?.map (· + keys.count e) := by
  induction keys generalizing l with
  | nil => simp
  | cons k keys ih =>
    rw [List.foldl_cons, ih, List.getElem?_modify, List.count_cons]
    cases l[e]? with
    | none => simp
    | some x =>
      by_cases hk : k = e
      · simp [hk]; omega
      · simp [hk]

theorem getElem?_counts {m : ℕ} (keys : List ℕ) {e : ℕ} (he : e < m) :
    (counts m keys)[e]? = some (keys.count e) := by
  rw [counts, getElem?_foldl_modify, List.getElem?_replicate_of_lt he]
  simp

@[simp] theorem length_counts (m : ℕ) (keys : List ℕ) : (counts m keys).length = m := by
  rw [counts, length_foldl_modify, List.length_replicate]

@[simp] theorem length_prefixSums (acc : ℕ) (xs : List ℕ) :
    (prefixSums acc xs).length = xs.length := by
  induction xs generalizing acc with
  | nil => rfl
  | cons x xs ih => simp [prefixSums, ih]

theorem getElem?_prefixSums (acc : ℕ) (xs : List ℕ) {e : ℕ} (he : e < xs.length) :
    (prefixSums acc xs)[e]? = some (acc + (xs.take (e + 1)).sum) := by
  induction xs generalizing acc e with
  | nil => simp at he
  | cons x xs ih =>
    cases e with
    | zero => simp [prefixSums]
    | succ e =>
      rw [prefixSums, List.getElem?_cons_succ, ih _ (by simpa using he), List.take_succ_cons,
        List.sum_cons, Nat.add_assoc]

theorem countP_le_succ (keys : List ℕ) (e : ℕ) :
    keys.countP (· < e + 1) = keys.countP (· < e) + keys.count e := by
  induction keys with
  | nil => rfl
  | cons k keys ih =>
    rw [List.countP_cons, List.countP_cons, List.count_cons, ih]
    rcases Nat.lt_trichotomy k e with h | h | h
    · simp [h, Nat.lt_succ_of_lt h, Nat.ne_of_lt h]; omega
    · simp [h]; omega
    · simp [Nat.not_lt.mpr (Nat.le_of_lt h), Nat.not_lt.mpr h, Nat.ne_of_gt h]

theorem sum_take_counts {m : ℕ} (keys : List ℕ) {e : ℕ} (he : e ≤ m) :
    ((counts m keys).take e).sum = keys.countP (· < e) := by
  induction e with
  | zero => simp
  | succ e ih =>
    rw [List.take_add_one, getElem?_counts keys he, List.sum_append, ih (Nat.le_of_succ_le he),
      countP_le_succ]
    simp

/-! ### Stable slots -/

/-- The place of entry `i` in the stable sort of `keys`. -/
def stableSlot (keys : List ℕ) (i : ℕ) : ℕ :=
  keys.countP (· < keys.getD i 0) + (keys.take i).count (keys.getD i 0)

/-- What the counters hold once the entries of `pre` have been placed: the counter of a key is
the number of smaller keys plus the number of its own occurrences placed so far. -/
structure CounterInv (m : ℕ) (all pre cnts : List ℕ) (first : ℕ) : Prop where
  /-- Key `0` has no smaller key. -/
  first_eq : first = pre.count 0
  /-- Cell `e` is the counter of key `e + 1`. -/
  cell : ∀ e < m, cnts[e]? = some (all.countP (· < e + 1) + pre.count (e + 1))

theorem counterInv_init (m : ℕ) (keys : List ℕ) :
    CounterInv m keys [] (prefixSums 0 (counts m keys)) 0 where
  first_eq := rfl
  cell e he := by
    rw [getElem?_prefixSums _ _ (by simpa using he), Nat.zero_add, sum_take_counts keys he]
    rfl

theorem assign_eq {m : ℕ} {all : List ℕ} (hall : ∀ k ∈ all, k < m) :
    ∀ {pre keys cnts : List ℕ} {first : ℕ}, all = pre ++ keys → CounterInv m all pre cnts first →
      assign keys cnts first =
        (List.range keys.length).map fun i => stableSlot all (pre.length + i) := by
  intro pre keys
  induction keys generalizing pre with
  | nil => intros; rfl
  | cons k keys ih =>
    intro cnts first hsplit hinv
    have hkey : all.getD pre.length 0 = k := by simp [hsplit]
    have htake : all.take pre.length = pre := by simp [hsplit]
    have hrest : all = (pre ++ [k]) ++ keys := by simp [hsplit]
    -- the head is placed at its slot; the tail is the induction hypothesis for `pre ++ [k]`
    have hslot : stableSlot all pre.length = all.countP (· < k) + pre.count k := by
      rw [stableSlot, hkey, htake]
    have htail : (List.range keys.length).map (fun i => stableSlot all ((pre ++ [k]).length + i))
        = (List.range keys.length).map fun i => stableSlot all (pre.length + (i + 1)) := by
      refine List.map_congr_left fun i _ => ?_
      rw [List.length_append, List.length_singleton, Nat.add_assoc, Nat.add_comm 1 i]
    rw [List.length_cons, List.range_succ_eq_map, List.map_cons, List.map_map, Nat.add_zero, hslot]
    cases k with
    | zero =>
      have hinv' : CounterInv m all (pre ++ [0]) cnts (first + 1) := by
        refine ⟨by simp [hinv.first_eq], fun e he => ?_⟩
        rw [hinv.cell e he]; simp
      rw [assign, ih hrest hinv', htail]
      simp [hinv.first_eq, Function.comp_def]
    | succ e =>
      have he : e < m := by
        have := hall (e + 1) (by simp [hsplit]); omega
      have hinv' : CounterInv m all (pre ++ [e + 1]) (cnts.modify e (· + 1)) first := by
        refine ⟨by simp [hinv.first_eq], fun e' he' => ?_⟩
        rw [List.getElem?_modify, hinv.cell e' he']
        by_cases hee : e = e'
        · subst hee; simp; omega
        · simp [hee]
      have hget : cnts.getD e 0 = all.countP (· < e + 1) + pre.count (e + 1) := by
        rw [List.getD_eq_getElem?_getD, hinv.cell e he]; rfl
      rw [assign, ih hrest hinv', htail, hget]
      simp [Function.comp_def]

theorem positions_eq {m : ℕ} {keys : List ℕ} (h : ∀ k ∈ keys, k < m) :
    positions m keys = (List.range keys.length).map (stableSlot keys) := by
  rw [positions, assign_eq h (List.nil_append keys).symm (counterInv_init m keys)]
  simp

theorem getElem?_positions {m : ℕ} {keys : List ℕ} (h : ∀ k ∈ keys, k < m) {i : ℕ}
    (hi : i < keys.length) : (positions m keys)[i]? = some (stableSlot keys i) := by
  rw [positions_eq h, List.getElem?_map, List.getElem?_range hi]
  rfl

/-! ### Slots are places -/

theorem countP_lt_of_lt (keys : List ℕ) {a b : ℕ} (hab : a < b) :
    keys.countP (· < a) + keys.count a ≤ keys.countP (· < b) := by
  rw [← countP_le_succ]
  refine List.countP_mono_left fun k _ hk => ?_
  simp only [decide_eq_true_eq] at hk ⊢
  omega

theorem count_take_lt {keys : List ℕ} {i : ℕ} (hi : i < keys.length) :
    (keys.take i).count (keys.getD i 0) + 1 ≤ keys.count (keys.getD i 0) := by
  have hget : keys.getD i 0 = keys[i] := List.getD_eq_getElem _ _ hi
  have hsub : (keys.take (i + 1)).count (keys.getD i 0) ≤ keys.count (keys.getD i 0) :=
    (List.take_sublist _ _).count_le _
  rw [List.take_add_one, List.getElem?_eq_getElem hi, Option.toList_some, List.count_append,
    hget] at hsub
  rw [hget]
  simpa using hsub

theorem count_take_mono {keys : List ℕ} {k i j : ℕ} (hij : i < j) (hj : j ≤ keys.length)
    (hk : keys.getD i 0 = k) : (keys.take i).count k < (keys.take j).count k := by
  have hi : i < keys.length := Nat.lt_of_lt_of_le hij hj
  have hsub : (keys.take (i + 1)).count k ≤ (keys.take j).count k :=
    List.Sublist.count_le _ (List.take_sublist_take_left hij)
  rw [List.take_add_one, List.getElem?_eq_getElem hi, Option.toList_some, List.count_append,
    ← List.getD_eq_getElem _ 0 hi, hk] at hsub
  simp at hsub
  omega

/-- **Order of the slots.** Entries are placed by key, and equal keys keep their order. -/
theorem stableSlot_lt_iff {keys : List ℕ} {i j : ℕ} (hi : i < keys.length) (hj : j < keys.length) :
    stableSlot keys i < stableSlot keys j ↔
      keys.getD i 0 < keys.getD j 0 ∨ keys.getD i 0 = keys.getD j 0 ∧ i < j := by
  have mono : ∀ {a b : ℕ}, a < keys.length → b < keys.length →
      (keys.getD a 0 < keys.getD b 0 ∨ keys.getD a 0 = keys.getD b 0 ∧ a < b) →
      stableSlot keys a < stableSlot keys b := by
    intro a b ha hb h
    rw [stableSlot, stableSlot]
    rcases h with h | ⟨heq, hab⟩
    · have h1 := countP_lt_of_lt keys h
      have h2 := count_take_lt ha
      omega
    · have h1 := count_take_mono hab (Nat.le_of_lt hb) rfl
      rw [← heq]
      omega
  refine ⟨fun h => ?_, mono hi hj⟩
  rcases Nat.lt_trichotomy (keys.getD i 0) (keys.getD j 0) with hk | hk | hk
  · exact Or.inl hk
  · rcases Nat.lt_trichotomy i j with hij | hij | hij
    · exact Or.inr ⟨hk, hij⟩
    · subst hij; exact absurd h (Nat.lt_irrefl _)
    · exact absurd (mono hj hi (Or.inr ⟨hk.symm, hij⟩)) (Nat.not_lt.mpr (Nat.le_of_lt h))
  · exact absurd (mono hj hi (Or.inl hk)) (Nat.not_lt.mpr (Nat.le_of_lt h))

theorem stableSlot_lt_length {keys : List ℕ} {i : ℕ} (hi : i < keys.length) :
    stableSlot keys i < keys.length := by
  have h1 := count_take_lt hi
  have h2 := countP_le_succ keys (keys.getD i 0)
  have h3 : keys.countP (· < keys.getD i 0 + 1) ≤ keys.length := List.countP_le_length
  rw [stableSlot]
  omega

theorem stableSlot_injective {keys : List ℕ} {i j : ℕ} (hi : i < keys.length)
    (hj : j < keys.length) (h : stableSlot keys i = stableSlot keys j) : i = j := by
  have h1 := (stableSlot_lt_iff hi hj).not.mp (by omega)
  have h2 := (stableSlot_lt_iff hj hi).not.mp (by omega)
  omega

theorem positions_perm {m : ℕ} {keys : List ℕ} (h : ∀ k ∈ keys, k < m) :
    (positions m keys).Perm (List.range keys.length) := by
  rw [positions_eq h]
  refine List.Subperm.perm_of_length_le (List.subperm_of_subset ?_ fun x hx => ?_) (by simp)
  · refine (List.nodup_map_iff_inj_on List.nodup_range).mpr fun i hi j hj hij => ?_
    exact stableSlot_injective (List.mem_range.mp hi) (List.mem_range.mp hj) hij
  · obtain ⟨i, hi, rfl⟩ := List.mem_map.mp hx
    exact List.mem_range.mpr (stableSlot_lt_length (List.mem_range.mp hi))

/-! ### The order of the result -/

/-- `order` lists the indices of `keys` by key, and equal keys by index. -/
structure StableOrder (keys order : List ℕ) : Prop where
  perm : order.Perm (List.range keys.length)
  /-- Smaller keys come first, and equal keys keep their order. -/
  sorted : order.Pairwise fun i j =>
    keys.getD i 0 < keys.getD j 0 ∨ keys.getD i 0 = keys.getD j 0 ∧ i < j

/-- **Counting sort is stable**: read place by place, its slots are in stable order. -/
theorem stableOrder_positions {m : ℕ} {keys : List ℕ} (h : ∀ k ∈ keys, k < m) :
    StableOrder keys (Scatter.invPos keys.length (positions m keys)) := by
  have hpos := positions_perm h
  refine ⟨Scatter.invPos_perm hpos, List.pairwise_iff_getElem.mpr ?_⟩
  intro a b ha hb hab
  have slot : ∀ c (hc : c < (Scatter.invPos keys.length (positions m keys)).length),
      (Scatter.invPos keys.length (positions m keys))[c] < keys.length ∧
        stableSlot keys (Scatter.invPos keys.length (positions m keys))[c] = c := by
    intro c hc
    have hslot := Scatter.pos_of_getElem?_invPos hpos (List.getElem?_eq_getElem hc)
    have hlt : (Scatter.invPos keys.length (positions m keys))[c] < keys.length := by
      have := (List.getElem?_eq_some_iff.mp hslot).1
      rwa [length_positions] at this
    rw [getElem?_positions h hlt] at hslot
    exact ⟨hlt, Option.some.inj hslot⟩
  obtain ⟨hi, hslot⟩ := slot a ha
  obtain ⟨hj, hslot'⟩ := slot b hb
  refine (stableSlot_lt_iff hi hj).mp ?_
  rwa [hslot, hslot']

theorem StableOrder.keys_sorted {keys order : List ℕ} (h : StableOrder keys order) :
    (order.map fun i => keys.getD i 0).Pairwise (· ≤ ·) := by
  refine List.pairwise_map.mpr (h.sorted.imp ?_)
  intro i j hij
  rcases hij with hlt | ⟨heq, -⟩
  · exact hlt.le
  · exact heq.le

/-! ### The groups of a sorted list -/

theorem count_flatMap_replicate {ids : List ℕ} (hids : ids.Nodup) (c : ℕ → ℕ) (x : ℕ) :
    (ids.flatMap fun e => List.replicate (c e) e).count x = if x ∈ ids then c x else 0 := by
  induction ids with
  | nil => rfl
  | cons e ids ih =>
    obtain ⟨hnot, hids⟩ := List.nodup_cons.mp hids
    rw [List.flatMap_cons, List.count_append, ih hids, List.count_replicate]
    by_cases hx : e = x
    · subst hx
      simp [hnot]
    · simp [hx, Ne.symm hx]

/-- **A sorted list is the concatenation of its groups**, for any ascending list that has all its
keys. -/
theorem flatMap_replicate_count {keys ids : List ℕ} (hkeys : keys.Pairwise (· ≤ ·))
    (hids : ids.Pairwise (· < ·)) (hmem : ∀ k ∈ keys, k ∈ ids) :
    ids.flatMap (fun e => List.replicate (keys.count e) e) = keys := by
  have hnodup : ids.Nodup := hids.imp Nat.ne_of_lt
  refine List.Perm.eq_of_pairwise (fun a b _ _ => Nat.le_antisymm) ?_ hkeys ?_
  · refine List.pairwise_flatMap.mpr ⟨fun e _ => ?_, hids.imp fun {a b} hab x hx y hy => ?_⟩
    · exact List.pairwise_replicate.mpr (.inr le_rfl)
    · rw [List.eq_of_mem_replicate hx, List.eq_of_mem_replicate hy]
      exact hab.le
  · refine List.perm_iff_count.mpr fun x => ?_
    rw [count_flatMap_replicate hnodup]
    split_ifs with hx
    · rfl
    · exact (List.count_eq_zero.mpr fun hk => hx (hmem x hk)).symm

theorem getElem?_flatMap_replicate {ids : List ℕ} (hids : ids.Nodup) (c : ℕ → ℕ) {j e : ℕ}
    (hj : ids[j]? = some e) (p : ℕ) :
    (ids.flatMap fun e => List.replicate (c e) e)[p]? = some e ↔
      ((ids.map c).take j).sum ≤ p ∧ p < ((ids.map c).take (j + 1)).sum := by
  induction ids generalizing j p with
  | nil => simp at hj
  | cons i ids ih =>
    obtain ⟨hnot, hids⟩ := List.nodup_cons.mp hids
    rw [List.flatMap_cons, List.getElem?_append, List.length_replicate, List.map_cons]
    cases j with
    | zero =>
      -- the first group, which no later one repeats
      obtain rfl : i = e := by simpa using hj
      have hlater : ∀ q : ℕ, (ids.flatMap fun e => List.replicate (c e) e)[q]? ≠ some i := by
        intro q hq
        obtain ⟨e, he, hi⟩ := List.mem_flatMap.mp (List.mem_of_getElem? hq)
        exact hnot (List.eq_of_mem_replicate hi ▸ he)
      split_ifs with hp
      · simp [hp]
      · simp [hlater, hp]
    | succ j =>
      have hj' : ids[j]? = some e := by simpa using hj
      have hne : i ≠ e := fun h => hnot (h ▸ List.mem_of_getElem? hj')
      rw [List.take_succ_cons, List.take_succ_cons, List.sum_cons, List.sum_cons]
      split_ifs with hp
      · simp [hp, hne]
        omega
      · rw [ih hids hj']
        omega

/-- **The group of a key** fills the places from the sum of the smaller groups on. -/
theorem getElem?_eq_some_iff_segment {keys ids : List ℕ} (hkeys : keys.Pairwise (· ≤ ·))
    (hids : ids.Pairwise (· < ·)) (hmem : ∀ k ∈ keys, k ∈ ids) {j e : ℕ}
    (hj : ids[j]? = some e) (p : ℕ) :
    keys[p]? = some e ↔ ((ids.map keys.count).take j).sum ≤ p ∧
      p < ((ids.map keys.count).take (j + 1)).sum := by
  have hgroups := flatMap_replicate_count hkeys hids hmem
  have hsegment := getElem?_flatMap_replicate (hids.imp Nat.ne_of_lt) keys.count hj p
  rwa [hgroups] at hsegment

theorem sum_map_count {keys ids : List ℕ} (hkeys : keys.Pairwise (· ≤ ·))
    (hids : ids.Pairwise (· < ·)) (hmem : ∀ k ∈ keys, k ∈ ids) :
    (ids.map keys.count).sum = keys.length := by
  conv_rhs => rw [← flatMap_replicate_count hkeys hids hmem, List.length_flatMap]
  simp

end CountingSort

end StreamEP

import Mathlib.Algebra.Order.Ring.Int
import Mathlib.Data.List.Dedup
import Mathlib.Data.List.Sort
import Mathlib.Data.Prod.Lex
import Mathlib.Tactic.Linarith
import StreamEP.Lib.Checked

/-!
# Routing by a profile

`ProfileDrivenRouter` of `disagmoe/models/gate.py` replays recorded expert choices. The loader sorts
the rows of a profile by layer, request and token and counts the tokens of each request; `route`
computes the position of a row from those counts, as if all layers had the same requests with the
same tokens. The loader does not check that: a profile in which a layer lacks a row, or has one
twice, loads, and all later rows are then found at the wrong place. Nor does it check the range of
the expert ids, only their number.

Here a route is followed to the row that it reads, and `Uniform` says which profiles are replayed.
Layers, requests and tokens are integers: an index below zero counts from the end, as in the source.

## Main results

* `getElem?_flatMap_of_getElem?` — a position in a list of blocks
* `Uniform.sortedKeys_eq` — the rows of a uniform profile, in order
* `replays_iff_uniform`
-/

namespace StreamEP

/-- The columns that a profile may have; `expert_logical_k` is a family. -/
inductive ProfileColumn
  | rid
  | tokenIndex
  | layer
  | expertLogicalK (suffix : String)
  | other (name : String)
  deriving DecidableEq

def ProfileColumn.name : ProfileColumn → String
  | .rid => "rid"
  | .tokenIndex => "token_index"
  | .layer => "layer"
  | .expertLogicalK suffix => "expert_logical_k" ++ suffix
  | .other name => name

/-- `c.startswith("expert_logical_k")` -/
def ProfileColumn.isExpert : ProfileColumn → Bool
  | .expertLogicalK _ => true
  | _ => false

/-- A row of a profile, with the values of the expert columns in their order. -/
structure ProfileRow where
  layer : ℤ
  rid : ℤ
  tokenIndex : ℤ
  experts : List ℤ
  deriving DecidableEq

structure Profile where
  columnNames : List ProfileColumn
  rows : List ProfileRow

def Profile.requireColumn (p : Profile) (column : ProfileColumn) : Except String Unit :=
  ensure (column ∈ p.columnNames) ("Required column " ++ column.name ++ " not found in profile")

def unique (l : List ℤ) : List ℤ := l.dedup.insertionSort (· ≤ ·)

/-- `df`: the rows of the table, or those of the fixed layer -/
def Profile.loaded (p : Profile) (layerId : Option ℤ) : List ProfileRow :=
  match layerId with
  | none => p.rows
  | some layer => p.rows.filter (·.layer = layer)

def layersOf (rows : List ProfileRow) : List ℤ := unique (rows.map (·.layer))

def ridsOf (rows : List ProfileRow) : List ℤ := unique (rows.map (·.rid))

def tokensOf (rows : List ProfileRow) (rid : ℤ) : List ℤ :=
  unique ((rows.filter (·.rid = rid)).map (·.tokenIndex))

/-- The rows for a layer, a request and a token index. -/
def rowsAt (rows : List ProfileRow) (layer rid tokenIndex : ℤ) : List ProfileRow :=
  rows.filter fun row => row.layer = layer ∧ row.rid = rid ∧ row.tokenIndex = tokenIndex

def Profile.numUniqueExperts (p : Profile) : ℕ :=
  ((unique (p.rows.flatMap (·.experts))).filter (0 ≤ ·)).length

/-- `project_group_size`, with the check of the number of experts -/
def projectGroupSize (numUniqueExperts numExperts : ℕ) : Except String (Option ℕ) :=
  if numUniqueExperts = numExperts then .ok none
  else if numUniqueExperts > numExperts then do
    ensure (numExperts ≠ 0) "integer modulo by zero"
    if numUniqueExperts % numExperts = 0 then return some (numUniqueExperts / numExperts)
    .error s!"Profile contains {numUniqueExperts} unique experts, but system expects {numExperts}."
  else
    .error s!"Profile contains {numUniqueExperts} unique experts, but system expects {numExperts}."

/-- The projection of an expert id; ids below zero are left alone. -/
def projectId (groupSize : Option ℕ) (id : ℤ) : ℤ :=
  match groupSize with
  | none => id
  | some size => if id ≥ 0 then id / size else id

def ProfileRow.project (groupSize : Option ℕ) (row : ProfileRow) : ProfileRow :=
  { row with experts := row.experts.map (projectId groupSize) }

/-- The sort key `["layer", "rid", "token_index"]` -/
def ProfileRow.key (row : ProfileRow) : ℤ ×ₗ ℤ ×ₗ ℤ :=
  toLex (row.layer, toLex (row.rid, row.tokenIndex))

/-- An index below zero counts from the end. -/
def wrapIdx (length : ℕ) (i : ℤ) : ℤ := if i < 0 then i + length else i

/-- `counts[rid] = count` for an array -/
def setItem (counts : List ℕ) (rid : ℤ) (count : ℕ) : Except String (List ℕ) :=
  let i := wrapIdx counts.length rid
  if 0 ≤ i ∧ i < counts.length then .ok (counts.set i.toNat count)
  else .error s!"index {rid} is out of bounds for axis 0 with size {counts.length}"

/-- The loop that fills `tokens_per_req_np`. -/
def fillCounts (rows : List ProfileRow) : List ℤ → List ℕ → Except String (List ℕ)
  | [], counts => .ok counts
  | rid :: rids, counts => do
    let counts ← setItem counts rid (tokensOf rows rid).length
    fillCounts rows rids counts

structure ProfileDrivenRouter where
  topK : ℕ
  layerId : Option ℤ
  numProfiledRequests : ℕ
  tokensPerRequest : List ℕ
  /-- `routing_data`, whose rows are the `experts` of these rows -/
  routingRows : List ProfileRow

namespace ProfileDrivenRouter

/-- The router that is made of rows; their order is that of `sort_values`. -/
def ofRows (rows : List ProfileRow) (topK : ℕ) (layerId : Option ℤ) (groupSize : Option ℕ)
    (counts : List ℕ) : ProfileDrivenRouter where
  topK := topK
  layerId := layerId
  numProfiledRequests := (ridsOf rows).length
  tokensPerRequest := counts
  routingRows := (rows.insertionSort (·.key ≤ ·.key)).map (·.project groupSize)

/-- `_load_profile_from_bytes`, from the parsed table on -/
def load (p : Profile) (numExperts topK : ℕ) (layerId : Option ℤ) :
    Except String ProfileDrivenRouter := do
  p.requireColumn .rid
  p.requireColumn .tokenIndex
  p.requireColumn .layer
  let expertColumns := p.columnNames.filter (·.isExpert)
  ensure (expertColumns ≠ []) "No expert columns found in profile"
  ensure (expertColumns.length = topK)
    (s!"Number of expert columns {expertColumns.length} in the profile does not match " ++
      s!"system's K = {topK}")
  let groupSize ← projectGroupSize p.numUniqueExperts numExperts
  let rows := p.loaded layerId
  ensure (layerId ≠ none ∨ rows ≠ []) "zero-size array to reduction operation maximum"
  let rids := ridsOf rows
  let counts ← fillCounts rows rids (List.replicate rids.length 0)
  return ofRows rows topK layerId groupSize counts

def tokenPrefixSum (router : ProfileDrivenRouter) (rid : ℕ) : ℕ :=
  (router.tokensPerRequest.take rid).sum

def totalTokensPerLayer (router : ProfileDrivenRouter) : ℕ := router.tokensPerRequest.sum

def flatIdx (router : ProfileDrivenRouter) (mappedRid mappedTok : ℕ) (layer : ℤ) : ℤ :=
  if router.layerId ≠ none then router.tokenPrefixSum mappedRid + mappedTok
  else layer * router.totalTokensPerLayer + router.tokenPrefixSum mappedRid + mappedTok

def routeRow (router : ProfileDrivenRouter) (requestId tokenIndex : ℕ) (layer : ℤ) (topK : ℕ) :
    Except String ProfileRow := do
  ensure (topK = router.topK)
    s!"Requested top_k {topK} does not match ProfileDrivenRouter's top_k {router.topK}"
  ensure (router.numProfiledRequests ≠ 0) "ZeroDivisionError"
  let mappedRid := requestId % router.numProfiledRequests
  let count := router.tokensPerRequest.getD mappedRid 0
  ensure (count ≠ 0) "ZeroDivisionError"
  let flatIdx := router.flatIdx mappedRid (tokenIndex % count) layer
  let i := wrapIdx router.routingRows.length flatIdx
  ensure (0 ≤ i) "index out of range"
  match router.routingRows[i.toNat]? with
  | some row => return row
  | none => .error "index out of range"

/-- `route` for one token: `topk_ids` -/
def route (router : ProfileDrivenRouter) (requestId tokenIndex : ℕ) (layer : ℤ) (topK : ℕ) :
    Except String (List ℤ) := do
  let row ← router.routeRow requestId tokenIndex layer topK
  return row.experts

end ProfileDrivenRouter

/-- The profiled request that a request stands for. -/
def mappedRid (rows : List ProfileRow) (r : ℕ) : ℤ := (r % (ridsOf rows).length : ℕ)

def groupOf (groupSize : Option ℕ) : ℤ := (groupSize.getD 1 : ℕ)

/-- **A router replays rows**: for all requests, tokens and layers of the rows there is one row with
the layer, the request modulo their number and the token modulo the number of tokens of that
request, counted in order; it is the row that is read, and its expert ids divided by the group size
are returned and in range. -/
def Replays (rows : List ProfileRow) (groupSize : Option ℕ) (numExperts : ℕ)
    (router : ProfileDrivenRouter) : Prop :=
  ∀ r t : ℕ, ∀ layer ∈ rows.map (·.layer),
    ∃ row tokenIndex,
      (tokensOf rows (mappedRid rows r))[t % (tokensOf rows (mappedRid rows r)).length]? =
        some tokenIndex ∧
      rowsAt rows layer (mappedRid rows r) tokenIndex = [row] ∧
      router.routeRow r t layer router.topK = .ok (row.project groupSize) ∧
      router.route r t layer router.topK = .ok (row.experts.map (· / groupOf groupSize)) ∧
      ∀ id ∈ row.experts, 0 ≤ id / groupOf groupSize ∧ id / groupOf groupSize < numExperts

/-- **Uniform rows**: the requests are numbered from zero, every layer has one row for each token of
each request, layers stand where their number says (unless the layer is fixed), and the expert ids
are in range. -/
structure Uniform (rows : List ProfileRow) (layerId : Option ℤ) (groupSize : Option ℕ)
    (numExperts : ℕ) : Prop where
  rids : ∀ rid : ℤ, rid ∈ rows.map (·.rid) ↔ 0 ≤ rid ∧ rid < ((ridsOf rows).length : ℤ)
  grid : ∀ layer ∈ rows.map (·.layer), ∀ rid ∈ rows.map (·.rid), ∀ tokenIndex ∈ tokensOf rows rid,
    (rowsAt rows layer rid tokenIndex).length = 1
  /-- A layer is its position among the layers, or that position counted from the end. -/
  layers : layerId = none → ∀ (j : ℕ) (layer : ℤ), (layersOf rows)[j]? = some layer →
    layer = (j : ℤ) ∨ layer = (j : ℤ) - ((layersOf rows).length : ℤ)
  ids : ∀ row ∈ rows, ∀ id ∈ row.experts, 0 ≤ id ∧ id < (numExperts : ℤ) * groupOf groupSize

/-! ### Distinct values in order -/

theorem mem_unique {l : List ℤ} {x : ℤ} : x ∈ unique l ↔ x ∈ l := by
  rw [unique, List.mem_insertionSort, List.mem_dedup]

theorem pairwise_lt_unique (l : List ℤ) : (unique l).Pairwise (· < ·) := by
  have hle : (unique l).Pairwise (· ≤ ·) := List.pairwise_insertionSort _ _
  have hnodup : (unique l).Nodup := (List.perm_insertionSort _ _).nodup_iff.mpr (List.nodup_dedup l)
  exact hle.imp₂ (fun x y hxy hne => lt_of_le_of_ne hxy hne) hnodup

/-- A position in a list of blocks: the blocks before it count with their lengths. -/
theorem getElem?_flatMap_of_getElem? {α β : Type} {l : List α} {f : α → List β} {i k : ℕ} {a : α}
    {b : β} (ha : l[i]? = some a) (hb : (f a)[k]? = some b) :
    (l.flatMap f)[((l.take i).map fun x => (f x).length).sum + k]? = some b := by
  induction l generalizing i with
  | nil => cases ha
  | cons x l ih =>
    rw [List.flatMap_cons]
    cases i with
    | zero =>
      obtain rfl := Option.some.inj ha
      have hk : k < (f x).length := (List.getElem?_eq_some_iff.mp hb).1
      rw [List.take_zero, List.map_nil, List.sum_nil, Nat.zero_add, List.getElem?_append_left hk]
      exact hb
    | succ i =>
      rw [List.take_succ_cons, List.map_cons, List.sum_cons, Nat.add_assoc,
        List.getElem?_append_right (Nat.le_add_right _ _), Nat.add_sub_cancel_left]
      exact ih ha

/-! ### The rows in order -/

section Grid

variable {rows : List ProfileRow}

def total (rows : List ProfileRow) : ℕ :=
  ((ridsOf rows).map fun rid => (tokensOf rows rid).length).sum

def offset (rows : List ProfileRow) (i : ℕ) : ℕ :=
  (((ridsOf rows).take i).map fun rid => (tokensOf rows rid).length).sum

/-- The keys of a layer in which no row is missing. -/
def layerKeys (rows : List ProfileRow) (layer : ℤ) : List (ℤ ×ₗ ℤ ×ₗ ℤ) :=
  (ridsOf rows).flatMap fun rid => (tokensOf rows rid).map fun tokenIndex =>
    toLex (layer, toLex (rid, tokenIndex))

/-- The keys of all rows, if none is missing. -/
def gridKeys (rows : List ProfileRow) : List (ℤ ×ₗ ℤ ×ₗ ℤ) :=
  (layersOf rows).flatMap (layerKeys rows)

/-- The keys in the order of `routing_data`. -/
def sortedKeys (rows : List ProfileRow) : List (ℤ ×ₗ ℤ ×ₗ ℤ) :=
  (rows.insertionSort (·.key ≤ ·.key)).map (·.key)

theorem length_layerKeys (layer : ℤ) : (layerKeys rows layer).length = total rows := by
  simp only [layerKeys, List.length_flatMap, List.length_map, total]

theorem length_gridKeys : (gridKeys rows).length = (layersOf rows).length * total rows := by
  rw [gridKeys, List.length_flatMap]
  simp only [length_layerKeys, List.map_const', List.sum_replicate_nat]

theorem mem_tokensOf {rid tokenIndex : ℤ} :
    tokenIndex ∈ tokensOf rows rid ↔ ∃ row ∈ rows, row.rid = rid ∧ row.tokenIndex = tokenIndex := by
  rw [tokensOf, mem_unique, List.mem_map]
  simp only [List.mem_filter, decide_eq_true_eq, and_assoc]

theorem mem_gridKeys {layer rid tokenIndex : ℤ} :
    toLex (layer, toLex (rid, tokenIndex)) ∈ gridKeys rows ↔
      layer ∈ rows.map (·.layer) ∧ rid ∈ rows.map (·.rid) ∧ tokenIndex ∈ tokensOf rows rid := by
  simp only [gridKeys, layerKeys, List.mem_flatMap, List.mem_map, layersOf, ridsOf, mem_unique,
    EmbeddingLike.apply_eq_iff_eq, Prod.mk.injEq]
  constructor
  · rintro ⟨l, hl, r, hr, x, hx, rfl, rfl, rfl⟩
    exact ⟨hl, hr, hx⟩
  · rintro ⟨hl, hr, hx⟩
    exact ⟨layer, hl, rid, hr, tokenIndex, hx, rfl, rfl, rfl⟩

theorem pairwise_gridKeys (rows : List ProfileRow) : (gridKeys rows).Pairwise (· < ·) := by
  refine List.pairwise_flatMap.mpr ⟨fun layer _ => List.pairwise_flatMap.mpr ⟨fun rid _ => ?_, ?_⟩,
    ?_⟩
  · refine List.pairwise_map.mpr ((pairwise_lt_unique _).imp fun h => ?_)
    exact Prod.Lex.toLex_lt_toLex.mpr (.inr ⟨rfl, Prod.Lex.toLex_lt_toLex.mpr (.inr ⟨rfl, h⟩)⟩)
  · refine (pairwise_lt_unique _).imp fun h x hx y hy => ?_
    obtain ⟨_, -, rfl⟩ := List.mem_map.mp hx
    obtain ⟨_, -, rfl⟩ := List.mem_map.mp hy
    exact Prod.Lex.toLex_lt_toLex.mpr (.inr ⟨rfl, Prod.Lex.toLex_lt_toLex.mpr (.inl h)⟩)
  · refine (pairwise_lt_unique _).imp fun h x hx y hy => ?_
    obtain ⟨_, -, hx⟩ := List.mem_flatMap.mp hx
    obtain ⟨_, -, hy⟩ := List.mem_flatMap.mp hy
    obtain ⟨_, -, rfl⟩ := List.mem_map.mp hx
    obtain ⟨_, -, rfl⟩ := List.mem_map.mp hy
    exact Prod.Lex.toLex_lt_toLex.mpr (.inl h)

theorem count_key (layer rid tokenIndex : ℤ) :
    (rows.map (·.key)).count (toLex (layer, toLex (rid, tokenIndex))) =
      (rowsAt rows layer rid tokenIndex).length := by
  rw [List.count, List.countP_map, List.countP_eq_length_filter, rowsAt]
  congr 1
  refine List.filter_congr fun row _ => ?_
  rw [Function.comp_apply, beq_eq_decide, decide_eq_decide, ProfileRow.key,
    EmbeddingLike.apply_eq_iff_eq, Prod.mk.injEq, EmbeddingLike.apply_eq_iff_eq, Prod.mk.injEq]

/-- **The rows in order**, if each layer has one row for each token of each request. -/
theorem sortedKeys_eq (hgrid : ∀ layer ∈ rows.map (·.layer), ∀ rid ∈ rows.map (·.rid),
      ∀ tokenIndex ∈ tokensOf rows rid, (rowsAt rows layer rid tokenIndex).length = 1) :
    sortedKeys rows = gridKeys rows := by
  have hperm : (sortedKeys rows).Perm (rows.map (·.key)) := (List.perm_insertionSort _ rows).map _
  have hmem : ∀ row ∈ rows, row.layer ∈ rows.map (·.layer) ∧ row.rid ∈ rows.map (·.rid) ∧
      row.tokenIndex ∈ tokensOf rows row.rid := fun row hrow =>
    ⟨List.mem_map_of_mem hrow, List.mem_map_of_mem hrow, mem_tokensOf.mpr ⟨row, hrow, rfl, rfl⟩⟩
  have hnodup : (rows.map (·.key)).Nodup := by
    rw [List.nodup_iff_count_le_one]
    intro c
    by_cases hc : c ∈ rows.map (·.key)
    · obtain ⟨row, hrow, rfl⟩ := List.mem_map.mp hc
      obtain ⟨hl, hr, hx⟩ := hmem row hrow
      exact ((count_key _ _ _).trans (hgrid _ hl _ hr _ hx)).le
    · rw [List.count_eq_zero_of_not_mem hc]
      exact Nat.zero_le 1
  have hle : (sortedKeys rows).Pairwise (· ≤ ·) :=
    List.pairwise_map.mpr (@List.pairwise_insertionSort _ (fun x y : ProfileRow => x.key ≤ y.key) _
      ⟨fun x y => le_total x.key y.key⟩ ⟨fun _ _ _ h h' => le_trans h h'⟩ rows)
  have hlt : (sortedKeys rows).Pairwise (· < ·) :=
    hle.imp₂ (fun x y hxy hne => lt_of_le_of_ne hxy hne) (hperm.nodup_iff.mpr hnodup)
  refine hlt.eq_of_mem_iff (pairwise_gridKeys rows) fun c => ?_
  rw [hperm.mem_iff]
  constructor
  · intro hc
    obtain ⟨row, hrow, rfl⟩ := List.mem_map.mp hc
    exact mem_gridKeys.mpr (hmem row hrow)
  · intro hc
    obtain ⟨hl, hr, hx⟩ := mem_gridKeys.mp (show toLex ((ofLex c).1,
      toLex ((ofLex (ofLex c).2).1, (ofLex (ofLex c).2).2)) ∈ gridKeys rows from hc)
    have hone := (count_key _ _ _).trans (hgrid _ hl _ hr _ hx)
    exact List.count_pos_iff.mp (hone ▸ Nat.one_pos)

theorem layerKeys_getElem? {layer rid tokenIndex : ℤ} {i k : ℕ} (hi : (ridsOf rows)[i]? = some rid)
    (hk : (tokensOf rows rid)[k]? = some tokenIndex) :
    (layerKeys rows layer)[offset rows i + k]? = some (toLex (layer, toLex (rid, tokenIndex))) := by
  have hkey : ((tokensOf rows rid).map fun tokenIndex =>
      toLex (layer, toLex (rid, tokenIndex)))[k]? =
      some (toLex (layer, toLex (rid, tokenIndex))) := by
    rw [List.getElem?_map, hk]
    rfl
  have h := @getElem?_flatMap_of_getElem? _ _ (ridsOf rows) (fun rid => (tokensOf rows rid).map
    fun tokenIndex => toLex (layer, toLex (rid, tokenIndex))) i k rid _ hi hkey
  simp only [List.length_map] at h
  exact h

theorem offset_add_lt {rid : ℤ} {i k : ℕ} (hi : (ridsOf rows)[i]? = some rid)
    (hk : k < (tokensOf rows rid).length) : offset rows i + k < total rows := by
  have h := @layerKeys_getElem? rows 0 rid _ i k hi (List.getElem?_eq_getElem hk)
  rw [← @length_layerKeys rows 0]
  exact (List.getElem?_eq_some_iff.mp h).1

theorem gridKeys_getElem? {layer rid tokenIndex : ℤ} {j i k : ℕ}
    (hj : (layersOf rows)[j]? = some layer) (hi : (ridsOf rows)[i]? = some rid)
    (hk : (tokensOf rows rid)[k]? = some tokenIndex) :
    (gridKeys rows)[j * total rows + (offset rows i + k)]? =
      some (toLex (layer, toLex (rid, tokenIndex))) := by
  have h := getElem?_flatMap_of_getElem? hj
    (@layerKeys_getElem? rows layer rid tokenIndex i k hi hk)
  have hlength : ((layersOf rows).take j).length = j := by
    rw [List.length_take, min_eq_left (List.getElem?_eq_some_iff.mp hj).1.le]
  simp only [length_layerKeys, List.map_const', List.sum_replicate_nat, hlength] at h
  exact h

end Grid

/-! ### The loader -/

theorem groupOf_pos {numUnique numExperts : ℕ} {groupSize : Option ℕ}
    (h : projectGroupSize numUnique numExperts = .ok groupSize) : 0 < groupOf groupSize := by
  rw [projectGroupSize] at h
  split_ifs at h with heq hgt
  · obtain rfl := Except.ok.inj h
    exact Int.one_pos
  · obtain ⟨hne, h⟩ := ensure_bind_eq_ok.mp h
    obtain rfl := Except.ok.inj h
    have hpos : 0 < numUnique / numExperts := Nat.div_pos hgt.le (Nat.pos_of_ne_zero hne)
    exact Int.natCast_pos.mpr hpos
  · cases (ensure_bind_eq_ok.mp h).2

theorem setItem_eq_ok {counts counts' : List ℕ} {rid : ℤ} {count : ℕ} (hrid : 0 ≤ rid)
    (h : setItem counts rid count = .ok counts') : counts' = counts.set rid.toNat count := by
  simp only [setItem, wrapIdx, if_neg (not_lt.mpr hrid)] at h
  split_ifs at h
  exact (Except.ok.inj h).symm

/-- The counts of requests that are not below zero stand at their numbers. -/
theorem fillCounts_getElem? {rows : List ProfileRow} {rids : List ℤ} {counts counts' : List ℕ}
    (hrids : ∀ rid ∈ rids, 0 ≤ rid) (h : fillCounts rows rids counts = .ok counts') :
    counts'.length = counts.length ∧ ∀ i < counts.length,
      counts'[i]? = if (i : ℤ) ∈ rids then some (tokensOf rows i).length else counts[i]? := by
  induction rids generalizing counts with
  | nil =>
    obtain rfl := Except.ok.inj h
    exact ⟨rfl, fun i _ => by simp⟩
  | cons rid rids ih =>
    obtain ⟨hrid, hrids⟩ := List.forall_mem_cons.mp hrids
    obtain ⟨mid, hmid, h⟩ := bind_eq_ok.mp h
    obtain rfl := setItem_eq_ok hrid hmid
    obtain ⟨hlength, hget⟩ := ih hrids h
    rw [List.length_set] at hlength hget
    refine ⟨hlength, fun i hi => (hget i hi).trans ?_⟩
    by_cases hmem : (i : ℤ) ∈ rids
    · rw [if_pos hmem, if_pos (List.mem_cons_of_mem _ hmem)]
    · rw [if_neg hmem]
      rcases eq_or_ne rid (i : ℤ) with rfl | hne
      · rw [if_pos List.mem_cons_self, Int.toNat_natCast, List.getElem?_set_self hi]
      · have hcons : (i : ℤ) ∉ rid :: rids := fun h => (List.mem_cons.mp h).elim (hne ·.symm) hmem
        rw [if_neg hcons, List.getElem?_set_ne (by omega)]

section Loader

variable {rows : List ProfileRow}

theorem ridsOf_eq (hrids : ∀ rid : ℤ, rid ∈ rows.map (·.rid) ↔
      0 ≤ rid ∧ rid < ((ridsOf rows).length : ℤ)) :
    ridsOf rows = (List.range (ridsOf rows).length).map fun i : ℕ => (i : ℤ) := by
  refine (pairwise_lt_unique _).eq_of_mem_iff ?_ fun rid => ?_
  · exact List.pairwise_map.mpr (List.pairwise_lt_range.imp fun h => Int.ofNat_lt.mpr h)
  · rw [mem_unique, hrids, List.mem_map]
    constructor
    · rintro ⟨hnonneg, hlt⟩
      exact ⟨rid.toNat, List.mem_range.mpr (by omega), Int.toNat_of_nonneg hnonneg⟩
    · rintro ⟨i, hi, rfl⟩
      exact ⟨Int.natCast_nonneg i, Int.ofNat_lt.mpr (List.mem_range.mp hi)⟩

theorem ridsOf_getElem? (hrids : ∀ rid : ℤ, rid ∈ rows.map (·.rid) ↔
      0 ≤ rid ∧ rid < ((ridsOf rows).length : ℤ)) {i : ℕ} (hi : i < (ridsOf rows).length) :
    (ridsOf rows)[i]? = some (i : ℤ) := by
  rw [ridsOf_eq hrids, List.getElem?_map, List.getElem?_range hi]
  rfl

/-- The counts of the loader, if the requests are numbered from zero. -/
theorem fillCounts_eq (hrids : ∀ rid : ℤ, rid ∈ rows.map (·.rid) ↔
      0 ≤ rid ∧ rid < ((ridsOf rows).length : ℤ)) {counts : List ℕ}
    (h : fillCounts rows (ridsOf rows) (List.replicate (ridsOf rows).length 0) = .ok counts) :
    counts = (ridsOf rows).map fun rid => (tokensOf rows rid).length := by
  have hmem : ∀ rid ∈ ridsOf rows, 0 ≤ rid := fun rid hrid =>
    ((hrids rid).mp (mem_unique.mp hrid)).1
  obtain ⟨hlength, hget⟩ := fillCounts_getElem? hmem h
  rw [List.length_replicate] at hlength hget
  refine List.ext_getElem? fun i => ?_
  by_cases hi : i < (ridsOf rows).length
  · have hrid := ridsOf_getElem? hrids hi
    rw [hget i hi, if_pos (List.mem_of_getElem? hrid), List.getElem?_map, hrid]
    rfl
  · rw [List.getElem?_eq_none (by omega), List.getElem?_eq_none (by rw [List.length_map]; omega)]

theorem ProfileDrivenRouter.load_eq_ok {p : Profile} {numExperts topK : ℕ} {layerId : Option ℤ}
    {router : ProfileDrivenRouter} (h : load p numExperts topK layerId = .ok router) :
    ∃ groupSize counts, projectGroupSize p.numUniqueExperts numExperts = .ok groupSize ∧
      fillCounts (p.loaded layerId) (ridsOf (p.loaded layerId))
        (List.replicate (ridsOf (p.loaded layerId)).length 0) = .ok counts ∧
      router = ofRows (p.loaded layerId) topK layerId groupSize counts := by
  rw [load] at h
  obtain ⟨_, -, h⟩ := bind_eq_ok.mp h
  obtain ⟨_, -, h⟩ := bind_eq_ok.mp h
  obtain ⟨_, -, h⟩ := bind_eq_ok.mp h
  obtain ⟨-, h⟩ := ensure_bind_eq_ok.mp h
  obtain ⟨-, h⟩ := ensure_bind_eq_ok.mp h
  obtain ⟨groupSize, hgroup, h⟩ := bind_eq_ok.mp h
  obtain ⟨-, h⟩ := ensure_bind_eq_ok.mp h
  obtain ⟨counts, hcounts, h⟩ := bind_eq_ok.mp h
  exact ⟨groupSize, counts, hgroup, hcounts, (Except.ok.inj h).symm⟩

end Loader

/-! ### Positions -/

/-- A row is found at its position exactly if the layer has the right number. -/
theorem wrapIdx_eq_iff {j k T x : ℕ} {layer : ℤ} (hj : j < k) (hx : x < T) :
    wrapIdx (k * T) (layer * T + x) = ((j * T + x : ℕ) : ℤ) ↔
      layer = (j : ℤ) ∨ layer = (j : ℤ) - (k : ℤ) := by
  have hT : (0 : ℤ) < T := by omega
  rw [wrapIdx]
  push_cast
  constructor
  · intro h
    split_ifs at h
    · right
      have hmul : (layer + k) * T = j * T := by linarith
      have := Int.eq_of_mul_eq_mul_right hT.ne' hmul
      omega
    · left
      have hmul : layer * T = j * T := by linarith
      exact Int.eq_of_mul_eq_mul_right hT.ne' hmul
  · rintro (rfl | rfl)
    · have hnonneg : (0 : ℤ) ≤ j * T := by positivity
      rw [if_neg (by omega)]
    · have hneg : ((j : ℤ) - k) * T ≤ -1 * T := Int.mul_le_mul_of_nonneg_right (by omega) hT.le
      rw [if_pos (by omega)]
      linarith

namespace ProfileDrivenRouter

theorem routeRow_eq_ok_iff {router : ProfileDrivenRouter} {r t count : ℕ} {layer : ℤ}
    {row : ProfileRow} (hrequests : router.numProfiledRequests ≠ 0)
    (hcount : router.tokensPerRequest[r % router.numProfiledRequests]? = some count)
    (hpos : count ≠ 0) :
    router.routeRow r t layer router.topK = .ok row ↔
      ∃ p : ℕ, wrapIdx router.routingRows.length
          (router.flatIdx (r % router.numProfiledRequests) (t % count) layer) = (p : ℤ) ∧
        router.routingRows[p]? = some row := by
  have hgetD : router.tokensPerRequest.getD (r % router.numProfiledRequests) 0 = count := by
    rw [List.getD_eq_getElem?_getD, hcount]
    rfl
  rw [routeRow, ensure_of_true rfl, ok_bind, ensure_of_true hrequests, ok_bind]
  dsimp only
  rw [hgetD, ensure_of_true hpos, ok_bind, ensure_bind_eq_ok]
  constructor
  · rintro ⟨hnonneg, h⟩
    refine ⟨_, (Int.toNat_of_nonneg hnonneg).symm, ?_⟩
    split at h
    · next hrow => exact hrow.trans (congrArg some (Except.ok.inj h))
    · cases h
  · rintro ⟨p, hp, hrow⟩
    rw [hp]
    refine ⟨Int.natCast_nonneg p, ?_⟩
    rw [Int.toNat_natCast, hrow]
    rfl

end ProfileDrivenRouter

section Replay

variable {rows : List ProfileRow} {layerId : Option ℤ} {groupSize : Option ℕ} {numExperts topK : ℕ}
  {counts : List ℕ} {layer rid tokenIndex : ℤ} {j i k : ℕ} {row : ProfileRow}

open ProfileDrivenRouter

theorem flatIdx_ofRows (hcounts : counts = (ridsOf rows).map fun rid => (tokensOf rows rid).length)
    (i k : ℕ) (layer : ℤ) :
    (ofRows rows topK layerId groupSize counts).flatIdx i k layer =
      if layerId ≠ none then ((offset rows i + k : ℕ) : ℤ)
      else layer * (total rows : ℤ) + ((offset rows i + k : ℕ) : ℤ) := by
  have hoffset : (ofRows rows topK layerId groupSize counts).tokenPrefixSum i = offset rows i := by
    rw [tokenPrefixSum, offset, List.map_take, ← hcounts]
    rfl
  have htotal : (ofRows rows topK layerId groupSize counts).totalTokensPerLayer = total rows := by
    rw [totalTokensPerLayer, total, ← hcounts]
    rfl
  rw [flatIdx, hoffset, htotal, Int.add_assoc]
  push_cast
  rfl

theorem layersOf_fixed (hfixed : ∀ layer, layerId = some layer → ∀ row ∈ rows, row.layer = layer)
    (hlayerId : layerId ≠ none) (hj : (layersOf rows)[j]? = some layer) : j = 0 := by
  obtain ⟨fixed, hfix⟩ := Option.ne_none_iff_exists'.mp hlayerId
  have hmem : ∀ l ∈ layersOf rows, l = fixed := by
    intro l hl
    obtain ⟨row, hrow, rfl⟩ := List.mem_map.mp (mem_unique.mp hl)
    exact hfixed fixed hfix row hrow
  by_contra hne
  obtain ⟨hlt, hget⟩ := List.getElem?_eq_some_iff.mp hj
  have hpairwise := List.pairwise_iff_getElem.mp
    (show (layersOf rows).Pairwise (· < ·) from pairwise_lt_unique _) 0 j (by omega) hlt (by omega)
  rw [hmem _ (List.getElem_mem _), hmem _ (List.getElem_mem _)] at hpairwise
  exact lt_irrefl _ hpairwise

theorem position_iff (hfixed : ∀ layer, layerId = some layer → ∀ row ∈ rows, row.layer = layer)
    (hj : (layersOf rows)[j]? = some layer) {x : ℕ} (hx : x < total rows) :
    wrapIdx ((layersOf rows).length * total rows)
        (if layerId ≠ none then (x : ℤ) else layer * (total rows : ℤ) + x) =
          ((j * total rows + x : ℕ) : ℤ) ↔
      (layerId = none → layer = (j : ℤ) ∨ layer = (j : ℤ) - ((layersOf rows).length : ℤ)) := by
  by_cases hlayerId : layerId = none
  · rw [if_neg (not_not.mpr hlayerId), wrapIdx_eq_iff (List.getElem?_eq_some_iff.mp hj).1 hx]
    exact ⟨fun h _ => h, fun h => h hlayerId⟩
  · obtain rfl := layersOf_fixed hfixed hlayerId hj
    rw [if_pos hlayerId, wrapIdx, if_neg (not_lt.mpr (Int.natCast_nonneg x)), Nat.zero_mul,
      Nat.zero_add]
    exact iff_of_true rfl fun h => absurd h hlayerId

theorem sortedRows_getElem?_iff (hgrid : ∀ layer ∈ rows.map (·.layer), ∀ rid ∈ rows.map (·.rid),
      ∀ tokenIndex ∈ tokensOf rows rid, (rowsAt rows layer rid tokenIndex).length = 1)
    (hj : (layersOf rows)[j]? = some layer) (hi : (ridsOf rows)[i]? = some rid)
    (hk : (tokensOf rows rid)[k]? = some tokenIndex)
    (hrow : rowsAt rows layer rid tokenIndex = [row]) {q : ℕ} :
    ((rows.insertionSort (·.key ≤ ·.key)).map (·.project groupSize))[q]? =
        some (row.project groupSize) ↔ q = j * total rows + (offset rows i + k) := by
  have hkey : row.key = toLex (layer, toLex (rid, tokenIndex)) := by
    have hmem : row ∈ rowsAt rows layer rid tokenIndex := hrow ▸ List.mem_singleton_self row
    obtain ⟨-, h⟩ := List.mem_filter.mp hmem
    obtain ⟨hl, hr, ht⟩ := of_decide_eq_true h
    rw [ProfileRow.key, hl, hr, ht]
  have hgrid' := gridKeys_getElem? hj hi hk
  rw [← sortedKeys_eq hgrid] at hgrid'
  have hnodup : (sortedKeys rows).Nodup := by
    rw [sortedKeys_eq hgrid]
    exact (pairwise_gridKeys rows).imp fun h => ne_of_lt h
  rw [List.getElem?_map, Option.map_eq_some_iff]
  constructor
  · rintro ⟨row', hrow', hproject⟩
    -- a projected row has the key of the row
    have hsame : (row'.project groupSize).key = (row.project groupSize).key := by rw [hproject]
    change row'.key = row.key at hsame
    have hq : (sortedKeys rows)[q]? = some (toLex (layer, toLex (rid, tokenIndex))) := by
      rw [sortedKeys, List.getElem?_map, hrow', Option.map_some, hsame, hkey]
    exact (List.getElem?_inj (List.getElem?_eq_some_iff.mp hq).1 hnodup).mp (hq.trans hgrid'.symm)
  · rintro rfl
    rw [sortedKeys, List.getElem?_map, Option.map_eq_some_iff] at hgrid'
    obtain ⟨row', hrow', hkey'⟩ := hgrid'
    have hmem : row' ∈ rowsAt rows layer rid tokenIndex := by
      refine List.mem_filter.mpr
        ⟨(List.mem_insertionSort _).mp (List.mem_of_getElem? hrow'), decide_eq_true ?_⟩
      rw [ProfileRow.key, EmbeddingLike.apply_eq_iff_eq, Prod.mk.injEq,
        EmbeddingLike.apply_eq_iff_eq, Prod.mk.injEq] at hkey'
      exact hkey'
    rw [hrow, List.mem_singleton] at hmem
    exact ⟨row', hrow', by rw [hmem]⟩

theorem length_routingRows (hgrid : ∀ layer ∈ rows.map (·.layer), ∀ rid ∈ rows.map (·.rid),
      ∀ tokenIndex ∈ tokensOf rows rid, (rowsAt rows layer rid tokenIndex).length = 1) :
    (ofRows rows topK layerId groupSize counts).routingRows.length =
      (layersOf rows).length * total rows := by
  rw [← length_gridKeys, ← sortedKeys_eq hgrid, sortedKeys, List.length_map]
  exact List.length_map _

/-- **The row that is read**: with requests numbered from zero and a row for each token, it is the
right one exactly if the layer has the right number. -/
theorem routeRow_iff (hrids : ∀ rid : ℤ, rid ∈ rows.map (·.rid) ↔
      0 ≤ rid ∧ rid < ((ridsOf rows).length : ℤ))
    (hgrid : ∀ layer ∈ rows.map (·.layer), ∀ rid ∈ rows.map (·.rid),
      ∀ tokenIndex ∈ tokensOf rows rid, (rowsAt rows layer rid tokenIndex).length = 1)
    (hcounts : counts = (ridsOf rows).map fun rid => (tokensOf rows rid).length)
    (hfixed : ∀ layer, layerId = some layer → ∀ row ∈ rows, row.layer = layer)
    (hj : (layersOf rows)[j]? = some layer) (hrows : rows ≠ []) {r t : ℕ}
    (ht : (tokensOf rows (mappedRid rows r))[t % (tokensOf rows (mappedRid rows r)).length]? =
      some tokenIndex)
    (hrow : rowsAt rows layer (mappedRid rows r) tokenIndex = [row]) :
    (ofRows rows topK layerId groupSize counts).routeRow r t layer
        (ofRows rows topK layerId groupSize counts).topK = .ok (row.project groupSize) ↔
      (layerId = none → layer = (j : ℤ) ∨ layer = (j : ℤ) - ((layersOf rows).length : ℤ)) := by
  have hpos : (ridsOf rows).length ≠ 0 := by
    obtain ⟨row₀, hrow₀⟩ := List.exists_mem_of_ne_nil rows hrows
    exact (List.length_pos_of_mem (mem_unique.mpr (List.mem_map_of_mem hrow₀))).ne'
  have hi := ridsOf_getElem? hrids (Nat.mod_lt r (Nat.pos_of_ne_zero hpos))
  have hk := (List.getElem?_eq_some_iff.mp ht).1
  have hcount : (ofRows rows topK layerId groupSize counts).tokensPerRequest[
      r % (ridsOf rows).length]? = some (tokensOf rows (mappedRid rows r)).length := by
    show counts[r % (ridsOf rows).length]? = _
    rw [hcounts, List.getElem?_map, hi]
    rfl
  rw [routeRow_eq_ok_iff hpos hcount (by omega), length_routingRows hgrid, flatIdx_ofRows hcounts,
    ← position_iff hfixed hj (offset_add_lt hi hk)]
  constructor
  · rintro ⟨q, hq, hget⟩
    rw [(sortedRows_getElem?_iff hgrid hj hi ht hrow).mp hget] at hq
    exact hq
  · intro hposition
    exact ⟨_, hposition, (sortedRows_getElem?_iff hgrid hj hi ht hrow).mpr rfl⟩

variable {router : ProfileDrivenRouter}

theorem mappedRid_of_lt {i : ℕ} (hi : i < (ridsOf rows).length) : mappedRid rows i = (i : ℤ) := by
  rw [mappedRid, Nat.mod_eq_of_lt hi]

theorem mem_rowsAt (h : row ∈ rowsAt rows layer rid tokenIndex) :
    row ∈ rows ∧ row.layer = layer ∧ row.rid = rid ∧ row.tokenIndex = tokenIndex := by
  obtain ⟨hmem, h⟩ := List.mem_filter.mp h
  exact ⟨hmem, of_decide_eq_true h⟩

/-- Each request up to their number has a row, so these are the requests. -/
theorem Replays.rids (h : Replays rows groupSize numExperts router) (rid : ℤ) :
    rid ∈ rows.map (·.rid) ↔ 0 ≤ rid ∧ rid < ((ridsOf rows).length : ℤ) := by
  have hsubset : (List.range (ridsOf rows).length).map (fun i : ℕ => (i : ℤ)) ⊆ ridsOf rows := by
    intro x hx
    obtain ⟨i, hi, rfl⟩ := List.mem_map.mp hx
    obtain ⟨row₀, hrow₀⟩ : ∃ row₀, row₀ ∈ rows := by
      obtain ⟨y, hy⟩ := List.exists_mem_of_length_pos
        (Nat.lt_of_le_of_lt (Nat.zero_le i) (List.mem_range.mp hi))
      obtain ⟨row₀, hrow₀, -⟩ := List.mem_map.mp (mem_unique.mp hy)
      exact ⟨row₀, hrow₀⟩
    obtain ⟨row, tokenIndex, -, hrow, -⟩ := h i 0 row₀.layer (List.mem_map_of_mem hrow₀)
    obtain ⟨hmem, -, hrid, -⟩ := mem_rowsAt (hrow ▸ List.mem_singleton_self row)
    rw [mappedRid_of_lt (List.mem_range.mp hi)] at hrid
    exact mem_unique.mpr (hrid ▸ List.mem_map_of_mem hmem)
  have hnodup : ((List.range (ridsOf rows).length).map fun i : ℕ => (i : ℤ)).Nodup :=
    List.nodup_range.map fun _ _ heq => Int.ofNat_inj.mp heq
  have hperm := (List.subperm_of_subset hnodup hsubset).perm_of_length_le
    (by rw [List.length_map, List.length_range])
  rw [← mem_unique, ← ridsOf, ← hperm.mem_iff, List.mem_map]
  constructor
  · rintro ⟨i, hi, rfl⟩
    exact ⟨Int.natCast_nonneg i, Int.ofNat_lt.mpr (List.mem_range.mp hi)⟩
  · rintro ⟨hnonneg, hlt⟩
    exact ⟨rid.toNat, List.mem_range.mpr (by omega), Int.toNat_of_nonneg hnonneg⟩

theorem Replays.query (h : Replays rows groupSize numExperts router)
    (hlayer : layer ∈ rows.map (·.layer)) (hrid : rid ∈ rows.map (·.rid))
    (htoken : tokenIndex ∈ tokensOf rows rid) :
    ∃ row, rowsAt rows layer rid tokenIndex = [row] ∧
      ∀ id ∈ row.experts, 0 ≤ id / groupOf groupSize ∧ id / groupOf groupSize < numExperts := by
  obtain ⟨hnonneg, hlt⟩ := (h.rids rid).mp hrid
  obtain ⟨k, hk⟩ := List.mem_iff_getElem?.mp htoken
  have hmapped : mappedRid rows rid.toNat = rid := by
    rw [mappedRid_of_lt (by omega), Int.toNat_of_nonneg hnonneg]
  obtain ⟨row, tokenIndex', ht, hrow, -, -, hids⟩ := h rid.toNat k layer hlayer
  rw [hmapped, Nat.mod_eq_of_lt (List.getElem?_eq_some_iff.mp hk).1, hk] at ht
  obtain rfl := Option.some.inj ht
  rw [hmapped] at hrow
  exact ⟨row, hrow, hids⟩

theorem Replays.grid (h : Replays rows groupSize numExperts router) :
    ∀ layer ∈ rows.map (·.layer), ∀ rid ∈ rows.map (·.rid), ∀ tokenIndex ∈ tokensOf rows rid,
      (rowsAt rows layer rid tokenIndex).length = 1 := by
  intro layer hlayer rid hrid tokenIndex htoken
  obtain ⟨row, hrow, -⟩ := h.query hlayer hrid htoken
  rw [hrow]
  rfl

theorem Replays.ids (h : Replays rows groupSize numExperts router)
    (hgroup : 0 < groupOf groupSize) :
    ∀ row ∈ rows, ∀ id ∈ row.experts, 0 ≤ id ∧ id < (numExperts : ℤ) * groupOf groupSize := by
  intro row hrow id hid
  obtain ⟨row', hrow', hids⟩ := h.query (List.mem_map_of_mem hrow) (List.mem_map_of_mem hrow)
    (mem_tokensOf.mpr ⟨row, hrow, rfl, rfl⟩)
  have hmem : row ∈ rowsAt rows row.layer row.rid row.tokenIndex :=
    List.mem_filter.mpr ⟨hrow, decide_eq_true ⟨rfl, rfl, rfl⟩⟩
  rw [hrow', List.mem_singleton] at hmem
  obtain ⟨hnonneg, hlt⟩ := hids id (hmem ▸ hid)
  exact ⟨(Int.ediv_nonneg_iff_of_pos hgroup).mp hnonneg, (Int.ediv_lt_iff_lt_mul hgroup).mp hlt⟩

theorem projectId_eq {id : ℤ} (hid : 0 ≤ id) : projectId groupSize id = id / groupOf groupSize := by
  cases groupSize with
  | none => exact (Int.ediv_one id).symm
  | some size => exact if_pos hid

/-- The expert ids that are returned for a row whose ids are not below zero. -/
theorem route_of_routeRow {r t : ℕ} (hids : ∀ id ∈ row.experts, 0 ≤ id)
    (h : router.routeRow r t layer topK = .ok (row.project groupSize)) :
    router.route r t layer topK = .ok (row.experts.map (· / groupOf groupSize)) := by
  rw [route, h, ok_bind]
  exact congrArg Except.ok (List.map_congr_left fun id hid => projectId_eq (hids id hid))

theorem Replays.uniform (hcounts : fillCounts rows (ridsOf rows)
      (List.replicate (ridsOf rows).length 0) = .ok counts)
    (hfixed : ∀ layer, layerId = some layer → ∀ row ∈ rows, row.layer = layer)
    (hgroup : 0 < groupOf groupSize)
    (h : Replays rows groupSize numExperts (ofRows rows topK layerId groupSize counts)) :
    Uniform rows layerId groupSize numExperts := by
  refine ⟨h.rids, h.grid, fun hlayerId j layer hj => ?_, h.ids hgroup⟩
  have hmem : layer ∈ rows.map (·.layer) := mem_unique.mp (List.mem_of_getElem? hj)
  obtain ⟨row₀, hrow₀, -⟩ := List.mem_map.mp hmem
  obtain ⟨row, tokenIndex, ht, hrow, hroute, -⟩ := h 0 0 layer hmem
  exact (routeRow_iff h.rids h.grid (fillCounts_eq h.rids hcounts) hfixed hj
    (List.ne_nil_of_mem hrow₀) ht hrow).mp hroute hlayerId

theorem Uniform.replays (hcounts : fillCounts rows (ridsOf rows)
      (List.replicate (ridsOf rows).length 0) = .ok counts)
    (hfixed : ∀ layer, layerId = some layer → ∀ row ∈ rows, row.layer = layer)
    (hgroup : 0 < groupOf groupSize) (h : Uniform rows layerId groupSize numExperts) :
    Replays rows groupSize numExperts (ofRows rows topK layerId groupSize counts) := by
  intro r t layer hlayer
  obtain ⟨row₀, hrow₀, -⟩ := List.mem_map.mp hlayer
  have hrequests : 0 < (ridsOf rows).length :=
    List.length_pos_of_mem (mem_unique.mpr (List.mem_map_of_mem hrow₀))
  have hrid : mappedRid rows r ∈ rows.map (·.rid) :=
    (h.rids _).mpr ⟨Int.natCast_nonneg _, Int.ofNat_lt.mpr (Nat.mod_lt r hrequests)⟩
  obtain ⟨row₁, hrow₁, hrid₁⟩ := List.mem_map.mp hrid
  have htokens : 0 < (tokensOf rows (mappedRid rows r)).length :=
    List.length_pos_of_mem (mem_tokensOf.mpr ⟨row₁, hrow₁, hrid₁, rfl⟩)
  have ht := List.getElem?_eq_getElem (Nat.mod_lt t htokens)
  obtain ⟨row, hrow⟩ := List.length_eq_one_iff.mp
    (h.grid layer hlayer _ hrid _ (List.getElem_mem (Nat.mod_lt t htokens)))
  obtain ⟨j, hj⟩ := List.mem_iff_getElem?.mp (show layer ∈ layersOf rows from mem_unique.mpr hlayer)
  have hids := h.ids row (mem_rowsAt (hrow ▸ List.mem_singleton_self row)).1
  have hroute := (@routeRow_iff rows layerId groupSize topK counts layer _ j row h.rids h.grid
    (fillCounts_eq h.rids hcounts) hfixed hj (List.ne_nil_of_mem hrow₀) r t ht hrow).mpr
      fun hlayerId => h.layers hlayerId j layer hj
  refine ⟨row, _, ht, hrow, hroute, route_of_routeRow (fun id hid => (hids id hid).1) hroute,
    fun id hid => ?_⟩
  exact ⟨Int.ediv_nonneg (hids id hid).1 hgroup.le,
    (Int.ediv_lt_iff_lt_mul hgroup).mpr (hids id hid).2⟩

end Replay

/-- **A profile that loads is replayed exactly if it is uniform.** -/
theorem replays_iff_uniform (p : Profile) (numExperts topK : ℕ) (layerId : Option ℤ)
    (router : ProfileDrivenRouter)
    (hload : ProfileDrivenRouter.load p numExperts topK layerId = .ok router) :
    ∃ groupSize, projectGroupSize p.numUniqueExperts numExperts = .ok groupSize ∧
      (Replays (p.loaded layerId) groupSize numExperts router ↔
        Uniform (p.loaded layerId) layerId groupSize numExperts) := by
  obtain ⟨groupSize, counts, hgroup, hcounts, rfl⟩ := ProfileDrivenRouter.load_eq_ok hload
  have hpos := groupOf_pos hgroup
  have hfixed : ∀ layer, layerId = some layer → ∀ row ∈ p.loaded layerId, row.layer = layer := by
    rintro layer rfl row hrow
    exact of_decide_eq_true (List.mem_filter.mp hrow).2
  exact ⟨groupSize, hgroup, fun h => h.uniform hcounts hfixed hpos,
    fun h => h.replays hcounts hfixed hpos⟩

/-- Two layers, one request, two tokens. -/
theorem replays_iff_uniform_two_layers :
    ∃ (p : Profile) (router : ProfileDrivenRouter),
      p.rows = [⟨0, 0, 0, [0]⟩, ⟨0, 0, 1, [1]⟩, ⟨1, 0, 0, [1]⟩, ⟨1, 0, 1, [0]⟩] ∧
      ProfileDrivenRouter.load p 2 1 none = .ok router ∧ Replays p.rows none 2 router := by
  let p : Profile := ⟨[.rid, .tokenIndex, .layer, .expertLogicalK "0"],
    [⟨0, 0, 0, [0]⟩, ⟨0, 0, 1, [1]⟩, ⟨1, 0, 0, [1]⟩, ⟨1, 0, 1, [0]⟩]⟩
  obtain ⟨router, hload⟩ : ∃ router, ProfileDrivenRouter.load p 2 1 none = .ok router := ⟨_, rfl⟩
  obtain ⟨groupSize, hgroup, hiff⟩ := replays_iff_uniform p 2 1 none router hload
  obtain rfl : none = groupSize := Except.ok.inj hgroup
  refine ⟨p, router, rfl, hload, hiff.mpr ⟨fun rid => ?_, by decide, fun _ j layer hj => ?_,
    by decide⟩⟩
  · rw [show (ridsOf (p.loaded none)).length = 1 by decide,
      show (p.loaded none).map (·.rid) = [0, 0, 0, 0] by decide]
    simp only [List.mem_cons, List.not_mem_nil, or_false, or_self]
    omega
  · rw [show layersOf (p.loaded none) = [0, 1] by decide] at hj
    match j, hj with
    | 0, hj => exact .inl (Option.some.inj hj).symm
    | 1, hj => exact .inl (Option.some.inj hj).symm

/-- The first layer lacks the second token: the first token of the second layer is looked up behind
the row that has it. -/
theorem route_of_missing_row :
    ∃ (p : Profile) (router : ProfileDrivenRouter),
      p.rows = [⟨0, 0, 0, [0]⟩, ⟨1, 0, 0, [1]⟩, ⟨1, 0, 1, [0]⟩] ∧
      ProfileDrivenRouter.load p 2 1 none = .ok router ∧ tokensOf p.rows 0 = [0, 1] ∧
      rowsAt p.rows 1 0 0 = [⟨1, 0, 0, [1]⟩] ∧ router.route 0 0 1 1 = .ok [0] :=
  ⟨⟨[.rid, .tokenIndex, .layer, .expertLogicalK "0"],
    [⟨0, 0, 0, [0]⟩, ⟨1, 0, 0, [1]⟩, ⟨1, 0, 1, [0]⟩]⟩, _, rfl, rfl, by decide, by decide, rfl⟩

end StreamEP

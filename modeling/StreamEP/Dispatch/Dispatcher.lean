import StreamEP.Dispatch.Placement
import StreamEP.Batch.Sort

/-!
# The dispatcher

`UnifiedDispatcher` of `csrc/muhelper/dispatcher.cpp`. It routes by two tables: from an expert to
its rank, and from a rank to the channel of the device with that attention rank. A batch is cut
into runs of rows with the same channel, or with the same rank on the way back, and each run is
sent on the channel of its first row.

Reading a table at `-1` is undefined in the source; `lookup` answers `-1` there, which is never
the number of a channel.

## Dispatchers of a deployment

The tables of a device come from `ColocateConfig.dispatcher`, for any placement. A `Deployment`
is a placement in which every device hosts an expert and is an attention rank; its dispatcher is
that of its configuration and placement, so results about either are about the same tables.
-/

namespace StreamEP

variable {W V : Type}

def lookup (table : List ℤ) (i : ℤ) : ℤ := if i < 0 then -1 else table.getD i.toNat (-1)

@[simp] theorem lookup_natCast (table : List ℤ) (i : ℕ) :
    lookup table i = table.getD i (-1) := by
  simp [lookup, Int.not_lt.mpr (Int.natCast_nonneg i)]

structure UnifiedDispatcher where
  rankToChannel : List ℤ
  expertToRank : List ℤ
deriving DecidableEq, Repr

namespace UnifiedDispatcher

/-- The constructor: `expertRanks` are the triples of layer, expert and rank the device was told,
`channelRanks` the attention ranks of its channels in order. -/
def create (dp numExperts : ℕ) (expertRanks : List (ℕ × ℕ × ℕ)) (channelRanks : List ℕ) :
    UnifiedDispatcher where
  rankToChannel := channelRanks.zipIdx.foldl (fun table x => table.set x.1 x.2)
    (List.replicate dp (-1))
  expertToRank := expertRanks.foldl (fun table x => table.set x.2.1 x.2.2)
    (List.replicate numExperts (-1))

def attnGetChannelId (u : UnifiedDispatcher) (dpRank : ℤ) : ℤ := lookup u.rankToChannel dpRank

def expertGetChannelId (u : UnifiedDispatcher) (expertId : ℤ) : ℤ :=
  lookup u.rankToChannel (lookup u.expertToRank expertId)

/-- The loop that computes `split_sizes`: the lengths of the runs of equal keys. -/
def splitSizes {κ : Type} [DecidableEq κ] : List κ → List ℕ
  | [] => []
  | [_] => [1]
  | x :: y :: rest =>
    match splitSizes (y :: rest) with
    | [] => [1]
    | n :: ns => if x = y then (n + 1) :: ns else 1 :: n :: ns

def sendToExpertOnce (u : UnifiedDispatcher) (b : TokenBatch W V) : List (ℤ × TokenBatch W V) :=
  let splitSizes := splitSizes (b.metadata.expIds.map fun e : ℕ => u.expertGetChannelId e)
  (b.splitWithSizes splitSizes).map fun piece =>
    (u.expertGetChannelId (piece.metadata.expIds.headD 0 : ℕ), piece)

def sendToAttnOnce (u : UnifiedDispatcher) (b : TokenBatch W V) : List (ℤ × TokenBatch W V) :=
  let splitSizes := splitSizes b.metadata.attnDpRanks
  (b.splitWithSizes splitSizes).map fun piece =>
    (u.attnGetChannelId (piece.metadata.attnDpRanks.headD 0 : ℕ), piece)

/-- `_send_once`: a batch of the tokenizer is not sent. -/
def sendOnce (u : UnifiedDispatcher) (b : TokenBatch W V) : List (ℤ × TokenBatch W V) :=
  match b.metadata.batchTag with
  | .attention => u.sendToExpertOnce b
  | .expert => u.sendToAttnOnce b
  | .tokenizer => []

end UnifiedDispatcher

namespace ModelPlacement

/-- The device at the other end of channel `c` of device `d`. -/
def peer (p : ModelPlacement) (d : ℕ) (c : ℤ) : Option ℕ :=
  if c < 0 then none else (p.outDeviceIds d)[c.toNat]?

end ModelPlacement

/-- The dispatcher of device `d`, from what `init_core` is told about the placement. -/
def ColocateConfig.dispatcher (cfg : ColocateConfig) (place : ModelPlacement) (d : ℕ) :
    UnifiedDispatcher :=
  .create cfg.dpSize cfg.numExperts (place.outExpertRanksAt d)
    ((place.outDeviceIds d).map place.attnDpRankAt)

namespace Deployment

variable (P : Deployment)

def dispatcher (d : ℕ) : UnifiedDispatcher := P.cfg.dispatcher P.place d

def peer (d : ℕ) (c : ℤ) : Option ℕ := P.place.peer d c

end Deployment

/-! ### The tables -/

theorem length_foldl_set {α : Type} (entries : List α) (key : α → ℕ) (val : α → ℤ)
    (table : List ℤ) :
    (entries.foldl (fun table x => table.set (key x) (val x)) table).length = table.length := by
  induction entries generalizing table with
  | nil => rfl
  | cons x entries ih => rw [List.foldl_cons, ih, List.length_set]

theorem getD_foldl_set {α : Type} {entries : List α} {key : α → ℕ} {val : α → ℤ}
    {table : List ℤ} {i : ℕ} {v : ℤ} (hi : i < table.length)
    (hval : ∀ x ∈ entries, key x = i → val x = v) (hex : ∃ x ∈ entries, key x = i) :
    (entries.foldl (fun table x => table.set (key x) (val x)) table).getD i (-1) = v := by
  induction entries using List.reverseRecOn with
  | nil => simp at hex
  | append_singleton entries x ih =>
    rw [List.foldl_append, List.foldl_cons, List.foldl_nil, List.getD_eq_getElem?_getD]
    by_cases hx : key x = i
    · rw [hx, List.getElem?_set_self (by rwa [length_foldl_set])]
      exact hval x (by simp) hx
    · rw [List.getElem?_set_ne hx, ← List.getD_eq_getElem?_getD]
      refine ih (fun y hy => hval y (by simp [hy])) ?_
      obtain ⟨y, hy, hyi⟩ := hex
      refine ⟨y, (List.mem_append.mp hy).resolve_right fun h => ?_, hyi⟩
      exact hx (List.mem_singleton.mp h ▸ hyi)

/-- Every entry of a table filled so is an old one or one that was written. -/
theorem getD_foldl_set_cases {α : Type} (entries : List α) (key : α → ℕ) (val : α → ℤ)
    (table : List ℤ) (i : ℕ) :
    (entries.foldl (fun table x => table.set (key x) (val x)) table).getD i (-1) =
        table.getD i (-1) ∨
      ∃ x ∈ entries, key x = i ∧
        (entries.foldl (fun table x => table.set (key x) (val x)) table).getD i (-1) = val x := by
  induction entries generalizing table with
  | nil => exact .inl rfl
  | cons x entries ih =>
    rw [List.foldl_cons]
    rcases ih (table.set (key x) (val x)) with h | ⟨y, hy, hkey, h⟩
    · rw [h, List.getD_eq_getElem?_getD, List.getElem?_set]
      split_ifs with hx hlt
      · exact .inr ⟨x, List.mem_cons_self, hx, rfl⟩
      · left
        rw [List.getD_eq_getElem?_getD, List.getElem?_eq_none (hx ▸ Nat.le_of_not_lt hlt)]
      · exact .inl (List.getD_eq_getElem?_getD ..).symm
    · exact .inr ⟨y, List.mem_cons_of_mem _ hy, hkey, h⟩

namespace Colocation

variable (P : Colocation) {d : ℕ} (hd : d < P.cfg.numDevices)

include hd

theorem expertToRank_eq {e : ℕ} (he : e < P.cfg.numExperts) :
    (P.cfg.dispatcher P.place d).expertToRank.getD e (-1) = P.owner e := by
  refine getD_foldl_set (by simpa using he) ?_ ?_
  · rintro ⟨l, e', rank⟩ hmem rfl
    obtain ⟨dev, -, hmap⟩ := List.mem_flatMap.mp hmem
    obtain ⟨x, hx, heq⟩ := List.mem_map.mp hmap
    obtain ⟨rfl, rfl, rfl⟩ := by simpa using heq
    have hl := (P.hosts_place.range dev x.1 x.2 hx).1
    rw [P.expertRanks_eq hx, (P.mem_expert_iff he hl).mp hx]
  · have hmem := (P.mem_expert_iff he P.numLayers_pos).mpr (rfl : P.owner e = _)
    refine ⟨(0, e, P.place.expertRanks (0, e)), List.mem_flatMap.mpr ⟨P.owner e, ?_, ?_⟩, rfl⟩
    · exact (P.mem_outDeviceIds hd).mpr (P.owner_lt he)
    · exact List.mem_map.mpr ⟨(0, e), hmem, rfl⟩

/-- The rank table of a device leads to the channel of the device with that rank. -/
theorem attnGetChannelId_eq (hdp : P.cfg.numDevices ≤ P.cfg.dpSize) {r : ℕ}
    (hr : r < P.cfg.numDevices) :
    ∃ i : ℕ, (P.cfg.dispatcher P.place d).attnGetChannelId r = i ∧
      (P.place.outDeviceIds d)[i]? = some r := by
  have hnodup := P.linked_place.1.nodup d
  obtain ⟨i, hi, hir⟩ := List.getElem_of_mem ((P.mem_outDeviceIds hd).mpr hr)
  have hchannels := P.map_attnDpRankAt (P.place.outDeviceIds d)
  refine ⟨i, ?_, List.getElem?_eq_some_iff.mpr ⟨hi, hir⟩⟩
  rw [UnifiedDispatcher.attnGetChannelId, lookup_natCast]
  refine getD_foldl_set (by simpa using hr.trans_le hdp) ?_ ?_
  · rintro ⟨x, j⟩ hx rfl
    rw [hchannels] at hx
    obtain ⟨hj, hjx⟩ := List.mem_zipIdx_iff_getElem?.mp hx |> List.getElem?_eq_some_iff.mp
    exact congrArg _ ((List.Nodup.getElem_inj_iff hnodup).mp (hjx.trans hir.symm))
  · refine ⟨(r, i), ?_, rfl⟩
    rw [hchannels]
    exact List.mem_zipIdx_iff_getElem?.mpr (List.getElem?_eq_some_iff.mpr ⟨hi, hir⟩)

theorem peer_attnGetChannelId (hdp : P.cfg.numDevices ≤ P.cfg.dpSize) {r : ℕ}
    (hr : r < P.cfg.numDevices) :
    P.place.peer d ((P.cfg.dispatcher P.place d).attnGetChannelId r) = some r := by
  obtain ⟨i, hchannel, hi⟩ := P.attnGetChannelId_eq hd hdp hr
  rw [hchannel, ModelPlacement.peer, if_neg (by omega), Int.toNat_natCast, hi]

theorem expertGetChannelId_eq {e : ℕ} (he : e < P.cfg.numExperts) :
    (P.cfg.dispatcher P.place d).expertGetChannelId e =
      (P.cfg.dispatcher P.place d).attnGetChannelId (P.owner e) := by
  rw [UnifiedDispatcher.expertGetChannelId, lookup_natCast, P.expertToRank_eq hd he,
    UnifiedDispatcher.attnGetChannelId]

/-- Whatever the size of the rank table, a channel it gives for an expert ends at the owner. -/
theorem owner_of_peer {e d' : ℕ} (he : e < P.cfg.numExperts)
    (hpeer : P.place.peer d ((P.cfg.dispatcher P.place d).expertGetChannelId e) = some d') :
    P.owner e = d' := by
  rw [P.expertGetChannelId_eq hd he, UnifiedDispatcher.attnGetChannelId, lookup_natCast] at hpeer
  have hcases := getD_foldl_set_cases
    ((P.place.outDeviceIds d).map P.place.attnDpRankAt).zipIdx (·.1) (fun x => (x.2 : ℤ))
    (List.replicate P.cfg.dpSize (-1)) (P.owner e)
  rcases hcases with hold | ⟨⟨r, i⟩, hmem, hkey, hnew⟩
  · have hnone : (List.replicate P.cfg.dpSize (-1 : ℤ)).getD (P.owner e) (-1) = -1 := by
      rw [List.getD_eq_getElem?_getD, List.getElem?_replicate]
      split_ifs <;> rfl
    rw [hnone] at hold
    rw [ColocateConfig.dispatcher, UnifiedDispatcher.create, hold] at hpeer
    cases hpeer
  · rw [P.map_attnDpRankAt, List.mem_zipIdx_iff_getElem?] at hmem
    rw [ColocateConfig.dispatcher, UnifiedDispatcher.create, hnew, ModelPlacement.peer,
      if_neg (by simp), Int.toNat_natCast, hmem] at hpeer
    exact hkey.symm.trans (Option.some.inj hpeer)

end Colocation

namespace Deployment

variable (P : Deployment) {d : ℕ} (hd : d < P.cfg.numDevices)

include hd

theorem peer_attnGetChannelId {r : ℕ} (hr : r < P.cfg.numDevices) :
    P.peer d ((P.dispatcher d).attnGetChannelId r) = some r :=
  P.toColocation.peer_attnGetChannelId hd P.dpSize.ge hr

theorem peer_expertGetChannelId {e : ℕ} (he : e < P.cfg.numExperts) :
    P.peer d ((P.dispatcher d).expertGetChannelId e) = some (P.owner e) := by
  have hchannel : (P.dispatcher d).expertGetChannelId e = _ :=
    P.toColocation.expertGetChannelId_eq hd he
  rw [hchannel]
  exact P.peer_attnGetChannelId hd (P.owner_lt he)

end Deployment

/-! ### The pieces of a batch -/

namespace UnifiedDispatcher

theorem splitSizes_ne_nil {κ : Type} [DecidableEq κ] {x : κ} {xs : List κ} :
    splitSizes (x :: xs) ≠ [] := by
  cases xs with
  | nil => simp [splitSizes]
  | cons y ys =>
    rw [splitSizes]
    split
    · simp
    · split_ifs <;> simp

theorem sum_splitSizes {κ : Type} [DecidableEq κ] (xs : List κ) :
    (splitSizes xs).sum = xs.length := by
  fun_induction splitSizes xs with
  | case1 => rfl
  | case2 => rfl
  | case3 x y rest h ih => exact absurd h splitSizes_ne_nil
  | case4 x rest n ns h ih =>
    rw [h] at ih
    simp only [List.sum_cons, List.length_cons] at ih ⊢
    omega
  | case5 x y rest n ns h hne ih =>
    rw [h] at ih
    simp only [List.sum_cons, List.length_cons] at ih ⊢
    omega

theorem splitSizes_of_forall_eq {κ : Type} [DecidableEq κ] {xs : List κ} {k : κ} (hne : xs ≠ [])
    (h : ∀ x ∈ xs, x = k) : splitSizes xs = [xs.length] := by
  fun_induction splitSizes xs with
  | case1 => exact absurd rfl hne
  | case2 => rfl
  | case3 x y rest hnil ih => exact absurd hnil splitSizes_ne_nil
  | case4 y rest n ns hcons ih =>
    rw [ih (List.cons_ne_nil _ _) (List.forall_mem_cons.mp h).2] at hcons
    obtain ⟨rfl, rfl⟩ := List.cons.inj hcons
    rfl
  | case5 x y rest n ns hcons hxy ih =>
    have hx := h x List.mem_cons_self
    have hy := h y (List.mem_cons_of_mem _ List.mem_cons_self)
    exact absurd (hx.trans hy.symm) hxy

/-- **The pieces are runs of equal keys**, and none is empty. -/
theorem splitSizes_runs {κ : Type} [DecidableEq κ] (xs : List κ) :
    ∀ run ∈ (splitSizes xs).splitLengths xs, ∃ x, run.head? = some x ∧ ∀ y ∈ run, y = x := by
  fun_induction splitSizes xs with
  | case1 => simp
  | case2 x => simp
  | case3 x y rest h ih => exact absurd h splitSizes_ne_nil
  | case4 y rest n ns h ih =>
    -- the first run grows by one
    rw [h, List.splitLengths_cons] at ih
    rw [List.splitLengths_cons, List.take_succ_cons, List.drop_succ_cons]
    intro run hrun
    rcases List.mem_cons.mp hrun with rfl | hrun
    · obtain ⟨x, hhead, hall⟩ := ih _ List.mem_cons_self
      rw [List.head?_take] at hhead
      split_ifs at hhead
      obtain rfl := Option.some.inj hhead
      exact ⟨y, rfl, fun z hz => (List.mem_cons.mp hz).elim id (hall z)⟩
    · exact ih run (List.mem_cons_of_mem _ hrun)
  | case5 x y rest n ns h hne ih =>
    rw [h] at ih
    rw [List.splitLengths_cons]
    intro run hrun
    rcases List.mem_cons.mp hrun with rfl | hrun
    · exact ⟨x, rfl, by simp⟩
    · exact ih run hrun

theorem mem_splitLengths {α : Type} {c : BatchMetadata W → List α}
    (hcolumn : ∀ m off n, c (m.chunk off n) = ((c m).drop off).take n)
    {b p : TokenBatch W V} {sizes : List ℕ} (hp : p ∈ b.splitWithSizes sizes) :
    c p.metadata ∈ sizes.splitLengths (c b.metadata) := by
  rw [TokenBatch.splitWithSizes_eq] at hp
  obtain ⟨i, hi, rfl⟩ := List.mem_map.mp hp
  rw [splitLengths_eq_map_range, TokenBatch.chunk_metadata, hcolumn]
  exact List.mem_map_of_mem hi

theorem splitLengths_map {α β : Type} (f : α → β) (sizes : List ℕ) (l : List α) :
    sizes.splitLengths (l.map f) = (sizes.splitLengths l).map (List.map f) := by
  rw [splitLengths_eq_map_range, splitLengths_eq_map_range, List.map_map]
  simp [Function.comp_def]

variable [TensorRow V] (u : UnifiedDispatcher) {b : TokenBatch W V}

/-- **Sending the pieces of a batch** sends its rows, and what holds of every piece holds of what is
sent. -/
theorem pieces_of_split {sizes : List ℕ} (hsum : sizes.sum = b.metadata.numTokens)
    {channel : TokenBatch W V → ℤ} {P : ℤ × TokenBatch W V → Prop}
    (hpieces : ∀ p ∈ b.splitWithSizes sizes, P (channel p, p)) :
    ((b.splitWithSizes sizes).map fun p => (channel p, p)).flatMap (·.2.rows) = b.rows ∧
      ∀ x ∈ (b.splitWithSizes sizes).map fun p => (channel p, p),
        (∃ off n, off + n ≤ b.metadata.numTokens ∧ x.2 = b.chunk off n) ∧ P x := by
  constructor
  · rw [List.flatMap_map]
    exact TokenBatch.flatMap_rows_splitWithSizes b hsum
  · intro x hx
    obtain ⟨p, hp, rfl⟩ := List.mem_map.mp hx
    exact ⟨TokenBatch.exists_chunk_of_mem_splitWithSizes hsum.le hp, hpieces p hp⟩

/-- **Rows for experts** are cut into pieces, none empty, every expert of a piece on the channel of
the piece. -/
theorem sendOnce_attention (hb : b.Full) (htag : b.metadata.batchTag = .attention) :
    (u.sendOnce b).flatMap (·.2.rows) = b.rows ∧
      ∀ x ∈ u.sendOnce b,
        (∃ off n, off + n ≤ b.metadata.numTokens ∧ x.2 = b.chunk off n) ∧
        x.2.metadata.expIds ≠ [] ∧ ∀ e ∈ x.2.metadata.expIds, u.expertGetChannelId e = x.1 := by
  rw [sendOnce, htag]
  simp only [sendToExpertOnce]
  have hsum : (splitSizes (b.metadata.expIds.map fun e : ℕ => u.expertGetChannelId e)).sum =
      b.metadata.numTokens := by
    rw [sum_splitSizes, List.length_map, hb.expIds_length]
  refine pieces_of_split hsum fun p hp => ?_
  -- the channels of the piece are one of the runs
  have hrun := List.mem_map_of_mem (f := List.map fun e : ℕ => u.expertGetChannelId e)
    (mem_splitLengths (c := (·.expIds)) (fun m off n => m.chunk_expIds off n) hp)
  rw [← splitLengths_map] at hrun
  obtain ⟨c, hhead, hall⟩ := splitSizes_runs _ _ hrun
  cases hids : p.metadata.expIds with
  | nil => simp [hids] at hhead
  | cons e₀ ids =>
    rw [hids] at hhead hall
    refine ⟨List.cons_ne_nil _ _, fun e he => ?_⟩
    exact (hall _ (List.mem_map_of_mem he)).trans (Option.some.inj hhead).symm

theorem sendOnce_one_channel (hb : b.Full) (htag : b.metadata.batchTag = .attention)
    (hn : 0 < b.metadata.numTokens) {c : ℤ}
    (h : ∀ e ∈ b.metadata.expIds, u.expertGetChannelId e = c) :
    u.sendOnce b = [(c, b.chunk 0 b.metadata.numTokens)] := by
  have hlen := hb.expIds_length
  have hids : b.metadata.expIds ≠ [] := List.ne_nil_of_length_pos (hlen ▸ hn)
  have hsizes : splitSizes (b.metadata.expIds.map fun e : ℕ => u.expertGetChannelId e) =
      [b.metadata.numTokens] := by
    rw [splitSizes_of_forall_eq (by simpa using hids) (by simpa using h), List.length_map, hlen]
  have hhead : u.expertGetChannelId (b.metadata.expIds.headD 0 : ℕ) = c := by
    obtain ⟨e, rest, hcons⟩ := List.exists_cons_of_ne_nil hids
    rw [hcons]
    exact h e (hcons ▸ List.mem_cons_self)
  rw [sendOnce, htag]
  simp only [sendToExpertOnce, hsizes, TokenBatch.splitWithSizes_eq, List.length_singleton,
    List.range_one, List.map_singleton, List.take_zero, List.sum_nil, List.getD_cons_zero]
  rw [TokenBatch.chunk_metadata, BatchMetadata.chunk_expIds, List.drop_zero,
    List.take_of_length_le (le_of_eq hlen), hhead]

/-- **Replies** are cut into pieces, every row of a piece for the rank of the piece. -/
theorem sendOnce_expert (htag : b.metadata.batchTag = .expert)
    (hranks : b.metadata.attnDpRanks.length = b.metadata.numTokens) :
    (u.sendOnce b).flatMap (·.2.rows) = b.rows ∧
      ∀ x ∈ u.sendOnce b,
        (∃ off n, off + n ≤ b.metadata.numTokens ∧ x.2 = b.chunk off n) ∧
        ∃ rank ∈ b.metadata.attnDpRanks, x.1 = u.attnGetChannelId rank ∧
          ∀ r ∈ x.2.metadata.attnDpRanks, r = rank := by
  rw [sendOnce, htag]
  simp only [sendToAttnOnce]
  have hsum : (splitSizes b.metadata.attnDpRanks).sum = b.metadata.numTokens := by
    rw [sum_splitSizes, hranks]
  refine pieces_of_split hsum fun p hp => ?_
  have hrun := mem_splitLengths (c := (·.attnDpRanks))
    (fun m off n => m.chunk_attnDpRanks off n) hp
  obtain ⟨rank, hhead, hall⟩ := splitSizes_runs _ _ hrun
  obtain ⟨ranks, hcons⟩ := List.head?_eq_some_iff.mp hhead
  refine ⟨rank, ?_, ?_, hall⟩
  · have hmem : rank ∈ p.metadata.attnDpRanks := hcons ▸ List.mem_cons_self
    rw [← List.flatten_splitLengths b.metadata.attnDpRanks
      (splitSizes b.metadata.attnDpRanks) (by rw [sum_splitSizes])]
    exact List.mem_flatten.mpr ⟨_, hrun, hmem⟩
  · rw [hcons]
    rfl

end UnifiedDispatcher

end StreamEP

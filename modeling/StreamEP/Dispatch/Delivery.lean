import StreamEP.Dispatch.Dispatcher

/-!
# One message per destination

The dispatcher cuts a batch into maximal runs of rows with the same channel and sends every run on
its own. That a device gets at most one message is not a property of the cutting: it needs that
the rows for one device stand together. They do because the batch is sorted and the placement
hands out experts in id order, so a larger expert id never belongs to an earlier device.

## Main results

* `Colocation.owner_mono` — experts are handed out in id order
* `UnifiedDispatcher.filter_runs` — the runs of a sorted list
* `Colocation.send_delivers`
-/

namespace StreamEP

variable {W V : Type}

/-! ### Experts are handed out in id order -/

namespace ColocateConfig

variable {cfg : ColocateConfig}

/-- Larger expert ids are on later devices. -/
def InOrder (expert : ℕ → List (ℕ × ℕ)) : Prop :=
  ∀ dev dev' l l' e e', (l, e) ∈ expert dev → (l', e') ∈ expert dev' → e ≤ e' → dev ≤ dev'

theorem inOrder_placeAllocation {allocation : List ℕ} {dev n : ℕ} {expert : ℕ → List (ℕ × ℕ)}
    (h : InOrder expert) (hbelow : ∀ dev' l e, (l, e) ∈ expert dev' → e < n ∧ dev' < dev) :
    InOrder (cfg.placeAllocation allocation dev n expert).2 := by
  induction allocation generalizing dev n expert with
  | nil => exact h
  | cons count rest ih =>
    have hmem : ∀ dev' l e, (l, e) ∈ Function.update expert dev (expert dev ++
        (List.range' n count).flatMap fun e => cfg.allLayers.map fun l => (l, e)) dev' →
        ((l, e) ∈ expert dev' ∧ e < n ∧ dev' < dev) ∨ (dev' = dev ∧ n ≤ e ∧ e < n + count) := by
      intro dev' l e he
      by_cases hd : dev' = dev
      · subst hd
        rw [Function.update_self, List.mem_append] at he
        rcases he with he | he
        · exact .inl ⟨he, hbelow _ l e he⟩
        · obtain ⟨-, hrange⟩ : l ∈ cfg.allLayers ∧ n ≤ e ∧ e < n + count := by
            simpa [and_comm, and_assoc] using he
          exact .inr ⟨rfl, hrange⟩
      · rw [Function.update_of_ne hd] at he
        exact .inl ⟨he, hbelow _ l e he⟩
    refine ih ?_ fun dev' l e he => ?_
    · intro d₁ d₂ l₁ l₂ e₁ e₂ h₁ h₂ hle
      rcases hmem _ _ _ h₁ with ⟨hold₁, hlt₁, hdev₁⟩ | ⟨rfl, hge₁, -⟩
      · rcases hmem _ _ _ h₂ with ⟨hold₂, -, -⟩ | ⟨rfl, -, -⟩
        · exact h _ _ _ _ _ _ hold₁ hold₂ hle
        · exact hdev₁.le
      · rcases hmem _ _ _ h₂ with ⟨-, hlt₂, -⟩ | ⟨rfl, -, -⟩
        · omega
        · exact le_rfl
    · rcases hmem _ _ _ he with ⟨-, hlt, hdev⟩ | ⟨rfl, -, hlt⟩
      · exact ⟨by omega, by omega⟩
      · exact ⟨hlt, by omega⟩

theorem inOrder_placeExperts {expert : ℕ → List (ℕ × ℕ)} (h : cfg.placeExperts = .ok expert) :
    InOrder expert := by
  rw [placeExperts] at h
  split at h
  · obtain ⟨-, h⟩ := ensure_bind_eq_ok.mp h
    obtain ⟨-, h⟩ := ensure_bind_eq_ok.mp h
    obtain ⟨-, h⟩ := ensure_bind_eq_ok.mp h
    obtain rfl := Except.ok.inj h
    exact inOrder_placeAllocation (by simp [InOrder]) (by simp)
  · obtain ⟨-, h⟩ := ensure_bind_eq_ok.mp h
    obtain ⟨-, h⟩ := ensure_bind_eq_ok.mp h
    obtain rfl := Except.ok.inj h
    intro d₁ d₂ l₁ l₂ e₁ e₂ h₁ h₂ hle
    rw [← mem_foldl_placeUniform h₁, ← mem_foldl_placeUniform h₂]
    exact Nat.div_le_div_right hle

end ColocateConfig

theorem Colocation.owner_mono (P : Colocation) {e e' : ℕ} (he' : e' < P.cfg.numExperts)
    (hle : e ≤ e') : P.owner e ≤ P.owner e' :=
  ColocateConfig.inOrder_placeExperts P.place_spec.1 _ _ _ _ _ _
    ((P.mem_expert_iff (hle.trans_lt he') P.numLayers_pos).mpr rfl)
    ((P.mem_expert_iff he' P.numLayers_pos).mpr rfl) hle

/-! ### The runs of a sorted list -/

namespace UnifiedDispatcher

variable {α κ : Type}

theorem splitSizes_map_congr [DecidableEq κ] {key : α → κ} {dest : α → ℕ} {xs : List α}
    (h : ∀ x ∈ xs, ∀ y ∈ xs, key x = key y ↔ dest x = dest y) :
    splitSizes (xs.map key) = splitSizes (xs.map dest) := by
  induction xs with
  | nil => rfl
  | cons x xs ih =>
    cases xs with
    | nil => rfl
    | cons y ys =>
      have ih' := ih fun a ha b hb => h a (List.mem_cons_of_mem _ ha) b (List.mem_cons_of_mem _ hb)
      have hxy := h x (by simp) y (by simp)
      simp only [List.map_cons] at ih' ⊢
      rw [splitSizes, splitSizes, ih']
      split
      · rfl
      · simp only [hxy]

theorem pos_of_mem_splitSizes [DecidableEq κ] (keys : List κ) : ∀ n ∈ splitSizes keys, 0 < n := by
  fun_induction splitSizes keys with
  | case1 => simp
  | case2 => simp
  | case3 x y rest h ih => exact absurd h splitSizes_ne_nil
  | case4 x rest n ns h ih =>
    rw [h, List.forall_mem_cons] at ih
    exact List.forall_mem_cons.mpr ⟨Nat.succ_pos n, ih.2⟩
  | case5 x y rest n ns h hne ih =>
    rw [h] at ih
    exact List.forall_mem_cons.mpr ⟨Nat.one_pos, ih⟩

theorem exists_splitSizes_cons [DecidableEq κ] (x : κ) (xs : List κ) :
    ∃ n ns, splitSizes (x :: xs) = (n + 1) :: ns := by
  have hne : splitSizes (x :: xs) ≠ [] := splitSizes_ne_nil
  obtain ⟨m, ns, hns⟩ := List.exists_cons_of_ne_nil hne
  obtain ⟨n, rfl⟩ := Nat.exists_eq_succ_of_ne_zero
    (pos_of_mem_splitSizes (x :: xs) m (hns ▸ List.mem_cons_self)).ne'
  exact ⟨n, ns, hns⟩

/-- **The rows for one destination are one run**, when the destinations are sorted. -/
theorem filter_runs {dest : α → ℕ} {xs : List α} (hsorted : xs.Pairwise (dest · ≤ dest ·)) (k : ℕ) :
    ((splitSizes (xs.map dest)).splitLengths xs).filter (·.head?.map dest = some k) =
      if xs.filter (dest · = k) = [] then [] else [xs.filter (dest · = k)] := by
  induction xs with
  | nil => simp [splitSizes]
  | cons x xs ih =>
    cases xs with
    | nil => by_cases hx : dest x = k <;> simp [splitSizes, hx]
    | cons y ys =>
      obtain ⟨hx, hys⟩ := List.pairwise_cons.mp hsorted
      have hruns := ih hys
      obtain ⟨n, ns, hns⟩ := exists_splitSizes_cons (dest y) (ys.map dest)
      rw [List.map_cons, hns, List.splitLengths_cons, List.take_succ_cons] at hruns
      rw [List.map_cons, List.map_cons, splitSizes, hns]
      by_cases hxy : dest x = dest y
      · -- the first run grows by one row
        simp only [if_pos hxy, List.splitLengths_cons, List.take_succ_cons, List.drop_succ_cons]
          at hruns ⊢
        by_cases hk : dest y = k
        · simp [hxy, hk] at hruns ⊢
          exact hruns
        · simpa [hxy, hk] using hruns
      · -- a run of one row; no later row has its destination
        have hlt : ∀ z ∈ y :: ys, dest z ≠ dest x := by
          intro z hz
          have hy := hx y List.mem_cons_self
          rcases List.mem_cons.mp hz with rfl | hz
          · exact fun h => hxy h.symm
          · have := List.rel_of_pairwise_cons hys hz
            omega
        have hone : (1 :: (n + 1) :: ns).splitLengths (x :: y :: ys) =
            [x] :: ((n + 1) :: ns).splitLengths (y :: ys) := by
          simp [List.splitLengths_cons]
        rw [← List.take_succ_cons, ← List.splitLengths_cons] at hruns
        simp only [if_neg hxy, hone]
        by_cases hk : dest x = k
        · subst hk
          have hnil : (y :: ys).filter (dest · = dest x) = [] :=
            List.filter_eq_nil_iff.mpr fun z hz => by simpa using hlt z hz
          rw [if_pos hnil] at hruns
          rw [List.filter_cons_of_pos (by simp), hruns, List.filter_cons_of_pos (by simp), hnil]
          rfl
        · have hskip : (x :: y :: ys).filter (dest · = k) = (y :: ys).filter (dest · = k) :=
            List.filter_cons_of_neg (by simpa using hk)
          rw [List.filter_cons_of_neg (by simpa using hk), hruns, hskip]

end UnifiedDispatcher

/-! ### The messages of a batch -/

/-- **One message per destination.** `dest` says which device a row belongs to. -/
structure Delivered (P : Colocation) (d : ℕ) (dest : Row W V → ℕ → Bool) [TensorRow V]
    (b : TokenBatch W V) (msgs : List (ℤ × TokenBatch W V)) : Prop where
  peers : ∀ x ∈ msgs, ∃ d' < P.cfg.numDevices, P.place.peer d x.1 = some d'
  /-- A device that owns a row gets one message, with exactly its rows in their order; any other
  device gets none. -/
  once : ∀ d', (msgs.filter (P.place.peer d ·.1 = some d')).map (·.2.rows) =
    if b.rows.filter (dest · d') = [] then [] else [b.rows.filter (dest · d')]
  /-- A message is a piece of the batch, cut out of all columns and of the data at one place. -/
  pieces : ∀ x ∈ msgs, x.2.Wf ∧ ∃ off n, off + n ≤ b.metadata.numTokens ∧ x.2 = b.chunk off n
  concat : msgs.flatMap (·.2.rows) = b.rows

/-- The first row of a piece has the first entry of each column. -/
theorem headD_column [TensorRow V] {col : Row W V → Option ℕ} {c : BatchMetadata W → List ℕ}
    (hcol : ∀ b : TokenBatch W V, col (b.rowAt 0) = (c b.metadata)[0]?) {p : TokenBatch W V} {i : ℕ}
    (h : p.rows.head?.bind col = some i) : (c p.metadata).headD 0 = i := by
  obtain ⟨x, hx, hi⟩ := Option.bind_eq_some_iff.mp h
  rw [List.head?_eq_getElem?] at hx
  have hpos : 0 < p.metadata.numTokens := by
    simpa using (List.getElem?_eq_some_iff.mp hx).1
  rw [TokenBatch.getElem?_rows hpos] at hx
  rw [List.headD_eq_head?_getD, List.head?_eq_getElem?, ← hcol, Option.some.inj hx, hi]
  rfl

namespace Colocation

variable (P : Colocation) [TensorRow V] {d : ℕ}

/-- Pieces of equal keys, sent to the device of the key, when the devices of the rows are
sorted. -/
theorem delivered_of_runs {κ : Type} [DecidableEq κ] {b : TokenBatch W V} {key : Row W V → κ}
    (dest : Row W V → ℕ) {channel : TokenBatch W V → ℤ} (hb : b.Wf)
    (hkeys : ∀ x ∈ b.rows, ∀ y ∈ b.rows, key x = key y ↔ dest x = dest y)
    (hsorted : b.rows.Pairwise (dest · ≤ dest ·))
    (hlt : ∀ x ∈ b.rows, dest x < P.cfg.numDevices)
    (hpeer : ∀ p : TokenBatch W V, ∀ x ∈ b.rows, p.rows.head? = some x →
      P.place.peer d (channel p) = some (dest x)) {dest' : Row W V → ℕ → Bool}
    (hdest : ∀ x ∈ b.rows, ∀ d', dest' x d' = decide (dest x = d')) :
    Delivered P d dest' b ((b.splitWithSizes (UnifiedDispatcher.splitSizes (b.rows.map key))).map
      fun p => (channel p, p)) := by
  have hsum : (UnifiedDispatcher.splitSizes (b.rows.map key)).sum = b.metadata.numTokens := by
    rw [UnifiedDispatcher.sum_splitSizes, List.length_map, TokenBatch.length_rows]
  have hrows := TokenBatch.rows_splitWithSizes b hsum.le
  -- a piece is not empty and starts with a row of the batch
  have hhead : ∀ p ∈ b.splitWithSizes (UnifiedDispatcher.splitSizes (b.rows.map key)),
      ∃ x ∈ b.rows, p.rows.head? = some x := by
    intro p hp
    have hrun : p.rows ∈ (UnifiedDispatcher.splitSizes (b.rows.map key)).splitLengths b.rows :=
      hrows ▸ List.mem_map_of_mem hp
    have hrun' := List.mem_map_of_mem (f := List.map key) hrun
    rw [← UnifiedDispatcher.splitLengths_map] at hrun'
    obtain ⟨c, hc, -⟩ := UnifiedDispatcher.splitSizes_runs _ _ hrun'
    rw [List.head?_map] at hc
    obtain ⟨x, hx, -⟩ := Option.map_eq_some_iff.mp hc
    refine ⟨x, ?_, hx⟩
    rw [← List.flatten_splitLengths b.rows _ (by rw [hsum, TokenBatch.length_rows])]
    exact List.mem_flatten.mpr ⟨_, hrun, List.mem_of_head? hx⟩
  constructor
  · intro x hx
    obtain ⟨p, hp, rfl⟩ := List.mem_map.mp hx
    obtain ⟨r, hr, hhead⟩ := hhead p hp
    exact ⟨dest r, hlt r hr, hpeer p r hr hhead⟩
  · intro d'
    have hfilter : b.rows.filter (dest' · d') = b.rows.filter (dest · = d') :=
      List.filter_congr fun x hx => hdest x hx d'
    have hpieces : (b.splitWithSizes (UnifiedDispatcher.splitSizes (b.rows.map key))).filter
        (fun p => P.place.peer d (channel p) = some d') =
        (b.splitWithSizes (UnifiedDispatcher.splitSizes (b.rows.map key))).filter
          (fun p => p.rows.head?.map dest = some d') := by
      refine List.filter_congr fun p hp => ?_
      obtain ⟨x, hx, hhead⟩ := hhead p hp
      rw [hpeer p x hx hhead, hhead, Option.map_some]
    have hruns := UnifiedDispatcher.filter_runs hsorted d'
    rw [← UnifiedDispatcher.splitSizes_map_congr hkeys, ← hrows, List.filter_map] at hruns
    rw [hfilter, ← hruns, List.filter_map, List.map_map]
    simp only [Function.comp_def]
    rw [hpieces]
  · intro x hx
    obtain ⟨p, hp, rfl⟩ := List.mem_map.mp hx
    obtain ⟨off, n, hn, rfl⟩ := TokenBatch.exists_chunk_of_mem_splitWithSizes hsum.le hp
    exact ⟨hb.chunk hn, off, n, hn, rfl⟩
  · rw [List.flatMap_map]
    exact TokenBatch.flatMap_rows_splitWithSizes b hsum

theorem delivered_of_column {κ : Type} [DecidableEq κ] {b : TokenBatch W V} (hb : b.Wf)
    {col : Row W V → Option ℕ} {ids : List ℕ} (hcol : b.rows.map col = ids.map some)
    {key : ℕ → κ} {dev : ℕ → ℕ} {channel : TokenBatch W V → ℤ}
    (hkeys : ∀ i ∈ ids, ∀ j ∈ ids, key i = key j ↔ dev i = dev j)
    (hsorted : ids.Pairwise (dev · ≤ dev ·)) (hlt : ∀ i ∈ ids, dev i < P.cfg.numDevices)
    (hpeer : ∀ p : TokenBatch W V, ∀ i ∈ ids, p.rows.head?.bind col = some i →
      P.place.peer d (channel p) = some (dev i)) :
    Delivered P d (fun x d' => (col x).map dev = some d') b
      ((b.splitWithSizes (UnifiedDispatcher.splitSizes (ids.map key))).map
        fun p => (channel p, p)) := by
  have hids : b.rows.map (fun x => (col x).getD 0) = ids := by
    simpa [List.map_map, Function.comp_def] using congrArg (List.map (·.getD 0)) hcol
  have hmem : ∀ x ∈ b.rows, ∃ i ∈ ids, col x = some i := by
    intro x hx
    have hx' : col x ∈ ids.map some := hcol ▸ List.mem_map_of_mem hx
    obtain ⟨i, hi, hxi⟩ := List.mem_map.mp hx'
    exact ⟨i, hi, hxi.symm⟩
  have hkey : ids.map key = b.rows.map fun x => key ((col x).getD 0) := by
    rw [← hids, List.map_map]
    rfl
  rw [hkey]
  refine P.delivered_of_runs (fun x => dev ((col x).getD 0)) hb ?_ ?_ ?_ ?_ ?_
  · intro x hx y hy
    obtain ⟨i, hi, hxi⟩ := hmem x hx
    obtain ⟨j, hj, hyj⟩ := hmem y hy
    simpa [hxi, hyj] using hkeys i hi j hj
  · rw [← hids, List.pairwise_map] at hsorted
    exact hsorted
  · intro x hx
    obtain ⟨i, hi, hxi⟩ := hmem x hx
    simpa [hxi] using hlt i hi
  · intro p x hx hhead
    obtain ⟨i, hi, hxi⟩ := hmem x hx
    simpa [hxi] using hpeer p i hi (by simp [hhead, hxi])
  · intro x hx d'
    obtain ⟨i, -, hxi⟩ := hmem x hx
    simp [hxi]

/-- **A batch is sent once per destination.** For every placement in which each device hosts an
expert: rows sorted by expert go to the hosts of their experts, and rows sorted by attention rank
to the devices with their ranks. -/
theorem send_delivers (hdp : P.cfg.numDevices ≤ P.cfg.dpSize) (hd : d < P.cfg.numDevices) :
    (∀ b : TokenBatch W V, b.Wf → b.metadata.expIds.length = b.metadata.numTokens →
      b.metadata.expIds.Pairwise (· ≤ ·) → (∀ e ∈ b.metadata.expIds, e < P.cfg.numExperts) →
      Delivered P d (fun r d' => r.expId.map P.owner = some d') b
        ((P.cfg.dispatcher P.place d).sendToExpertOnce b)) ∧
    ∀ b : TokenBatch W V, b.Wf → b.metadata.attnDpRanks.length = b.metadata.numTokens →
      b.metadata.attnDpRanks.Pairwise (· ≤ ·) →
      (∀ r ∈ b.metadata.attnDpRanks, r < P.cfg.numDevices) →
      Delivered P d (fun r d' => r.attnDpRank = some (P.place.attnDpRankAt d')) b
        ((P.cfg.dispatcher P.place d).sendToAttnOnce b) := by
  have hattn : ∀ r < P.cfg.numDevices,
      P.place.peer d ((P.cfg.dispatcher P.place d).attnGetChannelId r) = some r :=
    fun r hr => P.peer_attnGetChannelId hd hdp hr
  have hexpert : ∀ e < P.cfg.numExperts, P.place.peer d
      ((P.cfg.dispatcher P.place d).expertGetChannelId e) = some (P.owner e) := by
    intro e he
    rw [P.expertGetChannelId_eq hd he]
    exact hattn _ (P.owner_lt he)
  refine ⟨fun b hb hlen hsorted hlt => ?_, fun b hb hlen hsorted hlt => ?_⟩
  · refine P.delivered_of_column hb (TokenBatch.map_expId hlen) ?_ ?_ ?_ ?_
    · -- two experts have one channel exactly when they have one owner
      intro e he e' he'
      constructor
      · intro h
        have := hexpert e (hlt e he)
        rw [h, hexpert e' (hlt e' he')] at this
        exact (Option.some.inj this).symm
      · intro h
        rw [P.expertGetChannelId_eq hd (hlt e he), P.expertGetChannelId_eq hd (hlt e' he'), h]
    · exact hsorted.imp_of_mem fun _ he' hle => P.owner_mono (hlt _ he') hle
    · exact fun e he => P.owner_lt (hlt e he)
    · intro p e he hhead
      rw [headD_column (c := (·.expIds)) (fun b => rfl) hhead]
      exact hexpert e (hlt e he)
  · have hranks : (fun (r : Row W V) d' => decide (r.attnDpRank = some (P.place.attnDpRankAt d'))) =
        fun r d' => decide (r.attnDpRank.map id = some d') := by
      funext r d'
      rw [P.attnDpRankAt_eq, Option.map_id, id]
    rw [hranks, UnifiedDispatcher.sendToAttnOnce, ← List.map_id b.metadata.attnDpRanks]
    refine P.delivered_of_column hb (TokenBatch.map_attnDpRank hlen) ?_ ?_ ?_ ?_
    · exact fun _ _ _ _ => Iff.rfl
    · exact hsorted
    · exact hlt
    · intro p r hr hhead
      rw [headD_column (c := (·.attnDpRanks)) (fun b => rfl) hhead]
      exact hattn r (hlt r hr)

theorem send_delivers_pair : Delivered Deployment.pair.toColocation 1
    (fun r d' => r.expId.map Deployment.pair.toColocation.owner = some d')
    (TokenBatch.forExperts 0 [0, 0, 1])
    ((Deployment.pair.toColocation.cfg.dispatcher Deployment.pair.toColocation.place 1)
      |>.sendToExpertOnce (TokenBatch.forExperts 0 [0, 0, 1])) :=
  (send_delivers Deployment.pair.toColocation (by decide) (by decide)).1 _
    (TokenBatch.full_forExperts 0 [0, 0, 1]).toWf rfl (by decide) (by decide)

end Colocation

end StreamEP

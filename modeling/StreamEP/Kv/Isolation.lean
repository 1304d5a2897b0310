import StreamEP.Kv.CPUBlockManager

/-!
# Requests do not share cache slots

Blocks are counted in C++ and lengths in Python, and a request gets a block only when its length
is a multiple of the block size. In a run the two stay in step: a request that started with `p`
tokens and has made `k` passes is `p + k` tokens long and has `⌈(p + k) / block_size⌉` blocks. So
the slot of its newest token is always in one of its own blocks, and as no block is handed out
twice, no two requests write to the same slot.

## The invariant

The two counts are kept by different languages and neither checks the other, so the invariant
relates them: no statement about the block lists alone is kept by `append_tokens`, which is called
for the lengths Python computed. A request is described by `p` and `k` and not by its length, since
the length follows from them and the admission modules count passes.

## Main results

* `KvRun.Inv.step`, `KvRun.Inv.of_steps`
* `KvRun.isolated_of_reachable`
-/

namespace StreamEP

open Attempt Relation

variable {W : Type}

/-! ### Block arithmetic -/

theorem blocksNeeded_natCast {bs : ℕ} (hbs : 0 < bs) (n : ℕ) :
    BlockManager.blocksNeeded bs n = n ⌈/⌉ bs := by
  rw [Nat.ceilDiv_eq_add_pred_div, BlockManager.blocksNeeded]
  split
  · next hn =>
    obtain ⟨n, rfl⟩ : ∃ k, n = k + 1 := ⟨n - 1, by omega⟩
    have hcast : ((n + 1 : ℕ) : ℤ) - 1 = (n : ℤ) := by push_cast; ring
    rw [hcast, show n + 1 + bs - 1 = n + bs by omega, Nat.add_div_right _ hbs]
    norm_cast
  · next hn =>
    obtain rfl : n = 0 := by omega
    rw [Nat.zero_add, Nat.div_eq_of_lt (by omega)]

/-- The number of blocks grows when the length was a multiple of the block size. -/
theorem ceilDiv_succ {bs : ℕ} (hbs : 0 < bs) (n : ℕ) :
    (n + 1) ⌈/⌉ bs = n ⌈/⌉ bs + if n % bs = 0 then 1 else 0 := by
  have hdiv := Nat.div_add_mod n bs
  have hlt := Nat.mod_lt n hbs
  have hnext : (n + 1) ⌈/⌉ bs = n / bs + 1 := by
    rw [Nat.ceilDiv_eq_add_pred_div, show n + 1 + bs - 1 = n + bs by omega,
      Nat.add_div_right _ hbs]
  rw [hnext, Nat.ceilDiv_eq_add_pred_div]
  split
  · next hmod =>
    have hn : n + bs - 1 = (bs - 1) + bs * (n / bs) := by omega
    have hzero : (bs - 1) / bs = 0 := Nat.div_eq_of_lt (by omega)
    rw [hn, Nat.add_mul_div_left _ _ hbs, hzero, Nat.zero_add]
  · next hmod =>
    have hn : n + bs - 1 = (n % bs - 1) + bs * (n / bs + 1) := by
      rw [Nat.mul_add, Nat.mul_one]
      omega
    have hzero : (n % bs - 1) / bs = 0 := Nat.div_eq_of_lt (by omega)
    rw [hn, Nat.add_mul_div_left _ _ hbs, hzero, Nat.zero_add, Nat.add_zero]

theorem div_lt_ceilDiv {bs : ℕ} (hbs : 0 < bs) (n : ℕ) : n / bs < (n + 1) ⌈/⌉ bs := by
  rw [Nat.ceilDiv_eq_add_pred_div, show n + 1 + bs - 1 = n + bs by omega, Nat.add_div_right _ hbs]
  exact Nat.lt_succ_self _

theorem BlockManager.Extended.length {bs n : ℕ} (hbs : 0 < bs) {l : List ℕ}
    {v' : Option (List ℕ)} (h : Extended bs n (some l) v') (hl : l.length = n ⌈/⌉ bs) :
    ∃ l', v' = some l' ∧ l'.length = (n + 1) ⌈/⌉ bs := by
  obtain ⟨l₀, hl₀, -, h⟩ := h
  obtain rfl := Option.some_injective _ hl₀
  have hmod : (n : ℤ) % (bs : ℤ) = 0 ↔ n % bs = 0 := by norm_cast
  rcases h with ⟨hmid, rfl⟩ | ⟨hboundary, b, rfl⟩
  · refine ⟨l, rfl, ?_⟩
    rw [ceilDiv_succ hbs, if_neg fun h => hmid (hmod.2 h), hl, Nat.add_zero]
  · refine ⟨l ++ [b], rfl, ?_⟩
    rw [ceilDiv_succ hbs, if_pos (hmod.1 hboundary), List.length_append, hl]
    rfl

theorem mapM_eq_some {α β : Type} {f : α → Option β} {l : List α} {l' : List β} :
    l.mapM f = some l' ↔ l.map f = l'.map some := by
  induction l generalizing l' with
  | nil =>
    cases l' <;> simp
  | cons x l ih =>
    cases hx : f x with
    | none => cases l' <;> simp [hx]
    | some y =>
      cases hl : l.mapM f with
      | none =>
        cases l' with
        | nil => simp [hx, hl]
        | cons y' l' =>
          have hne : ¬ l.map f = l'.map some := mt ih.2 (by simp [hl])
          simp [hx, hl, hne]
      | some ys =>
        have hys := ih.1 hl
        cases l' with
        | nil => simp [hx, hl]
        | cons y' l' =>
          simp only [List.mapM_cons, hx, hl, List.map_cons, hys]
          simp [(List.map_injective_iff.2 (Option.some_injective β)).eq_iff]

/-! ### One call -/

namespace CPUBlockManager

variable {s s' : CPUBlockManager} {m : BatchMetadata W} {lens : List ℤ}

theorem returns_getDecodeSeqLens {reqIds : List ℕ} :
    (getDecodeSeqLens reqIds).Returns s lens s' ↔
      reqIds.map s.decodeSeqLens.lookup = lens.map some ∧ s = s' := by
  rw [getDecodeSeqLens, returns_get_bind, ← mapM_eq_some]
  cases reqIds.mapM s.decodeSeqLens.lookup <;> simp

theorem returns_onBlockMgr {α : Type} {x : Attempt BlockManager α} {a : α} :
    (onBlockMgr x).Returns s a s' ↔
      ∃ b, x.Returns s.blockMgr a b ∧ { s with blockMgr := b } = s' :=
  returns_zoom

theorem startSeqLens_spec {q : ℕ} {u : Unit} (hnodup : m.reqIds.Nodup)
    (hq : m.numPrefillSeqs = some q)
    (h : ((List.range (initReqIds m).length).forM (startSeqLen m)).Returns s u s') :
    (s'.blockMgr = s.blockMgr ∧ s'.firstLayer = s.firstLayer) ∧
      (∀ i r, i < q → m.reqIds[i]? = some r →
        s'.decodeSeqLens.lookup r = m.initPrefillLens[i]?) ∧
      ∀ r ∉ m.reqIds.take q, s'.decodeSeqLens.lookup r = s.decodeSeqLens.lookup r := by
  have hids : initReqIds m = m.reqIds.take q := by rw [initReqIds, hq]
  obtain ⟨hkept, hnew, hold⟩ := h.forM_keys
    (L := fun s r => s.decodeSeqLens.lookup r)
    (I := fun t => t.blockMgr = s.blockMgr ∧ t.firstLayer = s.firstLayer)
    (R := fun i _ v => v = m.initPrefillLens[i]?)
    (hids ▸ hnodup.sublist (List.take_sublist q _)) ⟨rfl, rfl⟩ (by
      intro i r t t' hr hinv hf
      simp only [startSeqLen, returns_nth_bind, hr, Option.some.injEq, exists_eq_left',
        updateDecodeSeqLens, returns_modify] at hf
      obtain ⟨p, hp, rfl⟩ := hf
      exact ⟨hinv, (AList.lookup_insert _).trans hp.symm, fun _ hne => AList.lookup_insert_ne hne⟩)
  refine ⟨hkept, fun i r hi hr => hnew i r ?_, hids ▸ hold⟩
  rw [hids, List.getElem?_take_of_lt hi, hr]

theorem incrementSeqLens_spec {ctx : List ℤ} {u : Unit} (hnodup : m.reqIds.Nodup)
    (h : ((List.range m.reqIds.length).forM (incrementSeqLen m ctx)).Returns s u s') :
    (s'.blockMgr = s.blockMgr ∧ s'.firstLayer = s.firstLayer) ∧
      (∀ (i : ℕ) r, m.reqIds[i]? = some r →
        s'.decodeSeqLens.lookup r = ctx[i]?.map (· + 1)) ∧
      ∀ r ∉ m.reqIds, s'.decodeSeqLens.lookup r = s.decodeSeqLens.lookup r :=
  h.forM_keys
    (L := fun s r => s.decodeSeqLens.lookup r)
    (I := fun t => t.blockMgr = s.blockMgr ∧ t.firstLayer = s.firstLayer)
    (R := fun i _ v => v = ctx[i]?.map (· + 1)) hnodup ⟨rfl, rfl⟩ (by
      intro i r t t' hr hinv hf
      simp only [incrementSeqLen, returns_nth_bind, hr, Option.some.injEq, exists_eq_left',
        updateDecodeSeqLens, returns_modify] at hf
      obtain ⟨n, hn, rfl⟩ := hf
      refine ⟨hinv, ?_, fun _ hne => AList.lookup_insert_ne hne⟩
      rw [hn]
      exact AList.lookup_insert _)

/-- **A batch at the first layer**: the lengths before the pass go to the block manager, and every
length grows by one. -/
theorem updateBlockTable_first {q : ℕ} (hlayer : m.layerId = s.firstLayer)
    (hnodup : m.reqIds.Nodup) (hq : m.numPrefillSeqs = some q)
    (h : (updateBlockTable m).Returns s lens s') :
    ∃ ctx : List ℤ, lens = ctx.map (· + 1) ∧ ctx.length = m.reqIds.length ∧
      s'.firstLayer = s.firstLayer ∧
      (BlockManager.updateBlockTable m ctx).Returns s.blockMgr () s'.blockMgr ∧
      (∀ (i : ℕ) r, m.reqIds[i]? = some r →
        ctx[i]? = if i < q then m.initPrefillLens[i]? else s.decodeSeqLens.lookup r) ∧
      (∀ (i : ℕ) r, m.reqIds[i]? = some r → s'.decodeSeqLens.lookup r = lens[i]?) ∧
      ∀ r ∉ m.reqIds, s'.decodeSeqLens.lookup r = s.decodeSeqLens.lookup r := by
  rw [updateBlockTable, returns_get_bind, if_pos hlayer] at h
  simp only [returns_bind, returns_pure] at h
  obtain ⟨_, t₁, h₁, ctx, t₂, h₂, _, t₃, h₃, _, t₄, h₄, rfl, rfl⟩ := h
  obtain ⟨hctx, rfl⟩ := returns_getDecodeSeqLens.1 h₂
  obtain ⟨b, hb, rfl⟩ := returns_onBlockMgr.1 h₃
  obtain ⟨⟨hmgr, hfirst⟩, hnew, hold⟩ := startSeqLens_spec hnodup hq h₁
  obtain ⟨⟨hmgr', hfirst'⟩, hall, hrest⟩ := incrementSeqLens_spec hnodup h₄
  have hget : ∀ (i : ℕ) r, m.reqIds[i]? = some r → ctx[i]? = t₁.decodeSeqLens.lookup r := by
    intro i r hr
    have hi := congrArg (·[i]?) hctx
    simp only [List.getElem?_map, hr, Option.map_some] at hi
    cases hci : ctx[i]? with
    | none => simp [hci] at hi
    | some c =>
      rw [hci] at hi
      exact (Option.some_injective _ hi).symm
  refine ⟨ctx, rfl, by simpa using (congrArg List.length hctx).symm, hfirst'.trans hfirst, ?_,
    fun i r hr => ?_, fun i r hr => ?_, fun r hr => ?_⟩
  · rw [hmgr'] at *
    rwa [hmgr] at hb
  · rw [hget i r hr]
    split
    · next hi => exact hnew i r hi hr
    · next hi => exact hold r (notMem_take_of_nodup hnodup hr (not_lt.1 hi))
  · rw [hall i r hr, List.getElem?_map]
  · rw [hrest r hr]
    exact hold r fun hmem => hr (List.mem_of_mem_take hmem)

theorem updateBlockTable_later (hlayer : m.layerId ≠ s.firstLayer)
    (h : (updateBlockTable m).Returns s lens s') :
    m.reqIds.map s.decodeSeqLens.lookup = lens.map some ∧ s = s' := by
  rw [updateBlockTable, returns_get_bind, if_neg hlayer] at h
  exact returns_getDecodeSeqLens.1 h

theorem releaseSeqs_spec {ids : List ℕ} {u : Unit} (h : (releaseSeqs ids).Returns s u s') :
    s'.firstLayer = s.firstLayer ∧
      (BlockManager.batchRelease ids).Returns s.blockMgr () s'.blockMgr ∧
      ∀ r ∉ ids, s'.decodeSeqLens.lookup r = s.decodeSeqLens.lookup r := by
  rw [releaseSeqs] at h
  obtain ⟨_, t, h₁, h₂⟩ := returns_bind.1 h
  obtain ⟨b, hb, rfl⟩ := returns_onBlockMgr.1 h₁
  have hpop : ∀ (ids : List ℕ) (t : CPUBlockManager), (ids.forM popSeqLen).Returns t u s' →
      s'.firstLayer = t.firstLayer ∧ s'.blockMgr = t.blockMgr ∧
        ∀ r ∉ ids, s'.decodeSeqLens.lookup r = t.decodeSeqLens.lookup r := by
    intro ids
    induction ids with
    | nil =>
      intro t ht
      obtain rfl := returns_forM_nil.1 ht
      exact ⟨rfl, rfl, fun _ _ => rfl⟩
    | cons r ids ih =>
      intro t ht
      obtain ⟨t', hr, hids⟩ := returns_forM_cons.1 ht
      simp only [popSeqLen, returns_get_bind, returns_check_bind, returns_set] at hr
      obtain ⟨-, rfl⟩ := hr
      obtain ⟨hfirst, hmgr, hkept⟩ := ih _ hids
      refine ⟨hfirst, hmgr, fun r' hr' => ?_⟩
      rw [List.mem_cons, not_or] at hr'
      rw [hkept r' hr'.2]
      exact AList.lookup_erase_ne hr'.1
  obtain ⟨hfirst, hmgr, hkept⟩ := hpop ids _ h₂
  exact ⟨hfirst, hmgr ▸ hb, hkept⟩

end CPUBlockManager

/-! ### The lists of a table -/

theorem BlockManager.eq_of_mem {b : BlockManager} (hnodup : b.pool.Nodup) {r r' x : ℕ}
    {l l' : List ℕ} (hl : b.blockTables.lookup r = some l)
    (hl' : b.blockTables.lookup r' = some l') (hx : x ∈ l) (hx' : x ∈ l') : r = r' := by
  by_contra hne
  have herase : (b.blockTables.erase r).lookup r' = some l' := by
    rw [AList.lookup_erase_ne (Ne.symm hne), hl']
  have hpool := hnodup
  rw [BlockManager.pool, ← tableSum_erase _ hl, ← tableSum_erase _ herase,
    Multiset.nodup_add, Multiset.nodup_add] at hpool
  have hdisj := hpool.2.1.2.2
  rw [Multiset.disjoint_add_right] at hdisj
  exact Multiset.disjoint_left.1 hdisj.1 (Multiset.mem_coe.2 hx) (Multiset.mem_coe.2 hx')

theorem BlockManager.nodup_of_lookup {b : BlockManager} (hnodup : b.pool.Nodup) {r : ℕ}
    {l : List ℕ} (hl : b.blockTables.lookup r = some l) : l.Nodup := by
  rw [BlockManager.pool, ← tableSum_erase _ hl, Multiset.nodup_add, Multiset.nodup_add] at hnodup
  exact Multiset.coe_nodup.1 hnodup.2.1.1

/-! ### The invariant -/

namespace KvRun

/-- The batch at hand has passed the first layer, and its lengths are those of its requests. -/
structure Ready (reqs : ℕ → Option (ℕ × ℕ)) (m : BatchMetadata W) (lens : List ℤ) : Prop where
  reqIds : m.reqIds.length = m.numTokens
  lens_length : lens.length = m.numTokens
  /-- The length of a request counts its passes. -/
  get : ∀ (i r : ℕ), m.reqIds[i]? = some r →
    ∃ p k, reqs r = some (p, k + 1) ∧ lens[i]? = some ((p + k + 1 : ℕ) : ℤ)

/-- Lengths, blocks and the batch at hand are in step. -/
structure Inv (bs numBlocks : ℕ) (s : State W) : Prop where
  blockSize : s.mgr.blockMgr.blockSize = bs
  pool : s.mgr.blockMgr.pool = Multiset.range numBlocks
  absent : ∀ r, s.reqs r = none → s.mgr.blockMgr.blockTables.lookup r = none
  /-- A request has the blocks for its tokens. -/
  blocks : ∀ r p k, s.reqs r = some (p, k) →
    ∃ l, s.mgr.blockMgr.blockTables.lookup r = some l ∧ l.length = (p + k) ⌈/⌉ bs
  /-- A request that has made a pass has its length. -/
  seqLens : ∀ r p k, s.reqs r = some (p, k + 1) →
    s.mgr.decodeSeqLens.lookup r = some ((p + k + 1 : ℕ) : ℤ)
  current : ∀ m lens, s.current = some (m, lens) → Ready s.reqs m lens

variable {bs numBlocks : ℕ} {s : State W}

theorem inv_init (bs numBlocks firstLayer : ℕ) :
    Inv bs numBlocks (State.init W bs numBlocks firstLayer) where
  blockSize := rfl
  pool := BlockManager.pool_create bs numBlocks 0
  absent _ _ := rfl
  blocks r p k h := by simp [State.init] at h
  seqLens r p k h := by simp [State.init] at h
  current m lens h := by simp [State.init] at h

theorem countPass_of_some {reqs : ℕ → Option (ℕ × ℕ)} {m : BatchMetadata W} {r p k : ℕ}
    (hr : r ∈ m.reqIds) (h : reqs r = some (p, k)) : countPass reqs m r = some (p, k + 1) := by
  rw [countPass, if_pos hr, h]

theorem countPass_of_notMem {reqs : ℕ → Option (ℕ × ℕ)} {m : BatchMetadata W} {r : ℕ}
    (hr : r ∉ m.reqIds) : countPass reqs m r = reqs r := if_neg hr

theorem countPass_of_none {reqs : ℕ → Option (ℕ × ℕ)} {m : BatchMetadata W} {i r p : ℕ}
    (hnodup : m.reqIds.Nodup) (hr : m.reqIds[i]? = some r)
    (hp : m.initPrefillLens[i]? = some (p : ℤ)) (h : reqs r = none) :
    countPass reqs m r = some (p, 1) := by
  have hidx : m.reqIds.idxOf r = i := by
    obtain ⟨hi, rfl⟩ := List.getElem?_eq_some_iff.1 hr
    exact hnodup.idxOf_getElem i hi
  rw [countPass, if_pos (List.mem_of_getElem? hr), h, hidx, List.getD_eq_getElem?_getD, hp]
  rfl

/-- **One pass.** A request of the batch had `p + k` tokens before the pass, and blocks for them
once the new requests have been given theirs. -/
theorem Inv.before_pass (hs : Inv bs numBlocks s) (hbs : 0 < bs) {m : BatchMetadata W} {q : ℕ}
    (hbatch : FirstBatch s.reqs m q) {ctx : List ℤ} {i r : ℕ} {n : ℤ} {v : Option (List ℕ)}
    (hr : m.reqIds[i]? = some r) (hn : ctx[i]? = some n)
    (hctx : ctx[i]? =
      if i < q then m.initPrefillLens[i]? else s.mgr.decodeSeqLens.lookup r)
    (hnew : i < q → ∀ p, m.initPrefillLens[i]? = some p →
      BlockManager.Allocated bs p (s.mgr.blockMgr.blockTables.lookup r) v)
    (hold : q ≤ i → v = s.mgr.blockMgr.blockTables.lookup r) :
    ∃ p k l, countPass s.reqs m r = some (p, k + 1) ∧ n = ((p + k : ℕ) : ℤ) ∧ v = some l ∧
      l.length = (p + k) ⌈/⌉ bs := by
  have hmem : r ∈ m.reqIds := List.mem_of_getElem? hr
  rcases lt_or_ge i q with hi | hi
  · obtain ⟨p, hp, hreq⟩ := hbatch.new i r hi hr
    rw [if_pos hi, hp, hn] at hctx
    have halloc := hnew hi p hp
    rcases hreq with hreq | hreq
    · -- a request that comes without blocks
      rcases halloc with ⟨-, l, hl⟩ | ⟨-, l, rfl, hl⟩
      · rw [hs.absent r hreq] at hl
        cases hl
      · exact ⟨p, 0, l, countPass_of_none hbatch.nodup hr hp hreq, Option.some_injective _ hctx,
          rfl, hl.trans (blocksNeeded_natCast hbs p)⟩
    · -- a request whose cache was loaded before
      obtain ⟨l, hlook, hl⟩ := hs.blocks r p 0 hreq
      rcases halloc with ⟨rfl, -⟩ | ⟨hnone, -⟩
      · exact ⟨p, 0, l, countPass_of_some hmem hreq, Option.some_injective _ hctx, hlook, hl⟩
      · rw [hlook] at hnone
        cases hnone
  · obtain ⟨p, k, hreq⟩ := hbatch.old i r hi hr
    obtain ⟨l, hlook, hl⟩ := hs.blocks r p (k + 1) hreq
    rw [if_neg (not_lt.2 hi), hs.seqLens r p k hreq, hn] at hctx
    exact ⟨p, k + 1, l, countPass_of_some hmem hreq, Option.some_injective _ hctx,
      (hold hi).trans hlook, hl⟩

theorem Inv.firstLayer (hs : Inv bs numBlocks s) (hbs : 0 < bs) {m : BatchMetadata W} {q : ℕ}
    {lens : List ℤ} {mgr : CPUBlockManager} (hlayer : m.layerId = s.mgr.firstLayer)
    (hbatch : FirstBatch s.reqs m q)
    (h : (CPUBlockManager.updateBlockTable m).Returns s.mgr lens mgr) :
    Inv bs numBlocks
      { mgr := mgr, reqs := countPass s.reqs m, current := some (m, lens) } := by
  obtain ⟨ctx, rfl, hlen, -, hupdate, hctx, hseq, hkept⟩ :=
    CPUBlockManager.updateBlockTable_first hlayer hbatch.nodup hbatch.numPrefillSeqs h
  obtain ⟨hmoves, hlists, hothers⟩ := BlockManager.updateBlockTable_spec
    (by rwa [hs.blockSize]) hupdate hbatch.numPrefillTokens (hbatch.reqIds ▸ hbatch.le)
    hbatch.reqIds hbatch.nodup
  rw [hs.blockSize] at hlists
  have hpass : ∀ (i r : ℕ), m.reqIds[i]? = some r → ∃ p k l',
      countPass s.reqs m r = some (p, k + 1) ∧ ctx[i]? = some ((p + k : ℕ) : ℤ) ∧
      mgr.blockMgr.blockTables.lookup r = some l' ∧ l'.length = (p + (k + 1)) ⌈/⌉ bs := by
    intro i r hr
    obtain ⟨n, v, hn, hnew, hold, hext⟩ := hlists i r hr
    obtain ⟨p, k, l, hcount, rfl, rfl, hl⟩ :=
      hs.before_pass hbs hbatch hr hn (hctx i r hr) hnew hold
    obtain ⟨l', hl', hlen'⟩ := hext.length hbs hl
    exact ⟨p, k, l', hcount, hn, hl', hlen'⟩
  have hidx : ∀ r ∈ m.reqIds, ∃ i, m.reqIds[i]? = some r := fun r hr => List.mem_iff_getElem?.1 hr
  refine
    { blockSize := hmoves.blockSize.trans hs.blockSize
      pool := hmoves.pool.trans hs.pool
      absent := fun r (hr : countPass s.reqs m r = none) => ?_
      blocks := fun r p k (hr : countPass s.reqs m r = some (p, k)) => ?_
      seqLens := fun r p k (hr : countPass s.reqs m r = some (p, k + 1)) => ?_
      current := ?_ }
  · by_cases hmem : r ∈ m.reqIds
    · obtain ⟨i, hi⟩ := hidx r hmem
      obtain ⟨p, k, l', hcount, -⟩ := hpass i r hi
      rw [hcount] at hr
      cases hr
    · rw [countPass_of_notMem hmem] at hr
      rw [hothers r hmem]
      exact hs.absent r hr
  · by_cases hmem : r ∈ m.reqIds
    · obtain ⟨i, hi⟩ := hidx r hmem
      obtain ⟨p', k', l', hcount, -, hl', hlen'⟩ := hpass i r hi
      obtain ⟨rfl, rfl⟩ : p' = p ∧ k' + 1 = k := by simpa [hcount] using hr
      exact ⟨l', hl', hlen'⟩
    · rw [countPass_of_notMem hmem] at hr
      rw [hothers r hmem]
      exact hs.blocks r p k hr
  · by_cases hmem : r ∈ m.reqIds
    · obtain ⟨i, hi⟩ := hidx r hmem
      obtain ⟨p', k', l', hcount, hn, -⟩ := hpass i r hi
      obtain ⟨rfl, rfl⟩ : p' = p ∧ k' = k := by simpa [hcount] using hr
      rw [hseq i r hi, List.getElem?_map, hn]
      rfl
    · rw [countPass_of_notMem hmem] at hr
      rw [hkept r hmem]
      exact hs.seqLens r p k hr
  · rintro m' lens' h'
    obtain ⟨rfl, rfl⟩ : m = m' ∧ ctx.map (· + 1) = lens' := by simpa using h'
    refine ⟨hbatch.reqIds, by rw [List.length_map, hlen, hbatch.reqIds], fun i r hr => ?_⟩
    obtain ⟨p, k, l', hcount, hn, -⟩ := hpass i r hr
    refine ⟨p, k, hcount, ?_⟩
    rw [List.getElem?_map, hn]
    rfl

theorem Inv.install (hs : Inv bs numBlocks s) (hbs : 0 < bs) {r p : ℕ} {b : BlockManager}
    (hnew : s.reqs r = none) (h : (BlockManager.allocate r p).Returns s.mgr.blockMgr () b) :
    Inv (W := W) bs numBlocks
      { mgr := { s.mgr with blockMgr := b }
        reqs := Function.update s.reqs r (some (p, 0))
        current := none } := by
  obtain ⟨hnone, hfree, rfl⟩ := BlockManager.returns_allocate.1 h
  have hmoves := BlockManager.moves_allocate (n := BlockManager.blocksNeeded
    s.mgr.blockMgr.blockSize p) hnone
  refine
    { blockSize := hs.blockSize
      pool := hmoves.pool.trans hs.pool
      absent := fun r' hr' => ?_
      blocks := fun r' p' k' hr' => ?_
      seqLens := fun r' p' k' hr' => ?_
      current := fun m lens h => by cases h }
  · have hne : r' ≠ r := by
      rintro rfl
      simp at hr'
    refine (AList.lookup_insert_ne hne).trans (hs.absent r' ?_)
    simpa [Function.update_of_ne hne] using hr'
  · by_cases hne : r' = r
    · subst hne
      obtain ⟨rfl, rfl⟩ : p = p' ∧ 0 = k' := by simpa using hr'
      refine ⟨_, AList.lookup_insert _, ?_⟩
      rw [List.length_take_of_le (by omega), hs.blockSize, blocksNeeded_natCast hbs, Nat.add_zero]
    · obtain ⟨l, hl, hlen⟩ := hs.blocks r' p' k' (by simpa [Function.update_of_ne hne] using hr')
      exact ⟨l, (AList.lookup_insert_ne hne).trans hl, hlen⟩
  · have hne : r' ≠ r := by
      rintro rfl
      simp at hr'
    exact hs.seqLens r' p' k' (by simpa [Function.update_of_ne hne] using hr')

theorem Inv.laterLayer (hs : Inv bs numBlocks s) {m : BatchMetadata W} {lens : List ℤ}
    {mgr : CPUBlockManager} (hlayer : m.layerId ≠ s.mgr.firstLayer)
    (hreqIds : m.reqIds.length = m.numTokens)
    (hpassed : ∀ r ∈ m.reqIds, ∃ p k, s.reqs r = some (p, k + 1))
    (h : (CPUBlockManager.updateBlockTable m).Returns s.mgr lens mgr) :
    Inv bs numBlocks { s with mgr := mgr, current := some (m, lens) } := by
  obtain ⟨hlens, rfl⟩ := CPUBlockManager.updateBlockTable_later hlayer h
  refine ⟨hs.blockSize, hs.pool, hs.absent, hs.blocks, hs.seqLens, ?_⟩
  rintro m' lens' h'
  obtain ⟨rfl, rfl⟩ : m = m' ∧ lens = lens' := by simpa using h'
  refine ⟨hreqIds, ?_, fun i r hr => ?_⟩
  · simpa [hreqIds] using (congrArg List.length hlens).symm
  · obtain ⟨p, k, hreq⟩ := hpassed r (List.mem_of_getElem? hr)
    refine ⟨p, k, hreq, ?_⟩
    have hi := congrArg (·[i]?) hlens
    simp only [List.getElem?_map, hr, Option.map_some, hs.seqLens r p k hreq] at hi
    cases hn : lens[i]? with
    | none => simp [hn] at hi
    | some n =>
      rw [hn] at hi
      exact (Option.some_injective _ hi).symm

theorem Inv.release (hs : Inv bs numBlocks s) {ids : List ℕ} {mgr : CPUBlockManager}
    (h : (CPUBlockManager.releaseSeqs ids).Returns s.mgr () mgr) :
    Inv (W := W) bs numBlocks
      { mgr := mgr
        reqs := fun r => if r ∈ ids then none else s.reqs r
        current := none } := by
  obtain ⟨-, hrel, hkept⟩ := CPUBlockManager.releaseSeqs_spec h
  obtain ⟨hmoves, hgone, hother⟩ := BlockManager.batchRelease_spec hrel
  have hlive : ∀ {r v}, (if r ∈ ids then none else s.reqs r) = some v →
      r ∉ ids ∧ s.reqs r = some v := by
    intro r v hr
    split at hr
    · cases hr
    · next hmem => exact ⟨hmem, hr⟩
  refine
    { blockSize := hmoves.blockSize.trans hs.blockSize
      pool := hmoves.pool.trans hs.pool
      absent := fun r hr => ?_
      blocks := fun r p k hr => ?_
      seqLens := fun r p k hr => ?_
      current := fun m lens h => by cases h }
  · by_cases hmem : r ∈ ids
    · exact hgone r hmem
    · rw [hother r hmem]
      exact hs.absent r (by simpa [hmem] using hr)
  · obtain ⟨hmem, hreq⟩ := hlive hr
    rw [hother r hmem]
    exact hs.blocks r p k hreq
  · obtain ⟨hmem, hreq⟩ := hlive hr
    rw [hkept r hmem]
    exact hs.seqLens r p k hreq

theorem Inv.step {s' : State W} (hs : Inv bs numBlocks s) (hbs : 0 < bs) (hstep : Step s s') :
    Inv bs numBlocks s' := by
  cases hstep with
  | install hnew h => exact hs.install hbs hnew h
  | firstLayer hlayer hbatch h => exact hs.firstLayer hbs hlayer hbatch h
  | laterLayer hlayer hreqIds hpassed h => exact hs.laterLayer hlayer hreqIds hpassed h
  | release _ _ h => exact hs.release h

theorem Inv.of_steps (hbs : 0 < bs) {firstLayer : ℕ}
    (hrun : ReflTransGen Step (State.init W bs numBlocks firstLayer) s) : Inv bs numBlocks s := by
  induction hrun with
  | refl => exact inv_init bs numBlocks firstLayer
  | tail _ hstep ih => exact ih.step hbs hstep

/-! ### What a run guarantees -/

/-- The tables of the batch at hand. For request `i`, which started with `p` tokens and is in pass
`k + 1`, the newest token is at position `p + k`, after a context of `p + k` tokens, and its slot
is read from the entry of one of the blocks of the request. -/
def Packed (bs : ℕ) (s : State W) (m : BatchMetadata W) (lens : List ℤ) : Prop :=
  ∃ pages table slots contexts locs,
    s.mgr.blockMgr.prepareBlockTable m lens = .ok (table ++ slots) ∧
    s.mgr.blockMgr.prepareBlockTableGdr m lens = .ok (pages, table, slots) ∧
    BlockManager.prepareSeqInfo m lens = .ok (lens ++ contexts ++ locs) ∧
    BlockManager.prepareSeqInfoGdr m lens = .ok (lens, contexts, locs) ∧
    table.length = m.numTokens * pages ∧ slots.length = m.numTokens ∧
    ∀ (i r : ℕ), m.reqIds[i]? = some r →
      ∃ p k l b, s.reqs r = some (p, k + 1) ∧
        s.mgr.blockMgr.blockTables.lookup r = some l ∧
        lens[i]? = some ((p + (k + 1) : ℕ) : ℤ) ∧ contexts[i]? = some ((p + k : ℕ) : ℤ) ∧
        (p + k) / bs < pages ∧ l[(p + k) / bs]? = some b ∧
        table[i * pages + (p + k) / bs]? = some (b : ℤ) ∧
        slots[i]? = some ((b * bs + (p + k) % bs : ℕ) : ℤ)

structure Isolated (bs numBlocks : ℕ) (s : State W) : Prop where
  /-- The free queue and the lists hold every block exactly once. -/
  blocks : (s.mgr.blockMgr.freeBlocks : Multiset ℕ) +
    tableSum (fun (_ : ℕ) (l : List ℕ) => (l : Multiset ℕ)) s.mgr.blockMgr.blockTables =
      Multiset.range numBlocks
  absent : ∀ r, s.reqs r = none → s.mgr.blockMgr.blockTables.lookup r = none
  /-- After `k` passes a request that started with `p` tokens is `p + k` tokens long and has the
  blocks for them. -/
  lengths : ∀ r p k, s.reqs r = some (p, k) → 0 < k →
    s.mgr.decodeSeqLens.lookup r = some ((p + k : ℕ) : ℤ) ∧
      ∃ l, s.mgr.blockMgr.blockTables.lookup r = some l ∧ l.length = (p + k) ⌈/⌉ bs
  packed : ∀ m lens, s.current = some (m, lens) → Packed bs s m lens
  slots : ∀ r r' l l' i j, s.mgr.blockMgr.blockTables.lookup r = some l →
    s.mgr.blockMgr.blockTables.lookup r' = some l' → i / bs < l.length → j / bs < l'.length →
    slotAt bs l i = slotAt bs l' j → r = r' ∧ i = j

theorem Inv.slots (hs : Inv bs numBlocks s) (hbs : 0 < bs) {r r' i j : ℕ} {l l' : List ℕ}
    (hl : s.mgr.blockMgr.blockTables.lookup r = some l)
    (hl' : s.mgr.blockMgr.blockTables.lookup r' = some l') (hi : i / bs < l.length)
    (hj : j / bs < l'.length) (hslot : slotAt bs l i = slotAt bs l' j) : r = r' ∧ i = j := by
  have hnodup : s.mgr.blockMgr.pool.Nodup := by
    rw [hs.pool]
    exact Multiset.nodup_range numBlocks
  rw [slotAt, slotAt, List.getD_eq_getElem _ _ hi, List.getD_eq_getElem _ _ hj] at hslot
  have hmod : i % bs = j % bs := by
    have := congrArg (· % bs) hslot
    simpa [Nat.mul_add_mod_self_right] using this
  have hblock : l[i / bs] = l'[j / bs] := by
    have := congrArg (· / bs) hslot
    simpa [Nat.mul_comm _ bs, Nat.mul_add_div hbs, Nat.div_eq_of_lt (Nat.mod_lt _ hbs)] using this
  obtain rfl := BlockManager.eq_of_mem hnodup hl hl' (List.getElem_mem hi)
    (hblock ▸ List.getElem_mem hj)
  obtain rfl := Option.some_injective _ (hl.symm.trans hl')
  have hdiv : i / bs = j / bs :=
    (BlockManager.nodup_of_lookup hnodup hl).getElem_inj_iff.1 hblock
  refine ⟨rfl, ?_⟩
  rw [← Nat.div_add_mod i bs, ← Nat.div_add_mod j bs, hdiv, hmod]

theorem Inv.holds (hs : Inv bs numBlocks s) (hbs : 0 < bs) {m : BatchMetadata W} {lens : List ℤ}
    (hready : Ready s.reqs m lens) :
    BlockManager.Holds s.mgr.blockMgr m
        (m.reqIds.map fun r => (s.mgr.blockMgr.blockTables.lookup r).getD [])
        (lens.map Int.toNat) ∧
      (lens.map Int.toNat).map (↑) = lens := by
  have hget : ∀ (i r : ℕ), m.reqIds[i]? = some r → ∃ p k l, s.reqs r = some (p, k + 1) ∧
      lens[i]? = some ((p + k + 1 : ℕ) : ℤ) ∧
      s.mgr.blockMgr.blockTables.lookup r = some l ∧ l.length = (p + (k + 1)) ⌈/⌉ bs := by
    intro i r hr
    obtain ⟨p, k, hreq, hn⟩ := hready.get i r hr
    obtain ⟨l, hl, hlen⟩ := hs.blocks r p (k + 1) hreq
    exact ⟨p, k, l, hreq, hn, hl, hlen⟩
  refine ⟨⟨by rwa [hs.blockSize], hready.reqIds, ?_, by rw [List.length_map, hready.lens_length],
    ?_⟩, ?_⟩
  · rw [List.map_map]
    refine List.map_congr_left fun r hr => ?_
    obtain ⟨i, hi⟩ := List.mem_iff_getElem?.1 hr
    obtain ⟨p, k, l, -, -, hl, -⟩ := hget i r hi
    simp [hl]
  · intro i l n hl hn
    rw [List.getElem?_map, Option.map_eq_some_iff] at hl hn
    obtain ⟨r, hr, rfl⟩ := hl
    obtain ⟨p, k, l, -, hlen, hl, hlenl⟩ := hget i r hr
    obtain ⟨n', hn', rfl⟩ := hn
    obtain rfl := Option.some_injective _ (hn'.symm.trans hlen)
    rw [hl, hs.blockSize, Int.toNat_natCast]
    exact ⟨by omega, hlenl ▸ div_lt_ceilDiv hbs (p + k)⟩
  · rw [List.map_map]
    refine (List.map_congr_left fun n hn => ?_).trans (List.map_id lens)
    obtain ⟨i, hi⟩ := List.mem_iff_getElem?.1 hn
    have hlt := (List.getElem?_eq_some_iff.1 hi).1
    rw [hready.lens_length, ← hready.reqIds] at hlt
    obtain ⟨p, k, -, hlen⟩ := hready.get i _ (List.getElem?_eq_getElem hlt)
    obtain rfl := Option.some_injective _ (hi.symm.trans hlen)
    exact Int.toNat_of_nonneg (Int.natCast_nonneg _)

theorem Inv.packed (hs : Inv bs numBlocks s) (hbs : 0 < bs) {m : BatchMetadata W}
    {lens : List ℤ} (hready : Ready s.reqs m lens) : Packed bs s m lens := by
  obtain ⟨hholds, hcast⟩ := hs.holds hbs hready
  have htable := hholds.prepareBlockTable_eq
  have hgdr := hholds.prepareBlockTableGdr_eq
  have hinfo := hholds.prepareSeqInfo_eq
  have hinfoGdr := hholds.prepareSeqInfoGdr_eq
  rw [hcast] at htable hgdr hinfo hinfoGdr
  refine ⟨_, _, _, _, _, htable, hgdr, hinfo, hinfoGdr, ?_, ?_, fun i r hr => ?_⟩
  · rw [BlockManager.length_tableRows_flatten, hholds.lists_length]
  · simp [BlockManager.newestSlots, hready.lens_length, hready.reqIds]
  · obtain ⟨p, k, hreq, hn⟩ := hready.get i r hr
    obtain ⟨l, hl, hlen⟩ := hs.blocks r p (k + 1) hreq
    have hlt : (p + k) / bs < l.length := hlen ▸ div_lt_ceilDiv hbs (p + k)
    have hlist : (m.reqIds.map fun r =>
        (s.mgr.blockMgr.blockTables.lookup r).getD [])[i]? = some l := by
      simp [hr, hl]
    refine ⟨p, k, l, l[(p + k) / bs], hreq, hl, hn, ?_, ?_, List.getElem?_eq_getElem hlt,
      BlockManager.getElem?_tableRows_flatten hlist hlt, ?_⟩
    · rw [List.getElem?_map, List.getElem?_map, hn, Option.map_some, Option.map_some,
        Int.toNat_natCast]
      push_cast
      ring_nf
    · exact hlt.trans_le (BlockManager.le_numPages (List.mem_of_getElem? hlist))
    · rw [BlockManager.newestSlots, List.getElem?_zipWith, hlist, List.getElem?_map, hn,
        hs.blockSize]
      simp only [Option.map_some, Int.toNat_natCast, slotAt]
      rw [show p + k + 1 - 1 = p + k by omega, List.getD_eq_getElem _ _ hlt]

/-- **Requests do not share cache slots.** In every run of one engine, every block is free or in
one list exactly once, lengths and lists count the passes of their request, and the tables of
every batch point at the newest position of each of its requests, in a block of that request. -/
theorem isolated_of_reachable (hbs : 0 < bs) {firstLayer : ℕ}
    (hrun : ReflTransGen Step (State.init W bs numBlocks firstLayer) s) :
    Isolated bs numBlocks s := by
  have hs := Inv.of_steps hbs hrun
  refine ⟨hs.pool, hs.absent, fun r p k hreq hk => ?_, fun m lens hcur => ?_, ?_⟩
  · obtain ⟨k, rfl⟩ : ∃ j, k = j + 1 := ⟨k - 1, by omega⟩
    exact ⟨hs.seqLens r p k hreq, hs.blocks r p (k + 1) hreq⟩
  · exact hs.packed hbs (hs.current m lens hcur)
  · intro r r' l l' i j hl hl' hi hj hslot
    exact hs.slots hbs hl hl' hi hj hslot

/-- A batch of request `7`, which starts with two tokens, and request `5`, which starts with
none. -/
def twoNew (layerId : ℕ) : BatchMetadata ℕ where
  batchTag := .attention
  numTokens := 2
  tokenHiddenDim := 1
  layerId := layerId
  reqIds := [7, 5]
  expIds := []
  topkWeights := []
  attnDpRanks := []
  initPrefillLens := [2, 0]
  numPrefillSeqs := some 2
  numPrefillTokens := some 2
  numDecodeTokens := some 0

theorem firstBatch_twoNew {reqs : ℕ → Option (ℕ × ℕ)} (h7 : reqs 7 = some (2, 0))
    (h5 : reqs 5 = none) : FirstBatch reqs (twoNew 0) 2 where
  nodup := by decide
  reqIds := rfl
  numPrefillSeqs := rfl
  numPrefillTokens := rfl
  le := le_refl 2
  new i r hi hr := by
    obtain _ | _ | i := i
    · obtain rfl : 7 = r := Option.some_injective _ hr
      exact ⟨2, rfl, .inr h7⟩
    · obtain rfl : 5 = r := Option.some_injective _ hr
      exact ⟨0, rfl, .inl h5⟩
    · omega
  old i r hi hr := absurd (List.getElem?_eq_some_iff.1 hr).1 (not_lt.2 hi)

/-- The cache of request `7` is loaded, then both requests pass the first layer and the next. -/
theorem isolated_after_pass :
    ∃ s : State ℕ, ReflTransGen Step (State.init ℕ 2 4 0) s ∧
      s.mgr.blockMgr.blockTables.lookup 7 = some [0, 1] ∧
      s.mgr.blockMgr.blockTables.lookup 5 = some [2] ∧
      s.current = some (twoNew 1, [3, 1]) ∧ Isolated 2 4 s := by
  have hrun : ReflTransGen Step (State.init ℕ 2 4 0) _ := .refl
  replace hrun := hrun.tail (Step.install (r := 7) (p := 2) rfl rfl)
  replace hrun := hrun.tail (Step.firstLayer rfl (firstBatch_twoNew rfl rfl) rfl)
  replace hrun := hrun.tail (Step.laterLayer (m := twoNew 1) (by decide) rfl (by
    intro r hr
    rcases List.mem_pair.1 hr with rfl | rfl
    exacts [⟨2, 0, rfl⟩, ⟨0, 0, rfl⟩]) rfl)
  exact ⟨_, hrun, rfl, rfl, rfl, isolated_of_reachable (by decide) hrun⟩

end KvRun

end StreamEP

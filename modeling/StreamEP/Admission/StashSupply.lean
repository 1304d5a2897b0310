import StreamEP.Admission.BlockSupply
import StreamEP.Engine.StashPool

/-!
# The stash rows of admitted requests

A rank with `num_cache_blocks` blocks has `num_cache_blocks * block_size // 100 + 1` rows in its
residual stash. Admission counts blocks and knows nothing of rows, so whether a request finds a
row depends on how many requests can have one at the same time.

## Blocks before rows

`preprocess_batch_attn` calls `update_block_table` and only then `_stash_slot_of` for the requests
of the batch, and an exception of either ends the engine. A request therefore never asks for a row
before it has a block, and the pool cannot be followed without the block manager: an engine here
has both, and the calls of `_stash_slot_of` that its batch still has to make.

## One row less than blocks

A request that has been in a batch holds a block. Not every block can be held in this way.
`append_tokens` leaves a block free, so the last one goes to a prompt, and a request with a prompt
reserves a further block for its output. So `num_cache_blocks - 1` rows are enough. They are also
needed, because a batch of requests without a prompt takes one block each.

## Main results

* `StashSupply.Inv.length_lt` — fewer requests have been in a batch than the rank has blocks
* `StashSupply.supplied_iff` — when every call of `_stash_slot_of` returns a row
* `StashSupply.starved_three_blocks` — a run in which a call raises
-/

namespace StreamEP

open Relation

def maxRunningReqs (numCacheBlocks blockSize : ℕ) : ℕ := numCacheBlocks * blockSize / 100 + 1

/-- A request gets a row when it has one or one is free. -/
theorem StashPool.exists_stashSlotOf {p : StashPool} {reqId : ℕ}
    (h : p.stashSlotMap.lookup reqId = none → p.stashFreeSlots ≠ []) :
    ∃ slot p', p.stashSlotOf reqId = .ok (slot, p') := by
  unfold stashSlotOf
  cases hlookup : p.stashSlotMap.lookup reqId with
  | some slot => exact ⟨slot, p, rfl⟩
  | none =>
    obtain ⟨slot, rest, hfree⟩ := List.exists_cons_of_ne_nil (h hlookup)
    simp only [hfree]
    exact ⟨_, _, rfl⟩

variable {W : Type}

namespace KvRun

/-! ### A block stays free unless a prompt has taken it -/

/-- A block is free, or some request started with a prompt. -/
def Spare (s : State W) : Prop :=
  0 < s.mgr.blockMgr.freeBlocks.length ∨ ∃ r p k, s.reqs r = some (p, k) ∧ 0 < p

variable {bs numBlocks : ℕ} {s s' : State W}

/-- Two states of an engine, with their blocks counted over the same requests. -/
theorem Inv.exists_cover (hs : Inv bs numBlocks s) (hs' : Inv bs numBlocks s') (B : Finset ℕ) :
    ∃ U, B ⊆ U ∧ s'.mgr.blockMgr.freeBlocks.length + ∑ r ∈ U, need bs s'.reqs r =
      s.mgr.blockMgr.freeBlocks.length + ∑ r ∈ U, need bs s.reqs r := by
  refine ⟨B ∪ (s.mgr.blockMgr.blockTables.keys.toFinset ∪
    s'.mgr.blockMgr.blockTables.keys.toFinset), Finset.subset_union_left, ?_⟩
  rw [hs.free_add_need (Finset.subset_union_left.trans Finset.subset_union_right),
    hs'.free_add_need (Finset.subset_union_right.trans Finset.subset_union_right)]

/-- Requests that need no more than before leave the free blocks free. -/
theorem Inv.free_le (hs : Inv bs numBlocks s) (hs' : Inv bs numBlocks s')
    (hneed : ∀ r, need bs s'.reqs r ≤ need bs s.reqs r) :
    s.mgr.blockMgr.freeBlocks.length ≤ s'.mgr.blockMgr.freeBlocks.length := by
  obtain ⟨U, -, hfree⟩ := hs.exists_cover hs' ∅
  have hle := Finset.sum_le_sum fun r (_ : r ∈ U) => hneed r
  omega

theorem Inv.free_lt (hs : Inv bs numBlocks s) (hs' : Inv bs numBlocks s')
    (hneed : ∀ r, need bs s'.reqs r ≤ need bs s.reqs r) {r : ℕ}
    (hr : need bs s'.reqs r < need bs s.reqs r) :
    s.mgr.blockMgr.freeBlocks.length < s'.mgr.blockMgr.freeBlocks.length := by
  obtain ⟨U, hU, hfree⟩ := hs.exists_cover hs' {r}
  have hlt := Finset.sum_lt_sum (fun r (_ : r ∈ U) => hneed r)
    ⟨r, hU (Finset.mem_singleton_self r), hr⟩
  omega

theorem need_pos (hbs : 0 < bs) {reqs : ℕ → Option (ℕ × ℕ)} {r p k : ℕ}
    (hr : reqs r = some (p, k + 1)) : 0 < need bs reqs r := by
  rw [need, hr]
  refine Nat.pos_of_ne_zero fun hzero => ?_
  have hle := (ceilDiv_le_iff_le_smul hbs).1 hzero.le
  simp at hle

theorem Inv.free_add_length_le (hs : Inv bs numBlocks s) (hbs : 0 < bs) {ids : List ℕ}
    (hnodup : ids.Nodup) (hpassed : ∀ r ∈ ids, ∃ p k, s.reqs r = some (p, k + 1)) :
    s.mgr.blockMgr.freeBlocks.length + ids.length ≤ numBlocks := by
  obtain ⟨U, hU⟩ : ∃ U, U = s.mgr.blockMgr.blockTables.keys.toFinset ∪ ids.toFinset := ⟨_, rfl⟩
  have hblocks := hs.free_add_need (U := U) (hU ▸ Finset.subset_union_left)
  have hheld : ids.length ≤ ∑ r ∈ U, need bs s.reqs r :=
    calc ids.length = ∑ _r ∈ ids.toFinset, 1 := by
          rw [← Finset.card_eq_sum_ones, List.toFinset_card_of_nodup hnodup]
      _ ≤ ∑ r ∈ ids.toFinset, need bs s.reqs r := by
          refine Finset.sum_le_sum fun r hr => ?_
          obtain ⟨p, k, hreq⟩ := hpassed r (List.mem_toFinset.1 hr)
          exact need_pos hbs hreq
      _ ≤ ∑ r ∈ U, need bs s.reqs r :=
          Finset.sum_le_sum_of_subset (hU ▸ Finset.subset_union_right)
  omega

/-- Every request of a batch at the first layer has made a pass after it. -/
theorem FirstBatch.exists_countPass {reqs : ℕ → Option (ℕ × ℕ)} {m : BatchMetadata W} {q r : ℕ}
    (h : FirstBatch reqs m q) (hr : r ∈ m.reqIds) :
    ∃ p k, countPass reqs m r = some (p, k + 1) ∧
      (reqs r = some (p, k) ∨ reqs r = none ∧ k = 0) := by
  obtain ⟨i, hi⟩ := List.mem_iff_getElem?.1 hr
  rcases lt_or_ge i q with hlt | hge
  · obtain ⟨p, hp, hreq | hreq⟩ := h.new i r hlt hi
    · exact ⟨p, 0, countPass_of_none h.nodup hi hp hreq, .inr ⟨hreq, rfl⟩⟩
    · exact ⟨p, 0, countPass_of_some hr hreq, .inl hreq⟩
  · obtain ⟨p, k, hreq⟩ := h.old i r hge hi
    exact ⟨p, k + 1, countPass_of_some hr hreq, .inl hreq⟩

/-- A batch without prompts in which no request starts a block takes none. -/
theorem Inv.demand_eq_zero (hs : Inv bs numBlocks s) (hbs : 0 < bs) {m : BatchMetadata W} {q : ℕ}
    (hbatch : FirstBatch s.reqs m q)
    (hprompt : ∀ r p k, countPass s.reqs m r = some (p, k) → p = 0)
    (hinside : ∀ r ∈ m.reqIds, s.lenBefore m r % s.mgr.blockMgr.blockSize ≠ 0) :
    s.demand m = 0 := by
  rw [State.demand, hs.blockSize, List.sum_eq_zero_iff]
  intro n hn
  obtain ⟨r, hr, rfl⟩ := List.mem_map.1 hn
  obtain ⟨p, k, hcount, hreq⟩ := hbatch.exists_countPass hr
  obtain rfl := hprompt r p _ hcount
  have hlen : s.lenBefore m r = 0 + k := by simp [State.lenBefore, hcount]
  have hmid := hinside r hr
  rw [hlen, hs.blockSize] at hmid
  rcases hreq with hreq | ⟨-, rfl⟩
  · rw [hs.held_eq, need, need, hcount, hreq]
    show (0 + k + 1) ⌈/⌉ bs - (0 + k) ⌈/⌉ bs = 0
    rw [ceilDiv_succ hbs, if_neg hmid, Nat.add_zero, Nat.sub_self]
  · exact absurd (Nat.zero_mod bs) hmid

theorem Inv.free_add_demand (hs : Inv bs numBlocks s) (hbs : 0 < bs) {m : BatchMetadata W}
    (hnodup : m.reqIds.Nodup) (hs' : Inv bs numBlocks s') (hreqs : s'.reqs = countPass s.reqs m) :
    s'.mgr.blockMgr.freeBlocks.length + s.demand m = s.mgr.blockMgr.freeBlocks.length := by
  obtain ⟨U, hU, hfree⟩ := hs.exists_cover hs' m.reqIds.toFinset
  have hgrow : ∑ r ∈ U, need bs (countPass s.reqs m) r = ∑ r ∈ U, need bs s.reqs r + _ :=
    sum_need_eq hU (fun r hr => countPass_of_notMem (by simpa using hr))
      (need_le_need_countPass hbs s.reqs m)
  rw [hreqs] at hfree
  rw [State.demand, hs.blockSize, ← List.sum_toFinset _ hnodup]
  simp only [hs.held_eq]
  omega

theorem exists_countPass_of_some {reqs : ℕ → Option (ℕ × ℕ)} (m : BatchMetadata W) {r p k : ℕ}
    (hr : reqs r = some (p, k)) : ∃ k', k ≤ k' ∧ countPass reqs m r = some (p, k') := by
  by_cases hmem : r ∈ m.reqIds
  · exact ⟨k + 1, Nat.le_succ k, countPass_of_some hmem hr⟩
  · exact ⟨k, le_rfl, (countPass_of_notMem hmem).trans hr⟩

/-- **A batch leaves a block free, or a prompt has taken the last one.** -/
theorem Spare.firstLayer (hspare : Spare s) (hs : Inv bs numBlocks s) (hbs : 0 < bs)
    (hreserved : s.mgr.blockMgr.reservedBlocks = 0) {m : BatchMetadata W} {q : ℕ} {lens : List ℤ}
    {mgr : CPUBlockManager} (hlayer : m.layerId = s.mgr.firstLayer)
    (hbatch : FirstBatch s.reqs m q) (hdecode : m.numDecodeTokens.isSome)
    (h : (CPUBlockManager.updateBlockTable m).Returns s.mgr lens mgr) :
    Spare { mgr := mgr, reqs := countPass s.reqs m, current := some (m, lens) } := by
  have hfree : mgr.blockMgr.freeBlocks.length + s.demand m = s.mgr.blockMgr.numFreeBlocks :=
    hs.free_add_demand hbs hbatch.nodup (hs.firstLayer hbs hlayer hbatch h) rfl
  obtain ⟨d, hd⟩ := Option.isSome_iff_exists.1 hdecode
  have hhas := (hs.exists_updateBlockTable_iff hbs hreserved hlayer hbatch hd
    (hfree ▸ Nat.le_add_left _ _)).1 ⟨_, _, h⟩
  by_contra hnone
  obtain ⟨hzero, hnoPrompt⟩ : ¬ 0 < mgr.blockMgr.freeBlocks.length ∧ _ := not_or.1 hnone
  have hprompt : ∀ r p k, countPass s.reqs m r = some (p, k) → p = 0 := fun r p k hr =>
    Nat.eq_zero_of_not_pos fun hp => hnoPrompt ⟨r, p, k, hr, hp⟩
  rcases hhas with hinside | hlt
  · -- the batch takes no block, so what was spare before still is
    rw [hs.demand_eq_zero hbs hbatch hprompt hinside] at hfree
    rcases hspare with hpos | ⟨r, p, k, hr, hp⟩
    · exact hzero (hpos.trans_eq hfree.symm)
    · obtain ⟨k', -, hr'⟩ := exists_countPass_of_some m hr
      exact hp.ne' (hprompt r p k' hr')
  · omega

theorem Spare.install (hspare : Spare s) (hs : Inv bs numBlocks s) (hs' : Inv bs numBlocks s')
    {r p : ℕ} (hnew : s.reqs r = none)
    (hreqs : s'.reqs = Function.update s.reqs r (some (p, 0))) : Spare s' := by
  rcases Nat.eq_zero_or_pos p with rfl | hp
  · have hneed : ∀ r', need bs s'.reqs r' ≤ need bs s.reqs r' := by
      intro r'
      by_cases heq : r' = r
      · subst heq
        simp [need, hreqs]
      · rw [need, need, hreqs, Function.update_of_ne heq]
    rcases hspare with hpos | ⟨r', p, k, hr', hp⟩
    · exact .inl (hpos.trans_le (hs.free_le hs' hneed))
    · refine .inr ⟨r', p, k, ?_, hp⟩
      rw [hreqs, Function.update_of_ne (by rintro rfl; rw [hnew] at hr'; cases hr'), hr']
  · exact .inr ⟨r, p, 0, by rw [hreqs, Function.update_self], hp⟩

theorem Spare.release (hspare : Spare s) (hs : Inv bs numBlocks s) (hs' : Inv bs numBlocks s')
    (hbs : 0 < bs) {ids : List ℕ} (hlive : ∀ r ∈ ids, ∃ p k, s.reqs r = some (p, k + 1))
    (hreqs : s'.reqs = fun r => if r ∈ ids then none else s.reqs r) : Spare s' := by
  have hgone : ∀ r ∈ ids, need bs s'.reqs r = 0 := fun r hr => by simp [need, hreqs, hr]
  have hkept : ∀ r ∉ ids, s'.reqs r = s.reqs r := fun r hr => by simp [hreqs, hr]
  have hneed : ∀ r, need bs s'.reqs r ≤ need bs s.reqs r := by
    intro r
    by_cases hr : r ∈ ids
    · exact (hgone r hr).trans_le (Nat.zero_le _)
    · rw [need, need, hkept r hr]
  cases ids with
  | nil =>
    rcases hspare with hpos | ⟨r, p, k, hr, hp⟩
    · exact .inl (hpos.trans_le (hs.free_le hs' hneed))
    · exact .inr ⟨r, p, k, (hkept r (List.not_mem_nil)).trans hr, hp⟩
  | cons r ids =>
    obtain ⟨p, k, hr⟩ := hlive r List.mem_cons_self
    have hlt : need bs s'.reqs r < need bs s.reqs r := by
      rw [hgone r List.mem_cons_self]
      exact need_pos hbs hr
    exact .inl ((Nat.zero_le _).trans_lt (hs.free_lt hs' hneed hlt))

end KvRun

namespace StashSupply

structure Engine (W : Type) where
  /-- The block manager, with the requests that have blocks and the passes they have made. -/
  kv : KvRun.State W
  /-- `stash_free_slots` and `stash_slot_map` -/
  pool : StashPool
  /-- The requests of the batch at hand for which `_stash_slot_of` has not been called yet. -/
  due : List ℕ

/-- An engine with `c` blocks, as `init_kv_cache` and `build_attn_executor` set it up. -/
def Engine.init (W : Type) (bs c firstLayer : ℕ) : Engine W where
  kv := .init W bs c firstLayer
  pool := .create (maxRunningReqs c bs)
  due := []

def kvs (es : ℕ → Engine W) : ℕ → KvRun.State W := Engine.kv ∘ es

/-- A request that has been in a batch at the first layer. -/
def Passed (reqs : ℕ → Option (ℕ × ℕ)) (r : ℕ) : Prop := ∃ p k, reqs r = some (p, k + 1)

/-- What the engines do to their block managers and pools. A batch first gets its blocks, and then
its requests ask for their rows one by one; nothing else happens on the engine in between. -/
inductive Call (running : List (RequestItem × ℤ)) :
    (ℕ → Engine W) → (ℕ → Engine W) → List ℕ → Prop
  /-- A cache load allocates the blocks of a request. -/
  | install {es : ℕ → Engine W} {rank : ℕ} {item : RequestItem} {b : BlockManager}
      (hidle : (es rank).due = []) (hitem : (item, (rank : ℤ)) ∈ running)
      (hnew : (es rank).kv.reqs item.reqId = none)
      (h : (BlockManager.allocate item.reqId item.prefillLen).Returns
        (es rank).kv.mgr.blockMgr () b) :
      Call running es
        (Function.update es rank { es rank with
          kv :=
            { mgr := { (es rank).kv.mgr with blockMgr := b }
              reqs := Function.update (es rank).kv.reqs item.reqId (some (item.prefillLen, 0))
              current := none } }) []
  /-- `preprocess_batch_attn` at the first layer, up to `update_block_table`. -/
  | firstLayer {es : ℕ → Engine W} {rank : ℕ} {m : BatchMetadata W} {q : ℕ} {lens : List ℤ}
      {mgr : CPUBlockManager} (hidle : (es rank).due = [])
      (hbatch : BlockSupply.Batch running rank (es rank).kv m q)
      (h : (CPUBlockManager.updateBlockTable m).Returns (es rank).kv.mgr lens mgr) :
      Call running es
        (Function.update es rank { es rank with
          kv :=
            { mgr := mgr
              reqs := KvRun.countPass (es rank).kv.reqs m
              current := some (m, lens) }
          due := m.reqIds }) []
  /-- `preprocess_batch_attn` at another layer. -/
  | laterLayer {es : ℕ → Engine W} {rank : ℕ} {m : BatchMetadata W} {lens : List ℤ}
      {mgr : CPUBlockManager} (hidle : (es rank).due = [])
      (hlayer : m.layerId ≠ (es rank).kv.mgr.firstLayer)
      (hreqIds : m.reqIds.length = m.numTokens)
      (hpassed : ∀ r ∈ m.reqIds, Passed (es rank).kv.reqs r)
      (h : (CPUBlockManager.updateBlockTable m).Returns (es rank).kv.mgr lens mgr) :
      Call running es
        (Function.update es rank { es rank with
          kv := { (es rank).kv with mgr := mgr, current := some (m, lens) }
          due := m.reqIds }) []
  /-- `sample_results` needs no blocks. -/
  | sampleResults {es : ℕ → Engine W} {rank : ℕ} {reqIds : List ℕ} (hidle : (es rank).due = [])
      (hpassed : ∀ r ∈ reqIds, Passed (es rank).kv.reqs r) :
      Call running es (Function.update es rank { es rank with due := reqIds }) []
  | stashSlotOf {es : ℕ → Engine W} {rank r slot : ℕ} {rest : List ℕ} {pool : StashPool}
      (hdue : (es rank).due = r :: rest) (h : (es rank).pool.stashSlotOf r = .ok (slot, pool)) :
      Call running es (Function.update es rank { es rank with pool := pool, due := rest }) []
  | releaseSeqs {es : ℕ → Engine W} {rank : ℕ} {ids : List ℕ} {mgr : CPUBlockManager}
      (hidle : (es rank).due = []) (hnodup : ids.Nodup)
      (hlive : ∀ r ∈ ids, Passed (es rank).kv.reqs r)
      (h : (CPUBlockManager.releaseSeqs ids).Returns (es rank).kv.mgr () mgr) :
      Call running es
        (Function.update es rank
          { kv :=
              { mgr := mgr
                reqs := fun r => if r ∈ ids then none else (es rank).kv.reqs r
                current := none }
            pool := (es rank).pool.releaseSeqs ids
            due := [] }) ids

/-- The states of a deployment whose ranks have the blocks that the scheduler was started with. -/
def Reaches (W : Type) (policy : Policy) (bs : ℕ) (cap : List ℕ) (firstLayer : ℕ)
    (s : Serving.State (ℕ → Engine W)) : Prop :=
  ReflTransGen (Serving.Step Call)
    (Serving.State.init policy bs cap fun rank => .init W bs (cap.getD rank 0) firstLayer) s

/-- The next call of `_stash_slot_of` on the rank returns a row. -/
def Supplied (rank : ℕ) (s : Serving.State (ℕ → Engine W)) : Prop :=
  ∀ r rest, (s.engines rank).due = r :: rest →
    ∃ slot pool, (s.engines rank).pool.stashSlotOf r = .ok (slot, pool)

/-! ### The invariant -/

/-- Only requests that have been in a batch have a row or ask for one. -/
structure Rows (bs c : ℕ) (e : Engine W) : Prop where
  spare : 0 < c → KvRun.Spare e.kv
  partitioned : e.pool.Partitioned (maxRunningReqs c bs)
  owned : ∀ r slot, e.pool.stashSlotMap.lookup r = some slot → Passed e.kv.reqs r
  due : ∀ r ∈ e.due, Passed e.kv.reqs r

structure Inv (bs : ℕ) (cap : List ℕ) (running : List (RequestItem × ℤ)) (es : ℕ → Engine W) :
    Prop where
  kvs : BlockSupply.Inv bs cap running (kvs es)
  rows : ∀ rank, Rows bs (cap.getD rank 0) (es rank)

variable {bs rank c : ℕ} {running : List (RequestItem × ℤ)} {e : Engine W} {es es' : ℕ → Engine W}
  {cap : List ℕ}

theorem kvs_update (es : ℕ → Engine W) (rank : ℕ) (e : Engine W) :
    kvs (Function.update es rank e) = Function.update (kvs es) rank e.kv :=
  Function.comp_update Engine.kv es rank e

theorem Rows.setKv (h : Rows bs c e) {kv : KvRun.State W} {due : List ℕ}
    (hspare : 0 < c → KvRun.Spare kv) (hmono : ∀ r, Passed e.kv.reqs r → Passed kv.reqs r)
    (hdue : ∀ r ∈ due, Passed kv.reqs r) : Rows bs c { e with kv := kv, due := due } where
  spare := hspare
  partitioned := h.partitioned
  owned r slot hslot := hmono r (h.owned r slot hslot)
  due := hdue

theorem Rows.stashSlotOf (h : Rows bs c e) {r slot : ℕ} {rest : List ℕ} {pool : StashPool}
    (hdue : e.due = r :: rest) (hok : e.pool.stashSlotOf r = .ok (slot, pool)) :
    Rows bs c { e with pool := pool, due := rest } := by
  obtain ⟨hpart, -, hothers, -⟩ := h.partitioned.stashSlotOf hok
  have hpassed : ∀ r' ∈ r :: rest, Passed e.kv.reqs r' := hdue ▸ h.due
  refine ⟨h.spare, hpart, fun r' slot' hslot => ?_, fun r' hr' =>
    hpassed r' (List.mem_cons_of_mem r hr')⟩
  by_cases heq : r' = r
  · exact hpassed r' (heq ▸ List.mem_cons_self)
  · exact h.owned r' slot' ((hothers r' heq).symm.trans hslot)

theorem Passed.countPass {reqs : ℕ → Option (ℕ × ℕ)} {r : ℕ} (h : Passed reqs r)
    (m : BatchMetadata W) : Passed (KvRun.countPass reqs m) r := by
  obtain ⟨p, k, hr⟩ := h
  obtain ⟨k', hk, hr'⟩ := KvRun.exists_countPass_of_some m hr
  obtain ⟨j, rfl⟩ := Nat.exists_eq_add_of_le' hk
  exact ⟨p, j + k, hr'⟩

theorem Inv.update (h : Inv bs cap running es) {running' : List (RequestItem × ℤ)}
    (hkvs : BlockSupply.Inv bs cap running' (Function.update (StashSupply.kvs es) rank e.kv))
    (he : Rows bs (cap.getD rank 0) e) : Inv bs cap running' (Function.update es rank e) := by
  refine ⟨kvs_update es rank e ▸ hkvs, fun rank' => ?_⟩
  by_cases hrank : rank' = rank
  · subst hrank
    rwa [Function.update_self]
  · rw [Function.update_of_ne hrank]
    exact h.rows rank'

theorem Inv.updateRows (h : Inv bs cap running es) (hkv : e.kv = (es rank).kv)
    (he : Rows bs (cap.getD rank 0) e) :
    Inv bs cap (running.filter fun x => x.1.reqId ∉ ([] : List ℕ)) (Function.update es rank e) := by
  refine h.update ?_ he
  rw [hkv]
  show BlockSupply.Inv _ _ _ (Function.update (StashSupply.kvs es) rank (StashSupply.kvs es rank))
  rw [Function.update_eq_self]
  exact h.kvs.mono fun x hx => List.mem_filter.2 ⟨hx, by simp⟩

theorem Inv.call {ids : List ℕ} (h : Inv bs cap running es) (hbs : 0 < bs)
    (hnodup : (running.map (·.1.reqId)).Nodup) (hcall : Call running es es' ids) :
    Inv bs cap (running.filter fun x => x.1.reqId ∉ ids) es' := by
  cases hcall with
  | @install rank item b hidle hitem hnew hok =>
    have hkv := (h.kvs rank).kv
    refine h.update (h.kvs.call hbs hnodup (.install hitem hnew hok)) ((h.rows rank).setKv
      (fun hc => ((h.rows rank).spare hc).install hkv (hkv.step hbs (.install hnew hok)) hnew rfl)
      (fun r hr => ?_) (by simp [hidle]))
    obtain ⟨p, k, hr⟩ := hr
    exact ⟨p, k, (Function.update_of_ne (by rintro rfl; rw [hnew] at hr; cases hr) _ _).trans hr⟩
  | @firstLayer rank m q lens mgr hidle hbatch hok =>
    refine h.update (h.kvs.call hbs hnodup (.firstLayer hbatch hok)) ((h.rows rank).setKv
      (fun hc => ((h.rows rank).spare hc).firstLayer (h.kvs rank).kv hbs (h.kvs rank).reserved
        hbatch.layer hbatch.first hbatch.numDecodeTokens hok)
      (fun r hr => hr.countPass m) fun r hr => ?_)
    obtain ⟨p, k, hcount, -⟩ := hbatch.first.exists_countPass hr
    exact ⟨p, k, hcount⟩
  | @laterLayer rank m lens mgr hidle hlayer hreqIds hpassed hok =>
    obtain ⟨-, hmgr⟩ := CPUBlockManager.updateBlockTable_later hlayer hok
    exact h.update (h.kvs.call hbs hnodup (.laterLayer hlayer hreqIds hpassed hok))
      ((h.rows rank).setKv (hmgr ▸ (h.rows rank).spare) (fun r hr => hr) hpassed)
  | @sampleResults rank reqIds hidle hpassed =>
    exact h.updateRows rfl
      ((h.rows rank).setKv (h.rows rank).spare (fun r hr => hr) hpassed)
  | @stashSlotOf rank r slot rest pool hdue hok =>
    exact h.updateRows rfl ((h.rows rank).stashSlotOf hdue hok)
  | @releaseSeqs rank _ mgr hidle hids hlive hok =>
    have hkv := (h.kvs rank).kv
    obtain ⟨hpart, hlookup⟩ := (h.rows rank).partitioned.releaseSeqs ids
    refine h.update (h.kvs.call hbs hnodup (.release hids hlive hok))
      ⟨fun hc => ((h.rows rank).spare hc).release hkv (hkv.step hbs (.release hids hlive hok)) hbs
        hlive rfl, hpart, fun r slot hslot => ?_, fun r hr => by cases hr⟩
    rw [hlookup] at hslot
    split at hslot
    · cases hslot
    · next hr =>
      obtain ⟨p, k, hreq⟩ := (h.rows rank).owned r slot hslot
      exact ⟨p, k, (if_neg hr).trans hreq⟩

theorem inv_init (W : Type) (bs : ℕ) (cap : List ℕ) (firstLayer : ℕ) :
    Inv bs cap [] fun rank => Engine.init W bs (cap.getD rank 0) firstLayer where
  kvs := BlockSupply.inv_init W bs cap firstLayer
  rows rank :=
    { spare := fun hc => .inl (hc.trans_eq List.length_range.symm)
      partitioned := StashPool.partitioned_create _
      owned := fun r slot h => by cases h
      due := fun r h => by cases h }

theorem Inv.of_reaches {policy : Policy} {firstLayer : ℕ} (hbs : 0 < bs)
    {s : Serving.State (ℕ → Engine W)} (hrun : Reaches W policy bs cap firstLayer s) :
    Serving.Inv policy bs cap s ∧ Inv bs cap s.running s.engines :=
  Serving.invariant (inv_init W bs cap firstLayer)
    (fun _ _ _ hsub h => ⟨h.kvs.mono hsub, h.rows⟩)
    (fun _ _ _ _ hnodup h hcall => h.call hbs hnodup hcall) hrun

/-! ### Enough rows -/

theorem one_le_required (hbs : 0 < bs) {item : RequestItem} (h : 1 ≤ item.outputLen) :
    1 ≤ item.required bs := by
  have hdiv : 1 ≤ (item.outputLen + bs - 1) / bs := (Nat.one_le_div_iff hbs).2 (by omega)
  exact hdiv.trans (Nat.le_add_left _ _)

/-- A request with a prompt reserves a block for it and one for its output. -/
theorem one_lt_required (hbs : 0 < bs) {item : RequestItem} (hp : 0 < item.prefillLen)
    (h : 1 ≤ item.outputLen) : 1 < item.required bs := by
  have hprefill : 1 ≤ (item.prefillLen + bs - 1) / bs := (Nat.one_le_div_iff hbs).2 (by omega)
  have houtput : 1 ≤ (item.outputLen + bs - 1) / bs := (Nat.one_le_div_iff hbs).2 (by omega)
  exact Nat.add_le_add hprefill houtput

variable {policy : Policy} {firstLayer : ℕ} {s : Serving.State (ℕ → Engine W)}

/-- A rank that runs a request with a prompt runs fewer requests than it has blocks. -/
theorem length_running_lt (hs : Serving.Inv policy bs cap s) (hbs : 0 < bs)
    (hpolicy : policy.CapacityAware cap.length) (hc : cap[rank]? = some c) {item : RequestItem}
    (hitem : (item, (rank : ℤ)) ∈ s.running) (hprompt : 0 < item.prefillLen) :
    (s.running.filter fun x => x.2 = (rank : ℤ)).length < c := by
  have houtput : ∀ x ∈ s.running, 1 ≤ x.1.outputLen := fun x hx =>
    hs.outputLen x.1 (List.mem_append_left _
      (List.mem_map_of_mem (Serving.State.mem_running.1 hx).1))
  refine lt_of_lt_of_le ?_ (hs.load_running_le hpolicy hc)
  have hlt := List.sum_lt_sum (l := s.running.filter fun x => x.2 = (rank : ℤ)) (fun _ => 1)
    (fun x => x.1.required bs)
    (fun x hx => one_le_required hbs (houtput x (List.mem_of_mem_filter hx)))
    ⟨_, List.mem_filter.2 ⟨hitem, by simp⟩, one_lt_required hbs hprompt (houtput _ hitem)⟩
  rw [SchedulerRun.load]
  simpa using hlt

/-- **Fewer requests have been in a batch than the rank has blocks.** Each of them holds a block,
and a block is free unless a prompt has taken it. -/
theorem Inv.length_lt (h : Inv bs cap s.running s.engines) (hs : Serving.Inv policy bs cap s)
    (hbs : 0 < bs) (hpolicy : policy.CapacityAware cap.length) (hc : cap[rank]? = some c)
    {ids : List ℕ} (hnodup : ids.Nodup)
    (hpassed : ∀ r ∈ ids, Passed (s.engines rank).kv.reqs r) (hne : ids ≠ []) : ids.length < c := by
  have hcap : cap.getD rank 0 = c := by rw [List.getD_eq_getElem?_getD, hc, Option.getD_some]
  have hkv := hcap ▸ h.kvs rank
  have hle := hkv.kv.free_add_length_le hbs hnodup hpassed
  have hpos := List.length_pos_iff.2 hne
  rcases (h.rows rank).spare (by omega) with hfree | ⟨r, p, k, hr, hp⟩
  · exact (Nat.lt_add_of_pos_left hfree).trans_le hle
  · obtain ⟨item, hitem, -, rfl, -⟩ := hkv.within r p k hr
    refine lt_of_le_of_lt ?_ (length_running_lt hs hbs hpolicy hc hitem hp)
    have hsub : ids ⊆ (s.running.filter fun x => x.2 = (rank : ℤ)).map (·.1.reqId) := by
      intro r' hr'
      obtain ⟨p', k', hreq⟩ := hpassed r' hr'
      obtain ⟨item', hitem', rfl, -⟩ := hkv.within r' p' _ hreq
      exact List.mem_map.2 ⟨_, List.mem_filter.2 ⟨hitem', by simp⟩, rfl⟩
    simpa using (List.subperm_of_subset hnodup hsub).length_le

theorem length_assigned (p : StashPool) : p.assigned.length = p.stashSlotMap.keys.length := by
  simp [StashPool.assigned, AList.keys, List.keys]

theorem supplied_of_le (hbs : 0 < bs) (hpolicy : policy.CapacityAware cap.length)
    (hc : cap[rank]? = some c) (hrows : c ≤ maxRunningReqs c bs + 1)
    (hrun : Reaches W policy bs cap firstLayer s) : Supplied rank s := by
  intro r rest hdue
  obtain ⟨hs, h⟩ := Inv.of_reaches hbs hrun
  have hrow := h.rows rank
  rw [List.getD_eq_getElem?_getD, hc, Option.getD_some] at hrow
  refine StashPool.exists_stashSlotOf fun hnone hfree => ?_
  -- the requests with a row and the one that asks for its first
  have hlt := h.length_lt hs hbs hpolicy hc
    (List.nodup_cons.2 ⟨AList.lookup_eq_none.1 hnone, AList.keys_nodup _⟩) (by
      intro r' hr'
      rcases List.mem_cons.1 hr' with rfl | hr'
      · exact hrow.due r' (hdue ▸ List.mem_cons_self)
      · obtain ⟨slot, hslot⟩ := Option.isSome_iff_exists.1 (AList.lookup_isSome.2 hr')
        exact hrow.owned r' slot hslot) (List.cons_ne_nil _ _)
  have hlength := hrow.partitioned.length_eq
  rw [hfree, List.nil_append, length_assigned, List.length_range] at hlength
  rw [List.length_cons] at hlt
  omega

/-! ### Too few rows -/

/-- A batch of new requests without a prompt, for layer `l`. -/
def newBatch (W : Type) (l : ℕ) (reqIds : List ℕ) : BatchMetadata W where
  batchTag := .attention
  numTokens := reqIds.length
  tokenHiddenDim := 1
  layerId := l
  reqIds := reqIds
  expIds := []
  topkWeights := []
  attnDpRanks := []
  initPrefillLens := List.replicate reqIds.length 0
  numPrefillSeqs := some reqIds.length
  numPrefillTokens := some reqIds.length
  numDecodeTokens := some 0

section NewBatch

variable {kv : KvRun.State W} {reqIds : List ℕ}

theorem countPass_newBatch (hnodup : reqIds.Nodup) (hreqs : ∀ r, kv.reqs r = none) (l r : ℕ) :
    KvRun.countPass kv.reqs (newBatch W l reqIds) r = if r ∈ reqIds then some (0, 1) else none := by
  by_cases hr : r ∈ reqIds
  · obtain ⟨i, hi⟩ := List.mem_iff_getElem?.1 hr
    have hlt := (List.getElem?_eq_some_iff.1 hi).1
    rw [if_pos hr]
    exact KvRun.countPass_of_none (i := i) (p := 0) hnodup hi
      (by simp [newBatch, hlt]) (hreqs r)
  · rw [if_neg hr, ← hreqs r]
    exact KvRun.countPass_of_notMem hr

theorem batch_newBatch (hnodup : reqIds.Nodup) (hreqs : ∀ r, kv.reqs r = none)
    (hrunning : ∀ r ∈ reqIds, ∃ item, (item, (rank : ℤ)) ∈ running ∧ item.reqId = r ∧
      item.prefillLen = 0 ∧ 1 ≤ item.outputLen) :
    BlockSupply.Batch running rank kv (newBatch W kv.mgr.firstLayer reqIds) reqIds.length where
  layer := rfl
  first :=
    { nodup := hnodup
      reqIds := rfl
      numPrefillSeqs := rfl
      numPrefillTokens := rfl
      le := le_rfl
      new := fun i r hi _ => ⟨0, by simp [newBatch, hi], .inl (hreqs r)⟩
      old := fun i r hi hr => absurd (List.getElem?_eq_some_iff.1 hr).1 (not_lt.2 hi) }
  numDecodeTokens := rfl
  within r p k hr := by
    rw [countPass_newBatch hnodup hreqs] at hr
    split at hr
    · next hmem =>
      obtain ⟨rfl, rfl⟩ : 0 = p ∧ 1 = k := by simpa using hr
      exact hrunning r hmem
    · cases hr

/-- New requests without a prompt get a block each as long as one more is free. -/
theorem exists_updateBlockTable_newBatch {numBlocks : ℕ} (hs : KvRun.Inv bs numBlocks kv)
    (hbs : 0 < bs) (hreserved : kv.mgr.blockMgr.reservedBlocks = 0) (hnodup : reqIds.Nodup)
    (hreqs : ∀ r, kv.reqs r = none)
    (hbatch : BlockSupply.Batch running rank kv (newBatch W kv.mgr.firstLayer reqIds)
      reqIds.length) (hfree : reqIds.length < kv.mgr.blockMgr.numFreeBlocks) :
    ∃ lens mgr, (CPUBlockManager.updateBlockTable (newBatch W kv.mgr.firstLayer reqIds)).Returns
      kv.mgr lens mgr := by
  have hdemand : kv.demand (newBatch W kv.mgr.firstLayer reqIds) ≤ reqIds.length := by
    have hle := List.sum_le_card_nsmul (reqIds.map fun r => KvRun.need kv.mgr.blockMgr.blockSize
      (KvRun.countPass kv.reqs (newBatch W kv.mgr.firstLayer reqIds)) r - kv.held r) 1 (by
        intro n hn
        obtain ⟨r, hr, rfl⟩ := List.mem_map.1 hn
        rw [KvRun.need, countPass_newBatch hnodup hreqs, if_pos hr, hs.blockSize]
        refine (Nat.sub_le _ _).trans ((ceilDiv_le_iff_le_smul hbs).2 ?_)
        simpa using Nat.succ_le_of_lt hbs)
    exact hle.trans_eq (by simp)
  exact (hs.exists_updateBlockTable_iff hbs hreserved rfl hbatch.first rfl
    (hdemand.trans hfree.le)).2 (.inr (hdemand.trans_lt hfree))

end NewBatch

theorem exists_rows {l rest : List ℕ} (hdue : (s.engines rank).due = l ++ rest) (hnodup : l.Nodup)
    (hnew : ∀ r ∈ l, (s.engines rank).pool.stashSlotMap.lookup r = none)
    (hfree : l.length ≤ (s.engines rank).pool.stashFreeSlots.length) :
    ∃ s', ReflTransGen (Serving.Step Call) s s' ∧ (s'.engines rank).due = rest ∧
      (s'.engines rank).pool.stashFreeSlots =
        (s.engines rank).pool.stashFreeSlots.drop l.length ∧
      ∀ r ∉ l, (s'.engines rank).pool.stashSlotMap.lookup r =
        (s.engines rank).pool.stashSlotMap.lookup r := by
  induction l generalizing s with
  | nil => exact ⟨s, .refl, hdue, rfl, fun _ _ => rfl⟩
  | cons r l ih =>
    obtain ⟨hr, hnodup⟩ := List.nodup_cons.1 hnodup
    obtain ⟨slot, free, hslot⟩ := List.exists_cons_of_length_pos
      (Nat.lt_of_lt_of_le (Nat.succ_pos _) hfree)
    rw [hslot, List.length_cons, List.length_cons, Nat.add_le_add_iff_right] at hfree
    have hone : (s.engines rank).pool.stashSlotOf r =
        .ok (slot, ⟨free, (s.engines rank).pool.stashSlotMap.insert r slot⟩) := by
      simp [StashPool.stashSlotOf, hnew r List.mem_cons_self, hslot]
    obtain ⟨s₁, hstep, hs₁⟩ : ∃ s₁, Serving.Step Call s s₁ ∧ s₁.engines rank =
        { s.engines rank with
          pool := ⟨free, (s.engines rank).pool.stashSlotMap.insert r slot⟩
          due := l ++ rest } :=
      ⟨_, .call (.stashSlotOf hdue hone) (by simp), Function.update_self ..⟩
    have hkeep : ∀ r' ≠ r, (s₁.engines rank).pool.stashSlotMap.lookup r' =
        (s.engines rank).pool.stashSlotMap.lookup r' := by
      intro r' hne
      rw [hs₁]
      exact AList.lookup_insert_ne hne
    obtain ⟨s', hrun, hdue', hfree', hothers⟩ := ih (by rw [hs₁]) hnodup
      (fun r' hr' => (hkeep r' fun h => hr (h ▸ hr')).trans (hnew r' (List.mem_cons_of_mem _ hr')))
      (by rwa [hs₁])
    refine ⟨s', .head hstep hrun, hdue', ?_, fun r' hr' => ?_⟩
    · rw [hfree', hs₁, hslot]
      rfl
    · obtain ⟨hne, hmem⟩ := not_or.1 (mt List.mem_cons.2 hr')
      rw [hothers r' hmem, hkeep r' hne]

/-- New requests without a prompt get their blocks from a new engine that has one more. -/
theorem exists_firstBatch {reqIds : List ℕ} (hbs : 0 < bs)
    (hinit : s.engines rank = .init W bs c firstLayer) (hnodup : reqIds.Nodup)
    (hunit : ∀ r ∈ reqIds, ∃ item, (item, (rank : ℤ)) ∈ s.running ∧ item.reqId = r ∧
      item.prefillLen = 0 ∧ 1 ≤ item.outputLen) (hlt : reqIds.length < c) :
    ∃ s', Serving.Step Call s s' ∧ (s'.engines rank).due = reqIds ∧
      (s'.engines rank).pool = .create (maxRunningReqs c bs) := by
  have hreqs : ∀ r, (s.engines rank).kv.reqs r = none := fun r => by rw [hinit]; rfl
  have hfree : (s.engines rank).kv.mgr.blockMgr.numFreeBlocks = c := by
    rw [hinit]
    exact List.length_range
  have hbatch := @batch_newBatch W rank s.running _ _ hnodup hreqs hunit
  have hkv : KvRun.Inv bs c (s.engines rank).kv := by
    rw [hinit]
    exact KvRun.inv_init bs c firstLayer
  obtain ⟨lens, mgr, hok⟩ := exists_updateBlockTable_newBatch hkv hbs (by rw [hinit]; rfl) hnodup
    hreqs hbatch (hlt.trans_eq hfree.symm)
  refine ⟨_, .call (.firstLayer (by rw [hinit]; rfl) hbatch hok) (by simp), ?_⟩
  dsimp only
  rw [Function.update_self, hinit]
  exact ⟨rfl, rfl⟩

/-- When only requests of one block are admitted, none has a prompt. -/
theorem exists_unit_of_idle (hs : Serving.Inv policy bs cap s) (hbs : 0 < bs)
    (hidle : Serving.Idle bs s) {r : ℕ}
    (hr : r ∈ (s.running.filter fun x => x.2 = (rank : ℤ)).map (·.1.reqId)) :
    ∃ item, (item, (rank : ℤ)) ∈ s.running ∧ item.reqId = r ∧ item.prefillLen = 0 ∧
      1 ≤ item.outputLen := by
  obtain ⟨⟨item, rank'⟩, hx, rfl⟩ := List.mem_map.1 hr
  obtain ⟨hx, hrank⟩ := List.mem_filter.1 hx
  obtain rfl : rank' = (rank : ℤ) := by simpa using hrank
  have hlive := (Serving.State.mem_running.1 hx).1
  have houtput := hs.outputLen item (List.mem_append_left _ (List.mem_map_of_mem hlive))
  refine ⟨item, hx, rfl, Nat.eq_zero_of_not_pos fun hp => ?_, houtput⟩
  exact (one_lt_required hbs hp houtput).ne' (hidle.required _ hlive)

/-- **Starving.** With two rows less than blocks, requests of one block fill the rank. A batch of
one more than there are rows gets its blocks, and its last request finds no free row. -/
theorem exists_starved (hbs : 0 < bs) (hpolicy : policy.CapacityAware cap.length)
    (hc : cap[rank]? = some c) (hrows : maxRunningReqs c bs + 1 < c) :
    ∃ s, Reaches W policy bs cap firstLayer s ∧ ¬ Supplied rank s := by
  obtain ⟨s, hrun, hidle, hengines, hzero⟩ := @Serving.exists_exhausted _ _ _ _ Call hbs hpolicy
    fun rank => Engine.init W bs (cap.getD rank 0) firstLayer
  have hs := Serving.Inv.of_steps hrun
  have hinit : s.engines rank = .init W bs c firstLayer := by
    rw [hengines]
    simp [hc]
  generalize hn : maxRunningReqs c bs = n at hrows
  -- the requests of the rank, up to the first for which there is no row
  obtain ⟨all, hall⟩ :
      ∃ l, l = (s.running.filter fun x => x.2 = (rank : ℤ)).map (·.1.reqId) := ⟨_, rfl⟩
  have hcount : all.length = c := by rw [hall, List.length_map, hs.length_running hidle hzero hc]
  have hnodup : all.Nodup := by
    rw [hall]
    exact hs.nodup_running.sublist (List.filter_sublist.map _)
  obtain ⟨r, hr⟩ : ∃ r, all[n]? = some r := ⟨_, List.getElem?_eq_getElem (by omega)⟩
  have htake : all.take (n + 1) = all.take n ++ [r] := by
    rw [List.take_add_one, hr]
    rfl
  obtain ⟨s₁, hstep, hdue, hpool⟩ := exists_firstBatch hbs hinit
    (hnodup.sublist (List.take_sublist (n + 1) all))
    (fun r hr => exists_unit_of_idle hs hbs hidle (hall ▸ List.mem_of_mem_take hr))
    ((List.length_take_le _ _).trans_lt hrows)
  rw [hn] at hpool
  -- the requests before it take all rows
  obtain ⟨s₂, hrun₂, hdue₂, hfree, hothers⟩ := exists_rows (hdue.trans htake)
    (hnodup.sublist (List.take_sublist n all)) (fun _ _ => by rw [hpool]; rfl)
    (by rw [hpool]; simp [StashPool.create])
  refine ⟨s₂, (hrun.tail hstep).trans hrun₂, fun hsupplied => ?_⟩
  obtain ⟨slot, pool, hslot⟩ := hsupplied r [] hdue₂
  have hempty : (s₂.engines rank).pool.stashFreeSlots = [] := by
    rw [hfree, hpool, List.length_take_of_le (by omega)]
    simp [StashPool.create]
  have hlookup : (s₂.engines rank).pool.stashSlotMap.lookup r = none := by
    rw [hothers r (Attempt.notMem_take_of_nodup hnodup hr le_rfl), hpool]
    rfl
  simp [StashPool.stashSlotOf, hlookup, hempty] at hslot

/-- Three blocks of 16 or of 50 tokens. Two requests that make one token each are admitted and get
their blocks in one batch; the first of them has its row, and the second one asks for it. -/
theorem exists_second_asks (hbs : bs = 16 ∨ bs = 50) :
    ∃ s, Reaches ℕ .max bs [3] 0 s ∧ s.running.map (·.1.reqId) = [4, 9] ∧
      (s.engines 0).due = [9] ∧ (s.engines 0).pool.stashSlotMap.lookup 9 = none ∧
      (s.engines 0).pool.stashFreeSlots = (List.range (maxRunningReqs 3 bs)).tail := by
  have hrun : Reaches ℕ .max bs [3] 0 _ := .refl
  have hbatch := @batch_newBatch ℕ 0 [(⟨4, 1, 0, 1⟩, 0), (⟨9, 1, 0, 1⟩, 0)]
    (KvRun.State.init ℕ bs 3 0) [4, 9] (by decide) (fun _ => rfl) (by
      intro r hr
      rcases List.mem_pair.1 hr with rfl | rfl
      · exact ⟨⟨4, 1, 0, 1⟩, by simp, rfl, rfl, le_refl 1⟩
      · exact ⟨⟨9, 1, 0, 1⟩, by simp, rfl, rfl, le_refl 1⟩)
  rcases hbs with rfl | rfl
  all_goals
    replace hrun := hrun.tail (@Serving.Step.put _ _ _ ⟨4, 1, 0, 1⟩ (by decide) (by decide))
    replace hrun := hrun.tail (@Serving.Step.put _ _ _ ⟨9, 1, 0, 1⟩ (by decide) (by decide))
    replace hrun := hrun.tail (.schedule (.begin rfl) rfl List.prefix_rfl)
    replace hrun := hrun.tail (.schedule (.get rfl rfl) rfl List.prefix_rfl)
    replace hrun := hrun.tail (.schedule (.check rfl rfl) rfl List.prefix_rfl)
    replace hrun := hrun.tail (.schedule (.resume rfl) rfl List.nil_prefix)
    replace hrun := hrun.tail (.schedule (.begin rfl) rfl List.prefix_rfl)
    replace hrun := hrun.tail (.schedule (.get rfl rfl) rfl List.prefix_rfl)
    replace hrun := hrun.tail (.schedule (.check rfl rfl) rfl List.prefix_rfl)
    replace hrun := hrun.tail (.schedule (.resume rfl) rfl (List.prefix_append _ [_]))
    obtain ⟨lens, mgr, hok⟩ := exists_updateBlockTable_newBatch (KvRun.inv_init _ 3 0) (by decide)
      rfl (by decide) (fun _ => rfl) hbatch (by decide)
    replace hrun := hrun.tail (.call (@Call.firstLayer _ _ _ 0 _ _ _ _ rfl hbatch hok) (by simp))
    replace hrun := hrun.tail (.call (@Call.stashSlotOf _ _ _ 0 4 0 [9] _ rfl rfl) (by simp))
    exact ⟨_, hrun, rfl, rfl, rfl, rfl⟩

/-- **Every call of `_stash_slot_of` returns a row exactly when at most one block is without a
row.** A run can reach a call that raises in any other case. -/
theorem supplied_iff (hbs : 1 ≤ bs) (hpolicy : policy.CapacityAware cap.length)
    (hc : cap[rank]? = some c) :
    (∀ s, Reaches W policy bs cap firstLayer s → Supplied rank s) ↔
      c ≤ maxRunningReqs c bs + 1 := by
  constructor
  · intro h
    by_contra hrows
    obtain ⟨s, hrun, hstarved⟩ : ∃ s, Reaches W policy bs cap firstLayer s ∧ ¬ Supplied rank s :=
      exists_starved hbs hpolicy hc (not_le.1 hrows)
    exact hstarved (h s hrun)
  · intro hrows s hrun
    exact supplied_of_le hbs hpolicy hc hrows hrun

/-- Three blocks of 50 tokens have two rows, and the second request gets the other one. -/
theorem supplied_large_blocks :
    ∃ s, Reaches ℕ .max 50 [3] 0 s ∧ s.running.map (·.1.reqId) = [4, 9] ∧
      (s.engines 0).due = [9] ∧
      ∃ slot pool, (s.engines 0).pool.stashSlotOf 9 = .ok (slot, pool) := by
  obtain ⟨s, hrun, hrunning, hdue, -⟩ := exists_second_asks (.inr rfl)
  exact ⟨s, hrun, hrunning, hdue,
    (supplied_iff (by decide) .max rfl).2 (by decide) s hrun 9 [] hdue⟩

/-- Three blocks of 16 tokens have one row, and the second request gets none. -/
theorem starved_three_blocks :
    ∃ s, Reaches ℕ .max 16 [3] 0 s ∧ s.running.map (·.1.reqId) = [4, 9] ∧
      (s.engines 0).due = [9] ∧
      (s.engines 0).pool.stashSlotOf 9 = .error "IndexError: pop from an empty deque" ∧
      ¬ Supplied 0 s := by
  obtain ⟨s, hrun, hrunning, hdue, hlookup, hfree⟩ := exists_second_asks (.inl rfl)
  have hfails : (s.engines 0).pool.stashSlotOf 9 =
      .error "IndexError: pop from an empty deque" := by
    rw [show (List.range (maxRunningReqs 3 16)).tail = [] from rfl] at hfree
    simp [StashPool.stashSlotOf, hlookup, hfree]
  refine ⟨s, hrun, hrunning, hdue, hfails, fun hsupplied => ?_⟩
  obtain ⟨slot, pool, hslot⟩ := hsupplied 9 [] hdue
  exact absurd (hfails.symm.trans hslot) (by simp)

end StashSupply

end StreamEP

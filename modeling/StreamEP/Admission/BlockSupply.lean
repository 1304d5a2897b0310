import StreamEP.Admission.Serving
import StreamEP.Kv.Demand
import Mathlib.Algebra.Order.BigOperators.Group.Finset

/-!
# The blocks of admitted requests

Admission reserves the blocks of a request all at once, and the block managers hand them out one by
one as the request grows. The blocks that the running requests of a rank have or are about to get
never exceed what they reserve, so there are always enough free blocks for a batch: nothing is
overcommitted. Still a batch can fail. `append_tokens` asserts that more blocks are free than it
takes, and admission lets requests use up a rank to the last block. So a batch succeeds exactly
when none of its requests starts a block or a block stays free after it.

## Main results

* `BlockSupply.Inv.fits` — what the running requests are about to get is free
* `BlockSupply.succeeds_iff_hasSpare` — which calls succeed
* `BlockSupply.fails_last_block` — a run in which a batch fails
-/

namespace StreamEP

open Relation Attempt

variable {W : Type}

/-! ### Blocks in use -/

namespace KvRun

variable {bs numBlocks : ℕ} {s s' : State W}

theorem Inv.sum_held (hs : Inv bs numBlocks s) :
    s.mgr.blockMgr.freeBlocks.length + ∑ r ∈ s.mgr.blockMgr.blockTables.keys.toFinset, s.held r =
      numBlocks := by
  have hcard := congrArg Multiset.cardHom hs.pool
  rw [BlockManager.pool, map_add, map_tableSum, tableSum_eq_sum_keys (g := s.held) (by
    intro r l hl
    simp [State.held, hl])] at hcard
  simpa using hcard

/-- Free blocks and those for the tokens of the requests are all blocks. -/
theorem Inv.free_add_need (hs : Inv bs numBlocks s) {U : Finset ℕ}
    (hU : s.mgr.blockMgr.blockTables.keys.toFinset ⊆ U) :
    s.mgr.blockMgr.freeBlocks.length + ∑ r ∈ U, need bs s.reqs r = numBlocks := by
  rw [← hs.sum_held, ← Finset.sum_congr rfl fun r _ => hs.held_eq r]
  congr 1
  refine (Finset.sum_subset hU fun r _ hr => ?_).symm
  have hnone : s.mgr.blockMgr.blockTables.lookup r = none :=
    AList.lookup_eq_none.2 fun hmem => hr (List.mem_toFinset.2 hmem)
  simp [State.held, hnone]

theorem sum_need_eq {reqs reqs' : ℕ → Option (ℕ × ℕ)} {B U : Finset ℕ} (hsub : B ⊆ U)
    (hsame : ∀ r ∉ B, reqs' r = reqs r) (hmore : ∀ r, need bs reqs r ≤ need bs reqs' r) :
    ∑ r ∈ U, need bs reqs' r =
      ∑ r ∈ U, need bs reqs r + ∑ r ∈ B, (need bs reqs' r - need bs reqs r) := by
  have hgrow : ∑ r ∈ B, (need bs reqs' r - need bs reqs r) =
      ∑ r ∈ U, (need bs reqs' r - need bs reqs r) := by
    refine Finset.sum_subset hsub fun r _ hr => ?_
    rw [need, need, hsame r hr, Nat.sub_self]
  rw [hgrow, ← Finset.sum_add_distrib]
  exact Finset.sum_congr rfl fun r _ => (Nat.add_sub_cancel' (hmore r)).symm

theorem Step.reservedBlocks (hbs : 0 < bs) (hs : Inv bs numBlocks s) (h : Step s s') :
    s'.mgr.blockMgr.reservedBlocks = s.mgr.blockMgr.reservedBlocks := by
  cases h with
  | install hnew h =>
    obtain ⟨-, -, rfl⟩ := BlockManager.returns_allocate.1 h
    rfl
  | firstLayer hlayer hbatch h =>
    obtain ⟨ctx, -, -, -, hupdate, -⟩ :=
      CPUBlockManager.updateBlockTable_first hlayer hbatch.nodup hbatch.numPrefillSeqs h
    exact (BlockManager.updateBlockTable_spec (by rwa [hs.blockSize]) hupdate
      hbatch.numPrefillTokens (hbatch.reqIds ▸ hbatch.le) hbatch.reqIds
      hbatch.nodup).1.reservedBlocks
  | laterLayer hlayer hreqIds hpassed h =>
    obtain ⟨-, rfl⟩ := CPUBlockManager.updateBlockTable_later hlayer h
    rfl
  | release hnodup hlive h =>
    obtain ⟨-, hrelease, -⟩ := CPUBlockManager.releaseSeqs_spec h
    exact (BlockManager.batchRelease_spec hrelease).1.reservedBlocks

theorem need_le_need_countPass (hbs : 0 < bs) (reqs : ℕ → Option (ℕ × ℕ)) (m : BatchMetadata W)
    (r : ℕ) : need bs reqs r ≤ need bs (countPass reqs m) r := by
  by_cases hr : r ∈ m.reqIds
  · cases hreq : reqs r with
    | none => simp [need, hreq]
    | some pk =>
      rw [need, need, hreq, countPass_of_some hr hreq]
      show (pk.1 + pk.2) ⌈/⌉ bs ≤ (pk.1 + pk.2 + 1) ⌈/⌉ bs
      rw [ceilDiv_succ hbs]
      exact Nat.le_add_right _ _
  · rw [need, need, countPass_of_notMem hr]

end KvRun

namespace BlockSupply

/-- Every request with blocks is running on this rank, started with its prompt and has made at most
`output_len` passes. -/
def Within (running : List (RequestItem × ℤ)) (rank : ℕ) (reqs : ℕ → Option (ℕ × ℕ)) : Prop :=
  ∀ r p k, reqs r = some (p, k) → ∃ item, (item, (rank : ℤ)) ∈ running ∧ item.reqId = r ∧
    item.prefillLen = p ∧ k ≤ item.outputLen

/-- A batch at the first layer of an engine, of running requests that may make another pass. -/
structure Batch (running : List (RequestItem × ℤ)) (rank : ℕ) (e : KvRun.State W)
    (m : BatchMetadata W) (q : ℕ) : Prop where
  layer : m.layerId = e.mgr.firstLayer
  first : KvRun.FirstBatch e.reqs m q
  numDecodeTokens : m.numDecodeTokens.isSome
  within : Within running rank (KvRun.countPass e.reqs m)

/-- What the engines do to their block managers. -/
inductive Call (running : List (RequestItem × ℤ)) :
    (ℕ → KvRun.State W) → (ℕ → KvRun.State W) → List ℕ → Prop
  /-- A cache load allocates the blocks of a request. -/
  | install {es : ℕ → KvRun.State W} {rank : ℕ} {item : RequestItem} {b : BlockManager}
      (hitem : (item, (rank : ℤ)) ∈ running) (hnew : (es rank).reqs item.reqId = none)
      (h : (BlockManager.allocate item.reqId item.prefillLen).Returns (es rank).mgr.blockMgr () b) :
      Call running es
        (Function.update es rank
          { mgr := { (es rank).mgr with blockMgr := b }
            reqs := Function.update (es rank).reqs item.reqId (some (item.prefillLen, 0))
            current := none }) []
  /-- A batch at the first layer. -/
  | firstLayer {es : ℕ → KvRun.State W} {rank : ℕ} {m : BatchMetadata W} {q : ℕ} {lens : List ℤ}
      {mgr : CPUBlockManager} (hbatch : Batch running rank (es rank) m q)
      (h : (CPUBlockManager.updateBlockTable m).Returns (es rank).mgr lens mgr) :
      Call running es
        (Function.update es rank
          { mgr := mgr
            reqs := KvRun.countPass (es rank).reqs m
            current := some (m, lens) }) []
  /-- A batch at another layer. -/
  | laterLayer {es : ℕ → KvRun.State W} {rank : ℕ} {m : BatchMetadata W} {lens : List ℤ}
      {mgr : CPUBlockManager} (hlayer : m.layerId ≠ (es rank).mgr.firstLayer)
      (hreqIds : m.reqIds.length = m.numTokens)
      (hpassed : ∀ r ∈ m.reqIds, ∃ p k, (es rank).reqs r = some (p, k + 1))
      (h : (CPUBlockManager.updateBlockTable m).Returns (es rank).mgr lens mgr) :
      Call running es
        (Function.update es rank { es rank with mgr := mgr, current := some (m, lens) }) []
  | release {es : ℕ → KvRun.State W} {rank : ℕ} {ids : List ℕ} {mgr : CPUBlockManager}
      (hnodup : ids.Nodup) (hlive : ∀ r ∈ ids, ∃ p k, (es rank).reqs r = some (p, k + 1))
      (h : (CPUBlockManager.releaseSeqs ids).Returns (es rank).mgr () mgr) :
      Call running es
        (Function.update es rank
          { mgr := mgr
            reqs := fun r => if r ∈ ids then none else (es rank).reqs r
            current := none }) ids

/-- The states of a deployment whose ranks have the blocks that the scheduler was started with. -/
def Reaches (W : Type) (policy : Policy) (bs : ℕ) (cap : List ℕ) (firstLayer : ℕ)
    (s : Serving.State (ℕ → KvRun.State W)) : Prop :=
  ReflTransGen (Serving.Step Call)
    (Serving.State.init policy bs cap fun rank =>
      KvRun.State.init W bs (cap.getD rank 0) firstLayer) s

/-! ### The invariant -/

variable {bs rank c : ℕ} {running : List (RequestItem × ℤ)}

theorem Within.mono {running' : List (RequestItem × ℤ)} {reqs : ℕ → Option (ℕ × ℕ)}
    (h : Within running rank reqs) (hsub : running ⊆ running') : Within running' rank reqs := by
  intro r p k hr
  obtain ⟨item, hitem, hid⟩ := h r p k hr
  exact ⟨item, hsub hitem, hid⟩

theorem Within.install {reqs : ℕ → Option (ℕ × ℕ)} (h : Within running rank reqs)
    {item : RequestItem} (hitem : (item, (rank : ℤ)) ∈ running) :
    Within running rank (Function.update reqs item.reqId (some (item.prefillLen, 0))) := by
  intro r p k hr
  by_cases heq : r = item.reqId
  · subst heq
    obtain ⟨rfl, rfl⟩ : item.prefillLen = p ∧ 0 = k := by simpa using hr
    exact ⟨item, hitem, rfl, rfl, Nat.zero_le _⟩
  · rw [Function.update_of_ne heq] at hr
    exact h r p k hr

structure Engine (bs c : ℕ) (running : List (RequestItem × ℤ)) (rank : ℕ) (e : KvRun.State W) :
    Prop where
  kv : KvRun.Inv bs c e
  reserved : e.mgr.blockMgr.reservedBlocks = 0
  within : Within running rank e.reqs

def Inv (bs : ℕ) (cap : List ℕ) (running : List (RequestItem × ℤ)) (es : ℕ → KvRun.State W) :
    Prop :=
  ∀ rank, Engine bs (cap.getD rank 0) running rank (es rank)

theorem inv_init (W : Type) (bs : ℕ) (cap : List ℕ) (firstLayer : ℕ) :
    Inv bs cap [] fun rank => KvRun.State.init W bs (cap.getD rank 0) firstLayer := fun rank =>
  ⟨KvRun.inv_init bs _ firstLayer, rfl, fun r p k h => by cases h⟩

theorem Inv.mono {cap : List ℕ} {running' : List (RequestItem × ℤ)} {es : ℕ → KvRun.State W}
    (h : Inv bs cap running es) (hsub : running ⊆ running') : Inv bs cap running' es := fun rank =>
  ⟨(h rank).kv, (h rank).reserved, (h rank).within.mono hsub⟩

theorem Engine.step {e e' : KvRun.State W} (h : Engine bs c running rank e) (hbs : 0 < bs)
    (hstep : KvRun.Step e e') {running' : List (RequestItem × ℤ)}
    (hwithin : Within running' rank e'.reqs) : Engine bs c running' rank e' :=
  ⟨h.kv.step hbs hstep, (KvRun.Step.reservedBlocks hbs h.kv hstep).trans h.reserved, hwithin⟩

theorem Inv.update {cap : List ℕ} {es : ℕ → KvRun.State W} {e : KvRun.State W}
    (h : Inv bs cap running es) (hbs : 0 < bs) (hstep : KvRun.Step (es rank) e)
    (hwithin : Within running rank e.reqs) :
    Inv bs cap (running.filter fun x => x.1.reqId ∉ ([] : List ℕ)) (Function.update es rank e) := by
  suffices hall : Inv bs cap running (Function.update es rank e) from
    hall.mono fun x hx => List.mem_filter.2 ⟨hx, by simp⟩
  intro rank'
  by_cases hrank : rank' = rank
  · subst hrank
    rw [Function.update_self]
    exact (h rank').step hbs hstep hwithin
  · rw [Function.update_of_ne hrank]
    exact h rank'

theorem Inv.call {cap : List ℕ} {es es' : ℕ → KvRun.State W} {ids : List ℕ}
    (h : Inv bs cap running es) (hbs : 0 < bs) (hnodup : (running.map (·.1.reqId)).Nodup)
    (hcall : Call running es es' ids) :
    Inv bs cap (running.filter fun x => x.1.reqId ∉ ids) es' := by
  cases hcall with
  | install hitem hnew hok =>
    exact h.update hbs (.install hnew hok) ((h _).within.install hitem)
  | firstLayer hbatch hok =>
    exact h.update hbs (.firstLayer hbatch.layer hbatch.first hok) hbatch.within
  | laterLayer hlayer hreqIds hpassed hok =>
    exact h.update hbs (.laterLayer hlayer hreqIds hpassed hok) (h _).within
  | @release rank _ mgr hids hlive hok =>
    -- the finished requests are running on this rank, so on no other
    have howner : ∀ r ∈ ids, ∃ item, (item, (rank : ℤ)) ∈ running ∧ item.reqId = r := by
      intro r hr
      obtain ⟨p, k, hreq⟩ := hlive r hr
      obtain ⟨item, hitem, hid, -⟩ := (h rank).within r p (k + 1) hreq
      exact ⟨item, hitem, hid⟩
    intro rank'
    by_cases hrank : rank' = rank
    · subst hrank
      rw [Function.update_self]
      refine (h rank').step hbs (.release hids hlive hok) fun r p k hr => ?_
      replace hr : (if r ∈ ids then none else (es rank').reqs r) = some (p, k) := hr
      split at hr
      · cases hr
      · next hopen =>
        obtain ⟨item, hitem, rfl, hrest⟩ := (h rank').within r p k hr
        exact ⟨item, List.mem_filter.2 ⟨hitem, by simpa using hopen⟩, rfl, hrest⟩
    · rw [Function.update_of_ne hrank]
      refine ⟨(h rank').kv, (h rank').reserved, fun r p k hr => ?_⟩
      obtain ⟨item, hitem, rfl, hrest⟩ := (h rank').within r p k hr
      refine ⟨item, List.mem_filter.2 ⟨hitem, ?_⟩, rfl, hrest⟩
      simp only [decide_eq_true_eq]
      intro hmem
      obtain ⟨item', hitem', hid⟩ := howner _ hmem
      have heq := List.inj_on_of_nodup_map hnodup hitem hitem' hid.symm
      exact hrank (by simpa using congrArg Prod.snd heq)

theorem Inv.of_reaches {policy : Policy} {cap : List ℕ} {firstLayer : ℕ} (hbs : 0 < bs)
    {s : Serving.State (ℕ → KvRun.State W)} (hrun : Reaches W policy bs cap firstLayer s) :
    Serving.Inv policy bs cap s ∧ Inv bs cap s.running s.engines :=
  Serving.invariant (inv_init W bs cap firstLayer) (fun _ _ _ hsub h => h.mono hsub)
    (fun _ _ _ _ hnodup h hcall => h.call hbs hnodup hcall) hrun

/-! ### What is reserved is free -/

/-- The blocks for the tokens of some requests are among those reserved. -/
theorem Within.sum_need_le {reqs : ℕ → Option (ℕ × ℕ)} (h : Within running rank reqs)
    (hbs : 0 < bs) (hnodup : (running.map (·.1.reqId)).Nodup) (U : Finset ℕ) :
    ∑ r ∈ U, KvRun.need bs reqs r ≤ SchedulerRun.load bs running rank := by
  obtain ⟨l, hl⟩ : ∃ l, l = running.filter fun x => x.2 = (rank : ℤ) := ⟨_, rfl⟩
  have hids : (l.map (·.1.reqId)).Nodup := by
    rw [hl]
    exact hnodup.sublist (List.filter_sublist.map _)
  calc ∑ r ∈ U, KvRun.need bs reqs r
      ≤ ∑ r ∈ (l.map (·.1.reqId)).toFinset, KvRun.need bs reqs r := by
        refine Finset.sum_le_sum_of_ne_zero fun r _ hr => ?_
        cases hreq : reqs r with
        | none => simp [KvRun.need, hreq] at hr
        | some pk =>
          obtain ⟨item, hitem, rfl, -⟩ := h r pk.1 pk.2 hreq
          rw [List.mem_toFinset, hl]
          exact List.mem_map.2 ⟨_, List.mem_filter.2 ⟨hitem, by simp⟩, rfl⟩
    _ = (l.map fun x => KvRun.need bs reqs x.1.reqId).sum := by
        rw [List.sum_toFinset _ hids, List.map_map]
        rfl
    _ ≤ SchedulerRun.load bs running rank := by
        rw [SchedulerRun.load, ← hl]
        refine List.sum_le_sum fun x hx => ?_
        rw [hl] at hx
        cases hreq : reqs x.1.reqId with
        | none => simp [KvRun.need, hreq]
        | some pk =>
          obtain ⟨item, hitem, hid, hp, hk⟩ := h _ pk.1 pk.2 hreq
          obtain rfl : x = (item, (rank : ℤ)) :=
            List.inj_on_of_nodup_map hnodup (List.mem_of_mem_filter hx) hitem hid.symm
          rw [KvRun.need, hreq, RequestItem.required, ceilDiv_le_iff_le_smul hbs, ← hp]
          exact (Nat.add_le_add_left hk _).trans (add_le_requiredBlocks hbs _ _)

/-- **What the running requests are about to get is free**, and so is what nobody has reserved.
`reqs` are the requests with blocks after a call, and `B` those whose number of blocks changes. -/
theorem Engine.fits {e : KvRun.State W} {reqs : ℕ → Option (ℕ × ℕ)} {B : Finset ℕ}
    (h : Engine bs c running rank e) (hbs : 0 < bs) (hnodup : (running.map (·.1.reqId)).Nodup)
    (hwithin : Within running rank reqs) (hsame : ∀ r ∉ B, reqs r = e.reqs r)
    (hmore : ∀ r, KvRun.need bs e.reqs r ≤ KvRun.need bs reqs r) :
    ∑ r ∈ B, (KvRun.need bs reqs r - e.held r) + c ≤
      e.mgr.blockMgr.freeBlocks.length + SchedulerRun.load bs running rank := by
  obtain ⟨U, hU⟩ : ∃ U, U = e.mgr.blockMgr.blockTables.keys.toFinset ∪ B := ⟨_, rfl⟩
  have hsum := h.kv.free_add_need (U := U) (hU ▸ Finset.subset_union_left)
  have hgrow := KvRun.sum_need_eq (U := U) (hU ▸ Finset.subset_union_right) hsame hmore
  have hle := hwithin.sum_need_le hbs hnodup U
  simp only [h.kv.held_eq]
  omega

/-! ### Which calls succeed -/

theorem Engine.exists_allocate {e : KvRun.State W} (h : Engine bs c running rank e) (hbs : 0 < bs)
    (hnodup : (running.map (·.1.reqId)).Nodup) (hload : SchedulerRun.load bs running rank ≤ c)
    {item : RequestItem} (hitem : (item, (rank : ℤ)) ∈ running)
    (hnew : e.reqs item.reqId = none) :
    ∃ b, (BlockManager.allocate item.reqId item.prefillLen).Returns e.mgr.blockMgr () b := by
  have hfits := h.fits (B := {item.reqId}) hbs hnodup (h.within.install hitem)
    (fun r hr => Function.update_of_ne (by simpa using hr) _ _) (by
      intro r
      by_cases heq : r = item.reqId
      · subst heq
        simp [KvRun.need, hnew]
      · rw [KvRun.need, KvRun.need, Function.update_of_ne heq])
  have hheld : e.held item.reqId = 0 := by rw [h.kv.held_eq, KvRun.need, hnew]
  rw [Finset.sum_singleton, hheld, KvRun.need, Function.update_self] at hfits
  refine ⟨_, BlockManager.returns_allocate.2 ⟨h.kv.absent _ hnew, ?_, rfl⟩⟩
  rw [h.reserved, h.kv.blockSize, blocksNeeded_natCast hbs]
  simp only [Nat.add_zero, Nat.sub_zero] at hfits ⊢
  omega

/-- The demand of a batch and what nobody has reserved are free. -/
theorem Engine.demand_add_le {e : KvRun.State W} (h : Engine bs c running rank e) (hbs : 0 < bs)
    (hnodup : (running.map (·.1.reqId)).Nodup) {m : BatchMetadata W} {q : ℕ}
    (hbatch : Batch running rank e m q) :
    e.demand m + c ≤ e.mgr.blockMgr.numFreeBlocks + SchedulerRun.load bs running rank := by
  rw [KvRun.State.demand, h.kv.blockSize, ← List.sum_toFinset _ hbatch.first.nodup]
  refine h.fits hbs hnodup hbatch.within (fun r hr => ?_)
    (KvRun.need_le_need_countPass hbs e.reqs m)
  exact KvRun.countPass_of_notMem (by simpa using hr)

/-- A batch of request `4` alone, which is new and starts with `p` tokens. -/
def oneNew (p : ℕ) : BatchMetadata ℕ where
  batchTag := .attention
  numTokens := 1
  tokenHiddenDim := 1
  layerId := 0
  reqIds := [4]
  expIds := []
  topkWeights := []
  attnDpRanks := []
  initPrefillLens := [(p : ℤ)]
  numPrefillSeqs := some 1
  numPrefillTokens := some 1
  numDecodeTokens := some 0

theorem batch_oneNew {item : RequestItem} {e : KvRun.State ℕ} (hitem : (item, (rank : ℤ)) ∈ running)
    (hid : item.reqId = 4) (hlen : 1 ≤ item.outputLen) (hlayer : e.mgr.firstLayer = 0)
    (hreqs : ∀ r, e.reqs r = none) : Batch running rank e (oneNew item.prefillLen) 1 where
  layer := hlayer.symm
  first :=
    { nodup := List.nodup_singleton 4
      reqIds := rfl
      numPrefillSeqs := rfl
      numPrefillTokens := rfl
      le := le_refl 1
      new := by
        intro i r hi hr
        obtain rfl : i = 0 := by omega
        exact ⟨item.prefillLen, rfl, .inl (hreqs r)⟩
      old := fun i r hi hr => absurd (List.getElem?_eq_some_iff.1 hr).1 (not_lt.2 hi) }
  numDecodeTokens := rfl
  within r p k hr := by
    by_cases hmem : r ∈ (oneNew item.prefillLen).reqIds
    · obtain rfl := List.mem_singleton.1 hmem
      rw [KvRun.countPass_of_none (i := 0) (p := item.prefillLen) (List.nodup_singleton 4) rfl rfl
        (hreqs 4)] at hr
      obtain ⟨rfl, rfl⟩ : item.prefillLen = p ∧ 1 = k := by simpa using hr
      exact ⟨item, hitem, hid, rfl, hlen⟩
    · rw [KvRun.countPass_of_notMem hmem, hreqs] at hr
      cases hr

/-- **Which calls succeed.** In every run, allocating for an admitted request succeeds, and a batch
at the first layer succeeds exactly when none of its requests starts a block or a block stays
free. -/
theorem succeeds_iff_hasSpare {policy : Policy} {cap : List ℕ} {firstLayer : ℕ} (hbs : 1 ≤ bs)
    (hpolicy : policy.CapacityAware cap.length) {s : Serving.State (ℕ → KvRun.State W)}
    (hrun : Reaches W policy bs cap firstLayer s) (hrank : rank < cap.length) :
    (∀ item, (item, (rank : ℤ)) ∈ s.running → (s.engines rank).reqs item.reqId = none →
        ∃ b, (BlockManager.allocate item.reqId item.prefillLen).Returns
          (s.engines rank).mgr.blockMgr () b) ∧
      ∀ m q, Batch s.running rank (s.engines rank) m q →
        ((∃ lens mgr, (CPUBlockManager.updateBlockTable m).Returns (s.engines rank).mgr lens mgr) ↔
          (s.engines rank).HasSpare m) := by
  obtain ⟨hs, hengines⟩ := Inv.of_reaches hbs hrun
  have hengine := hengines rank
  have hload := hs.load_running_le hpolicy (List.getElem?_eq_getElem hrank)
  rw [List.getD_eq_getElem _ _ hrank] at hengine
  refine ⟨fun item hitem hnew => hengine.exists_allocate hbs hs.nodup_running hload hitem hnew,
    fun m q hbatch => ?_⟩
  obtain ⟨d, hd⟩ := Option.isSome_iff_exists.1 hbatch.numDecodeTokens
  have hdemand := hengine.demand_add_le hbs hs.nodup_running hbatch
  exact hengine.kv.exists_updateBlockTable_iff hbs hengine.reserved hbatch.layer hbatch.first hd
    (by omega)

/-- Request `4` starts with 20 tokens, so its first token goes into a block it has. -/
theorem succeeds_inside_block :
    ∃ s, Reaches ℕ .max 16 [3] 0 s ∧ Batch s.running 0 (s.engines 0) (oneNew 20) 1 ∧
      ∃ lens mgr, (CPUBlockManager.updateBlockTable (oneNew 20)).Returns (s.engines 0).mgr lens
        mgr := by
  have hrun : Reaches ℕ .max 16 [3] 0 _ := .refl
  replace hrun := hrun.tail (@Serving.Step.put _ _ _ ⟨4, 21, 20, 1⟩ (by decide) (by decide))
  replace hrun := hrun.tail (.schedule (.begin rfl) rfl List.prefix_rfl)
  replace hrun := hrun.tail (.schedule (.get rfl rfl) rfl List.prefix_rfl)
  replace hrun := hrun.tail (.schedule (.check rfl rfl) rfl List.prefix_rfl)
  replace hrun := hrun.tail (.schedule (.resume rfl) rfl List.nil_prefix)
  have hbatch := @batch_oneNew 0 [(⟨4, 21, 20, 1⟩, 0)] ⟨4, 21, 20, 1⟩ (KvRun.State.init ℕ 16 3 0)
    (List.mem_cons_self ..) rfl (le_refl 1) rfl (fun _ => rfl)
  refine ⟨_, hrun, hbatch, ?_⟩
  refine ((succeeds_iff_hasSpare (by decide) .max hrun (by decide)).2 _ _ hbatch).2 (.inl ?_)
  exact List.forall_mem_singleton.2 (by decide)

/-- One rank with one block. A request that makes one token is admitted, and its first batch fails
although the block is free. -/
theorem fails_last_block :
    ∃ s, Reaches ℕ .max 16 [1] 0 s ∧ Batch s.running 0 (s.engines 0) (oneNew 0) 1 ∧
      (s.engines 0).mgr.blockMgr.numFreeBlocks = 1 ∧
      ((CPUBlockManager.updateBlockTable (oneNew 0)).exec (s.engines 0).mgr).1 =
        .error "num_free_blocks() > blocks_to_add" := by
  have hrun : Reaches ℕ .max 16 [1] 0 _ := .refl
  replace hrun := hrun.tail (@Serving.Step.put _ _ _ ⟨4, 1, 0, 1⟩ (by decide) (by decide))
  replace hrun := hrun.tail (.schedule (.begin rfl) rfl List.prefix_rfl)
  replace hrun := hrun.tail (.schedule (.get rfl rfl) rfl List.prefix_rfl)
  replace hrun := hrun.tail (.schedule (.check rfl rfl) rfl List.prefix_rfl)
  replace hrun := hrun.tail (.schedule (.resume rfl) rfl List.nil_prefix)
  exact ⟨_, hrun, @batch_oneNew 0 _ ⟨4, 1, 0, 1⟩ _ (List.mem_cons_self ..) rfl (le_refl 1) rfl
    (fun _ => rfl), rfl, rfl⟩

/-- **A rank that is not reserved to its last block serves every batch.** -/
theorem hasSpare_of_load_lt {policy : Policy} {cap : List ℕ} {firstLayer : ℕ} (hbs : 1 ≤ bs)
    {s : Serving.State (ℕ → KvRun.State W)} (hrun : Reaches W policy bs cap firstLayer s)
    (hload : SchedulerRun.load bs s.running rank < cap.getD rank 0) {m : BatchMetadata W} {q : ℕ}
    (hbatch : Batch s.running rank (s.engines rank) m q) : (s.engines rank).HasSpare m := by
  obtain ⟨hs, hengines⟩ := Inv.of_reaches hbs hrun
  have hdemand := (hengines rank).demand_add_le hbs hs.nodup_running hbatch
  exact .inr (by omega)

end BlockSupply

end StreamEP

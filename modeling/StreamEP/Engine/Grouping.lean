import StreamEP.Pool.PoolInvariant
import StreamEP.Dispatch.Routing
import Mathlib.Logic.Relation

/-!
# Expert batches reach the executor grouped

A grouped matrix product computes the wrong experts when the rows of its input are not in segments
of local experts, in local order. Nothing checks that. It follows from how a batch got there: the
sender sorted it by expert and cut it by channel, the receiver cut it at thresholds and merged what
it took, and the local experts ascend.

The state is the pool of one device together with the batches it has handed to the executor. Every
device may send to it at any time, the thresholds may change, and layers may be served in any
order.

## Main results

* `ExpertRun.handed_grouped` — every batch handed to the executor is grouped as announced
* `ExpertRun.handed_decreasing` — not with more experts than the counting sort has counters for
-/

namespace StreamEP

open LayerScheduler

variable {W V : Type} [TensorRow V]

/-- The pool of a device and what it has handed to the executor of its experts. -/
structure ExpertRun (W V : Type) where
  pool : UnifiedPool W V
  handed : List (TokenBatch W V)

namespace ExpertRun

def init (ty : SchedulerType) (numLayers topK : ℕ) (attn expert : ℤ) : ExpertRun W V where
  pool := (UnifiedPool.create ty numLayers 1 topK).setScheduleTokenThreshold attn expert
  handed := []

/-- What device `d` receives from attention: a piece of a batch that was sorted by expert, on a
channel that ends here. -/
structure Arrival (P : Colocation) (d : ℕ) (b : TokenBatch W V) : Prop where
  /-- The batch it was cut from, the device that cut it and the channel. -/
  sent : ∃ src < P.cfg.numDevices, ∃ (whole : TokenBatch W V) (channel : ℤ), whole.Full ∧
    whole.metadata.batchTag = .attention ∧ whole.metadata.layerId < P.cfg.numLayers ∧
    whole.metadata.expIds.Pairwise (· ≤ ·) ∧
    (∀ e ∈ whole.metadata.expIds, e < P.cfg.numExperts) ∧
    (channel, b) ∈ (P.cfg.dispatcher P.place src).sendOnce whole ∧
    P.place.peer src channel = some d

/-- What happens at device `d`. -/
inductive Step [Inhabited W] (P : Colocation) (d : ℕ) (S : StdSort) (gatherSum : List V → V) :
    ExpertRun W V → ExpertRun W V → Prop
  | arrive {r : ExpertRun W V} {b : TokenBatch W V} {pool : UnifiedPool W V}
      (harrival : Arrival P d b) (hput : r.pool.processBatch b = .ok pool) :
      Step P d S gatherSum r { r with pool := pool }
  | setThreshold {r : ExpertRun W V} {attn expert : ℤ} (hattn : 1 ≤ attn) (hexpert : 1 ≤ expert) :
      Step P d S gatherSum r { r with pool := r.pool.setScheduleTokenThreshold attn expert }
  /-- The scheduler picks a layer. -/
  | schedule {r : ExpertRun W V} :
      Step P d S gatherSum r
        { r with pool := { r.pool with layerScheduler := r.pool.layerScheduler.schedule.2 } }
  /-- An expert layer is served, and the batch handed to the executor. -/
  | serve {r : ExpertRun W V} {layerId : ℤ} {pool : UnifiedPool W V} {b : TokenBatch W V}
      (hlayer : r.pool.layerScheduler.isExpertLayer layerId = true)
      (hget : r.pool.getBatchFromLayer S gatherSum layerId = (pool, .ok (some b))) :
      Step P d S gatherSum r ⟨pool, b :: r.handed⟩

/-! ### The invariant -/

variable (P : Colocation) (d : ℕ)

/-- A row for an expert of device `d`. -/
def Hosted (r : Row W V) : Prop := ∃ e < P.cfg.numExperts, r.expId = some e ∧ P.owner e = d

/-- Expert work of layer `l` on device `d`, its experts ascending. -/
structure SortedWork (l : ℕ) (b : TokenBatch W V) : Prop extends ExpertWork (Hosted P d) l b where
  sorted : b.metadata.expIds.Pairwise (· ≤ ·)

structure Inv (r : ExpertRun W V) : Prop where
  numGroups : r.pool.numGroups ≤ 1
  /-- There is an expert layer per layer of the model. -/
  numExpertLayers : r.pool.layerScheduler.numExpertLayers = P.cfg.numLayers
  threshold : 1 ≤ r.pool.expertScheduleTokenThreshold
  sched : r.pool.layerScheduler.Ok
  /-- What waits for an expert layer is sorted work of that layer. -/
  queued : ∀ l < P.cfg.numLayers,
    ∀ b ∈ (r.pool.layerScheduler.layerAt (r.pool.layerScheduler.numAttnLayers + l)).batchQueue,
      SortedWork P d l b
  handed : ∀ b ∈ r.handed, ∃ l < P.cfg.numLayers, SortedWork P d l b

variable {P d}

theorem SortedWork.chunk {l : ℕ} {b : TokenBatch W V} (hb : SortedWork P d l b) {off n : ℕ}
    (hn : off + n ≤ b.metadata.numTokens) : SortedWork P d l (b.chunk off n) where
  toExpertWork := hb.toExpertWork.chunk hn
  sorted := by
    rw [TokenBatch.chunk_metadata, BatchMetadata.chunk_expIds]
    exact hb.sorted.sublist ((List.take_sublist _ _).trans (List.drop_sublist _ _))

/-- **What arrives is sorted work**, once the pool has tagged it. -/
theorem Arrival.sortedWork {b : TokenBatch W V} (h : Arrival P d b) :
    b.metadata.batchTag = .attention ∧ ∃ l < P.cfg.numLayers,
      SortedWork P d l { b with metadata := { b.metadata with batchTag := .expert } } := by
  obtain ⟨src, hsrc, whole, channel, hfull, htag, hl, hsorted, hexp, hsent, hpeer⟩ := h.sent
  obtain ⟨⟨off, n, hn, hchunk⟩, -, hchannel⟩ :=
    ((P.cfg.dispatcher P.place src).sendOnce_attention hfull htag).2 _ hsent
  simp only at hchunk hchannel
  have hexpIds : b.metadata.expIds = (whole.metadata.expIds.drop off).take n := by
    rw [hchunk, TokenBatch.chunk_metadata, BatchMetadata.chunk_expIds]
  have hsub : b.metadata.expIds.Sublist whole.metadata.expIds := by
    rw [hexpIds]
    exact (List.take_sublist _ _).trans (List.drop_sublist _ _)
  have hmsg : ExpertMsg (Hosted P d) whole.metadata.layerId b := by
    have hbfull : b.Full := hchunk ▸ hfull.chunk hn
    refine ⟨hbfull, by simpa [hchunk] using htag, by simp [hchunk], fun r hr => ?_⟩
    -- every expert of the piece is routed to the channel of the piece, which ends here
    have hmem : r.expId ∈ b.rows.map (·.expId) := List.mem_map_of_mem hr
    rw [hbfull.map_expId] at hmem
    obtain ⟨e, he, heq⟩ := List.mem_map.mp hmem
    have hlt := hexp e (hsub.subset he)
    exact ⟨e, hlt, heq.symm, P.owner_of_peer hsrc hlt (hchannel e he ▸ hpeer)⟩
  exact ⟨hmsg.tag, _, hl, hmsg.toWork, hsorted.sublist hsub⟩

theorem inv_init (ty : SchedulerType) (topK : ℕ) (attn : ℤ) {expert : ℤ} (he : 1 ≤ expert) :
    Inv P d (init ty P.cfg.numLayers topK attn expert : ExpertRun W V) where
  numGroups := le_rfl
  numExpertLayers := rfl
  threshold := he
  sched := ok_create ty P.cfg.numLayers topK
  queued l hl b hb := by
    have hlayer := layerAt_create (W := W) (V := V) ty P.cfg.numLayers topK
      (i := P.cfg.numLayers + 1 + l) (by omega)
    rw [if_neg (by omega)] at hlayer
    change b ∈ ((create ty (P.cfg.numLayers + 1) P.cfg.numLayers topK :
      LayerScheduler W V).layerAt (P.cfg.numLayers + 1 + l)).batchQueue at hb
    rw [hlayer] at hb
    cases hb
  handed := by simp [init]

theorem Inv.queued_modifyLayer {r : ExpertRun W V} (h : Inv P d r) {l : ℕ}
    (hl : l < P.cfg.numLayers) {f : UnifiedLayer W V → UnifiedLayer W V}
    (hf : ∀ b ∈ (f (r.pool.layerScheduler.layerAt
      (r.pool.layerScheduler.numAttnLayers + l))).batchQueue, SortedWork P d l b) :
    ∀ l' < P.cfg.numLayers, ∀ b ∈ ((r.pool.layerScheduler.modifyLayer
      (r.pool.layerScheduler.numAttnLayers + l) f).layerAt
        (r.pool.layerScheduler.numAttnLayers + l')).batchQueue, SortedWork P d l' b := by
  intro l' hl' b hb
  by_cases hll : l' = l
  · subst hll
    have hlt : r.pool.layerScheduler.numAttnLayers + l' < r.pool.layerScheduler.layers.length := by
      rw [h.sched.length_layers, numLayers, h.numExpertLayers]
      omega
    rw [layerAt_modifyLayer_self _ hlt] at hb
    exact hf b hb
  · rw [layerAt_modifyLayer_of_ne _ (by omega)] at hb
    exact h.queued l' hl' b hb

theorem Inv.arrive {r : ExpertRun W V} (h : Inv P d r) {b : TokenBatch W V}
    (harrival : Arrival P d b) {pool : UnifiedPool W V}
    (hput : r.pool.processBatch b = .ok pool) : Inv P d { r with pool := pool } := by
  obtain ⟨htag, l, hl, hwork⟩ := harrival.sortedWork
  obtain ⟨work, hworkeq⟩ : ∃ work : TokenBatch W V,
      work = { b with metadata := { b.metadata with batchTag := .expert } } := ⟨_, rfl⟩
  rw [← hworkeq] at hwork
  have haddable : r.pool.layerScheduler.Addable work :=
    ⟨hwork.toWf, .inr ⟨hwork.tag, by rwa [hwork.layerId, h.numExpertLayers], hwork.expIds_length⟩⟩
  have htarget : r.pool.layerScheduler.target work = r.pool.layerScheduler.numAttnLayers + l := by
    rw [target, if_neg (by simp [BatchMetadata.isAttention, hwork.tag]), hwork.layerId]
  obtain ⟨hlt, hadd, hok, -⟩ := h.sched.addBatch_spec haddable
  rw [htarget] at hlt hadd hok
  rw [UnifiedPool.processBatch, htag] at hput
  change r.pool.processExpertBatch b = _ at hput
  rw [UnifiedPool.processExpertBatch, ← hworkeq,
    ensure_of_true (by have := h.numGroups; omega), ok_bind, hadd] at hput
  obtain rfl := Except.ok.inj hput
  refine ⟨h.numGroups, h.numExpertLayers, h.threshold, hok, ?_, h.handed⟩
  refine h.queued_modifyLayer hl fun c hc => ?_
  rcases List.mem_append.mp hc with hc | hc
  · exact h.queued l hl c hc
  · rw [List.mem_singleton.mp hc]
    exact hwork

theorem Inv.schedule {r : ExpertRun W V} (h : Inv P d r) :
    Inv P d { r with
      pool := { r.pool with layerScheduler := r.pool.layerScheduler.schedule.2 } } := by
  have hok := h.sched.schedule
  obtain ⟨windows, sums, heq⟩ := schedule_frame r.pool.layerScheduler
  rw [heq] at hok ⊢
  exact ⟨h.numGroups, h.numExpertLayers, h.threshold, hok, h.queued, h.handed⟩

section Serve

variable [Inhabited W] {S : StdSort} {gatherSum : List V → V}

theorem getBatchFromLayer_of_expert {p : UnifiedPool W V} {layerId : ℤ}
    (hlayer : p.layerScheduler.isExpertLayer layerId = true) :
    p.getBatchFromLayer S gatherSum layerId =
      ({ p with layerScheduler := (p.layerScheduler.getBatchFromLayerRestricted S gatherSum layerId
          p.expertScheduleTokenThreshold).1 },
        (p.layerScheduler.getBatchFromLayerRestricted S gatherSum layerId
          p.expertScheduleTokenThreshold).2) := by
  simp only [isExpertLayer, decide_eq_true_eq] at hlayer
  rw [UnifiedPool.getBatchFromLayer, if_neg (by simp [isAttnLayer]; omega)]

/-- **Serving an expert layer** yields sorted work: pieces of sorted batches are sorted, one batch
is passed on as it is, and several are merged by a sort. -/
theorem sortedWork_of_get (hexp : P.cfg.numExperts ≤ maxNumExperts) {s : LayerScheduler W V}
    (hs : s.Ok) {l : ℕ} (hl : s.numAttnLayers + l < s.numLayers) {t : ℤ} (ht : 1 ≤ t)
    (hqueued : ∀ c ∈ (s.layerAt (s.numAttnLayers + l)).batchQueue, SortedWork P d l c)
    {b : TokenBatch W V}
    (hget : (s.getBatchFromLayerRestricted S gatherSum (s.numAttnLayers + l : ℕ) t).2 =
      .ok (some b)) :
    (s.getBatchFromLayerRestricted S gatherSum (s.numAttnLayers + l : ℕ) t).1 =
        s.modifyLayer (s.numAttnLayers + l)
          (fun _ => served false (s.layerAt (s.numAttnLayers + l)) t) ∧
      SortedWork P d l b := by
  have huses := s.layerUsesTokenQueue_expert l
  have hpos := hs.pos_of_get S gatherSum hl ht (Prod.ext rfl hget)
  obtain ⟨htotal, hne⟩ := (hs.expertLayer hl).take_batches_ne_nil hpos ht
  rw [getRestricted_of_batches S gatherSum hl huses htotal hne] at hget ⊢
  refine ⟨rfl, ?_⟩
  have htaken := (takeBatches_forall (fun c _ _ hc hn => SortedWork.chunk hc hn) t 0 hqueued).1
  have hbound : ∀ x : Row W V, Hosted P d x → ∀ e ∈ x.expId, e < maxNumExperts := by
    rintro x ⟨e, he, heq, -⟩ e' he'
    rw [heq] at he'
    exact (Option.mem_some.mp he') ▸ he.trans_le hexp
  obtain ⟨m, hmerge, hwork, -⟩ :=
    ExpertWork.merge hbound hne fun c hc => (htaken c hc).toExpertWork
  obtain rfl := Option.some.inj (Except.ok.inj (hmerge.symm.trans hget))
  refine ⟨hwork, TokenBatch.merge_expIds_sorted (fun c hc => (htaken c hc).toFull)
    (fun c hc => (htaken c hc).tag) (fun c hc => (htaken c hc).layerId) (fun c hc => ?_)
    (fun c hc => (htaken c hc).sorted) hmerge⟩
  exact (htaken c hc).expId_lt fun x hx => hbound x ((htaken c hc).rows x hx)

theorem Inv.serve {r : ExpertRun W V} (hexp : P.cfg.numExperts ≤ maxNumExperts) (h : Inv P d r)
    {layerId : ℤ} {pool : UnifiedPool W V} {b : TokenBatch W V}
    (hlayer : r.pool.layerScheduler.isExpertLayer layerId = true)
    (hget : r.pool.getBatchFromLayer S gatherSum layerId = (pool, .ok (some b))) :
    Inv P d ⟨pool, b :: r.handed⟩ := by
  rw [getBatchFromLayer_of_expert hlayer] at hget
  obtain ⟨rfl, hresult⟩ := Prod.mk.inj hget
  have hnum : r.pool.layerScheduler.numLayers =
      r.pool.layerScheduler.numAttnLayers + P.cfg.numLayers := by
    rw [numLayers, h.numExpertLayers]
  -- the layer exists, since something was returned
  obtain ⟨l, hl, rfl⟩ : ∃ l < P.cfg.numLayers,
      layerId = (r.pool.layerScheduler.numAttnLayers + l : ℕ) := by
    simp only [isExpertLayer, decide_eq_true_eq] at hlayer
    by_cases hrange : layerId ≥ r.pool.layerScheduler.numLayers
    · rw [getBatchFromLayerRestricted, if_pos (.inr hrange)] at hresult
      cases hresult
    · exact ⟨(layerId - r.pool.layerScheduler.numAttnLayers).toNat, by omega, by omega⟩
  have hlt : r.pool.layerScheduler.numAttnLayers + l < r.pool.layerScheduler.numLayers := by omega
  obtain ⟨hserved, hwork⟩ :=
    sortedWork_of_get hexp h.sched hlt h.threshold (h.queued l hl) hresult
  have huses : r.pool.layerScheduler.layerUsesTokenQueue
      (r.pool.layerScheduler.numAttnLayers + l : ℕ) = false := by
    simp [layerUsesTokenQueue, isAttnLayer]
  have hserve := ((h.sched.layers _ hlt).serve (by have := h.threshold; omega :
    0 ≤ r.pool.expertScheduleTokenThreshold)).1
  rw [hserved]
  refine ⟨h.numGroups, h.numExpertLayers, h.threshold,
    h.sched.modifyLayer hlt (huses ▸ hserve), h.queued_modifyLayer hl ?_, ?_⟩
  · simp only [served, Bool.false_eq_true, if_false, UnifiedLayer.getBatchesRestricted]
    exact (takeBatches_forall (fun c _ _ hc hn => SortedWork.chunk hc hn) _ 0 (h.queued l hl)).2
  · intro c hc
    rcases List.mem_cons.mp hc with rfl | hc
    · exact ⟨l, hl, hwork⟩
    · exact h.handed c hc

theorem Inv.step {r r' : ExpertRun W V} (hexp : P.cfg.numExperts ≤ maxNumExperts) (h : Inv P d r)
    (hstep : Step P d S gatherSum r r') : Inv P d r' := by
  cases hstep with
  | arrive harrival hput => exact h.arrive harrival hput
  | setThreshold _ hexpert =>
    exact ⟨h.numGroups, h.numExpertLayers, hexpert, h.sched, h.queued, h.handed⟩
  | schedule => exact h.schedule
  | serve hlayer hget => exact h.serve hexp hlayer hget

theorem Inv.of_run (hexp : P.cfg.numExperts ≤ maxNumExperts) {ty : SchedulerType} {topK : ℕ}
    {attn expert : ℤ} (hexpert : 1 ≤ expert) {r : ExpertRun W V}
    (hrun : Relation.ReflTransGen (Step P d S gatherSum)
      (init ty P.cfg.numLayers topK attn expert) r) : Inv P d r := by
  induction hrun with
  | refl => exact inv_init ty topK attn hexpert
  | tail _ hstep ih => exact ih.step hexp hstep

/-! ### What the executor is given -/

/-- **Expert batches are grouped when they reach the executor**, as long as the counting sort has a
counter for every expert: in every run, the experts of a batch handed over ascend and are hosted
here, the sizes prepared for it are those of the segments of the local experts, and the indices
prepared for it are the local experts of its rows. -/
theorem handed_grouped (hexp : P.cfg.numExperts ≤ maxNumExperts) (hd : d < P.cfg.numDevices)
    {ty : SchedulerType} {topK : ℕ} {attn expert : ℤ} (hexpert : 1 ≤ expert) {r : ExpertRun W V}
    (hrun : Relation.ReflTransGen (Step P d S gatherSum)
      (init ty P.cfg.numLayers topK attn expert) r) {b : TokenBatch W V} (hb : b ∈ r.handed)
    (rank : ℕ) :
    b.metadata.expIds.Pairwise (· ≤ ·) ∧
      (∀ e ∈ b.metadata.expIds, (b.metadata.layerId, e) ∈ P.place.expert d) ∧
      ∃ x batchSizes mIndices,
        buildExpertExecutor P.cfg.numExperts P.cfg.numExpertsPerRank rank
          (some (P.place.uniqueExpertIdsAt d)) = .ok x ∧
        Grouped (P.place.uniqueExpertIdsAt d) b.metadata batchSizes mIndices ∧
        ∀ cls expertBias, x.prepareBszAndIndices cls expertBias P.cfg.numExperts b.metadata =
          .ok (if cls.needsBatchSizes then some batchSizes else none,
            if cls.needsMIndices expertBias then some mIndices else none) := by
  obtain ⟨l, hl, hwork⟩ := (Inv.of_run hexp hexpert hrun).handed b hb
  have hhosted : ∀ e ∈ b.metadata.expIds, e < P.cfg.numExperts ∧ P.owner e = d := by
    intro e he
    have hmem : some e ∈ b.rows.map (·.expId) := by
      rw [hwork.map_expId]
      exact List.mem_map_of_mem he
    obtain ⟨x, hx, hxe⟩ := List.mem_map.mp hmem
    obtain ⟨e', he', heq, howner⟩ := hwork.rows x hx
    obtain rfl := Option.some.inj (hxe.symm.trans heq)
    exact ⟨he', howner⟩
  refine ⟨hwork.sorted, fun e he => ?_, ?_⟩
  · obtain ⟨hlt, howner⟩ := hhosted e he
    rw [hwork.layerId]
    exact (P.mem_expert_iff hlt hl).mpr howner.symm
  · obtain ⟨x, hbuild, hx⟩ := P.buildExpertExecutor_spec hd P.cfg.numExpertsPerRank rank
    have hmem : ∀ e ∈ b.metadata.expIds, e ∈ P.place.uniqueExpertIdsAt d := fun e he =>
      (P.mem_uniqueExpertIdsAt_iff (hhosted e he).1).mpr (hhosted e he).2
    have hids : ∀ e ∈ P.place.uniqueExpertIdsAt d, e < P.cfg.numExperts :=
      fun e he => P.lt_of_mem_uniqueExpertIdsAt he
    have hpos : 0 < P.cfg.numExperts := by
      obtain ⟨e, he⟩ := List.exists_mem_of_ne_nil _ (P.uniqueExpertIdsAt_ne_nil hd)
      exact Nat.zero_lt_of_lt (hids e he)
    exact ⟨x, _, _, hbuild, hx.grouped (P.place.uniqueExpertIdsAt_sorted d) hwork.expIds_length
      hwork.sorted hmem, hx.prepareBszAndIndices_eq hpos hids hwork.expIds_length hmem⟩

end Serve

/-! ### Two batches of one row -/

/-- One device with `n` experts. -/
def oneDevice (n : ℕ) : ColocateConfig where
  numLayers := 1
  numExperts := n
  numDevices := 1
  epSize := 1
  dpSize := 1
  expertAllocation := none

/-- A row for expert `e` from attention. -/
def rowFor (r e : ℕ) : TokenBatch ℕ ℕ :=
  { TokenBatch.forExperts r [e] with
    metadata := { (TokenBatch.forExperts r [e]).metadata with batchTag := .attention } }

theorem arrival_rowFor {n : ℕ} (hP : P.cfg = oneDevice n) {e : ℕ} (he : e < n) (r : ℕ) :
    Arrival P 0 ((rowFor r e).chunk 0 1) := by
  have hdev : P.cfg.numDevices = 1 := by rw [hP]; rfl
  have hnum : P.cfg.numExperts = n := by rw [hP]; rfl
  have hfull := TokenBatch.full_forExperts r [e]
  have howner : P.owner e = 0 := by
    have := P.owner_lt (e := e) (by omega)
    omega
  refine ⟨0, by omega, rowFor r e, _, ?_, rfl, ?_, List.pairwise_singleton _ _, ?_,
    List.mem_singleton.mpr rfl, ?_⟩
  · exact ⟨⟨⟨hfull.reqIds, hfull.initPrefillLens, hfull.expIds, hfull.topkWeights,
      hfull.attnDpRanks⟩, hfull.data, hfull.hiddenDim⟩, hfull.expIds_length,
      hfull.topkWeights_length, hfull.attnDpRanks_length⟩
  · exact P.numLayers_pos
  · intro x hx
    rw [List.mem_singleton.mp hx]
    omega
  · have hpeer := P.peer_attnGetChannelId (d := 0) (r := 0) (by omega) (by rw [hP]; rfl) (by omega)
    have hchannel := P.expertGetChannelId_eq (d := 0) (by omega) (e := e) (by omega)
    rw [howner] at hchannel
    exact hchannel ▸ hpeer

/-- The pool after a row for expert `e` and a row for expert `e'` were received and merged. -/
theorem run_rowFor {n : ℕ} (hP : P.cfg = oneDevice n) {e e' : ℕ} (he : e < n) (he' : e' < n)
    {pool₁ pool₂ pool₃ : UnifiedPool ℕ ℕ} {b : TokenBatch ℕ ℕ}
    (h₁ : (init .flfs 1 1 8 8 : ExpertRun ℕ ℕ).pool.processBatch ((rowFor 0 e).chunk 0 1) =
      .ok pool₁)
    (h₂ : pool₁.processBatch ((rowFor 1 e').chunk 0 1) = .ok pool₂)
    (h₃ : pool₂.getBatchFromLayer .stable List.sum 2 = (pool₃, .ok (some b)))
    (hlayer : pool₂.layerScheduler.isExpertLayer 2 = true) :
    Relation.ReflTransGen (Step P 0 .stable List.sum) (init .flfs P.cfg.numLayers 1 8 8)
      ⟨pool₃, [b]⟩ := by
  rw [hP]
  exact ((Relation.ReflTransGen.single (.arrive (arrival_rowFor hP he 0) h₁)).tail
    (.arrive (arrival_rowFor hP he' 1) h₂)).tail (.serve hlayer h₃)

theorem handed_grouped_swapped : ∃ (P : Colocation) (r : ExpertRun ℕ ℕ) (b : TokenBatch ℕ ℕ),
    Relation.ReflTransGen (Step P 0 .stable List.sum) (init .flfs P.cfg.numLayers 1 8 8) r ∧
      b ∈ r.handed ∧ b.metadata.reqIds = [1, 0] ∧ b.metadata.expIds.Pairwise (· ≤ ·) := by
  obtain ⟨P, hP⟩ : ∃ P : Colocation, P.cfg = oneDevice 2 :=
    ColocateConfig.exists_colocation le_rfl ⟨rfl, by decide, by decide⟩
  have hrun := run_rowFor hP (show 1 < 2 by decide) (show 0 < 2 by decide) rfl rfl rfl rfl
  have hgrouped := handed_grouped (by rw [hP]; decide) (by rw [hP]; decide) (by decide) hrun
    (List.mem_singleton.mpr rfl) 0
  exact ⟨P, _, _, hrun, List.mem_singleton.mpr rfl, by decide +kernel, hgrouped.1⟩

/-- **Beyond the limit of the counting sort** a batch is handed over whose experts descend: the
row for expert `129` is written over the one for expert `0`. -/
theorem handed_decreasing : ∃ (P : Colocation) (r : ExpertRun ℕ ℕ) (b : TokenBatch ℕ ℕ),
    P.cfg = oneDevice 130 ∧
      Relation.ReflTransGen (Step P 0 .stable List.sum) (init .flfs P.cfg.numLayers 1 8 8) r ∧
      b ∈ r.handed ∧ ¬ b.metadata.expIds.Pairwise (· ≤ ·) := by
  obtain ⟨P, hP⟩ : ∃ P : Colocation, P.cfg = oneDevice 130 :=
    ColocateConfig.exists_colocation le_rfl ⟨rfl, by decide, by decide⟩
  have hrun := run_rowFor hP (show 0 < 130 by decide) (show 129 < 130 by decide) rfl rfl rfl
    rfl
  exact ⟨P, _, _, hP, hrun, List.mem_singleton.mpr rfl, by decide +kernel⟩

end ExpertRun

end StreamEP


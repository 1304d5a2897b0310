import StreamEP.System.Gather

/-!
# The system forks and joins

Every step of the running system is a sequence of fork and join steps on `System.abs`, most of them
of none at all: copies only move. Attention forks all tokens of a batch, sampling finishes some,
and a completed receive joins the tokens it completes. So the fork and join invariant holds in
every reachable state: a request that is admitted and not finished is one whole token or exactly
the copies of its last fork.

## Why an abstract machine

A request can be in as many places as it has experts, and each place is a different queue of a
different device. Stated about the queues, conservation would have to follow all of them in every
step. `System.abs` forgets the places: an action that moves rows is an equation between multisets,
and only three actions are left that do something. What they do is proved once, for any fork and
join machine, in `StreamEP.Lib.ForkJoin`.
-/

namespace StreamEP

open Relation LayerScheduler

variable {W V : Type} [Inhabited W] [TensorRow V] {M : Setup W V} {b b' : TokenBatch W V}

/-! ### Changing one queue of a device -/

namespace Device

variable {dev : Device W V} {p : UnifiedPool W V}

omit [Inhabited W] in
theorem whole_withPool {ids : Multiset ℕ} {rows : Multiset (ℕ × Row W V)}
    (h : dev.pool.layerScheduler.Added p.layerScheduler ids rows) :
    { dev with pool := p }.whole = dev.whole + ids := by
  rw [whole, whole, h.attnIds, add_right_comm]

theorem copies_withPool {K : Kernels W V} {ids : Multiset ℕ} {rows : Multiset (ℕ × Row W V)}
    (h : dev.pool.layerScheduler.Added p.layerScheduler ids rows)
    (hpools : p.topkPools = dev.pool.topkPools) :
    { dev with pool := p }.copies K = dev.copies K + rows.map fun x => Row.out K x.1 x.2 := by
  simp only [copies, h.expertWork, hpools]
  abel

end Device

/-! ### Steps that move copies -/

namespace System

variable {s s' : System W V M.numDevices} {d : Fin M.numDevices} {dev : Device W V}

theorem abs_eq {σ : ForkJoin.State ℕ (Copy V)} (hseen : {r | r ∈ s.admitted} = σ.seen)
    (hdone : {r | r ∈ s.finished} = σ.done) (hwhole : s.whole = σ.whole)
    (hcopies : s.copies M.kernels = σ.copies)
    (hjob : (fun r => (s.job r).elim 0 (Job.copies M.kernels)) = σ.job) : abs M s = σ := by
  obtain ⟨seen, done, whole, copies, job⟩ := σ
  subst hseen hdone hwhole hcopies hjob
  rfl

theorem abs_setDevice (hwhole : dev.whole = (s.device d).whole)
    (hcopies : dev.copies M.kernels = (s.device d).copies M.kernels) :
    abs M (s.setDevice d dev) = abs M s := by
  have hw : (s.setDevice d dev).whole + 0 = s.whole + 0 :=
    whole_setDevice (by rw [hwhole])
  have hc : (s.setDevice d dev).copies M.kernels + 0 = s.copies M.kernels + 0 :=
    copies_setDevice (by rw [hcopies])
  rw [add_zero, add_zero] at hw hc
  exact abs_eq rfl rfl hw hc rfl

theorem steps_of_abs_eq (h : abs M s' = abs M s) :
    ReflTransGen (ForkJoin.Step M.topK Alike) (abs M s) (abs M s') :=
  h ▸ .refl

/-- **Taking a batch** moves its rows into the engine. -/
theorem abs_take (hs : s.Inv M) {l : ℤ} {p : UnifiedPool W V} (hp : (s.device d).picked = some l)
    (hget : (s.device d).pool.getBatchFromLayer M.sort M.kernels.gatherSum l =
      (p, .ok (some b))) :
    abs M (s.setDevice d { s.device d with
      pool := p
      picked := none
      running := (s.device d).running ++ [b] }) = abs M s := by
  obtain ⟨-, hpools, ⟨hrun, hids, hrows⟩ | ⟨l, -, hwork, hids, hrows⟩⟩ := (hs.device d).take hp hget
  · have hrunIds : b.runIds = ↑(b.rows.map (·.reqId)) :=
      if_pos (by simp [BatchMetadata.isAttention, hrun.tag])
    have hrunCopies : b.runCopies M.kernels = 0 :=
      if_neg (by simp [BatchMetadata.isExpert, hrun.tag])
    apply abs_setDevice
    · simp only [Device.whole, List.map_append, List.map_cons, List.map_nil, List.sum_append,
        List.sum_cons, List.sum_nil, hrunIds, ← hids]
      abel
    · simp only [Device.copies, List.map_append, List.map_cons, List.map_nil, List.sum_append,
        List.sum_cons, List.sum_nil, hrunCopies, hrows, hpools, add_zero]
  · have hrunIds : b.runIds = 0 := if_neg (by simp [BatchMetadata.isAttention, hwork.tag])
    have hrunCopies : b.runCopies M.kernels = ↑(b.rows.map (Row.out M.kernels l)) := by
      rw [TokenBatch.runCopies, if_pos (by simp [BatchMetadata.isExpert, hwork.tag]),
        hwork.layerId]
    apply abs_setDevice
    · simp only [Device.whole, List.map_append, List.map_cons, List.map_nil, List.sum_append,
        List.sum_cons, List.sum_nil, hrunIds, hids, add_zero]
    · simp only [Device.copies, List.map_append, List.map_cons, List.map_nil, List.sum_append,
        List.sum_cons, List.sum_nil, hrunCopies, hpools, ← hrows (Row.out M.kernels)]
      abel

/-- **The experts** turn rows into replies of the same worth. -/
theorem msgCopies_execute {l : ℕ} (hb : ExpertWork (M.OkRow d) l b) (hl : l < M.numLayers)
    (hexec : executeBatchExpert M.sort M.kernels true b = .ok b') :
    b.runCopies M.kernels = b'.msgCopies M.kernels := by
  obtain ⟨hout, hlayer, hperm⟩ := hb.execute hl hexec
  rw [TokenBatch.runCopies, if_pos (by simp [BatchMetadata.isExpert, hb.tag]), hb.layerId,
    TokenBatch.msgCopies, hout.tag, hlayer]
  refine Multiset.coe_eq_coe.mpr ?_
  have hreply := (hperm.map (Row.reply (l + 1))).symm
  rwa [List.map_map] at hreply

/-- **Cutting a batch into pieces** moves its rows into the pieces. -/
theorem msgCopies_pieces {K : Kernels W V} {pieces : List (ℤ × TokenBatch W V)}
    (hrows : pieces.flatMap (·.2.rows) = b.rows)
    (hpieces : ∀ x ∈ pieces, x.2.metadata.batchTag = b.metadata.batchTag ∧
      x.2.metadata.layerId = b.metadata.layerId) :
    (pieces.map fun x => x.2.msgCopies K).sum = b.msgCopies K := by
  -- the worth of a row depends on the tag and the layer only
  obtain ⟨f, hf⟩ : ∃ f : List (Row W V) → Multiset (ℕ × Copy V),
      (∀ c : TokenBatch W V, c.metadata.batchTag = b.metadata.batchTag →
        c.metadata.layerId = b.metadata.layerId → c.msgCopies K = f c.rows) ∧
      f [] = 0 ∧ ∀ x y, f (x ++ y) = f x + f y := by
    cases htag : b.metadata.batchTag with
    | attention =>
      refine ⟨fun rows => ↑(rows.map (Row.out K b.metadata.layerId)), fun c hc hl => ?_, rfl,
        fun x y => by simp⟩
      rw [TokenBatch.msgCopies, hc, hl]
    | expert =>
      refine ⟨fun rows => ↑(rows.map (Row.reply b.metadata.layerId)), fun c hc hl => ?_, rfl,
        fun x y => by simp⟩
      rw [TokenBatch.msgCopies, hc, hl]
    | tokenizer =>
      refine ⟨fun _ => 0, fun c hc _ => ?_, rfl, fun _ _ => rfl⟩
      rw [TokenBatch.msgCopies, hc]
  obtain ⟨hf, hnil, happend⟩ := hf
  rw [hf b rfl rfl, ← hrows]
  clear hrows
  induction pieces with
  | nil => exact hnil.symm
  | cons x pieces ih =>
    obtain ⟨hx, hpieces⟩ := List.forall_mem_cons.mp hpieces
    rw [List.map_cons, List.sum_cons, List.flatMap_cons, happend, ih hpieces, hf x.2 hx.1 hx.2]

/-! ### Attention forks -/

section Attend

variable {k rank : ℕ} {hiddens : List V} {ids : List ℕ} {weights : List W} {i : ℕ}

/-- The gates of a token are the `k` entries from its place on. -/
theorem gates_jobAt (hids : ids.length = b.metadata.numTokens * k)
    (hweights : weights.length = b.metadata.numTokens * k) (hi : i < b.metadata.numTokens) :
    (jobAt k rank b hiddens ids weights i).gates = (List.range k).map fun j =>
      (ids[i * k + j]?.getD 0, weights[i * k + j]?.getD default) := by
  have hle : (i + 1) * k ≤ b.metadata.numTokens * k := Nat.mul_le_mul_right k hi
  rw [Nat.succ_mul] at hle
  refine List.ext_getElem? fun j => ?_
  simp only [jobAt]
  by_cases hj : j < k
  · have hid := List.getElem?_eq_getElem (show i * k + j < ids.length by omega)
    have hweight := List.getElem?_eq_getElem (show i * k + j < weights.length by omega)
    have hgate : (ids.zip weights)[i * k + j]? = some (ids[i * k + j], weights[i * k + j]) :=
      List.getElem?_zip_eq_some.mpr ⟨hid, hweight⟩
    rw [List.getElem?_take_of_lt hj, List.getElem?_drop, List.getElem?_map, List.getElem?_range hj,
      hgate, Option.map_some, hid, hweight]
    rfl
  · rw [List.getElem?_eq_none (by simp; omega), List.getElem?_eq_none (by simpa using hj)]

/-- The copy at place `i * k + j` is made by gate `j` of token `i`. -/
theorem out_gateRow (K : Kernels W V) {j : ℕ} (hj : j < k) :
    (gateRow k rank b hiddens ids weights (i * k + j)).out K b.metadata.layerId =
      ((b.rowAt i).reqId, ⟨b.metadata.layerId + 1, K.scale (weights[i * k + j]?.getD default)
        (K.expert b.metadata.layerId (ids[i * k + j]?.getD 0) (hiddens[i]?.getD default)),
        (b.rowAt i).initPrefillLen, rank⟩) := by
  have hdiv : (i * k + j) / k = i := by
    rw [mul_comm, Nat.mul_add_div (by omega), Nat.div_eq_of_lt hj, add_zero]
  simp only [Row.out, Row.reply, Row.answer, gateRow, hdiv, Option.getD_some]

/-- **The rows after attention** are the copies of one fork per token. -/
theorem copies_gateRows (K : Kernels W V) (hids : ids.length = b.metadata.numTokens * k)
    (hweights : weights.length = b.metadata.numTokens * k) :
    (↑(((List.range (b.metadata.numTokens * k)).map (gateRow k rank b hiddens ids weights)).map
        (Row.out K b.metadata.layerId)) : Multiset (ℕ × Copy V)) =
      ((List.range b.metadata.numTokens).map fun i =>
        ((jobAt k rank b hiddens ids weights i).copies K).map
          (Prod.mk (b.rowAt i).reqId)).sum := by
  rw [Scatter.range_mul, List.map_map, List.map_flatMap, ← sum_coe_flatMap]
  congr 1
  refine List.map_congr_left fun i hi => ?_
  rw [Job.copies, gates_jobAt hids hweights (List.mem_range.mp hi), List.map_map, Multiset.map_coe,
    List.map_map, List.map_map]
  refine congrArg _ (List.map_congr_left fun j hj => ?_)
  exact out_gateRow K (List.mem_range.mp hj)

omit [Inhabited W] in
theorem copies_recordJobs (K : Kernels W V) (jobs : ℕ → Job W V) (job : ℕ → Option (Job W V)) :
    (fun r => (recordJobs b jobs job r).elim 0 (Job.copies K)) =
      ((List.range b.metadata.numTokens).map fun i =>
        ((b.rowAt i).reqId, (jobs i).copies K)).foldl
          (fun f x => Function.update f x.1 x.2) fun r => (job r).elim 0 (Job.copies K) := by
  rw [recordJobs]
  generalize List.range b.metadata.numTokens = places
  induction places generalizing job with
  | nil => rfl
  | cons i places ih =>
    rw [List.foldl_cons, ih, List.map_cons, List.foldl_cons]
    congr 1
    funext r
    by_cases hr : r = (b.rowAt i).reqId
    · subst hr
      simp
    · simp [hr]

end Attend

theorem abs_attend (hk : 0 < M.topK) (hs : s.Inv M) {before after : List (TokenBatch W V)}
    {hiddens : List V} {ids : List ℕ} {weights : List W}
    (hrun : (s.device d).running = before ++ b :: after) (hattn : b.metadata.isAttention)
    (hlayer : b.metadata.layerId < M.numLayers)
    (hhiddens : hiddens.length = b.metadata.numTokens)
    (hids : ids.length = b.metadata.numTokens * M.topK)
    (hweights : weights.length = b.metadata.numTokens * M.topK)
    (hexp : ∀ e ∈ ids, e < M.numExperts)
    (hpost : postprocessBatchAttn M.topK d b.metadata hiddens ids weights = .ok b') :
    ReflTransGen (ForkJoin.Step M.topK Alike) (abs M s)
      (abs M { s.setDevice d { s.device d with
          running := before ++ after
          sendQueue := (s.device d).sendQueue ++ [b'] } with
        job := recordJobs b (jobAt M.topK d b hiddens ids weights) s.job }) := by
  have hb : M.AttnRun b := (hs.device d).attnRun_of_mem hrun hattn
  obtain ⟨hout, hl, hperm⟩ := hb.postprocess hk d.isLt hlayer hhiddens hids hweights hexp hpost
  set dev : Device W V := { s.device d with
    running := before ++ after
    sendQueue := (s.device d).sendQueue ++ [b'] } with hdev
  set forks : List (ℕ × Multiset (Copy V)) := (List.range b.metadata.numTokens).map fun i =>
    ((b.rowAt i).reqId, (jobAt M.topK d b hiddens ids weights i).copies M.kernels) with hforks
  -- the rows of the new batch are the copies
  have hmsg : b'.msgCopies M.kernels = (forks.map fun x => x.2.map (Prod.mk x.1)).sum := by
    rw [hforks, List.map_map, TokenBatch.msgCopies, hout.tag, hl]
    exact (Multiset.coe_eq_coe.mpr (hperm.map _)).trans (copies_gateRows M.kernels hids hweights)
  have hkeys : b.runIds = ↑(forks.map Prod.fst) := by
    rw [TokenBatch.runIds, if_pos hattn, hforks, List.map_map, TokenBatch.rows, List.map_map]
    rfl
  have hrunCopies : b.runCopies M.kernels = 0 :=
    if_neg (by simp [BatchMetadata.isExpert, hb.tag])
  have hwhole : (s.setDevice d dev).whole + ↑(forks.map Prod.fst) = s.whole + 0 := by
    refine whole_setDevice ?_
    simp only [Device.whole, hdev, hrun, List.map_append, List.map_cons, List.sum_append,
      List.sum_cons, hkeys]
    abel
  have hcopies : (s.setDevice d dev).copies M.kernels + 0 =
      s.copies M.kernels + (forks.map fun x => x.2.map (Prod.mk x.1)).sum := by
    refine copies_setDevice ?_
    simp only [Device.copies, hdev, hrun, List.map_append, List.map_cons, List.map_nil,
      List.sum_append, List.sum_cons, List.sum_nil, hrunCopies, hmsg]
    abel
  have hfork : ∀ x ∈ forks, x.2.card = M.topK ∧ Alike x.2 := by
    rintro x hx
    obtain ⟨i, hi, rfl⟩ := List.mem_map.mp hx
    refine ⟨?_, ?_⟩
    · simp [Job.copies, gates_jobAt hids hweights (List.mem_range.mp hi)]
    · rintro c hc c' hc'
      obtain ⟨g, -, rfl⟩ := List.mem_map.mp (Multiset.mem_coe.mp hc)
      obtain ⟨g', -, rfl⟩ := List.mem_map.mp (Multiset.mem_coe.mp hc')
      exact ⟨rfl, rfl, rfl⟩
  have hsplit : (abs M s).whole = ↑(forks.map Prod.fst) + (s.setDevice d dev).whole := by
    show s.whole = _
    rw [← add_zero s.whole, ← hwhole, add_comm]
  convert ForkJoin.steps_fork hfork hsplit using 1
  rw [add_zero, add_comm (s.copies M.kernels)] at hcopies
  have hjob := copies_recordJobs M.kernels (b := b) (jobAt M.topK d b hiddens ids weights) s.job
  rw [← hforks] at hjob
  exact abs_eq rfl rfl rfl hcopies hjob

/-! ### Sampling finishes -/

omit [Inhabited W] in
theorem perm_finish_continue {continueIds : List ℕ}
    (hids : continueIds.Sublist (List.range b.metadata.numTokens)) :
    (b.rows.map (·.reqId)).Perm
      (finishReqIds b continueIds ++ continueIds.map fun i => (b.rowAt i).reqId) := by
  have hrange := List.nodup_range (n := b.metadata.numTokens)
  have hgo : ((List.range b.metadata.numTokens).filter (· ∈ continueIds)).Perm continueIds := by
    refine (List.perm_ext_iff_of_nodup (hrange.filter _) (hrange.sublist hids)).mpr fun i => ?_
    rw [List.mem_filter, decide_eq_true_eq]
    exact ⟨And.right, fun hi => ⟨hids.subset hi, hi⟩⟩
  have hsplit := List.filter_append_perm (fun i => decide (i ∈ continueIds))
    (List.range b.metadata.numTokens)
  have hperm := ((hsplit.symm.trans List.perm_append_comm).trans (hgo.append_left _)).map
    fun i => (b.rowAt i).reqId
  rw [List.map_append] at hperm
  rw [TokenBatch.rows, List.map_map]
  simpa [finishReqIds, Function.comp_def] using hperm

/-- **Sampling** finishes the requests that do not go on. -/
theorem abs_sample (hs : s.Inv M) {before after : List (TokenBatch W V)} {continueIds : List ℕ}
    {continuedData : List V} {p : UnifiedPool W V}
    (hrun : (s.device d).running = before ++ b :: after) (hattn : b.metadata.isAttention)
    (hids : continueIds.Sublist (List.range b.metadata.numTokens))
    (hdata : continuedData.length = continueIds.length)
    (hput : (s.device d).pool.putBatch (sampleResults d b continueIds continuedData) = .ok p) :
    ReflTransGen (ForkJoin.Step M.topK Alike) (abs M s)
      (abs M { s.setDevice d { s.device d with pool := p, running := before ++ after } with
        finished := finishReqIds b continueIds ++ s.finished }) := by
  have hb := (hs.device d).attnRun_of_mem hrun hattn
  obtain ⟨-, hpools, hadded⟩ := (hs.device d).sample hb hids hdata hput
  set dev : Device W V := { s.device d with pool := p, running := before ++ after } with hdev
  have hrunIds : b.runIds =
      ↑(finishReqIds b continueIds) + ↑(continueIds.map fun i => (b.rowAt i).reqId) := by
    rw [TokenBatch.runIds, if_pos hattn, Multiset.coe_add]
    exact Multiset.coe_eq_coe.mpr (perm_finish_continue hids)
  have hrunCopies : b.runCopies M.kernels = 0 :=
    if_neg (by simp [BatchMetadata.isExpert, hb.tag])
  have hwhole : (s.setDevice d dev).whole + ↑(finishReqIds b continueIds) = s.whole + 0 := by
    refine whole_setDevice ?_
    simp only [Device.whole, hdev, hrun, List.map_append, List.map_cons, List.sum_append,
      List.sum_cons, hadded.attnIds, hrunIds]
    abel
  have hcopies : (s.setDevice d dev).copies M.kernels + 0 = s.copies M.kernels + 0 := by
    refine copies_setDevice ?_
    simp only [Device.copies, hdev, hrun, List.map_append, List.map_cons, List.sum_append,
      List.sum_cons, hadded.expertWork, hpools, hrunCopies, Multiset.map_zero, add_zero, zero_add]
  have hsplit : (abs M s).whole = ↑(finishReqIds b continueIds) + (s.setDevice d dev).whole := by
    show s.whole = _
    rw [← add_zero s.whole, ← hwhole, add_comm]
  convert ForkJoin.steps_finish hsplit using 1
  rw [add_zero, add_zero] at hcopies
  have hdone : {r | r ∈ finishReqIds b continueIds ++ s.finished} =
      {r | r ∈ finishReqIds b continueIds} ∪ {r | r ∈ s.finished} := by
    ext r
    exact List.mem_append
  exact abs_eq rfl hdone rfl hcopies rfl

/-! ### Gathering joins -/

omit [Inhabited W] in
theorem emits_expertMsg {p : UnifiedPool W V} {okRow : Row W V → Prop} {l : ℕ}
    (hb : ExpertMsg okRow l b) : p.emits b = [] := by
  rw [UnifiedPool.emits, if_neg]
  simp [BatchMetadata.isExpert, hb.tag]

omit [Inhabited W] in
theorem emits_replyMsg {p : UnifiedPool W V} (hk : 1 < p.topK) {l : ℕ} (hl : 0 < l)
    (hb : ReplyMsg d l b) {tp : TokenTopKPool V} (htp : p.topkPools[l]? = some tp) :
    p.emits b = (b.rows.foldl TokenTopKPool.put tp).readyTokens := by
  rw [UnifiedPool.emits, if_pos, hb.layerId, htp]
  · simp only [TokenTopKPool.putBatch_eq tp hb.toWf hb.ranks]
  · simp [BatchMetadata.isExpert, hb.tag, hb.layerId, hk, hl]

/-- What a batch makes a gathering pool emit: complete tokens with exactly the copies that were
forked. -/
def EmitsForked (M : Setup W V) (s : System W V M.numDevices) (d : Fin M.numDevices)
    (b : TokenBatch W V) : Prop :=
  ∀ t ∈ (s.device d).pool.emits b, t.attnDpRank = d ∧ t.count = M.topK ∧
    (s.job t.seqId).elim 0 (Job.copies M.kernels) = t.copies b.metadata.layerId

/-- What a reply leaves alone while it is gathered: everything but the rows of the reply and the
entries of its pool. -/
theorem copies_complete {before after : List (TokenBatch W V)} {l : ℕ}
    (hb : ReplyMsg d l b) (hpending : (s.device d).pending = before ++ b :: after)
    {tp : TokenTopKPool V} (htp : (s.device d).pool.topkPools[l]? = some tp)
    (tp' : TokenTopKPool V) {sched : LayerScheduler W V} {ids : Multiset ℕ}
    (hadded : (s.device d).pool.layerScheduler.Added sched ids 0) :
    ∃ rest, s.copies M.kernels = ↑(b.rows.map (Row.reply l)) + (tp.copies l + rest) ∧
      (s.setDevice d { s.device d with
        pool := { (s.device d).pool with
          layerScheduler := sched
          topkPools := (s.device d).pool.topkPools.set l tp' }
        pending := before ++ after }).copies M.kernels = tp'.copies l + rest := by
  -- the same with an empty pool in between
  set empty : Device W V := { s.device d with
    pool := { (s.device d).pool with
      layerScheduler := sched
      topkPools := (s.device d).pool.topkPools.set l (.create 0) }
    pending := before ++ after } with hempty
  have hlt := (List.getElem?_eq_some_iff.mp htp).1
  have hmsg : b.msgCopies M.kernels = ↑(b.rows.map (Row.reply l)) := by
    rw [TokenBatch.msgCopies, hb.tag, hb.layerId]
  have htake : gathered TokenTopKInfo.held ((s.device d).pool.topkPools.set l (.create 0)) +
      tp.copies l = gathered TokenTopKInfo.held (s.device d).pool.topkPools + 0 :=
    gathered_set _ htp (add_comm _ _)
  have hgive : gathered TokenTopKInfo.held ((s.device d).pool.topkPools.set l tp') + 0 =
      gathered TokenTopKInfo.held ((s.device d).pool.topkPools.set l (.create 0)) +
        tp'.copies l := by
    have hset := gathered_set TokenTopKInfo.held
      (List.getElem?_set_self (a := TokenTopKPool.create 0) hlt)
      (show tp'.copies l + 0 = 0 + tp'.copies l from add_comm _ _)
    rwa [List.set_set] at hset
  have hbefore : (s.setDevice d empty).copies M.kernels +
      (↑(b.rows.map (Row.reply l)) + tp.copies l) = s.copies M.kernels + 0 := by
    refine copies_setDevice ?_
    simp only [Device.copies, hempty, hpending, List.map_append, List.map_cons, List.sum_append,
      List.sum_cons, hadded.expertWork, hmsg, Multiset.map_zero, add_zero] at htake ⊢
    rw [← htake]
    abel
  refine ⟨(s.setDevice d empty).copies M.kernels, ?_, ?_⟩
  · rw [add_zero] at hbefore
    rw [← hbefore]
    abel
  · set full : Device W V := { empty with pool := { empty.pool with
      topkPools := (s.device d).pool.topkPools.set l tp' } } with hfull
    have hafter : ((s.setDevice d empty).setDevice d full).copies M.kernels + 0 =
        (s.setDevice d empty).copies M.kernels + tp'.copies l := by
      refine copies_setDevice ?_
      simp only [setDevice, Function.update_self]
      simp only [Device.copies, hempty, hfull, add_zero] at hgive ⊢
      rw [hgive]
      abel
    rw [add_zero, add_comm] at hafter
    simpa only [setDevice, Function.update_idem] using hafter

theorem abs_complete (hk : 1 < M.topK) (hs : s.Inv M)
    (hσ : ForkJoin.Inv M.topK Alike (abs M s)) {before after : List (TokenBatch W V)}
    {p : UnifiedPool W V} (hpending : (s.device d).pending = before ++ b :: after)
    (hprocess : (s.device d).pool.processBatch b = .ok p) :
    EmitsForked M s d b ∧
    ReflTransGen (ForkJoin.Step M.topK Alike) (abs M s)
      (abs M { s.setDevice d { s.device d with pool := p, pending := before ++ after } with
        job := fun r => if r ∈ ((s.device d).pool.emits b).map (·.seqId) then none else s.job r
        emitted := s.emitted ++ ((s.device d).pool.emits b).map fun t =>
          ⟨d, b.metadata.layerId, t, s.job t.seqId⟩ }) := by
  have hpool := (hs.device d).pool
  have hmsg := (hs.device d).pending b (by simp [hpending])
  set dev : Device W V := { s.device d with pool := p, pending := before ++ after } with hdev
  rcases hmsg with ⟨l, hl, hmsg⟩ | ⟨l, hpos, hl, hmsg⟩
  · -- rows for the experts are queued
    obtain ⟨s', heq, -, hadded⟩ := hpool.process_expertMsg hl hmsg
    obtain rfl := Except.ok.inj (heq.symm.trans hprocess)
    have hnone := emits_expertMsg (p := (s.device d).pool) hmsg
    have hcopiesMsg : b.msgCopies M.kernels = ↑(b.rows.map (Row.out M.kernels l)) := by
      rw [TokenBatch.msgCopies, hmsg.tag, hmsg.layerId]
    refine ⟨by simp [EmitsForked, hnone], ?_⟩
    have hdevWhole : dev.whole = (s.device d).whole := by
      simp only [Device.whole, hdev, hadded.attnIds, add_zero]
    have hdevCopies : dev.copies M.kernels = (s.device d).copies M.kernels := by
      simp only [Device.copies, hdev, hpending, List.map_append, List.map_cons, List.sum_append,
        List.sum_cons, hadded.expertWork, hcopiesMsg, Multiset.map_coe, List.map_map]
      simp only [Function.comp_def]
      abel
    have habs := abs_setDevice hdevWhole hdevCopies
    rw [hnone]
    exact steps_of_abs_eq habs
  · -- replies are gathered
    obtain ⟨tp, tp', s', htp, htp', heq, hinv, hadded⟩ := hpool.process_replyMsg hk hpos hl hmsg
    obtain rfl := Except.ok.inj (heq.symm.trans hprocess)
    obtain ⟨hgathering, hready⟩ := hpool.pools l tp htp
    have hemits := emits_replyMsg (hpool.topK ▸ hk) hpos hmsg htp
    rw [← htp'] at hemits
    obtain ⟨rest, hbefore, hafter⟩ :=
      copies_complete hmsg hpending htp { tp' with readyTokens := [] } hadded
    obtain ⟨news, hnews, hjob, hsteps⟩ := steps_gather (σ := abs M s) hk hσ hgathering.toOk
      hgathering.topK hbefore
    rw [← htp', hready, List.nil_append] at hnews
    rw [hnews] at hemits hadded
    refine ⟨fun t ht => ?_, ?_⟩
    · rw [hemits] at ht
      obtain ⟨hfork, hcard⟩ := hjob t ht
      have hwork := (hgathering.foldl_put hk hmsg.rows).ready t (by rw [← htp', hnews]; exact ht)
      exact ⟨hwork.rank, hwork.count, hmsg.layerId.symm ▸ hfork⟩
    · have hwhole : (s.setDevice d dev).whole + 0 = s.whole + ↑(news.map (·.seqId)) := by
        refine whole_setDevice ?_
        simp only [Device.whole, hdev, hadded.attnIds]
        abel
      rw [add_zero, add_comm] at hwhole
      convert hsteps using 1
      refine abs_eq rfl rfl hwhole ?_ ?_
      · rw [← htp']
        exact hafter
      · simp only [hemits]
        funext r
        split_ifs <;> rfl

/-! ### Every step -/

theorem abs_admitRequest (hs : s.Inv M) {r : ℕ} {len : ℤ} {v : V} {p : UnifiedPool W V}
    (hr : r ∉ s.admitted) (hlen : 0 ≤ len)
    (hput : (s.device d).pool.putBatch (admission M.kernels.one d r len v) = .ok p) :
    ForkJoin.Step M.topK Alike (abs M s)
      (abs M { s.setDevice d { s.device d with pool := p } with
        admitted := r :: s.admitted }) := by
  obtain ⟨-, hpools, hadded⟩ := (hs.device d).admitRequest hlen hput
  have hwhole : (s.setDevice d { s.device d with pool := p }).whole + 0 = s.whole + {r} :=
    whole_setDevice (by rw [Device.whole_withPool hadded, add_zero])
  have hcopies : (s.setDevice d { s.device d with pool := p }).copies M.kernels + 0 =
      s.copies M.kernels + 0 :=
    copies_setDevice (by rw [Device.copies_withPool hadded hpools, Multiset.map_zero, add_zero])
  rw [add_zero, add_comm, Multiset.singleton_add] at hwhole
  rw [add_zero, add_zero] at hcopies
  convert ForkJoin.Step.arrive (s := abs M s) (k := r) hr using 1
  have hseen : {q | q ∈ r :: s.admitted} = insert r {q | q ∈ s.admitted} := by
    ext q
    exact List.mem_cons
  exact abs_eq hseen rfl hwhole hcopies rfl

theorem abs_move {x : Fin M.numDevices × Fin M.numDevices} {msgs : List (TokenBatch W V)}
    (hwhole : dev.whole = (s.device d).whole)
    (hcopies : dev.copies M.kernels + (msgs.map (TokenBatch.msgCopies M.kernels)).sum =
      (s.device d).copies M.kernels + ((s.net x).map (TokenBatch.msgCopies M.kernels)).sum) :
    abs M ((s.setDevice d dev).setNet x msgs) = abs M s := by
  have hw : (s.setDevice d dev).whole + 0 = s.whole + 0 := whole_setDevice (by rw [hwhole])
  have hnet : ((s.setDevice d dev).setNet x msgs).copies M.kernels +
      ((s.net x).map (TokenBatch.msgCopies M.kernels)).sum =
      (s.setDevice d dev).copies M.kernels + (msgs.map (TokenBatch.msgCopies M.kernels)).sum :=
    copies_setNet (add_comm _ _)
  rw [copies_setDevice hcopies] at hnet
  rw [add_zero, add_zero] at hw
  exact abs_eq rfl rfl hw (add_right_cancel hnet) rfl

/-- **Every step is a sequence of fork and join steps.** -/
theorem abs_step (hk : 1 < M.topK) (hs : s.Inv M) (hσ : ForkJoin.Inv M.topK Alike (abs M s))
    (hstep : Step M s s') :
    ReflTransGen (ForkJoin.Step M.topK Alike) (abs M s) (abs M s') := by
  cases hstep with
  | admitRequest hr hlen hput => exact .single (abs_admitRequest hs hr hlen hput)
  | setThreshold ha he => exact steps_of_abs_eq (abs_setDevice rfl rfl)
  | @schedule d hp =>
    have hadded := (hs.device d).pool.schedule.2
    refine steps_of_abs_eq (abs_setDevice ?_ ?_)
    · simp only [Device.whole, hadded.attnIds, add_zero]
    · simp only [Device.copies, hadded.expertWork, Multiset.map_zero, add_zero]
  | take hp hget => exact steps_of_abs_eq (abs_take hs hp hget)
  | attend hrun hattn hlayer hhiddens hids hweights hattends hexp hpost =>
    exact abs_attend (by omega) hs hrun hattn hlayer hhiddens hids hweights hexp hpost
  | sample hrun hattn hlayer hids hdata hsamples hput =>
    exact abs_sample hs hrun hattn hids hdata hput
  | @expert d before after b b' hrun hexp hexec =>
    obtain ⟨l, hl, hwork⟩ := (hs.device d).expertWork_of_mem hrun hexp
    have hmsg := msgCopies_execute hwork hl hexec
    have hrunIds : b.runIds = 0 := if_neg (by simp [BatchMetadata.isAttention, hwork.tag])
    refine steps_of_abs_eq (abs_setDevice ?_ ?_)
    · simp only [Device.whole, hrun, List.map_append, List.map_cons, List.sum_append,
        List.sum_cons, hrunIds, zero_add]
    · simp only [Device.copies, hrun, List.map_append, List.map_cons, List.map_nil,
        List.sum_append, List.sum_cons, List.sum_nil, hmsg]
      abel
  | @dispatch d b rest hqueue hidle =>
    have hpieces : (((M.deploy.dispatcher d).sendOnce b).map fun x =>
        x.2.msgCopies M.kernels).sum = b.msgCopies M.kernels := by
      rcases (hs.device d).sendQueue b (by simp [hqueue]) with hb | hb <;>
      · obtain ⟨hrows, hpieces⟩ := hb.dispatch d.isLt
        exact msgCopies_pieces hrows fun x hx => ⟨(hpieces x hx).1, (hpieces x hx).2.1⟩
    refine steps_of_abs_eq (abs_setDevice rfl ?_)
    simp only [Device.copies, hqueue, hidle, List.map_cons, List.map_nil, List.sum_cons,
      List.sum_nil, hpieces]
    abel
  | @send d e c b rest hsending hpeer =>
    refine steps_of_abs_eq (abs_move rfl ?_)
    simp only [Device.copies, hsending, List.map_append, List.map_cons, List.map_nil,
      List.sum_append, List.sum_cons, List.sum_nil]
    abel
  | @receive d e b rest hnet =>
    refine steps_of_abs_eq (abs_move rfl ?_)
    simp only [Device.copies, hnet, List.map_append, List.map_cons, List.map_nil,
      List.sum_append, List.sum_cons, List.sum_nil]
    abel
  | complete hpending hprocess => exact (abs_complete hk hs hσ hpending hprocess).2

/-- **The fork and join invariant holds in every run.** -/
theorem forkJoinInv_of_steps (hk : 1 < M.topK) (hs : s.Inv M)
    (hσ : ForkJoin.Inv M.topK Alike (abs M s)) (hsteps : ReflTransGen (Step M) s s') :
    s'.Inv M ∧ ForkJoin.Inv M.topK Alike (abs M s') := by
  induction hsteps with
  | refl => exact ⟨hs, hσ⟩
  | tail _ hstep ih =>
    exact ⟨ih.1.step (by omega) hstep, ih.2.steps (by omega) (abs_step hk ih.1 ih.2 hstep)⟩

end System

end StreamEP

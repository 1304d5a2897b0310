import StreamEP.System.Invariant

/-!
# What each action does

One lemma per action of a device: what it is given is as the invariant says, so what it returns is
known up to the order of rows. From these the invariant is kept by every step, and the later
modules read off what a step moves from one place to another.

## Functions, not steps

The lemmas are about the functions that a step calls, on arguments the invariant allows, and not
about steps. The invariant, the refinement and the order of the layers use the same facts in this
way, and a function that changes is met by one lemma.
-/

namespace StreamEP

open LayerScheduler Relation

variable {W V : Type} [TensorRow V] {M : Setup W V} {d : ℕ} {b b' : TokenBatch W V}

/-! ### The engine -/

theorem wf_admission (one : W) (rank r : ℕ) (len : ℤ) (v : V) :
    (admission one rank r len v).Wf :=
  ⟨⟨rfl, rfl, .inr rfl, .inr rfl, .inr rfl⟩, rfl, rfl⟩

theorem TokenBatch.rowAt_mem {i : ℕ} (hi : i < b.metadata.numTokens) : b.rowAt i ∈ b.rows :=
  List.mem_map_of_mem (List.mem_range.mpr hi)

section Engine

variable [Inhabited W]

/-- **After attention** the rows are the gated copies of the tokens. -/
theorem Setup.AttnRun.postprocess (hb : M.AttnRun b) (hk : 0 < M.topK) (hd : d < M.numDevices)
    (hlayer : b.metadata.layerId < M.numLayers) {hiddens : List V} {ids : List ℕ}
    {weights : List W} (hhiddens : hiddens.length = b.metadata.numTokens)
    (hids : ids.length = b.metadata.numTokens * M.topK)
    (hweights : weights.length = b.metadata.numTokens * M.topK)
    (hexp : ∀ e ∈ ids, e < M.numExperts)
    (hpost : postprocessBatchAttn M.topK d b.metadata hiddens ids weights = .ok b') :
    M.ExpertOut b' ∧ b'.metadata.layerId = b.metadata.layerId ∧
      b'.rows.Perm ((List.range (b.metadata.numTokens * M.topK)).map
        (gateRow M.topK d b hiddens ids weights)) := by
  obtain ⟨c, hc, hfull, htag, hl, hperm⟩ := postprocessBatchAttn_spec hk hb.toWf hb.nonempty
    hhiddens hids hweights fun e he => (hexp e he).trans_le M.deploy.numExperts_le
  obtain rfl := Except.ok.inj (hc.symm.trans hpost)
  refine ⟨⟨hfull, htag.trans hb.tag, hl ▸ hlayer, fun r hr => ?_⟩, hl, hperm⟩
  obtain ⟨i, hi, rfl⟩ := List.mem_map.mp (hperm.mem_iff.mp hr)
  rw [List.mem_range] at hi
  have htoken : i / M.topK < b.metadata.numTokens := by
    rw [Nat.div_lt_iff_lt_mul hk]
    exact hi
  have hmem : i < ids.length := hids ▸ hi
  have hlen := hb.lens _ (TokenBatch.rowAt_mem htoken)
  refine ⟨M.deploy.owner ids[i], hlen,
    ⟨ids[i], hexp _ (List.getElem_mem hmem), List.getElem?_eq_getElem hmem, rfl⟩, d, hd, rfl⟩

theorem ExpertWork.execute {l : ℕ} (hb : ExpertWork (M.OkRow d) l b) (hl : l < M.numLayers)
    (hexec : executeBatchExpert M.sort M.kernels true b = .ok b') :
    M.ReplyOut b' ∧ b'.metadata.layerId = l + 1 ∧
      b'.rows.Perm (b.rows.map (Row.answer M.kernels l)) := by
  obtain ⟨c, hc, hwf, htag, hlayer, hranks, hordered, hperm⟩ :=
    executeBatchExpert_spec (K := M.kernels) M.sort hb.toFull fun r hr => (hb.rows r hr).len
  obtain rfl := Except.ok.inj (hc.symm.trans hexec)
  rw [hb.layerId] at hlayer hperm
  refine ⟨⟨hwf, htag.trans hb.tag, by omega, hranks, hordered, fun r hr => ?_⟩, hlayer, hperm⟩
  obtain ⟨r', hr', rfl⟩ := List.mem_map.mp (hperm.mem_iff.mp hr)
  exact ⟨(hb.rows r' hr').len, (hb.rows r' hr').rank⟩

end Engine

/-! ### The dispatcher -/

/-- **Rows for the experts** go to the devices that host them. -/
theorem Setup.ExpertOut.dispatch (hb : M.ExpertOut b) (hd : d < M.numDevices) :
    ((M.deploy.dispatcher d).sendOnce b).flatMap (·.2.rows) = b.rows ∧
      ∀ x ∈ (M.deploy.dispatcher d).sendOnce b,
        x.2.metadata.batchTag = b.metadata.batchTag ∧ x.2.metadata.layerId = b.metadata.layerId ∧
        ∃ e < M.numDevices, M.deploy.peer d x.1 = some e ∧ M.MsgOk e x.2 := by
  obtain ⟨hrows, hpieces⟩ := (M.deploy.dispatcher d).sendOnce_attention hb.toFull hb.tag
  refine ⟨hrows, fun x hx => ?_⟩
  obtain ⟨⟨off, n, hn, hchunk⟩, hne, hchannel⟩ := hpieces x hx
  have hfull : x.2.Full := hchunk ▸ hb.toFull.chunk hn
  have hok : ∀ r ∈ x.2.rows, ∃ d, M.OkRow d r := hchunk ▸ forall_rows_chunk hb.rows hn
  -- every expert of the piece is at the other end of its channel
  have howner : ∀ r ∈ x.2.rows, ∃ e < M.numExperts, r.expId = some e ∧
      M.deploy.peer d x.1 = some (M.deploy.owner e) := by
    rintro r hr
    obtain ⟨_, hrow⟩ := hok r hr
    obtain ⟨e, he, hexp, -⟩ := hrow.expert
    have hmem : e ∈ x.2.metadata.expIds := by
      have := List.mem_map_of_mem (f := (·.expId)) hr
      rwa [hfull.map_expId, hexp, List.mem_map_of_injective (Option.some_injective _)] at this
    exact ⟨e, he, hexp, hchannel e hmem ▸ M.deploy.peer_expertGetChannelId hd he⟩
  obtain ⟨r₀, hr₀⟩ : ∃ r, r ∈ x.2.rows := by
    refine List.exists_mem_of_ne_nil _ fun hnil => hne ?_
    have := hfull.map_expId
    rw [hnil] at this
    simpa using this.symm
  obtain ⟨e₀, he₀, -, hpeer⟩ := howner r₀ hr₀
  refine ⟨by simp [hchunk], by simp [hchunk], M.deploy.owner e₀, M.deploy.owner_lt he₀, hpeer,
    .inl ⟨_, hb.layerId, hfull, by simpa [hchunk] using hb.tag, by simp [hchunk],
      fun r hr => ?_⟩⟩
  obtain ⟨_, hrow⟩ := hok r hr
  obtain ⟨e, he, hexp, hpeer'⟩ := howner r hr
  exact ⟨hrow.len, ⟨e, he, hexp, Option.some.inj (hpeer'.symm.trans hpeer)⟩, hrow.rank⟩

omit [TensorRow V] in
theorem AttnOrdered.prefillFirst {rows : List (Row W V)} (h : AttnOrdered rows) {rank : ℕ}
    (hrank : ∀ r ∈ rows, r.attnDpRank = some rank) :
    PrefillFirst (rows.map (·.initPrefillLen)) := by
  refine List.pairwise_map.mpr (h.imp_of_mem fun {r r'} hr hr' hrel => ?_)
  exact hrel.2 ((hrank r hr).trans (hrank r' hr').symm)

/-- **Replies** go to the ranks that own the requests. -/
theorem Setup.ReplyOut.dispatch (hb : M.ReplyOut b) (hd : d < M.numDevices) :
    ((M.deploy.dispatcher d).sendOnce b).flatMap (·.2.rows) = b.rows ∧
      ∀ x ∈ (M.deploy.dispatcher d).sendOnce b,
        x.2.metadata.batchTag = b.metadata.batchTag ∧ x.2.metadata.layerId = b.metadata.layerId ∧
        ∃ e < M.numDevices, M.deploy.peer d x.1 = some e ∧ M.MsgOk e x.2 := by
  obtain ⟨hrows, hpieces⟩ := (M.deploy.dispatcher d).sendOnce_expert hb.tag hb.ranks
  refine ⟨hrows, fun x hx => ?_⟩
  obtain ⟨⟨off, n, hn, hchunk⟩, rank, hrank, hchannel, hall⟩ := hpieces x hx
  have hlt : rank < M.numDevices := by
    have hmem := List.mem_map_of_mem (f := some) hrank
    rw [← TokenBatch.map_attnDpRank hb.ranks] at hmem
    obtain ⟨r, hr, hsome⟩ := List.mem_map.mp hmem
    obtain ⟨-, q, hq, hrq⟩ := hb.rows r hr
    obtain rfl : q = rank := Option.some.inj (hrq.symm.trans hsome)
    exact hq
  have hranks : x.2.metadata.attnDpRanks.length = x.2.metadata.numTokens := by
    rw [hchunk]
    simp [hb.ranks]
    omega
  have hrowRank : ∀ r ∈ x.2.rows, r.attnDpRank = some rank := by
    rintro r hr
    have hmem := List.mem_map_of_mem (f := (·.attnDpRank)) hr
    rw [TokenBatch.map_attnDpRank hranks] at hmem
    obtain ⟨q, hq, hqr⟩ := List.mem_map.mp hmem
    rw [← hqr, hall q hq]
  have hwf : x.2.Wf := hchunk ▸ hb.toWf.chunk hn
  have hordered : AttnOrdered x.2.rows := by
    rw [hchunk, TokenBatch.rows_chunk b hn]
    exact List.Pairwise.sublist ((List.take_sublist _ _).trans (List.drop_sublist _ _)) hb.ordered
  have hlens : ∀ r ∈ x.2.rows, -1 ≤ r.initPrefillLen :=
    hchunk ▸ forall_rows_chunk (fun r hr => (hb.rows r hr).1) hn
  refine ⟨by simp [hchunk], by simp [hchunk], rank, hlt,
    hchannel ▸ M.deploy.peer_attnGetChannelId hd hlt,
    .inr ⟨_, hb.layerId.1, hb.layerId.2, hwf, by simpa [hchunk] using hb.tag, by simp [hchunk], ?_,
      hranks, fun r hr => ⟨hlens r hr, hrowRank r hr⟩⟩⟩
  rw [← hwf.map_initPrefillLen]
  exact hordered.prefillFirst hrowRank

/-! ### The pool -/

namespace Device.Inv

variable {dev : Device W V} {p : UnifiedPool W V}

theorem withPool (hdev : dev.Inv M d) (hp : p.Inv M.numLayers M.topK d (M.OkRow d))
    (hmono : ∀ i, (dev.pool.layerScheduler.layerAt i).numTokens ≤
      (p.layerScheduler.layerAt i).numTokens) : { dev with pool := p }.Inv M d where
  pool := hp
  picked l hl := by
    obtain ⟨i, hi, hli, hpos⟩ := hdev.picked l hl
    refine ⟨i, ?_, hli, hpos.trans_le (hmono i)⟩
    rw [hp.sched.numLayers_eq]
    rwa [hdev.pool.sched.numLayers_eq] at hi
  running := hdev.running
  sendQueue := hdev.sendQueue
  sending := hdev.sending
  pending := hdev.pending

/-- **Putting a batch** queues it for the first attention layer. -/
theorem put (hdev : dev.Inv M d) (hb : b.Wf) (hlayer : b.metadata.layerId = 0)
    (hfirst : PrefillFirst b.metadata.initPrefillLens)
    (hlens : ∀ r ∈ b.rows, -1 ≤ r.initPrefillLen) (hput : dev.pool.putBatch b = .ok p) :
    { dev with pool := p }.Inv M d ∧ p.topkPools = dev.pool.topkPools ∧
      dev.pool.layerScheduler.Added p.layerScheduler ↑(b.rows.map (·.reqId)) 0 := by
  obtain ⟨s', heq, hinv, hadded⟩ := hdev.pool.putBatch hb hlayer hfirst hlens
  obtain rfl := Except.ok.inj (heq.symm.trans hput)
  exact ⟨hdev.withPool hinv hadded.mono, rfl, hadded⟩

theorem admitRequest (hdev : dev.Inv M d) {one : W} {r : ℕ} {len : ℤ} {v : V} (hlen : 0 ≤ len)
    (hput : dev.pool.putBatch (admission one d r len v) = .ok p) :
    { dev with pool := p }.Inv M d ∧ p.topkPools = dev.pool.topkPools ∧
      dev.pool.layerScheduler.Added p.layerScheduler {r} 0 := by
  refine hdev.put (wf_admission ..) rfl (List.pairwise_singleton _ _) (fun x hx => ?_) hput
  obtain rfl := List.mem_singleton.mp hx
  show -1 ≤ len
  omega

theorem sample [Inhabited W] (hdev : dev.Inv M d) (hb : M.AttnRun b) {rank : ℕ}
    {continueIds : List ℕ} {continuedData : List V}
    (hids : continueIds.Sublist (List.range b.metadata.numTokens))
    (hdata : continuedData.length = continueIds.length)
    (hput : dev.pool.putBatch (sampleResults rank b continueIds continuedData) = .ok p) :
    { dev with pool := p }.Inv M d ∧ p.topkPools = dev.pool.topkPools ∧
      dev.pool.layerScheduler.Added p.layerScheduler
        ↑(continueIds.map fun i => (b.rowAt i).reqId) 0 := by
  obtain ⟨hwf, hreq, hlens⟩ := sampleResults_spec rank hb.toWf
    (fun i hi => List.mem_range.mp (hids.subset hi)) hdata
  have hput' := hdev.put hwf rfl ?_ ?_ hput
  · rwa [hreq] at hput'
  · exact List.pairwise_of_forall_mem_list fun x hx y hy _ => hlens y hy
  · intro r hr
    have hmem := List.mem_map_of_mem (f := (·.initPrefillLen)) hr
    rw [hwf.map_initPrefillLen] at hmem
    exact (hlens _ hmem).ge

/-- **Taking a batch** from the layer that was picked. -/
theorem take [Inhabited W] (hdev : dev.Inv M d) {l : ℤ} (hp : dev.picked = some l)
    (hget : dev.pool.getBatchFromLayer M.sort M.kernels.gatherSum l = (p, .ok (some b))) :
    p.Inv M.numLayers M.topK d (M.OkRow d) ∧ p.topkPools = dev.pool.topkPools ∧
      ((M.AttnRun b ∧
        p.layerScheduler.attnIds + ↑(b.rows.map (·.reqId)) = dev.pool.layerScheduler.attnIds ∧
        ∀ {β : Type} (f : ℕ → Row W V → β),
          p.layerScheduler.expertWork f = dev.pool.layerScheduler.expertWork f) ∨
      ∃ l < M.numLayers, ExpertWork (M.OkRow d) l b ∧
        p.layerScheduler.attnIds = dev.pool.layerScheduler.attnIds ∧
        ∀ {β : Type} (f : ℕ → Row W V → β),
          p.layerScheduler.expertWork f + ↑(b.rows.map (f l)) =
            dev.pool.layerScheduler.expertWork f) := by
  obtain ⟨i, hi, rfl, hpos⟩ := hdev.picked l hp
  by_cases hattn : i ≤ M.numLayers
  · obtain ⟨s', c, heq, hwork, hne, hinv, hids, hrows, -⟩ :=
      hdev.pool.get_attn M.sort M.kernels.gatherSum hattn hpos
    obtain ⟨rfl, hc⟩ := Prod.mk.inj (heq.symm.trans hget)
    obtain rfl := Option.some.inj (Except.ok.inj hc)
    exact ⟨hinv, rfl, .inl ⟨⟨hwork.toWf, hwork.tag, hwork.layerId.le.trans hattn, hne, hwork.lens⟩,
      hids, hrows⟩⟩
  · rw [hdev.pool.sched.numLayers_eq] at hi
    obtain ⟨l, rfl⟩ : ∃ l, i = M.numLayers + 1 + l := ⟨i - (M.numLayers + 1), by omega⟩
    have hl : l < M.numLayers := by omega
    obtain ⟨s', c, heq, hwork, hinv, hids, hrows⟩ :=
      hdev.pool.get_expert M.sort M.kernels.gatherSum Setup.OkRow.expId_lt hl hpos
    obtain ⟨rfl, hc⟩ := Prod.mk.inj (heq.symm.trans hget)
    obtain rfl := Option.some.inj (Except.ok.inj hc)
    exact ⟨hinv, rfl, .inr ⟨l, hl, hwork, hids, hrows⟩⟩

theorem process (hdev : dev.Inv M d) (hb : M.MsgOk d b)
    (hprocess : dev.pool.processBatch b = .ok p) :
    { dev with pool := p }.Inv M d := by
  rcases hb with ⟨l, hl, hmsg⟩ | ⟨l, hpos, hl, hmsg⟩
  · obtain ⟨s', heq, hinv, hadded⟩ := hdev.pool.process_expertMsg hl hmsg
    obtain rfl := Except.ok.inj (heq.symm.trans hprocess)
    exact hdev.withPool hinv hadded.mono
  · by_cases hk : 1 < M.topK
    · obtain ⟨tp, tp', s', -, -, heq, hinv, hadded⟩ := hdev.pool.process_replyMsg hk hpos hl hmsg
      obtain rfl := Except.ok.inj (heq.symm.trans hprocess)
      exact hdev.withPool hinv hadded.mono
    · obtain ⟨s', heq, hinv, hadded⟩ := hdev.pool.process_replyMsg_one (by omega) hl hmsg
      obtain rfl := Except.ok.inj (heq.symm.trans hprocess)
      exact hdev.withPool hinv hadded.mono

theorem attnRun_of_mem (hdev : dev.Inv M d) {before after : List (TokenBatch W V)}
    (hrun : dev.running = before ++ b :: after) (hattn : b.metadata.isAttention) :
    M.AttnRun b := by
  refine (hdev.running b (by simp [hrun])).resolve_right ?_
  rintro ⟨l, -, hwork⟩
  simp [BatchMetadata.isAttention, hwork.tag] at hattn

theorem expertWork_of_mem (hdev : dev.Inv M d) {before after : List (TokenBatch W V)}
    (hrun : dev.running = before ++ b :: after) (hexp : b.metadata.isExpert) :
    ∃ l < M.numLayers, ExpertWork (M.OkRow d) l b := by
  refine (hdev.running b (by simp [hrun])).resolve_left fun hb => ?_
  simp [BatchMetadata.isExpert, hb.tag] at hexp

theorem running_rest (hdev : dev.Inv M d) {before after : List (TokenBatch W V)}
    (hrun : dev.running = before ++ b :: after) : ∀ c ∈ before ++ after, M.RunOk d c := by
  intro c hc
  refine hdev.running c ?_
  rw [hrun]
  exact (List.sublist_cons_self b after).append_left before |>.subset hc

theorem schedule (hdev : dev.Inv M d) : Inv M d { dev with
    pool := { dev.pool with layerScheduler := dev.pool.layerScheduler.schedule.2 }
    picked := if dev.pool.layerScheduler.schedule.1 = -1 then none
      else some dev.pool.layerScheduler.schedule.1 } := by
  obtain ⟨hpool, hadded⟩ := hdev.pool.schedule
  refine ⟨hpool, fun l hl => ?_, hdev.running, hdev.sendQueue, hdev.sending, hdev.pending⟩
  simp only at hl
  split_ifs at hl with hidle
  obtain rfl := Option.some.inj hl
  obtain ⟨i, hi, heq, hpos⟩ := hdev.pool.sched.toOk.pos_of_schedule hidle
  refine ⟨i, ?_, heq, hpos.trans_le (hadded.mono i)⟩
  rw [hpool.sched.numLayers_eq]
  rwa [hdev.pool.sched.numLayers_eq] at hi

end Device.Inv

/-! ### Every step -/

namespace System

variable [Inhabited W] {s s' : System W V M.numDevices}

theorem Inv.step (hk : 0 < M.topK) (hs : s.Inv M) (hstep : Step M s s') : s'.Inv M := by
  cases hstep with
  | @admitRequest d r len v p hr hlen hput =>
    exact (hs.setDevice ((hs.device d).admitRequest hlen hput).1).ghost ..
  | @setThreshold d attn expert ha he =>
    have hdev := hs.device d
    refine hs.setDevice (hdev.withPool ?_ fun _ => le_rfl)
    exact ⟨hdev.pool.topK, hdev.pool.numGroups, hdev.pool.sched, ⟨ha, he⟩, hdev.pool.numPools,
      hdev.pool.pools⟩
  | @schedule d hp => exact hs.setDevice (hs.device d).schedule
  | @take d l p b hp hget =>
    have hdev := hs.device d
    obtain ⟨hpool, -, hwork⟩ := hdev.take hp hget
    refine hs.setDevice ⟨hpool, by simp, ?_, hdev.sendQueue, hdev.sending, hdev.pending⟩
    refine List.forall_mem_append.mpr ⟨hdev.running, List.forall_mem_singleton.mpr ?_⟩
    exact hwork.imp (·.1) fun ⟨l, hl, hwork, _⟩ => ⟨l, hl, hwork⟩
  | @attend d before after b b' hiddens ids weights hrun hattn hlayer hhiddens hids hweights
      hattends hexp hpost =>
    have hdev := hs.device d
    have hb := hdev.attnRun_of_mem hrun hattn
    have hout := (hb.postprocess hk d.isLt hlayer hhiddens hids hweights hexp hpost).1
    refine Inv.ghost (hs.setDevice ?_) ..
    refine ⟨hdev.pool, hdev.picked, hdev.running_rest hrun, ?_, hdev.sending, hdev.pending⟩
    exact List.forall_mem_append.mpr ⟨hdev.sendQueue, List.forall_mem_singleton.mpr (.inl hout)⟩
  | @sample d before after b continueIds continuedData p hrun hattn hlayer hids hdata hsamples
      hput =>
    have hdev := hs.device d
    have hb := hdev.attnRun_of_mem hrun hattn
    have hdev' := (hdev.sample hb hids hdata hput).1
    refine Inv.ghost (hs.setDevice ?_) ..
    exact ⟨hdev'.pool, hdev'.picked, hdev.running_rest hrun, hdev.sendQueue, hdev.sending,
      hdev.pending⟩
  | @expert d before after b b' hrun hexp hexec =>
    have hdev := hs.device d
    obtain ⟨l, hl, hwork⟩ := hdev.expertWork_of_mem hrun hexp
    have hout := (hwork.execute hl hexec).1
    refine hs.setDevice ⟨hdev.pool, hdev.picked, hdev.running_rest hrun, ?_, hdev.sending,
      hdev.pending⟩
    exact List.forall_mem_append.mpr ⟨hdev.sendQueue, List.forall_mem_singleton.mpr (.inr hout)⟩
  | @dispatch d b rest hqueue hidle =>
    have hdev := hs.device d
    obtain ⟨hb, hrest⟩ := List.forall_mem_cons.mp (hqueue ▸ hdev.sendQueue)
    refine hs.setDevice ⟨hdev.pool, hdev.picked, hdev.running, hrest, fun x hx => ?_,
      hdev.pending⟩
    rcases hb with hb | hb
    · exact ((hb.dispatch d.isLt).2 x hx).2.2
    · exact ((hb.dispatch d.isLt).2 x hx).2.2
  | @send d e c b rest hsending hpeer =>
    have hdev := hs.device d
    obtain ⟨⟨e', -, hpeer', hmsg⟩, hrest⟩ := List.forall_mem_cons.mp (hsending ▸ hdev.sending)
    obtain rfl : (e : ℕ) = e' := Option.some.inj (hpeer.symm.trans hpeer')
    refine Inv.setNet (hs.setDevice ?_) ?_
    · exact ⟨hdev.pool, hdev.picked, hdev.running, hdev.sendQueue, hrest, hdev.pending⟩
    · exact List.forall_mem_append.mpr ⟨hs.net d e, List.forall_mem_singleton.mpr hmsg⟩
  | @receive d e b rest hnet =>
    have hdev := hs.device d
    obtain ⟨hmsg, hrest⟩ := List.forall_mem_cons.mp (hnet ▸ hs.net e d)
    refine Inv.setNet (hs.setDevice ?_) hrest
    refine ⟨hdev.pool, hdev.picked, hdev.running, hdev.sendQueue, hdev.sending, ?_⟩
    exact List.forall_mem_append.mpr ⟨hdev.pending, List.forall_mem_singleton.mpr hmsg⟩
  | @complete d before after b p hpending hprocess =>
    have hdev := hs.device d
    obtain ⟨hbefore, hmid⟩ := List.forall_mem_append.mp (hpending ▸ hdev.pending)
    obtain ⟨hmsg, hafter⟩ := List.forall_mem_cons.mp hmid
    have hdev' := hdev.process hmsg hprocess
    refine Inv.ghost (hs.setDevice ?_) ..
    exact ⟨hdev'.pool, hdev'.picked, hdev.running, hdev.sendQueue, hdev.sending,
      List.forall_mem_append.mpr ⟨hbefore, hafter⟩⟩

theorem Inv.of_steps (hk : 0 < M.topK) (hs : s.Inv M) (hsteps : ReflTransGen (Step M) s s') :
    s'.Inv M := by
  induction hsteps with
  | refl => exact hs
  | tail _ hstep ih => exact ih.step hk hstep

end System

end StreamEP

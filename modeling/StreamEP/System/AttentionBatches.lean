import StreamEP.System.Actions

/-!
# The batches attention gets

Memory for new requests is allocated from the front of an attention batch, so the batch has to
have its new requests first and count them right, and its columns have to belong together. No
place in the program sorts for it: tokens arrive one by one, in replies of experts, gathered from
several replies, or looped back by the sampler, and are split and merged on the way. The shape is
part of what every place holds, so every batch that leaves the pool has it.

## Main results

* `System.handedOut_of_reachable`
-/

namespace StreamEP

open Relation

variable {W V : Type} [TensorRow V]

/-- A batch for attention layer `i`, made of `tokens`: `p` new requests, then `d` decoding ones. -/
structure HandedOut (gatherSum : List V → V) (i : ℕ)
    (tokens : List (Row W V ⊕ TokenTopKInfo V)) (p d : ℕ) (b : TokenBatch W V) : Prop where
  wf : b.Wf
  layerId : b.metadata.layerId = i
  new : ∀ x ∈ b.metadata.initPrefillLens.take p, x ≠ -1
  old : ∀ x ∈ b.metadata.initPrefillLens.drop p, x = -1
  numPrefillSeqs : b.metadata.numPrefillSeqs = some p
  numPrefillTokens : b.metadata.numPrefillTokens = some p
  numDecodeTokens : b.metadata.numDecodeTokens = some d
  numTokens : p + d = b.metadata.numTokens
  /-- Request, prefill length and data of every row are those of one of the tokens. -/
  rows : (b.rows.map Row.core).Perm (tokens.map (coreRow gatherSum))

theorem AttnWork.handedOut {gatherSum : List V → V} {i : ℕ}
    {tokens : List (Row W V ⊕ TokenTopKInfo V)} {b : TokenBatch W V} (hb : AttnWork i b)
    (hrows : (b.rows.map Row.core).Perm (tokens.map (coreRow gatherSum))) :
    HandedOut gatherSum i tokens (numNew b.metadata.initPrefillLens)
      (b.metadata.numTokens - numNew b.metadata.initPrefillLens) b where
  wf := hb.toWf
  layerId := hb.layerId
  new := hb.prefillFirst.take_ne
  old := hb.prefillFirst.drop_eq
  numPrefillSeqs := hb.numPrefillSeqs
  numPrefillTokens := hb.numPrefillTokens
  numDecodeTokens := hb.numDecodeTokens
  numTokens := by
    have hle := numNew_le_length b.metadata.initPrefillLens
    rw [hb.initPrefillLens] at hle
    omega
  rows := hrows

namespace System

variable [Inhabited W] {M : Setup W V} {s : System W V M.numDevices}

/-- **Every attention batch has its new requests first.** In every run that starts empty, every
batch the pool hands out for an attention layer, up to the final pseudo-layer, has the shape and is
made of the tokens at the front of the queue of that layer; and a layer with tokens does hand out
a batch. -/
theorem handedOut_of_reachable (hk : 1 ≤ M.topK) {ty : Fin M.numDevices → SchedulerType}
    {attn expert : Fin M.numDevices → ℤ} (hattn : ∀ d, 1 ≤ attn d) (hexpert : ∀ d, 1 ≤ expert d)
    (hrun : ReflTransGen (Step M) (init M ty attn expert fun _ => []) s) (d : Fin M.numDevices)
    {i : ℕ} (hi : i ≤ M.numLayers) :
    (((s.device d).pool.layerScheduler.layerAt i).queued ≠ [] →
      ∃ p b, (s.device d).pool.getBatchFromLayer M.sort M.kernels.gatherSum i =
        (p, .ok (some b))) ∧
    ∀ p b, (s.device d).pool.getBatchFromLayer M.sort M.kernels.gatherSum i =
        (p, .ok (some b)) →
      ∃ tokens new old,
        tokens ++ (p.layerScheduler.layerAt i).queued =
          ((s.device d).pool.layerScheduler.layerAt i).queued ∧
        HandedOut M.kernels.gatherSum i tokens new old b := by
  have hs : s.Inv M := Inv.of_steps hk (.init hattn hexpert fun _ _ => by simp) hrun
  have hpool := (hs.device d).pool
  have hlt : i < (s.device d).pool.layerScheduler.numLayers := by
    rw [hpool.sched.numLayers_eq]
    omega
  refine ⟨fun hne => ?_, fun p b hget => ?_⟩
  · have hpos : 0 < ((s.device d).pool.layerScheduler.layerAt i).numTokens := by
      rw [(hpool.sched.layers i hlt).numTokens]
      exact_mod_cast List.length_pos_iff.mpr hne
    obtain ⟨s', b, hget, -⟩ := hpool.get_attn M.sort M.kernels.gatherSum hi hpos
    exact ⟨_, b, hget⟩
  · have hpos := hpool.pos_of_get hi hget
    obtain ⟨s', b', hget', hwork, -, -, -, -, tokens, hsplit, hrows⟩ :=
      hpool.get_attn M.sort M.kernels.gatherSum hi hpos
    obtain ⟨rfl, hb⟩ := Prod.mk.inj (hget'.symm.trans hget)
    obtain rfl := Option.some.inj (Except.ok.inj hb)
    exact ⟨tokens, _, _, hsplit, hwork.handedOut hrows⟩

/-- A new request, handed out at the device that admitted it. -/
theorem handedOut_after_request : ∃ s : System ℕ ℕ Setup.pair.numDevices,
    ReflTransGen (Step .pair)
      (init .pair (fun _ => .flfs) (fun _ => 1) (fun _ => 1) fun _ => []) s ∧
    ∃ p b tokens new old,
      (s.device ⟨1, by decide⟩).pool.getBatchFromLayer .stable List.sum 0 = (p, .ok (some b)) ∧
      tokens ++ (p.layerScheduler.layerAt 0).queued =
        ((s.device ⟨1, by decide⟩).pool.layerScheduler.layerAt 0).queued ∧
      HandedOut List.sum 0 tokens new old b := by
  have hrequest := @Step.admitRequest ℕ ℕ _ _ .pair
    (init .pair (fun _ => .flfs) (fun _ => 1) (fun _ => 1) fun _ => []) ⟨1, by decide⟩ 5 3 7 _
    (by decide) (by decide) rfl
  have hrun := ReflTransGen.single hrequest
  obtain ⟨hserve, hshape⟩ := handedOut_of_reachable (M := .pair) (by decide) (fun _ => le_rfl)
    (fun _ => le_rfl) hrun ⟨1, by decide⟩ (Nat.zero_le _)
  obtain ⟨p, b, hget⟩ := hserve (by decide)
  obtain ⟨tokens, new, old, hsplit, hout⟩ := hshape p b hget
  exact ⟨_, hrun, p, b, tokens, new, old, hget, hsplit, hout⟩

end System

end StreamEP

import StreamEP.System.Refinement

/-!
# Asynchronous layers are correct

An expert layer is computed by rows that travel on their own: duplicated and sorted by expert after
attention, cut into pieces for the devices, merged and cut again in the queues of the experts,
weighted, sorted by attention rank and sent back, and gathered by request. What a gathering pool
emits for a request is nevertheless what the layer computes for it: the weighted outputs of the
experts the gate chose for that token, each exactly once.

## Main results

* `System.correct_of_reachable`
-/

namespace StreamEP

open Relation

variable {W V : Type}

/-- An emitted token holds what job `j` computes: one weighted output per gate, with the prefill
length and the rank of the token, on the device of that rank. -/
structure Emission.Correct (M : Setup W V) (j : Job W V) (x : Emission W V) : Prop where
  /-- The job is the one that was out for the request. -/
  job : x.job = some j
  layer : x.layer = j.layer + 1
  /-- There are `top_k` gates. -/
  gates : j.gates.length = M.topK
  /-- The rows are the weighted outputs, in some order. -/
  tensors : (x.token.topkTensors : Multiset V) =
    ↑(j.gates.map fun g => M.kernels.scale g.2 (M.kernels.expert j.layer g.1 j.hidden))
  /-- The prefill length is that of the token. -/
  initPrefillLen : x.token.initPrefillLen = j.initPrefillLen
  attnDpRank : x.token.attnDpRank = j.attnDpRank
  device : x.device = j.attnDpRank

/-- A complete entry that equals the copies of a job is correct. -/
theorem Emission.Correct.of_copies {M : Setup W V} (hk : 0 < M.topK) {d l : ℕ}
    {t : TokenTopKInfo V} {job : Option (Job W V)} (hrank : t.attnDpRank = d)
    (hcount : t.count = M.topK) (hjob : job.elim 0 (Job.copies M.kernels) = t.copies l) :
    ∃ j, Emission.Correct M j ⟨d, l, t, job⟩ := by
  have hcard : (t.copies l).card = M.topK := t.card_copies.trans hcount
  cases job with
  | none =>
    rw [← hjob, Option.elim_none, Multiset.card_zero] at hcard
    omega
  | some j =>
    rw [Option.elim_some] at hjob
    have hvalues := congrArg (Multiset.map Copy.value) hjob
    simp only [Job.copies, TokenTopKInfo.copies, Multiset.map_coe, List.map_map] at hvalues
    -- any copy tells what they have in common
    obtain ⟨c, hc⟩ := Multiset.card_pos_iff_exists_mem.mp (hcard ▸ hk)
    obtain ⟨v, -, hv⟩ := List.mem_map.mp (Multiset.mem_coe.mp hc)
    rw [← hjob] at hc hcard
    obtain ⟨g, -, hg⟩ := List.mem_map.mp (Multiset.mem_coe.mp hc)
    obtain ⟨hlayer, -, hlen, hrank'⟩ := Copy.mk.inj (hv.trans hg.symm)
    refine ⟨j, rfl, hlayer, by simpa [Job.copies] using hcard, ?_, hlen, hrank',
      hrank.symm.trans hrank'⟩
    simpa [Function.comp_def] using hvalues.symm

namespace System

variable [Inhabited W] [TensorRow V] {M : Setup W V} {s s' : System W V M.numDevices}

theorem correct_step (hk : 1 < M.topK) (hs : s.Inv M)
    (hσ : ForkJoin.Inv M.topK Alike (abs M s)) (hstep : Step M s s')
    (h : ∀ x ∈ s.emitted, ∃ j, x.Correct M j) : ∀ x ∈ s'.emitted, ∃ j, x.Correct M j := by
  cases hstep with
  | @complete d before after b p hpending hprocess =>
    have hemits := (abs_complete hk hs hσ hpending hprocess).1
    refine List.forall_mem_append.mpr ⟨h, fun x hx => ?_⟩
    obtain ⟨t, ht, rfl⟩ := List.mem_map.mp hx
    obtain ⟨hrank, hcount, hjob⟩ := hemits t ht
    exact Emission.Correct.of_copies (by omega) hrank hcount hjob
  | _ => exact h

theorem correct_of_run (hk : 1 < M.topK) (hs : s.Inv M)
    (hσ : ForkJoin.Inv M.topK Alike (abs M s)) (h : ∀ x ∈ s.emitted, ∃ j, x.Correct M j)
    (hrun : ReflTransGen (Step M) s s') : ∀ x ∈ s'.emitted, ∃ j, x.Correct M j := by
  induction hrun with
  | refl => exact h
  | tail hsteps hstep ih =>
    obtain ⟨hs', hσ'⟩ := forkJoinInv_of_steps hk hs hσ hsteps
    exact correct_step hk hs' hσ' hstep ih

/-- **Asynchronous layers are correct.** In every run from any attention batches in flight, with
distinct requests and positive thresholds, whatever the placement, the experts, the gates and the
interleaving, every token a gathering pool emits holds exactly the weighted expert outputs of the
job that was out for its request. -/
theorem correct_of_reachable (hk : 2 ≤ M.topK) {ty : Fin M.numDevices → SchedulerType}
    {attn expert : Fin M.numDevices → ℤ} (hattn : ∀ d, 1 ≤ attn d) (hexpert : ∀ d, 1 ≤ expert d)
    {inFlight : Fin M.numDevices → List (TokenBatch W V)} (hin : InFlightOk M inFlight)
    (hnodup : (init M ty attn expert inFlight).admitted.Nodup)
    (hrun : ReflTransGen (Step M) (init M ty attn expert inFlight) s) :
    ∀ x ∈ s.emitted, ∃ j, x.Correct M j :=
  correct_of_run hk (.init hattn hexpert hin) (inv_abs_init hin hnodup) (by simp [init]) hrun

/-- One token of layer `0` in flight. -/
def oneInFlight : TokenBatch ℕ ℕ where
  data := [7]
  metadata :=
    { batchTag := .attention, numTokens := 1, tokenHiddenDim := 1, layerId := 0, reqIds := [3]
      expIds := [], topkWeights := [], attnDpRanks := [], initPrefillLens := [5] }

/-- The token is sent to the experts of both devices of the pair and gathered at the first. -/
theorem correct_after_gather : ∃ s : System ℕ ℕ Setup.pair.numDevices,
    ReflTransGen (Step .pair) (init .pair (fun _ => .flfs) (fun _ => 1) (fun _ => 4)
      fun d => if d = Setup.fst then [oneInFlight] else []) s ∧
    s.emitted.map (fun x => (x.device, x.layer, x.token.seqId, x.token.topkTensors)) =
      [(0, 1, 3, [21, 16])] ∧
    ∀ x ∈ s.emitted, ∃ j, x.Correct .pair j := by
  have hattend := @Step.attend ℕ ℕ _ _ .pair (init .pair (fun _ => .flfs) (fun _ => 1) (fun _ => 4)
    fun d => if d = Setup.fst then [oneInFlight] else []) Setup.fst [] [] oneInFlight _ [7] [1, 0]
    [2, 3] rfl rfl (by decide) rfl rfl rfl (fun _ _ => trivial) (by decide) rfl
  have hrun := ReflTransGen.single hattend
  -- the copies travel to the experts
  have hrun := hrun.tail (Step.dispatch (d := Setup.fst) rfl rfl)
  have hrun := hrun.tail (Step.send (d := Setup.fst) (e := Setup.fst) rfl rfl)
  have hrun := hrun.tail (Step.send (d := Setup.fst) (e := Setup.snd) rfl rfl)
  have hrun := hrun.tail (Step.receive (d := Setup.snd) (e := Setup.fst) rfl)
  have hrun := hrun.tail (Step.receive (d := Setup.fst) (e := Setup.fst) rfl)
  have hrun := hrun.tail (@Step.complete ℕ ℕ _ _ .pair _ Setup.snd [] [] _ _ rfl rfl)
  have hrun := hrun.tail (@Step.complete ℕ ℕ _ _ .pair _ Setup.fst [] [] _ _ rfl rfl)
  -- the experts work
  have hrun := hrun.tail (Step.schedule (d := Setup.fst) rfl)
  have hrun := hrun.tail (Step.schedule (d := Setup.snd) rfl)
  have hrun := hrun.tail (Step.take (d := Setup.snd) rfl rfl)
  have hrun := hrun.tail (Step.take (d := Setup.fst) rfl rfl)
  have hrun := hrun.tail (@Step.expert ℕ ℕ _ _ .pair _ Setup.snd [] [] _ _ rfl rfl rfl)
  have hrun := hrun.tail (@Step.expert ℕ ℕ _ _ .pair _ Setup.fst [] [] _ _ rfl rfl rfl)
  -- the replies travel back, and the second to be received completes first
  have hrun := hrun.tail (Step.dispatch (d := Setup.snd) rfl rfl)
  have hrun := hrun.tail (Step.dispatch (d := Setup.fst) rfl rfl)
  have hrun := hrun.tail (Step.send (d := Setup.snd) (e := Setup.fst) rfl rfl)
  have hrun := hrun.tail (Step.send (d := Setup.fst) (e := Setup.fst) rfl rfl)
  have hrun := hrun.tail (Step.receive (d := Setup.fst) (e := Setup.snd) rfl)
  have hrun := hrun.tail (Step.receive (d := Setup.fst) (e := Setup.fst) rfl)
  have hrun := hrun.tail (@Step.complete ℕ ℕ _ _ .pair _ Setup.fst [_] [] _ _ rfl rfl)
  have hrun := hrun.tail (@Step.complete ℕ ℕ _ _ .pair _ Setup.fst [] [] _ _ rfl rfl)
  refine ⟨_, hrun, rfl, correct_of_reachable (by decide) (fun _ => le_rfl) (fun _ => by decide)
    (fun d b hb => ?_) (by decide) hrun⟩
  split_ifs at hb
  · obtain rfl := List.mem_singleton.mp hb
    exact ⟨⟨⟨rfl, rfl, .inl rfl, .inl rfl, .inl rfl⟩, rfl, rfl⟩, rfl, by decide, by decide,
      by decide⟩
  · cases hb

end System

end StreamEP

import StreamEP.System.LayerCorrect

/-!
# One step in flight per request

A gathering pool finds the entry of a row by its request alone. That is enough because no request
is ever in two places of its computation: it is one token, or the copies of one attention pass and
nothing else.

To tell decode steps apart, rows are stamped. A stamped setup computes as the plain one does and
carries the decode step of a row along: attention, experts and gathering keep it, the sampler
counts it up. No part of the system looks at the data of a row, so the stamps are only there to be
talked about.

## Main results

* `System.conserved_of_reachable`
-/

namespace StreamEP

open Relation

variable {W V : Type}

/-! ### Decode steps -/

/-- Rows with the decode step they belong to. -/
instance [TensorRow V] : TensorRow (ℕ × V) where
  default := (0, default)
  size := TensorRow.size V

/-- Arithmetic that carries the decode step along. -/
def Kernels.stamped (K : Kernels W V) : Kernels W (ℕ × V) where
  expert := fun l e x => (x.1, K.expert l e x.2)
  scale := fun w x => (x.1, K.scale w x.2)
  gatherSum := fun xs => ((xs.head?.map Prod.fst).getD 0, K.gatherSum (xs.map Prod.snd))
  one := K.one

/-- The setup with rows that carry their decode step, which the sampler counts up. -/
def Setup.stamped (M : Setup W V) : Setup W (ℕ × V) where
  deploy := M.deploy
  topK := M.topK
  kernels := M.kernels.stamped
  sort := M.sort
  attends := fun l x y => y.1 = x.1 ∧ M.attends l x.2 y.2
  samples := fun x y => y.1 = x.1 + 1 ∧ M.samples x.2 y.2

/-- All copies of a job belong to the decode step of its row. -/
theorem Job.step_copies {K : Kernels W V} {j : Job W (ℕ × V)} {c : Copy (ℕ × V)}
    (hc : c ∈ j.copies K.stamped) :
    c.layer = j.layer + 1 ∧ c.value.1 = j.hidden.1 ∧ c.attnDpRank = j.attnDpRank := by
  obtain ⟨g, -, rfl⟩ := List.mem_map.mp (Multiset.mem_coe.mp hc)
  exact ⟨rfl, rfl, rfl⟩

/-! ### Where a request is -/

variable [Inhabited W] [TensorRow V]

namespace System

/-- The copies of request `r`, wherever they are. -/
def copiesOf {D : ℕ} (K : Kernels W V) (s : System W V D) (r : ℕ) : Multiset (Copy V) :=
  ForkJoin.valuesOf r (s.copies K)

theorem held_le_copies {D : ℕ} {K : Kernels W V} {s : System W V D} {d : Fin D} {l : ℕ}
    {tp : TokenTopKPool V} (htp : (s.device d).pool.topkPools[l]? = some tp)
    {t : TokenTopKInfo V} (ht : t ∈ tp.pool) : t.held l ≤ s.copies K := by
  obtain ⟨hl, rfl⟩ := List.getElem?_eq_some_iff.mp htp
  have hgathered : t.held l ≤ gathered TokenTopKInfo.held (s.device d).pool.topkPools := by
    refine (TokenTopKPool.held_le ht).trans ?_
    refine le_trans (le_of_eq ?_) (Finset.single_le_sum (fun _ _ => zero_le)
      (Finset.mem_range.mpr hl))
    rw [List.getD_eq_getElem _ _ hl]
    rfl
  have hdevice : t.held l ≤ (s.device d).copies K := by
    refine hgathered.trans ?_
    simp only [Device.copies, add_assoc]
    exact (Multiset.le_add_right _ _).trans (Multiset.le_add_left _ _)
  have hdevices : (s.device d).copies K ≤ ∑ e, (s.device e).copies K :=
    Finset.single_le_sum (f := fun e => (s.device e).copies K) (fun _ _ => zero_le)
      (Finset.mem_univ d)
  exact (hdevice.trans hdevices).trans (Multiset.le_add_right _ _)

end System

/-- Where a request is: it is one token waiting for or in attention or sampling, or it is exactly
`top_k` copies of one attention pass, some of them gathered on the device that owns it. -/
inductive Represented (M : Setup W V) (s : System W (ℕ × V) M.numDevices) (r : ℕ) : Prop
  /-- One token, and no copies. -/
  | whole (hone : s.whole.count r = 1) (hnone : s.copiesOf M.stamped.kernels r = 0)
  /-- Copies of layer `l` and of one decode step, and no token. -/
  | forked (l step rank : ℕ) (hzero : s.whole.count r = 0)
      (hcard : (s.copiesOf M.stamped.kernels r).card = M.topK)
      (hcopies : ∀ c ∈ s.copiesOf M.stamped.kernels r,
        c.layer = l ∧ c.value.1 = step ∧ c.attnDpRank = rank)
      (hheld : ∀ (d : Fin M.numDevices) (l' : ℕ) (tp : TokenTopKPool (ℕ × V)),
        (s.device d).pool.topkPools[l']? = some tp →
        ∀ t ∈ tp.pool, t.seqId = r → l' = l ∧ d = rank ∧ t.count < M.topK)

namespace System

variable {M : Setup W V} {s : System W (ℕ × V) M.numDevices}

theorem represented_of_live (hk : 2 ≤ M.topK) (hs : s.Inv M.stamped) {r : ℕ}
    (hlive : (abs M.stamped s).Live M.topK Alike r) : Represented M s r := by
  rcases hlive with ⟨hone, hnone⟩ | ⟨hzero, hjob, hcard, -⟩
  · exact .whole hone hnone
  · -- the copies are those of the recorded job
    replace hjob : s.copiesOf M.stamped.kernels r =
      (s.job r).elim 0 (Job.copies M.stamped.kernels) := hjob
    cases hr : s.job r with
    | none =>
      rw [show (abs M.stamped s).job r = 0 by simp [abs, hr], Multiset.card_zero] at hcard
      omega
    | some j =>
      rw [hr, Option.elim_some] at hjob
      have hcopies : ∀ c ∈ s.copiesOf M.stamped.kernels r,
          c.layer = j.layer + 1 ∧ c.value.1 = j.hidden.1 ∧ c.attnDpRank = j.attnDpRank :=
        fun c hc => Job.step_copies (hjob ▸ hc)
      refine .forked _ _ _ hzero ?_ hcopies fun d l' tp htp t ht hid => ?_
      · rw [hjob]
        simpa [abs, hr] using hcard
      · obtain ⟨hgather, -⟩ := (hs.device d).pool.pools l' tp htp
        obtain ⟨c, hc⟩ : ∃ c, c ∈ t.copies l' := by
          rw [← Multiset.card_pos_iff_exists_mem, t.card_copies]
          exact hgather.count_pos t ht
        have hmem : c ∈ s.copiesOf M.stamped.kernels r := by
          refine ForkJoin.mem_valuesOf.mpr (Multiset.mem_of_le (held_le_copies htp ht) ?_)
          exact hid ▸ Multiset.mem_map_of_mem _ hc
        obtain ⟨v, -, rfl⟩ := List.mem_map.mp (Multiset.mem_coe.mp hc)
        obtain ⟨hlayer, -, hrank⟩ := hcopies _ hmem
        exact ⟨hlayer, (hgather.entries t ht).2.symm.trans hrank,
          hgather.topK ▸ hgather.count_lt t ht⟩

/-- **One step in flight per request.** In every run that starts empty, a request that is admitted
and not finished is one token or the copies of one attention pass, a finished one is nowhere, and a
gathering pool never combines rows of two decode steps. -/
theorem conserved_of_reachable (M : Setup W V) (hk : 2 ≤ M.topK)
    {ty : Fin M.numDevices → SchedulerType} {attn expert : Fin M.numDevices → ℤ}
    (hattn : ∀ d, 1 ≤ attn d) (hexpert : ∀ d, 1 ≤ expert d)
    {s : System W (ℕ × V) M.numDevices}
    (hrun : ReflTransGen (Step M.stamped) (init M.stamped ty attn expert fun _ => []) s) :
    (∀ r ∈ s.admitted, r ∉ s.finished → Represented M s r) ∧
    (∀ r ∈ s.finished, s.whole.count r = 0 ∧ s.copiesOf M.stamped.kernels r = 0) ∧
    ∀ x ∈ s.emitted, x.token.count = M.topK ∧ ∃ step, ∀ v ∈ x.token.topkTensors, v.1 = step := by
  have hin : InFlightOk M.stamped fun _ => [] := fun _ _ h => by cases h
  have hnone : (init M.stamped ty attn expert fun _ => []).admitted = [] :=
    List.flatMap_eq_nil_iff.mpr fun _ _ => rfl
  have hs₀ : (init M.stamped ty attn expert fun _ => []).Inv M.stamped := .init hattn hexpert hin
  have hσ₀ : ForkJoin.Inv M.topK Alike
      (abs M.stamped (init M.stamped ty attn expert fun _ => [])) :=
    inv_abs_init hin (hnone ▸ List.nodup_nil)
  have hk' : 1 < M.stamped.topK := hk
  obtain ⟨hs, hσ⟩ := forkJoinInv_of_steps hk' hs₀ hσ₀ hrun
  refine ⟨fun r hr hfin => ?_, fun r hr => (hσ r).finished hr, fun x hx => ?_⟩
  · exact represented_of_live hk hs ((hσ r).live hr hfin)
  · obtain ⟨j, hj⟩ := correct_of_run hk' hs₀ hσ₀ (by simp [init]) hrun x hx
    refine ⟨?_, j.hidden.1, fun v hv => ?_⟩
    · have hlen := congrArg Multiset.card hj.tensors
      rw [Multiset.coe_card, Multiset.coe_card, List.length_map, hj.gates] at hlen
      exact hlen
    · have hmem := Multiset.mem_coe.mpr hv
      rw [hj.tensors] at hmem
      obtain ⟨g, -, rfl⟩ := List.mem_map.mp (Multiset.mem_coe.mp hmem)
      rfl

/-- A request is admitted, attended to, and one of its copies is on its way while the other still
waits to be sent. -/
theorem conserved_after_send : ∃ s : System ℕ (ℕ × ℕ) Setup.pair.numDevices,
    ReflTransGen (Step Setup.pair.stamped) (init Setup.pair.stamped (fun _ => .flfs) (fun _ => 1)
      (fun _ => 4) fun _ => []) s ∧
    s.admitted = [3] ∧ (s.net (Setup.fst, Setup.fst)).length = 1 ∧
    (s.device Setup.fst).sending.length = 1 ∧ Represented .pair s 3 := by
  have hrequest := @Step.admitRequest ℕ (ℕ × ℕ) _ _ Setup.pair.stamped (init Setup.pair.stamped
    (fun _ => .flfs) (fun _ => 1) (fun _ => 4) fun _ => []) Setup.fst 3 5 (0, 7) _ (by decide)
    (by decide) rfl
  have hrun := ReflTransGen.single hrequest
  have hrun := hrun.tail (Step.schedule (M := Setup.pair.stamped) (d := Setup.fst) rfl)
  have hrun := hrun.tail (Step.take (M := Setup.pair.stamped) (d := Setup.fst) rfl rfl)
  have hrun := hrun.tail (@Step.attend ℕ (ℕ × ℕ) _ _ Setup.pair.stamped _ Setup.fst [] [] _ _
    [(0, 9)] [1, 0] [2, 3] rfl rfl (by decide) rfl rfl rfl
    (List.forall_mem_singleton.mpr ⟨rfl, trivial⟩) (by decide) rfl)
  have hrun := hrun.tail (Step.dispatch (M := Setup.pair.stamped) (d := Setup.fst) rfl rfl)
  have hrun := hrun.tail (Step.send (M := Setup.pair.stamped) (d := Setup.fst) (e := Setup.fst)
    rfl rfl)
  refine ⟨_, hrun, rfl, rfl, rfl, ?_⟩
  exact (conserved_of_reachable .pair (by decide) (fun _ => le_rfl) (fun _ => by decide) hrun).1 3
    (by decide) (by decide)

end System

end StreamEP

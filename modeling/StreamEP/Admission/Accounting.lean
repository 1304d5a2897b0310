import StreamEP.Admission.DPScheduler
import Mathlib.Algebra.BigOperators.Group.List.Basic
import Mathlib.Algebra.Order.BigOperators.Group.List
import Mathlib.Data.List.GetD
import Mathlib.Data.List.Induction
import Mathlib.Tactic.Linarith

/-!
# What admission reserves

The statistics of a rank are what it had at the start minus what its live requests reserve, for
every policy and every interleaving of arrivals, attempts and deletions. A policy that looks at
the statistics never overdraws a rank, and refuses a request only when no rank has room for it.
Requests leave the queue in the order they came: one that does not fit holds back the others until
deletions have made room.

## What the statistics are compared with

The scheduler never sees the engines. Its statistics are numbers that it lowers and raises itself,
so the only thing they can be right about is the record of its own decisions: `load` adds up what
the live requests reserve, and the invariant says that the two add up to the capacity.

## Main results

* `DPScheduler.scheduleOne_spec` — what a capacity-aware policy answers
* `SchedulerRun.Inv.step`, `SchedulerRun.Inv.of_steps`
* `SchedulerRun.Step.loop_cases` — what a step of the waiting loop does to the requests
* `SchedulerRun.accounted_of_reachable`
-/

namespace StreamEP

/-- The policies that look at the statistics, for `dpSize` ranks. -/
inductive Policy.CapacityAware (dpSize : ℕ) : Policy → Prop
  | max : CapacityAware dpSize .max
  | capRR : CapacityAware dpSize .capRR
  | weighted {weights : List ℚ} (hlength : weights.length = dpSize)
      (hnonneg : ∀ w ∈ weights, 0 ≤ w) (hsum : 0 < weights.sum) :
      CapacityAware dpSize (.ofWeights weights)

namespace DPScheduler

/-! ### Policies -/

theorem maxStat_spec (stats : List ℤ) :
    (maxStat stats = (0, -1) ∧ ∀ v ∈ stats, v ≤ 0) ∨
      ∃ (i : ℕ) (v : ℤ), maxStat stats = (v, (i : ℤ)) ∧ stats[i]? = some v ∧ 0 < v ∧
        ∀ v' ∈ stats, v' ≤ v := by
  induction stats using List.reverseRecOn with
  | nil => exact .inl ⟨rfl, by simp⟩
  | append_singleton stats a ih =>
    have hstep : maxStat (stats ++ [a]) =
        if a > (maxStat stats).1 then (a, (stats.length : ℤ)) else maxStat stats := by
      simp [maxStat, List.zipIdx_append]
    rw [hstep]
    rcases ih with ⟨hmax, hle⟩ | ⟨i, v, hmax, hi, hpos, hle⟩
    · rw [hmax]
      split
      · next ha =>
        refine .inr ⟨stats.length, a, rfl, by simp, ha, ?_⟩
        simp only [List.mem_append, List.mem_singleton]
        rintro v' (hv' | rfl)
        exacts [(hle v' hv').trans ha.le, le_refl _]
      · next ha =>
        refine .inl ⟨rfl, ?_⟩
        simp only [List.mem_append, List.mem_singleton]
        rintro v' (hv' | rfl)
        exacts [hle v' hv', not_lt.1 ha]
    · rw [hmax]
      split
      · next ha =>
        refine .inr ⟨stats.length, a, rfl, by simp, hpos.trans ha, ?_⟩
        simp only [List.mem_append, List.mem_singleton]
        rintro v' (hv' | rfl)
        exacts [(hle v' hv').trans ha.le, le_refl _]
      · next ha =>
        have hlt := (List.getElem?_eq_some_iff.1 hi).1
        refine .inr ⟨i, v, rfl, by rw [List.getElem?_append_left hlt, hi], hpos, ?_⟩
        simp only [List.mem_append, List.mem_singleton]
        rintro v' (hv' | rfl)
        exacts [hle v' hv', not_lt.1 ha]

/-- A rank with enough blocks has a score of at least zero, so it beats the start value. -/
theorem bestScore_spec {weights : List ℚ} (hw : ∀ w ∈ weights, 0 ≤ w) {required : ℤ}
    (hreq : 0 ≤ required) (stats : List ℤ) :
    (bestScore weights stats required = (-1, -1) ∧ ∀ v ∈ stats, v < required) ∨
      ∃ (i : ℕ) (v : ℤ) (score : ℚ), bestScore weights stats required = (score, (i : ℤ)) ∧
        stats[i]? = some v ∧ required ≤ v ∧ 0 ≤ score := by
  have hget : ∀ i, 0 ≤ weights.getD i 0 := by
    intro i
    rw [List.getD_eq_getElem?_getD]
    cases hi : weights[i]? with
    | none => simp
    | some w => exact hw w (List.mem_of_getElem? hi)
  induction stats using List.reverseRecOn with
  | nil => exact .inl ⟨rfl, by simp⟩
  | append_singleton stats a ih =>
    have hstep : bestScore weights (stats ++ [a]) required =
        if a < required then bestScore weights stats required
        else if a * weights.getD stats.length 0 > (bestScore weights stats required).1 then
          (a * weights.getD stats.length 0, (stats.length : ℤ))
        else bestScore weights stats required := by
      simp [bestScore, List.zipIdx_append]
    have hkeep : (∃ (i : ℕ) (v : ℤ) (score : ℚ),
        bestScore weights stats required = (score, (i : ℤ)) ∧ stats[i]? = some v ∧
          required ≤ v ∧ 0 ≤ score) → ∃ (i : ℕ) (v : ℤ) (score : ℚ),
        bestScore weights stats required = (score, (i : ℤ)) ∧ (stats ++ [a])[i]? = some v ∧
          required ≤ v ∧ 0 ≤ score := by
      rintro ⟨i, v, score, hbest, hi, hv, hscore⟩
      have hlt := (List.getElem?_eq_some_iff.1 hi).1
      exact ⟨i, v, score, hbest, by rw [List.getElem?_append_left hlt, hi], hv, hscore⟩
    rw [hstep]
    split
    · next ha =>
      refine ih.imp (fun h => ⟨h.1, ?_⟩) hkeep
      simp only [List.mem_append, List.mem_singleton]
      rintro v (hv | rfl)
      exacts [h.2 v hv, ha]
    · next ha =>
      have hscore : (0 : ℚ) ≤ a * weights.getD stats.length 0 :=
        mul_nonneg (by exact_mod_cast hreq.trans (not_lt.1 ha)) (hget _)
      split
      · exact .inr ⟨stats.length, a, _, rfl, by simp, not_lt.1 ha, hscore⟩
      · next hbeat =>
        rcases ih with ⟨hbest, -⟩ | h
        · rw [hbest] at hbeat
          exact absurd (show (-1 : ℚ) < _ by linarith) hbeat
        · exact .inr (hkeep h)

theorem capRRLoop_spec (stats : List ℤ) (required : ℤ) {dpSize : ℕ} (n : ℕ) {cur : ℕ}
    (hcur : cur < dpSize) :
    (capRRLoop stats required dpSize n cur).2 < dpSize ∧
      (((capRRLoop stats required dpSize n cur).1 = -1 ∧
          ∀ k < n, stats.getD ((cur + k) % dpSize) 0 < required) ∨
        ∃ i : ℕ, (capRRLoop stats required dpSize n cur).1 = i ∧ i < dpSize ∧
          required ≤ stats.getD i 0) := by
  induction n generalizing cur with
  | zero => exact ⟨hcur, .inl ⟨rfl, by simp⟩⟩
  | succ n ih =>
    have hnext : (cur + 1) % dpSize < dpSize := Nat.mod_lt _ (by omega)
    rw [capRRLoop]
    split
    · next h => exact ⟨hnext, .inr ⟨cur, rfl, hcur, h⟩⟩
    · next h =>
      obtain ⟨hlt, hans⟩ := ih hnext
      refine ⟨hlt, hans.imp (fun ⟨hneg, hall⟩ => ⟨hneg, fun k hk => ?_⟩) id⟩
      cases k with
      | zero =>
        rw [Nat.add_zero, Nat.mod_eq_of_lt hcur]
        exact not_le.1 h
      | succ k =>
        have := hall k (by omega)
        rwa [Nat.mod_add_mod, show cur + 1 + k = cur + (k + 1) by omega] at this

theorem scheduleOne_frame (s : DPScheduler) (p o : ℕ) (hcur : 0 < s.dpSize → s.curRank < s.dpSize) :
    ∃ cur, (s.scheduleOne p o).2 = { s with curRank := cur } ∧
      (0 < s.dpSize → cur < s.dpSize) := by
  cases hpolicy : s.policy with
  | rr =>
    refine ⟨(s.curRank + 1) % s.dpSize, ?_, fun h => Nat.mod_lt _ h⟩
    simp [scheduleOne, hpolicy]
  | capRR =>
    refine ⟨(capRRLoop s.kvCacheStats (requiredBlocks s.blockSize p o) s.dpSize s.dpSize
      s.curRank).2, ?_, fun h => (capRRLoop_spec _ _ _ (hcur h)).1⟩
    simp [scheduleOne, hpolicy]
  | max | weighted =>
    have hsame : (s.scheduleOne p o).2 = s := by simp [scheduleOne, hpolicy]
    exact ⟨s.curRank, by rw [← hpolicy]; exact hsame, hcur⟩

/-- **What a capacity-aware policy answers**: a rank with enough blocks, or `-1`; and for a request
that needs a block, `-1` only when no rank has enough. -/
theorem scheduleOne_spec (s : DPScheduler) (p o : ℕ) (hpolicy : s.policy.CapacityAware s.dpSize)
    (hlen : s.kvCacheStats.length = s.dpSize) (hcur : 0 < s.dpSize → s.curRank < s.dpSize) :
    (((s.scheduleOne p o).1 = -1 ∧ (0 < requiredBlocks s.blockSize p o →
        ∀ v ∈ s.kvCacheStats, v < requiredBlocks s.blockSize p o)) ∨
      ∃ (i : ℕ) (v : ℤ), (s.scheduleOne p o).1 = i ∧ s.kvCacheStats[i]? = some v ∧
        requiredBlocks s.blockSize p o ≤ v) := by
  generalize hreq : requiredBlocks s.blockSize p o = required
  cases hs : s.policy with
  | rr =>
    rw [hs] at hpolicy
    cases hpolicy
  | max =>
    simp only [scheduleOne, hs, hreq]
    rcases maxStat_spec s.kvCacheStats with ⟨hmax, hle⟩ | ⟨i, v, hmax, hi, -, hle⟩
    · rw [hmax]
      refine .inl ⟨by split <;> rfl, fun hpos v hv => ?_⟩
      exact (hle v hv).trans_lt (by exact_mod_cast hpos)
    · rw [hmax]
      split
      · next hlt => exact .inl ⟨rfl, fun _ v' hv' => (hle v' hv').trans_lt hlt⟩
      · next hge => exact .inr ⟨i, v, rfl, hi, not_lt.1 hge⟩
  | capRR =>
    simp only [scheduleOne, hs, hreq]
    rcases Nat.eq_zero_or_pos s.dpSize with h | h
    · have hnil : s.kvCacheStats = [] := List.length_eq_zero_iff.1 (hlen.trans h)
      rw [h]
      exact .inl ⟨rfl, by simp [hnil]⟩
    · rcases (capRRLoop_spec s.kvCacheStats required s.dpSize (hcur h)).2 with
        ⟨hneg, hall⟩ | ⟨i, hi, hlt, hle⟩
      · refine .inl ⟨hneg, fun _ v hv => ?_⟩
        -- every rank is one of the next `dp_size` ones
        obtain ⟨r, hr, rfl⟩ := List.mem_iff_getElem.1 hv
        have hc := hcur h
        obtain ⟨k, hk, hmod⟩ : ∃ k < s.dpSize, (s.curRank + k) % s.dpSize = r := by
          by_cases hle : s.curRank ≤ r
          · refine ⟨r - s.curRank, by omega, ?_⟩
            rw [Nat.add_sub_cancel' hle, Nat.mod_eq_of_lt (by omega)]
          · refine ⟨s.dpSize - s.curRank + r, by omega, ?_⟩
            rw [show s.curRank + (s.dpSize - s.curRank + r) = r + s.dpSize by omega,
              Nat.add_mod_right, Nat.mod_eq_of_lt (by omega)]
        have := hall k hk
        rwa [hmod, List.getD_eq_getElem _ _ hr] at this
      · refine .inr ⟨i, _, hi, List.getElem?_eq_getElem (by omega), ?_⟩
        rwa [List.getD_eq_getElem _ _ (by omega)] at hle
  | weighted weights =>
    have hw : ∀ w ∈ weights, 0 ≤ w := by
      rw [hs] at hpolicy
      generalize hp : Policy.weighted weights = policy at hpolicy
      cases hpolicy with
      | max => cases hp
      | capRR => cases hp
      | weighted _ hnonneg hsum =>
        obtain rfl := Policy.weighted.inj hp
        intro w hw
        obtain ⟨w', hw', rfl⟩ := List.mem_map.1 hw
        exact div_nonneg (hnonneg w' hw') hsum.le
    simp only [scheduleOne, hs, hreq]
    rcases bestScore_spec hw (Int.natCast_nonneg required) s.kvCacheStats with
      ⟨hbest, hall⟩ | ⟨i, v, score, hbest, hi, hv, -⟩
    · rw [hbest]
      exact .inl ⟨rfl, fun _ => hall⟩
    · rw [hbest]
      exact .inr ⟨i, v, rfl, hi, hv⟩

theorem schedule_singleton (s : DPScheduler) (req p o : ℕ) :
    s.schedule [req] [p] [o] = ([(s.scheduleOne p o).1],
      if (s.scheduleOne p o).1 ≥ 0 then
        (s.scheduleOne p o).2.addSeq req p o (s.scheduleOne p o).1.toNat
      else (s.scheduleOne p o).2) := rfl

end DPScheduler

namespace SchedulerRun

/-! ### The invariant -/

/-- The blocks reserved by the live requests of a rank. -/
def load (blockSize : ℕ) (live : List (RequestItem × ℤ)) (rank : ℕ) : ℕ :=
  ((live.filter fun x => x.2 = (rank : ℤ)).map fun x => x.1.required blockSize).sum

@[simp] theorem load_nil (blockSize rank : ℕ) : load blockSize [] rank = 0 := rfl

theorem load_append (blockSize : ℕ) (l₁ l₂ : List (RequestItem × ℤ)) (rank : ℕ) :
    load blockSize (l₁ ++ l₂) rank = load blockSize l₁ rank + load blockSize l₂ rank := by
  simp [load]

theorem load_cons (blockSize : ℕ) (x : RequestItem × ℤ) (l : List (RequestItem × ℤ))
    (rank : ℕ) :
    load blockSize (x :: l) rank =
      (if x.2 = (rank : ℤ) then x.1.required blockSize else 0) + load blockSize l rank := by
  by_cases h : x.2 = (rank : ℤ) <;> simp [load, h]

def State.ids (s : State) : List ℕ :=
  s.live.map (·.1.reqId) ++ (s.phase.inHand ++ s.waitingQueue).map (·.reqId)

/-- The invariant, for a scheduler that was started with `cap` blocks per rank. -/
structure Inv (policy : Policy) (bs : ℕ) (cap : List ℕ) (s : State) : Prop where
  policy_eq : s.sched.policy = policy
  blockSize : s.sched.blockSize = bs
  dpSize : s.sched.dpSize = cap.length
  length : s.sched.kvCacheStats.length = cap.length
  /-- `cur_rank` is a rank. -/
  curRank : 0 < cap.length → s.sched.curRank < cap.length
  ids : s.ids.Nodup
  /-- A live request is recorded with its rank and its lengths. -/
  recorded : ∀ x ∈ s.live, 0 ≤ x.2 ∧ s.sched.seqRanks.lookup x.1.reqId = some x.2.toNat ∧
    s.sched.seqMaxLen.lookup x.1.reqId = some (x.1.prefillLen, x.1.outputLen)
  absent : ∀ r ∉ s.live.map (·.1.reqId),
    s.sched.seqRanks.lookup r = none ∧ s.sched.seqMaxLen.lookup r = none
  stats : ∀ (r c : ℕ), cap[r]? = some c →
    ∃ v, s.sched.kvCacheStats[r]? = some v ∧ v + load bs s.live r = c
  nonneg : policy.CapacityAware cap.length → ∀ v ∈ s.sched.kvCacheStats, 0 ≤ v
  order : s.endFlag = false → s.puts = s.submitted.map (·.1) ++ (s.phase.inHand ++ s.waitingQueue)
  submitted : ∀ x ∈ s.live, x ∈ s.submitted

variable {policy : Policy} {bs : ℕ} {cap : List ℕ} {s : State}

theorem inv_init (policy : Policy) (bs : ℕ) (cap : List ℕ) :
    Inv policy bs cap (State.init policy bs cap) where
  policy_eq := rfl
  blockSize := rfl
  dpSize := rfl
  length := List.length_map _
  curRank h := h
  ids := List.nodup_nil
  recorded x hx := by cases hx
  absent r _ := ⟨rfl, rfl⟩
  stats r c hc := ⟨c, by simp [State.init, DPScheduler.create, hc], by simp [State.init, load]⟩
  nonneg _ v hv := by
    obtain ⟨c, -, rfl⟩ := List.mem_map.1 hv
    exact Int.natCast_nonneg c
  order _ := rfl
  submitted x hx := by cases hx

/-! ### One lemma per action -/

theorem Inv.congr (hs : Inv policy bs cap s) {event : Bool} {phase : Phase}
    (hphase : phase.inHand = s.phase.inHand) :
    Inv policy bs cap { s with schEvent := event, phase := phase } :=
  { hs with
    ids := by
      have h := hs.ids
      unfold State.ids at h ⊢
      rwa [hphase]
    order := fun hend => by
      rw [hphase]
      exact hs.order hend }

theorem Inv.setCurRank (hs : Inv policy bs cap s) {cur : ℕ}
    (hcur : 0 < cap.length → cur < cap.length) :
    Inv policy bs cap { s with sched := { s.sched with curRank := cur } } :=
  { hs with curRank := hcur }

/-- **Reserving.** A request in hand is recorded and submitted. -/
theorem Inv.addSeq (hs : Inv policy bs cap s) {item : RequestItem} (hhand : s.phase.inHand = [item])
    (rank : ℕ) (hroom : policy.CapacityAware cap.length →
      ∃ v, s.sched.kvCacheStats[rank]? = some v ∧ item.required bs ≤ v) :
    Inv policy bs cap
      { s with
        sched := s.sched.addSeq item.reqId item.prefillLen item.outputLen rank
        phase := .start
        submitted := s.submitted ++ [(item, (rank : ℤ))]
        live := s.live ++ [(item, (rank : ℤ))] } := by
  have hids := hs.ids
  rw [State.ids, hhand] at hids
  have hfresh : item.reqId ∉ s.live.map (·.1.reqId) := by
    intro hmem
    exact List.disjoint_of_nodup_append hids hmem (by simp)
  have hne : ∀ x ∈ s.live, x.1.reqId ≠ item.reqId := by
    intro x hx heq
    exact hfresh (heq ▸ List.mem_map_of_mem hx)
  have hreq :
      requiredBlocks s.sched.blockSize item.prefillLen item.outputLen = item.required bs := by
    rw [hs.blockSize]
    rfl
  refine
    { hs with
      length := (List.length_modify ..).trans hs.length
      ids := ?_
      recorded := fun x hx => ?_
      absent := fun r hr => ?_
      stats := fun r c hc => ?_
      nonneg := fun hpolicy v hv => ?_
      order := fun hend => ?_
      submitted := fun x hx => ?_ }
  · simpa [State.ids, Phase.inHand] using hids
  · simp only [List.mem_append, List.mem_singleton] at hx
    rcases hx with hx | rfl
    · obtain ⟨h0, hrank, hlens⟩ := hs.recorded x hx
      exact ⟨h0, (AList.lookup_insert_ne (hne x hx)).trans hrank,
        (AList.lookup_insert_ne (hne x hx)).trans hlens⟩
    · exact ⟨Int.natCast_nonneg rank, AList.lookup_insert _, AList.lookup_insert _⟩
  · simp only [List.map_append, List.map_cons, List.map_nil, List.mem_append, List.mem_singleton,
      not_or] at hr
    obtain ⟨hrank, hlens⟩ := hs.absent r hr.1
    exact ⟨(AList.lookup_insert_ne hr.2).trans hrank, (AList.lookup_insert_ne hr.2).trans hlens⟩
  · obtain ⟨v, hv, hsum⟩ := hs.stats r c hc
    simp only [DPScheduler.addSeq, hreq, List.getElem?_modify, hv, load_append, load_cons,
      load_nil, Nat.add_zero]
    by_cases hr : rank = r
    · subst hr
      refine ⟨v - item.required bs, by simp, ?_⟩
      rw [if_pos rfl]
      omega
    · refine ⟨v, by simp [hr], ?_⟩
      rw [if_neg (by exact_mod_cast hr), Nat.add_zero, hsum]
  · obtain ⟨w, hw, hle⟩ := hroom hpolicy
    obtain ⟨i, hi⟩ := List.mem_iff_getElem?.1 hv
    simp only [DPScheduler.addSeq, hreq, List.getElem?_modify] at hi
    obtain ⟨v', hv', rfl⟩ := Option.map_eq_some_iff.1 hi
    split
    · next h =>
      subst h
      obtain rfl := Option.some_injective _ (hw.symm.trans hv')
      omega
    · exact hs.nonneg hpolicy v' (List.mem_of_getElem? hv')
  · have h := hs.order hend
    rw [hhand] at h
    simpa [Phase.inHand] using h
  · simp only [List.mem_append, List.mem_singleton] at hx ⊢
    exact hx.imp (hs.submitted x) id

theorem State.attempt_of_neg {item : RequestItem}
    (h : (s.sched.scheduleOne item.prefillLen item.outputLen).1 < 0) :
    s.attempt item =
      { s with
        sched := (s.sched.scheduleOne item.prefillLen item.outputLen).2
        phase := .blocked item } := by
  rw [State.attempt, DPScheduler.schedule_singleton, if_neg (not_le.2 h)]
  exact if_pos h

theorem State.attempt_of_eq {item : RequestItem} {rank : ℕ}
    (h : (s.sched.scheduleOne item.prefillLen item.outputLen).1 = rank) :
    s.attempt item =
      { s with
        sched := (s.sched.scheduleOne item.prefillLen item.outputLen).2.addSeq item.reqId
          item.prefillLen item.outputLen rank
        phase := .start
        submitted := s.submitted ++ [(item, (rank : ℤ))]
        live := s.live ++ [(item, (rank : ℤ))] } := by
  rw [State.attempt, DPScheduler.schedule_singleton, h, if_pos (Int.natCast_nonneg rank),
    Int.toNat_natCast]
  exact if_neg (not_lt.2 (Int.natCast_nonneg rank))

theorem Inv.attempt (hs : Inv policy bs cap s) {item : RequestItem}
    (hhand : s.phase.inHand = [item]) : Inv policy bs cap (s.attempt item) := by
  obtain ⟨cur, hframe, hcur⟩ := s.sched.scheduleOne_frame item.prefillLen item.outputLen
    (by rw [hs.dpSize]; exact hs.curRank)
  rw [hs.dpSize] at hcur
  have hs' := hs.setCurRank hcur
  rcases lt_or_ge (s.sched.scheduleOne item.prefillLen item.outputLen).1 0 with h | h
  · rw [State.attempt_of_neg h, hframe]
    exact hs'.congr hhand.symm
  · obtain ⟨rank, hrank⟩ := Int.eq_ofNat_of_zero_le h
    rw [State.attempt_of_eq hrank, hframe]
    refine hs'.addSeq hhand rank fun hpolicy => ?_
    rcases s.sched.scheduleOne_spec item.prefillLen item.outputLen
      (by rw [hs.policy_eq, hs.dpSize]; exact hpolicy) (hs.length.trans hs.dpSize.symm)
      (by rw [hs.dpSize]; exact hs.curRank) with ⟨hneg, -⟩ | ⟨i, v, hi, hv, hle⟩
    · omega
    · obtain rfl : i = rank := by omega
      rw [hs.blockSize] at hle
      exact ⟨v, hv, hle⟩

theorem Inv.put (hs : Inv policy bs cap s) {item : RequestItem} (hnew : item.reqId ∉ s.ids) :
    Inv policy bs cap
      { s with waitingQueue := s.waitingQueue ++ [item], puts := s.puts ++ [item] } :=
  { hs with
    ids := by
      have h : (s.ids ++ [item.reqId]).Nodup :=
        List.nodup_append.2 ⟨hs.ids, List.nodup_singleton _, by
          rintro a ha _ hb rfl
          obtain rfl := List.mem_singleton.1 hb
          exact hnew ha⟩
      simpa [State.ids] using h
    order := fun hend => by
      have h := hs.order hend
      simp [h] }

theorem Inv.get (hs : Inv policy bs cap s) {item : RequestItem} {rest : List RequestItem}
    (hphase : s.phase = .waiting) (hqueue : s.waitingQueue = item :: rest) :
    Inv policy bs cap { s with waitingQueue := rest, phase := .got item } :=
  { hs with
    ids := by
      have h := hs.ids
      rw [State.ids, hphase, hqueue] at h
      exact h
    order := fun hend => by
      have h := hs.order hend
      rw [hphase, hqueue] at h
      exact h }

/-- Once the loop is to end, the order of submissions is not claimed any more. -/
theorem Inv.setEnd (hs : Inv policy bs cap s) {phase : Phase}
    (hphase : phase = s.phase ∨ phase.inHand = []) :
    Inv policy bs cap { s with endFlag := true, phase := phase } :=
  { hs with
    ids := by
      rcases hphase with rfl | hphase
      · exact hs.ids
      · have h := hs.ids
        unfold State.ids at h ⊢
        rw [hphase, List.nil_append]
        refine h.sublist (List.Sublist.append_left ?_ _)
        exact (List.sublist_append_right _ _).map _
    order := fun hend => by cases hend }

theorem Inv.delSeq (hs : Inv policy bs cap s) {x : RequestItem × ℤ}
    {before after : List (RequestItem × ℤ)} {sched : DPScheduler}
    (hlive : s.live = before ++ x :: after) (hdel : s.sched.delSeq x.1.reqId = some sched) :
    Inv policy bs cap { s with sched := sched, schEvent := true, live := before ++ after } := by
  have hx : x ∈ s.live := by simp [hlive]
  obtain ⟨h0, hrank, hlens⟩ := hs.recorded x hx
  obtain ⟨rank, hx2⟩ := Int.eq_ofNat_of_zero_le h0
  rw [hx2, Int.toNat_natCast] at hrank
  have hreq : requiredBlocks s.sched.blockSize x.1.prefillLen x.1.outputLen = x.1.required bs := by
    rw [hs.blockSize]
    rfl
  simp only [DPScheduler.delSeq, hrank, hlens, Option.bind_eq_bind, Option.bind_some,
    Option.pure_def, Option.some.injEq, hreq] at hdel
  subst hdel
  have hids := hs.ids
  rw [State.ids, hlive] at hids
  have hsub : (before ++ after).Sublist s.live := by
    rw [hlive]
    exact List.Sublist.append_left (List.sublist_cons_self x after) before
  have hnodup : (s.live.map (·.1.reqId)).Nodup := by
    rw [hlive]
    exact hids.of_append_left
  have hne : ∀ y ∈ before ++ after, y.1.reqId ≠ x.1.reqId := by
    intro y hy heq
    rw [hlive, List.map_append, List.map_cons, List.nodup_middle, List.nodup_cons,
      ← List.map_append] at hnodup
    exact hnodup.1 (heq ▸ List.mem_map_of_mem hy)
  refine
    { hs with
      length := (List.length_modify ..).trans hs.length
      ids := ?_
      recorded := fun y hy => ?_
      absent := fun r hr => ?_
      stats := fun r c hc => ?_
      nonneg := fun hpolicy v hv => ?_
      submitted := fun y hy => hs.submitted y (hsub.mem hy) }
  · have h := hs.ids
    exact h.sublist ((hsub.map _).append_right _)
  · obtain ⟨hy0, hyrank, hylens⟩ := hs.recorded y (hsub.mem hy)
    exact ⟨hy0, (AList.lookup_erase_ne (hne y hy)).trans hyrank,
      (AList.lookup_erase_ne (hne y hy)).trans hylens⟩
  · by_cases hrx : r = x.1.reqId
    · subst hrx
      exact ⟨AList.lookup_erase _ _, AList.lookup_erase _ _⟩
    · obtain ⟨hr1, hr2⟩ := hs.absent r (by
        rw [hlive]
        simp only [List.map_append, List.map_cons, List.mem_append, List.mem_cons] at hr ⊢
        tauto)
      exact ⟨(AList.lookup_erase_ne hrx).trans hr1, (AList.lookup_erase_ne hrx).trans hr2⟩
  · obtain ⟨v, hv, hsum⟩ := hs.stats r c hc
    rw [hlive, load_append, load_cons, hx2] at hsum
    simp only [List.getElem?_modify, hv, load_append]
    by_cases hr : rank = r
    · subst hr
      refine ⟨v + x.1.required bs, by simp, ?_⟩
      rw [if_pos rfl] at hsum
      omega
    · refine ⟨v, by simp [hr], ?_⟩
      rw [if_neg (by exact_mod_cast hr), Nat.zero_add] at hsum
      exact hsum
  · obtain ⟨i, hi⟩ := List.mem_iff_getElem?.1 hv
    simp only [List.getElem?_modify] at hi
    obtain ⟨v', hv', rfl⟩ := Option.map_eq_some_iff.1 hi
    have := hs.nonneg hpolicy v' (List.mem_of_getElem? hv')
    split <;> omega

/-! ### Runs -/

theorem Inv.step {s' : State} (hs : Inv policy bs cap s) (hstep : Step s s') :
    Inv policy bs cap s' := by
  cases hstep with
  | put hnew => exact hs.put hnew
  | begin hphase =>
    refine hs.congr ?_
    rw [hphase]
    split <;> rfl
  | get hphase hqueue => exact hs.get hphase hqueue
  | check hphase hend => exact hs.congr (by rw [hphase]; rfl)
  | resume hphase => exact hs.attempt (by rw [hphase]; rfl)
  | leave hphase hend =>
    have h : Inv policy bs cap { s with endFlag := true, phase := .ended } := hs.setEnd (.inr rfl)
    rwa [← hend] at h
  | retry hphase hevent =>
    have h : Inv policy bs cap { s with schEvent := false } := hs.congr rfl
    exact h.attempt (by rw [hphase]; rfl)
  | delSeq hlive hdel => exact hs.delSeq hlive hdel
  | terminate => exact hs.setEnd (.inl rfl)

theorem Inv.of_steps (hrun : Relation.ReflTransGen Step (State.init policy bs cap) s) :
    Inv policy bs cap s := by
  induction hrun with
  | refl => exact inv_init policy bs cap
  | tail _ hstep ih => exact ih.step hstep

/-- **What the waiting loop does.** A step that neither puts nor deletes moves requests from the
front of the queue to the submitted ones, or drops them when the loop ends. -/
theorem Step.loop_cases {s' : State} (hstep : Step s s') (hputs : s'.puts = s.puts)
    (hlive : s.live <+: s'.live) :
    ∃ new, s'.submitted = s.submitted ++ new ∧ s'.live = s.live ++ new ∧
      (new.map (·.1) ++ (s'.phase.inHand ++ s'.waitingQueue)).Sublist
        (s.phase.inHand ++ s.waitingQueue) := by
  have hattempt : ∀ {t : State} {item : RequestItem}, t.phase.inHand = [item] →
      ∃ new, (t.attempt item).submitted = t.submitted ++ new ∧
        (t.attempt item).live = t.live ++ new ∧
        (new.map (·.1) ++ ((t.attempt item).phase.inHand ++ (t.attempt item).waitingQueue)).Sublist
          (t.phase.inHand ++ t.waitingQueue) := by
    intro t item hhand
    rcases lt_or_ge (t.sched.scheduleOne item.prefillLen item.outputLen).1 0 with h | h
    · rw [State.attempt_of_neg h, hhand]
      exact ⟨[], by simp, by simp, List.Sublist.refl _⟩
    · obtain ⟨rank, hrank⟩ := Int.eq_ofNat_of_zero_le h
      rw [State.attempt_of_eq hrank, hhand]
      exact ⟨[(item, (rank : ℤ))], rfl, rfl, List.Sublist.refl _⟩
  cases hstep with
  | put hnew => simp at hputs
  | begin hphase =>
    refine ⟨[], by simp, by simp, ?_⟩
    rw [hphase]
    show (List.append (Phase.inHand (if s.endFlag then .ended else .waiting)) _).Sublist _
    split <;> exact List.Sublist.refl _
  | get hphase hqueue =>
    refine ⟨[], by simp, by simp, ?_⟩
    rw [hphase, hqueue]
    exact List.Sublist.refl _
  | check hphase hend =>
    refine ⟨[], by simp, by simp, ?_⟩
    rw [hphase]
    exact List.Sublist.refl _
  | resume hphase => exact hattempt (by rw [hphase]; rfl)
  | leave hphase hend =>
    refine ⟨[], by simp, by simp, ?_⟩
    exact List.sublist_append_right _ _
  | retry hphase hevent =>
    rename_i item
    exact @hattempt { s with schEvent := false } item (by rw [hphase]; rfl)
  | delSeq heq hdel =>
    have := hlive.length_le
    rw [heq] at this
    simp only [List.length_append, List.length_cons] at this
    omega
  | terminate => exact ⟨[], by simp, by simp, List.Sublist.refl _⟩

theorem Inv.exists_delSeq (hs : Inv policy bs cap s) {x : RequestItem × ℤ} (hx : x ∈ s.live) :
    ∃ sched, s.sched.delSeq x.1.reqId = some sched ∧
      Inv policy bs cap
        { s with
          sched := sched
          schEvent := true
          live := s.live.filter (·.1.reqId ≠ x.1.reqId) } := by
  obtain ⟨-, hrank, hlens⟩ := hs.recorded x hx
  have hdel : (s.sched.delSeq x.1.reqId).isSome := by simp [DPScheduler.delSeq, hrank, hlens]
  obtain ⟨sched, hsched⟩ := Option.isSome_iff_exists.1 hdel
  obtain ⟨before, after, hlive⟩ := List.append_of_mem hx
  refine ⟨sched, hsched, ?_⟩
  have hids : (s.live.map (·.1.reqId)).Nodup := (List.nodup_append.1 hs.ids).1
  rw [hlive, List.map_append, List.map_cons, List.nodup_middle, List.nodup_cons,
    ← List.map_append] at hids
  have hfilter : s.live.filter (·.1.reqId ≠ x.1.reqId) = before ++ after := by
    have hother : (before ++ after).filter (·.1.reqId ≠ x.1.reqId) = before ++ after := by
      refine List.filter_eq_self.2 fun y hy => ?_
      simp only [ne_eq, decide_not, Bool.not_eq_true', decide_eq_false_iff_not]
      intro heq
      exact hids.1 (heq ▸ List.mem_map_of_mem hy)
    rw [List.filter_append] at hother
    rw [hlive, List.filter_append, List.filter_cons_of_neg (by simp), hother]
  rw [hfilter]
  exact hs.delSeq hlive hsched

/-- What every state of a run satisfies, for a scheduler started with `cap` blocks per rank. -/
structure Accounted (policy : Policy) (bs : ℕ) (cap : List ℕ) (s : State) : Prop where
  /-- What is left on a rank and what its live requests reserve add up to what it had. -/
  stats : ∀ (r c : ℕ), cap[r]? = some c →
    ∃ v, s.sched.kvCacheStats[r]? = some v ∧ v + load bs s.live r = c
  /-- `seq_ranks` has exactly the live requests. -/
  seqRanks : ∀ id, id ∈ s.sched.seqRanks ↔ id ∈ s.live.map (·.1.reqId)
  /-- `seq_max_len` has exactly the live requests. -/
  seqMaxLen : ∀ id, id ∈ s.sched.seqMaxLen ↔ id ∈ s.live.map (·.1.reqId)
  /-- A live request was submitted with the rank it is accounted to. -/
  rank : ∀ x ∈ s.live, x ∈ s.submitted ∧ ∃ r : ℕ, x.2 = r ∧
    s.sched.seqRanks.lookup x.1.reqId = some r ∧
    s.sched.seqMaxLen.lookup x.1.reqId = some (x.1.prefillLen, x.1.outputLen)
  nonneg : policy.CapacityAware cap.length → ∀ v ∈ s.sched.kvCacheStats, 0 ≤ v
  /-- A capacity-aware policy refuses a request that needs a block exactly when no rank has
  enough. -/
  refuses : policy.CapacityAware cap.length → ∀ id p o, 0 < requiredBlocks bs p o →
    ((s.sched.schedule [id] [p] [o]).1 = [-1] ↔
      ∀ v ∈ s.sched.kvCacheStats, v < requiredBlocks bs p o)
  /-- Until the loop is told to end, what was put is what was submitted, in the same order, then
  the request at hand, then the queue. -/
  order : s.endFlag = false →
    s.puts = s.submitted.map (·.1) ++ (s.phase.inHand ++ s.waitingQueue)

theorem Inv.refuses (hs : Inv policy bs cap s) (hpolicy : policy.CapacityAware cap.length)
    {id p o : ℕ} (hpos : 0 < requiredBlocks bs p o) :
    (s.sched.schedule [id] [p] [o]).1 = [-1] ↔
      ∀ v ∈ s.sched.kvCacheStats, v < requiredBlocks bs p o := by
  have hspec := s.sched.scheduleOne_spec p o (by rw [hs.policy_eq, hs.dpSize]; exact hpolicy)
    (hs.length.trans hs.dpSize.symm) (by rw [hs.dpSize]; exact hs.curRank)
  rw [hs.blockSize] at hspec
  rw [DPScheduler.schedule_singleton, List.singleton_inj]
  constructor
  · intro hneg
    rcases hspec with ⟨-, hall⟩ | ⟨i, v, hi, -⟩
    · exact hall hpos
    · omega
  · intro hall
    rcases hspec with ⟨hneg, -⟩ | ⟨i, v, hi, hv, hle⟩
    · exact hneg
    · exact absurd hle (not_le.2 (hall v (List.mem_of_getElem? hv)))

/-- **Admission keeps its books**, in every run of the waiting loop. -/
theorem accounted_of_reachable {policy : Policy} {bs : ℕ} {cap : List ℕ} {s : State}
    (hrun : Relation.ReflTransGen Step (State.init policy bs cap) s) :
    Accounted policy bs cap s := by
  have hs := Inv.of_steps hrun
  have hkeys : ∀ id, (id ∈ s.sched.seqRanks ↔ id ∈ s.live.map (·.1.reqId)) ∧
      (id ∈ s.sched.seqMaxLen ↔ id ∈ s.live.map (·.1.reqId)) := by
    intro id
    rw [← AList.lookup_isSome, ← AList.lookup_isSome]
    by_cases hid : id ∈ s.live.map (·.1.reqId)
    · obtain ⟨x, hx, rfl⟩ := List.mem_map.1 hid
      obtain ⟨-, hrank, hlens⟩ := hs.recorded x hx
      simp only [hrank, hlens, Option.isSome_some, hid]
      exact ⟨trivial, trivial⟩
    · obtain ⟨hrank, hlens⟩ := hs.absent id hid
      simp [hrank, hlens, hid]
  refine
    { stats := hs.stats
      seqRanks := fun id => (hkeys id).1
      seqMaxLen := fun id => (hkeys id).2
      rank := fun x hx => ⟨hs.submitted x hx, ?_⟩
      nonneg := hs.nonneg
      refuses := fun hpolicy id p o hpos => hs.refuses hpolicy hpos
      order := hs.order }
  obtain ⟨h0, hrank, hlens⟩ := hs.recorded x hx
  exact ⟨x.2.toNat, (Int.toNat_of_nonneg h0).symm, hrank, hlens⟩

/-- On one rank with two blocks of one token, the second request waits until the first is
deleted. -/
theorem accounted_after_wait :
    ∃ s : State, Relation.ReflTransGen Step (State.init .max 1 [2]) s ∧
      s.submitted.map (·.1.reqId) = [4, 9] ∧ s.live.map (·.1.reqId) = [9] ∧
      s.sched.kvCacheStats = [1] ∧ Accounted .max 1 [2] s := by
  have hrun : Relation.ReflTransGen Step (State.init .max 1 [2]) _ := .refl
  replace hrun := hrun.tail (@Step.put _ ⟨4, 2, 0, 2⟩ (by decide))
  replace hrun := hrun.tail (@Step.put _ ⟨9, 1, 0, 1⟩ (by decide))
  replace hrun := hrun.tail (Step.begin rfl)
  replace hrun := hrun.tail (Step.get rfl rfl)
  replace hrun := hrun.tail (Step.check rfl rfl)
  replace hrun := hrun.tail (Step.resume rfl)
  replace hrun := hrun.tail (Step.begin rfl)
  replace hrun := hrun.tail (Step.get rfl rfl)
  replace hrun := hrun.tail (Step.check rfl rfl)
  replace hrun := hrun.tail (Step.resume rfl)
  replace hrun := hrun.tail (@Step.delSeq _ _ [] [] _ rfl rfl)
  replace hrun := hrun.tail (Step.retry rfl rfl)
  exact ⟨_, hrun, rfl, rfl, rfl, accounted_of_reachable hrun⟩

end SchedulerRun

end StreamEP

import StreamEP.Dispatch.Dispatcher
import Mathlib.Data.List.Dedup
import Mathlib.Data.List.Sort

/-!
# The experts of a device

An expert worker numbers the experts it hosts. `build_expert_executor` of
`disagmoe/frontend/engine.py` makes the two tables between these local numbers and the ids of the
model, from the ascending list of hosted experts that the placement gives (`unique_expert_ids_at`).
`prepare_bsz_and_indices` of `disagmoe/executor/executor.py` translates the expert column of a
batch with them: into the number of rows of every local expert, and into the local expert of every
row. Which of the two an expert class reads is its own choice.

Reading or writing past the end of a table is an error here.
-/

namespace StreamEP

variable {W : Type}

/-! ### The tables -/

def ModelPlacement.uniqueExpertIdsAt (p : ModelPlacement) (deviceId : ℕ) : List ℕ :=
  ((p.expert deviceId).map (·.2)).dedup.insertionSort (· ≤ ·)

theorem ModelPlacement.mem_uniqueExpertIdsAt {p : ModelPlacement} {d e : ℕ} :
    e ∈ p.uniqueExpertIdsAt d ↔ ∃ l, (l, e) ∈ p.expert d := by
  simp [uniqueExpertIdsAt]

theorem ModelPlacement.uniqueExpertIdsAt_sorted (p : ModelPlacement) (d : ℕ) :
    (p.uniqueExpertIdsAt d).Pairwise (· < ·) := by
  have hnodup : (p.uniqueExpertIdsAt d).Nodup :=
    (List.perm_insertionSort _ _).nodup_iff.mpr (List.nodup_dedup _)
  have hsorted : (p.uniqueExpertIdsAt d).Pairwise (· ≤ ·) := List.pairwise_insertionSort _ _
  exact (hsorted.and hnodup).imp fun h => lt_of_le_of_ne h.1 h.2

/-- The tables of `ExpertsExecutor` -/
structure ExpertsExecutor where
  localToGlobalExpertRank : List ℕ
  globalToLocalExpertRank : List ℤ
deriving DecidableEq, Repr

/-- `build_expert_executor`: from the list of hosted experts, or, without one, from equal shares of
consecutive experts. -/
def buildExpertExecutor (numExperts numExpertsPerRank rankInGroup : ℕ)
    (localExpertIds : Option (List ℕ)) : Except String ExpertsExecutor := do
  let ids := match localExpertIds with
    | some (e :: ids) => e :: ids
    | _ => (List.range numExpertsPerRank).map (numExpertsPerRank * rankInGroup + ·)
  ensure (∀ e ∈ ids, e < numExperts) "IndexError"
  return {
    localToGlobalExpertRank := ids
    globalToLocalExpertRank := ids.zipIdx.foldl (fun table x => table.set x.1 x.2)
      (List.replicate numExperts (-1)) }

namespace ExpertsExecutor

/-- The tables number the experts `ids`: they are inverse to each other, and no other expert has a
local number. -/
structure Numbers (x : ExpertsExecutor) (numExperts : ℕ) (ids : List ℕ) : Prop where
  localToGlobal : x.localToGlobalExpertRank = ids
  /-- The second table has an entry per expert. -/
  length : x.globalToLocalExpertRank.length = numExperts
  inverse : ∀ j e : ℕ, ids[j]? = some e → x.globalToLocalExpertRank.getD e (-1) = j
  /-- The second table is `-1` for experts that are not here. -/
  other : ∀ e, e ∉ ids → x.globalToLocalExpertRank.getD e (-1) = -1

end ExpertsExecutor

/-- **The tables of a device** number the experts it hosts. -/
theorem buildExpertExecutor_eq {numExperts : ℕ} {ids : List ℕ} (hne : ids ≠ [])
    (hnodup : ids.Nodup) (hlt : ∀ e ∈ ids, e < numExperts) (numExpertsPerRank rankInGroup : ℕ) :
    ∃ x, buildExpertExecutor numExperts numExpertsPerRank rankInGroup (some ids) = .ok x ∧
      x.Numbers numExperts ids := by
  obtain ⟨e₀, ids, rfl⟩ := List.exists_cons_of_ne_nil hne
  refine ⟨⟨e₀ :: ids, (e₀ :: ids).zipIdx.foldl (fun table x => table.set x.1 x.2)
    (List.replicate numExperts (-1))⟩, ?_, rfl, ?_, fun j e hj => ?_, fun e he => ?_⟩
  · rw [buildExpertExecutor, ensure_of_true hlt]
    rfl
  · rw [length_foldl_set, List.length_replicate]
  · have he := hlt e (List.mem_of_getElem? hj)
    refine getD_foldl_set (by simpa using he) ?_ ?_
    · rintro ⟨e', i⟩ hmem rfl
      obtain ⟨hi, hie⟩ := List.getElem?_eq_some_iff.mp (List.mem_zipIdx_iff_getElem?.mp hmem)
      obtain ⟨hj', hje⟩ := List.getElem?_eq_some_iff.mp hj
      exact congrArg _ ((List.Nodup.getElem_inj_iff hnodup).mp (hie.trans hje.symm))
    · exact ⟨(e, j), List.mem_zipIdx_iff_getElem?.mpr hj, rfl⟩
  · rcases getD_foldl_set_cases (e₀ :: ids).zipIdx (·.1) (fun x => (x.2 : ℤ))
      (List.replicate numExperts (-1)) e with h | ⟨⟨e', i⟩, hmem, rfl, -⟩
    · rw [h, List.getD_eq_getElem?_getD, List.getElem?_replicate]
      split_ifs <;> rfl
    · exact absurd (List.mem_of_getElem? (List.mem_zipIdx_iff_getElem?.mp hmem)) he

/-! ### What is computed for a batch -/

namespace BatchMetadata

def getExpertBatchSizes (m : BatchMetadata W) (nExpert : ℕ) : Except String (List ℕ) := do
  ensure (nExpert > 0) "n_expert > 0"
  ensure (∀ e ∈ m.expIds, e < nExpert) "batches[eid] out of range"
  return m.expIds.foldl (fun batches e => batches.modify e (· + 1)) (List.replicate nExpert 0)

def getTokenExpertIndices (m : BatchMetadata W) (globalToLocalExpertRank : List ℤ) :
    Except String (List ℤ) :=
  (List.range m.numTokens).mapM fun i => do
    let e ← (m.expIds[i]?).elim (.error "exp_ids[i] out of range") .ok
    ensure (globalToLocalExpertRank.getD e (-1) ≠ -1) "global_to_local_expert_rank != -1"
    return globalToLocalExpertRank.getD e (-1)

end BatchMetadata

/-- The classes `get_expert_cls` chooses from. -/
inductive ExpertCls
  | serial
  | cutlass
  | cutlassFP8
  | deepGemmBF16
  | deepGemmFP8
deriving DecidableEq, Repr

def ExpertCls.needsBatchSizes : ExpertCls → Bool
  | serial | cutlass | cutlassFP8 => true
  | deepGemmBF16 | deepGemmFP8 => false

def ExpertCls.needsMIndices (expertBias : Bool) : ExpertCls → Bool
  | deepGemmBF16 | deepGemmFP8 => true
  | cutlass | cutlassFP8 => expertBias
  | serial => false

namespace ExpertsExecutor

/-- The sizes of the local experts, in local order. -/
def localBatchSizes (x : ExpertsExecutor) (numExperts : ℕ) (m : BatchMetadata W) :
    Except String (List ℕ) := do
  let batchSizes ← m.getExpertBatchSizes numExperts
  ensure (∀ e ∈ x.localToGlobalExpertRank, e < batchSizes.length) "IndexError"
  return x.localToGlobalExpertRank.map (batchSizes.getD · 0)

/-- `prepare_bsz_and_indices`: what a class does not need stays the static buffer. -/
def prepareBszAndIndices (x : ExpertsExecutor) (cls : ExpertCls) (expertBias : Bool)
    (numExperts : ℕ) (m : BatchMetadata W) :
    Except String (Option (List ℕ) × Option (List ℤ)) := do
  let batchSizes ← if cls.needsBatchSizes then some <$> x.localBatchSizes numExperts m
    else pure none
  let mIndices ← if cls.needsMIndices expertBias then
      some <$> m.getTokenExpertIndices x.globalToLocalExpertRank
    else pure none
  return (batchSizes, mIndices)

end ExpertsExecutor

/-- **Grouped by local expert**: the announced sizes are those of consecutive segments in local
order, and the index of a row is its local expert. -/
structure Grouped (ids : List ℕ) (m : BatchMetadata W) (batchSizes : List ℕ)
    (mIndices : List ℤ) : Prop where
  /-- There is a size for every local expert. -/
  length : batchSizes.length = ids.length
  sum : batchSizes.sum = m.numTokens
  /-- The rows of a local expert fill its segment. -/
  segment : ∀ j e p : ℕ, ids[j]? = some e →
    (m.expIds[p]? = some e ↔ (batchSizes.take j).sum ≤ p ∧ p < (batchSizes.take (j + 1)).sum)
  indices_length : mIndices.length = m.numTokens
  /-- The index of a row is the local number of its expert. -/
  indices : ∀ p e : ℕ, m.expIds[p]? = some e →
    ∃ j : ℕ, mIndices[p]? = some (j : ℤ) ∧ ids[j]? = some e

namespace ExpertsExecutor

variable {x : ExpertsExecutor} {numExperts : ℕ} {ids : List ℕ} {m : BatchMetadata W}

theorem Numbers.localBatchSizes_eq (hx : x.Numbers numExperts ids) (hpos : 0 < numExperts)
    (hids : ∀ e ∈ ids, e < numExperts) (hmem : ∀ e ∈ m.expIds, e ∈ ids) :
    x.localBatchSizes numExperts m = .ok (ids.map m.expIds.count) := by
  have hlen : (CountingSort.counts numExperts m.expIds).length = numExperts := by
    rw [CountingSort.counts, CountingSort.length_foldl_modify, List.length_replicate]
  have hsizes : m.getExpertBatchSizes numExperts =
      .ok (CountingSort.counts numExperts m.expIds) := by
    rw [BatchMetadata.getExpertBatchSizes, ensure_of_true hpos, ok_bind,
      ensure_of_true fun e he => hids e (hmem e he)]
    rfl
  rw [localBatchSizes, hsizes, ok_bind, hx.localToGlobal, ensure_of_true (by rwa [hlen])]
  refine congrArg Except.ok (List.map_congr_left fun e he => ?_)
  rw [List.getD_eq_getElem?_getD, CountingSort.getElem?_counts _ (hids e he), Option.getD_some]

theorem Numbers.getTokenExpertIndices_eq (hx : x.Numbers numExperts ids)
    (hlen : m.expIds.length = m.numTokens) (hmem : ∀ e ∈ m.expIds, e ∈ ids) :
    m.getTokenExpertIndices x.globalToLocalExpertRank =
      .ok (m.expIds.map fun e => x.globalToLocalExpertRank.getD e (-1)) := by
  have hread : ∀ i ∈ List.range m.numTokens, (do
      let e ← (m.expIds[i]?).elim (.error "exp_ids[i] out of range") .ok
      ensure (x.globalToLocalExpertRank.getD e (-1) ≠ -1) "global_to_local_expert_rank != -1"
      return x.globalToLocalExpertRank.getD e (-1)) =
      Except.ok (x.globalToLocalExpertRank.getD (m.expIds.getD i 0) (-1)) := by
    intro i hi
    have hlt : i < m.expIds.length := hlen ▸ List.mem_range.mp hi
    obtain ⟨j, hj⟩ := List.mem_iff_getElem?.mp (hmem _ (List.getElem_mem hlt))
    have hlocal := hx.inverse j _ hj
    rw [List.getElem?_eq_getElem hlt, Option.elim_some, ok_bind, ensure_of_true (by omega),
      List.getD_eq_getElem _ _ hlt]
    rfl
  rw [BatchMetadata.getTokenExpertIndices, mapM_eq_ok hread]
  conv_rhs => rw [← TokenBatch.map_getD_range hlen 0, List.map_map]
  rfl

/-- **What a batch is prepared with**, for every class of experts: only sizes and indices that
group it. -/
theorem Numbers.prepareBszAndIndices_eq (hx : x.Numbers numExperts ids) (hpos : 0 < numExperts)
    (hids : ∀ e ∈ ids, e < numExperts) (hlen : m.expIds.length = m.numTokens)
    (hmem : ∀ e ∈ m.expIds, e ∈ ids) (cls : ExpertCls) (expertBias : Bool) :
    x.prepareBszAndIndices cls expertBias numExperts m =
      .ok (if cls.needsBatchSizes then some (ids.map m.expIds.count) else none,
        if cls.needsMIndices expertBias then
          some (m.expIds.map fun e => x.globalToLocalExpertRank.getD e (-1)) else none) := by
  rw [prepareBszAndIndices, hx.localBatchSizes_eq hpos hids hmem,
    hx.getTokenExpertIndices_eq hlen hmem]
  cases cls.needsBatchSizes <;> cases cls.needsMIndices expertBias <;> rfl

/-- **A batch whose experts ascend** and are hosted here is grouped as announced. -/
theorem Numbers.grouped (hx : x.Numbers numExperts ids) (hids : ids.Pairwise (· < ·))
    (hlen : m.expIds.length = m.numTokens) (hsorted : m.expIds.Pairwise (· ≤ ·))
    (hmem : ∀ e ∈ m.expIds, e ∈ ids) :
    Grouped ids m (ids.map m.expIds.count)
      (m.expIds.map fun e => x.globalToLocalExpertRank.getD e (-1)) where
  length := List.length_map _
  sum := by rw [CountingSort.sum_map_count hsorted hids hmem, hlen]
  segment j e p hj := CountingSort.getElem?_eq_some_iff_segment hsorted hids hmem hj p
  indices_length := by rw [List.length_map, hlen]
  indices p e hp := by
    obtain ⟨j, hj⟩ := List.mem_iff_getElem?.mp (hmem e (List.mem_of_getElem? hp))
    exact ⟨j, by rw [List.getElem?_map, hp, Option.map_some, hx.inverse j e hj], hj⟩

end ExpertsExecutor

end StreamEP

import StreamEP.Engine.Stash
import Mathlib.Data.List.Zip

/-!
# Integrity of the residual stash

Whatever the batches and their order, eager or with graphs: a layer reads for a request what the
layer before it wrote for the same request in the same decode step, and so does the sampler. Rows
are recycled without a leak because the first layer reads none, and padded rows of a graph only
touch the scratch row.

The invariant follows a request through the layers. While it is past the first layer, its row
holds the value logged for it at the layer before. Every other request writes to other rows, since
no row is assigned twice. Values are logged by request, decode step and layer, and no such key is
logged twice: a request only moves forward.

## Main results

* `indexCopy_of_mem`, `indexCopy_of_notMem`
* `StashRun.Inv.step`, `StashRun.Inv.of_run`
* `StashRun.integrity_of_run`
-/

namespace StreamEP

variable {V : Type}

/-! ### Copying rows -/

theorem indexCopy_of_notMem {rows : List ℕ} {values : List V} {i : ℕ}
    (h : ∀ v, (i, v) ∉ rows.zip values) (stash : ℕ → V) :
    indexCopy stash rows values i = stash i := by
  induction rows generalizing stash values with
  | nil => rfl
  | cons row rows ih =>
    cases values with
    | nil => rfl
    | cons v values =>
      have hne : i ≠ row := by
        rintro rfl
        exact h v (List.mem_cons_self ..)
      show indexCopy (Function.update stash row v) rows values i = stash i
      rw [ih fun v' hv' => h v' (List.mem_cons_of_mem _ hv'), Function.update_of_ne hne]

theorem indexCopy_of_mem {rows : List ℕ} {values : List V} {i : ℕ} {v : V}
    (hmem : (i, v) ∈ rows.zip values) (hone : ∀ v', (i, v') ∈ rows.zip values → v' = v)
    (stash : ℕ → V) : indexCopy stash rows values i = v := by
  induction rows generalizing stash values with
  | nil => cases hmem
  | cons row rows ih =>
    cases values with
    | nil => cases hmem
    | cons w values =>
      show indexCopy (Function.update stash row w) rows values i = v
      by_cases hlater : ∃ v', (i, v') ∈ rows.zip values
      · obtain ⟨v', hv'⟩ := hlater
        obtain rfl := hone v' (List.mem_cons_of_mem _ hv')
        exact ih hv' (fun v'' hv'' => hone v'' (List.mem_cons_of_mem _ hv'')) _
      · rw [not_exists] at hlater
        rcases List.mem_cons.1 hmem with heq | hmem
        · obtain ⟨rfl, rfl⟩ := Prod.mk.inj heq
          rw [indexCopy_of_notMem hlater, Function.update_self]
        · exact absurd hmem (hlater v)

/-- The rows of distinct requests and of padding, with the values copied there. -/
theorem mem_zip_rows {reqIds pad : List ℕ} {f : ℕ → ℕ} {values : List V} {i : ℕ} {v : V}
    (hmem : (i, v) ∈ (reqIds.map f ++ pad).zip values) :
    i ∈ pad ∨ ∃ r, f r = i ∧ (r, v) ∈ reqIds.zip values := by
  induction reqIds generalizing values with
  | nil => exact .inl (List.of_mem_zip hmem).1
  | cons r reqIds ih =>
    cases values with
    | nil => cases hmem
    | cons w values =>
      rcases List.mem_cons.1 hmem with heq | hmem
      · obtain ⟨rfl, rfl⟩ := Prod.mk.inj heq
        exact .inr ⟨r, rfl, List.mem_cons_self ..⟩
      · refine (ih hmem).imp_right fun ⟨r', hr', hmem'⟩ => ⟨r', hr', List.mem_cons_of_mem _ hmem'⟩

theorem zip_rows_mem {reqIds pad : List ℕ} {f : ℕ → ℕ} {values : List V} {r : ℕ} {v : V}
    (hmem : (r, v) ∈ reqIds.zip values) : (f r, v) ∈ (reqIds.map f ++ pad).zip values := by
  induction reqIds generalizing values with
  | nil => cases hmem
  | cons r' reqIds ih =>
    cases values with
    | nil => cases hmem
    | cons w values =>
      rcases List.mem_cons.1 hmem with heq | hmem
      · obtain ⟨rfl, rfl⟩ := Prod.mk.inj heq
        exact List.mem_cons_self ..
      · exact List.mem_cons_of_mem _ (ih hmem)

theorem zip_value_unique {keys : List ℕ} {values : List V} (hnodup : keys.Nodup) {k : ℕ} {v v' : V}
    (hv : (k, v) ∈ keys.zip values) (hv' : (k, v') ∈ keys.zip values) : v = v' := by
  induction keys generalizing values with
  | nil => cases hv
  | cons k' keys ih =>
    rw [List.nodup_cons] at hnodup
    cases values with
    | nil => cases hv
    | cons w values =>
      rcases List.mem_cons.1 hv with heq | hv <;> rcases List.mem_cons.1 hv' with heq' | hv'
      · exact (Prod.mk.inj heq).2.trans (Prod.mk.inj heq').2.symm
      · exact absurd ((Prod.mk.inj heq).1 ▸ (List.of_mem_zip hv').1) hnodup.1
      · exact absurd ((Prod.mk.inj heq').1 ▸ (List.of_mem_zip hv).1) hnodup.1
      · exact ih hnodup.2 hv hv'

/-- The value copied to the row of a request of the batch. -/
theorem indexCopy_row {reqIds pad : List ℕ} {f : ℕ → ℕ} {values : List V} (hnodup : reqIds.Nodup)
    (hinj : ∀ r ∈ reqIds, ∀ r' ∈ reqIds, f r = f r' → r = r') (hpad : ∀ r ∈ reqIds, f r ∉ pad)
    {r : ℕ} {v : V} (hmem : (r, v) ∈ reqIds.zip values) (stash : ℕ → V) :
    indexCopy stash (reqIds.map f ++ pad) values (f r) = v := by
  have hr := (List.of_mem_zip hmem).1
  refine indexCopy_of_mem (zip_rows_mem hmem) (fun v' hv' => ?_) stash
  rcases mem_zip_rows hv' with hin | ⟨r', heq, hmem'⟩
  · exact absurd hin (hpad r hr)
  · obtain rfl := hinj r' (List.of_mem_zip hmem').1 r hr heq
    exact zip_value_unique hnodup hmem' hmem

theorem indexCopy_other {reqIds pad : List ℕ} {f : ℕ → ℕ} {i : ℕ} (hf : ∀ r ∈ reqIds, f r ≠ i)
    (hpad : i ∉ pad) (values : List V) (stash : ℕ → V) :
    indexCopy stash (reqIds.map f ++ pad) values i = stash i := by
  refine indexCopy_of_notMem (fun v hv => ?_) stash
  rcases mem_zip_rows hv with hin | ⟨r, heq, hmem⟩
  · exact hpad hin
  · exact hf r (List.of_mem_zip hmem).1 heq

theorem eq_of_mem_zip_indexSelect {reqIds pad : List ℕ} {f : ℕ → ℕ} {stash : ℕ → V} {r : ℕ} {v : V}
    (hmem : (r, v) ∈ reqIds.zip (indexSelect stash (reqIds.map f ++ pad))) : v = stash (f r) := by
  induction reqIds with
  | nil => cases hmem
  | cons r' reqIds ih =>
    rcases List.mem_cons.1 hmem with heq | hmem
    · obtain ⟨rfl, rfl⟩ := Prod.mk.inj heq
      rfl
    · exact ih hmem

namespace StashRun

/-! ### The invariant -/

def Access.key (a : Access V) : ℕ × ℕ × ℕ := (a.reqId, a.decodeStep, a.layer)

structure Inv (cfg : Config) (s : State V) : Prop where
  pool : s.pool.Partitioned cfg.maxRunningReqs
  running : ∀ r i, s.pool.stashSlotMap.lookup r = some i → s.stage r ≠ none
  admitted : ∀ r, s.stage r ≠ none → r ∈ s.admitted
  /-- The row of a request holds what the layer before has written for it. -/
  content : ∀ r t l, s.stage r = some (t, l + 1) → ∃ i, s.pool.stashSlotMap.lookup r = some i ∧
    ⟨r, t, l, s.residualStash i⟩ ∈ s.writes
  past : ∀ a ∈ s.writes, a.reqId ∈ s.admitted ∧ ∀ t l, s.stage a.reqId = some (t, l) →
    a.decodeStep < t ∨ a.decodeStep = t ∧ a.layer < l
  /-- A layer writes once per decode step of a request. -/
  unique : (s.writes.map Access.key).Nodup
  /-- What was read is what the layer before has written. -/
  reads : ∀ a ∈ s.reads, ∃ l, a.layer = l + 1 ∧ ⟨a.reqId, a.decodeStep, l, a.value⟩ ∈ s.writes
  padded : ∀ i ∈ s.paddedRows, i = cfg.maxRunningReqs

variable {cfg : Config} {s : State V}

theorem inv_init (cfg : Config) (stash : ℕ → V) (staticSize : ℕ) :
    Inv cfg (State.init cfg stash staticSize) where
  pool := StashPool.partitioned_create _
  running r i h := by simp [State.init, StashPool.create] at h
  admitted r h := absurd rfl h
  content r t l h := by cases h
  past := by rintro a ⟨⟩
  unique := List.nodup_nil
  reads := by rintro a ⟨⟩
  padded := by rintro i ⟨⟩

theorem mem_accesses {layer : ℕ} {reqIds : List ℕ} {values : List V} {a : Access V}
    (hbatch : Batch s layer reqIds) {layer' : ℕ} (ha : a ∈ s.accesses layer' reqIds values) :
    a.reqId ∈ reqIds ∧ s.stage a.reqId = some (a.decodeStep, layer) ∧ a.layer = layer' ∧
      (a.reqId, a.value) ∈ reqIds.zip values := by
  obtain ⟨x, hx, rfl⟩ := List.mem_map.1 ha
  have hr := (List.of_mem_zip hx).1
  obtain ⟨t, ht⟩ := hbatch.2.2 x.1 hr
  refine ⟨hr, ?_, rfl, hx⟩
  simp only [ht, Option.map_some, Option.getD_some]

theorem map_reqId_accesses {layer : ℕ} {reqIds : List ℕ} {values : List V}
    (hlength : reqIds.length ≤ values.length) :
    (s.accesses layer reqIds values).map (·.reqId) = reqIds := by
  rw [State.accesses, List.map_map]
  exact List.map_fst_zip hlength

theorem advance_eq_none {reqIds : List ℕ} {r : ℕ} :
    s.advance reqIds r = none ↔ s.stage r = none := by
  unfold State.advance
  split <;> simp

/-- A request of the batch was before the layer; the others stay where they are. -/
theorem advance_cases {layerId : ℕ} {reqIds : List ℕ} (hbatch : Batch s layerId reqIds)
    {r t l : ℕ} (h : s.advance reqIds r = some (t, l)) :
    (r ∈ reqIds ∧ s.stage r = some (t, layerId) ∧ l = layerId + 1) ∨
      (r ∉ reqIds ∧ s.stage r = some (t, l)) := by
  unfold State.advance at h
  by_cases hr : r ∈ reqIds
  · obtain ⟨t', ht'⟩ := hbatch.2.2 r hr
    rw [if_pos hr, ht'] at h
    obtain ⟨rfl, rfl⟩ := Prod.mk.inj (Option.some.inj h)
    exact .inl ⟨hr, ht', rfl⟩
  · rw [if_neg hr] at h
    exact .inr ⟨hr, h⟩

namespace Inv

theorem assign (hs : Inv cfg s) {layer : ℕ} {reqIds slots : List ℕ} {pool : StashPool}
    (hbatch : Batch s layer reqIds) (hslots : s.pool.stashSlotsOf reqIds = .ok (slots, pool)) :
    Inv cfg { s with pool := pool } ∧ ∃ f : ℕ → ℕ, slots = reqIds.map f ∧
      ∀ r ∈ reqIds, pool.stashSlotMap.lookup r = some (f r) := by
  obtain ⟨hpart, hall, hkeep, hnew⟩ := hs.pool.stashSlotsOf hslots
  refine ⟨⟨hpart, fun r i hr => ?_, hs.admitted, fun r t l hr => ?_, hs.past, hs.unique, hs.reads,
    hs.padded⟩, fun r => (pool.stashSlotMap.lookup r).getD 0, ?_⟩
  · by_cases hmem : r ∈ reqIds
    · obtain ⟨t, ht⟩ := hbatch.2.2 r hmem
      simp [ht]
    · exact hs.running r i ((hnew r hmem).symm.trans hr)
  · obtain ⟨i, hi, hmem⟩ := hs.content r t l hr
    exact ⟨i, hkeep r i hi, hmem⟩
  · clear hbatch hslots hnew
    induction hall with
    | nil => exact ⟨rfl, by rintro r ⟨⟩⟩
    | cons hr _ ih =>
      refine ⟨?_, fun r hmem => ?_⟩
      · rw [List.map_cons, hr, ← ih.1]
        rfl
      · rcases List.mem_cons.1 hmem with rfl | hmem
        · simp only [hr, Option.getD_some]
        · exact ih.2 r hmem

/-- The row of a request that is not in the batch is not written. -/
theorem residual_other (hs : Inv cfg s) {reqIds pad : List ℕ} {f : ℕ → ℕ}
    (hf : ∀ r ∈ reqIds, s.pool.stashSlotMap.lookup r = some (f r))
    (hpad : ∀ i ∈ pad, i = cfg.maxRunningReqs) {r i : ℕ} (hr : r ∉ reqIds)
    (hi : s.pool.stashSlotMap.lookup r = some i) (residual : List V) :
    indexCopy s.residualStash (reqIds.map f ++ pad) residual i = s.residualStash i := by
  refine indexCopy_other (fun r' hr' heq => ?_) (fun hin => ?_) residual _
  · have hr'' := hf r' hr'
    rw [heq] at hr''
    exact hr (hs.pool.injective hi hr'' ▸ hr')
  · have hlt := hs.pool.lt_of_lookup hi
    rw [hpad i hin] at hlt
    exact Nat.lt_irrefl _ hlt

section Forward

variable {layerId : ℕ} {reqIds pad : List ℕ} {f : ℕ → ℕ} {residual : List V}

theorem residual_own (hs : Inv cfg s) (hbatch : Batch s layerId reqIds)
    (hf : ∀ r ∈ reqIds, s.pool.stashSlotMap.lookup r = some (f r))
    (hpad : ∀ i ∈ pad, i = cfg.maxRunningReqs) {x : Access V}
    (hx : x ∈ s.accesses layerId reqIds residual) :
    indexCopy s.residualStash (reqIds.map f ++ pad) residual (f x.reqId) = x.value := by
  refine indexCopy_row hbatch.2.1 ?_ ?_ (mem_accesses hbatch hx).2.2.2 _
  · intro r hr r' hr' heq
    have hr'' := hf r' hr'
    rw [← heq] at hr''
    exact hs.pool.injective (hf r hr) hr''
  · intro r hr hin
    have hlt := hs.pool.lt_of_lookup (hf r hr)
    rw [hpad _ hin] at hlt
    exact Nat.lt_irrefl _ hlt

theorem forward_content (hs : Inv cfg s) (hbatch : Batch s layerId reqIds)
    (hf : ∀ r ∈ reqIds, s.pool.stashSlotMap.lookup r = some (f r))
    (hpad : ∀ i ∈ pad, i = cfg.maxRunningReqs) (hlength : reqIds.length ≤ residual.length)
    {r t l : ℕ} (hr : s.advance reqIds r = some (t, l + 1)) :
    ∃ i, s.pool.stashSlotMap.lookup r = some i ∧
      ⟨r, t, l, indexCopy s.residualStash (reqIds.map f ++ pad) residual i⟩ ∈
        s.writes ++ s.accesses layerId reqIds residual := by
  rcases advance_cases hbatch hr with ⟨hmem, hstage, hl⟩ | ⟨hmem, hstage⟩
  · obtain rfl : l = layerId := Nat.succ.inj hl
    obtain ⟨x, hx, rfl⟩ : ∃ x ∈ s.accesses l reqIds residual, x.reqId = r := by
      rw [← List.mem_map, map_reqId_accesses hlength]
      exact hmem
    obtain ⟨-, hstage', hlayer, -⟩ := mem_accesses hbatch hx
    obtain ⟨rfl, -⟩ := Prod.mk.inj (Option.some.inj (hstage.symm.trans hstage'))
    refine ⟨f x.reqId, hf _ hmem, List.mem_append_right _ ?_⟩
    rw [hs.residual_own hbatch hf hpad hx]
    subst hlayer
    exact hx
  · obtain ⟨i, hi, hwrite⟩ := hs.content r t l hstage
    refine ⟨i, hi, List.mem_append_left _ ?_⟩
    rw [hs.residual_other hf hpad hmem hi]
    exact hwrite

theorem forward_past (hs : Inv cfg s) (hbatch : Batch s layerId reqIds) {a : Access V}
    (ha : a ∈ s.writes ++ s.accesses layerId reqIds residual) :
    a.reqId ∈ s.admitted ∧ ∀ t l, s.advance reqIds a.reqId = some (t, l) →
      a.decodeStep < t ∨ a.decodeStep = t ∧ a.layer < l := by
  rcases List.mem_append.1 ha with ha | ha
  · refine ⟨(hs.past a ha).1, fun t l hstage => ?_⟩
    rcases advance_cases hbatch hstage with ⟨-, hold, rfl⟩ | ⟨-, hold⟩
    · have := (hs.past a ha).2 t layerId hold
      omega
    · exact (hs.past a ha).2 t l hold
  · obtain ⟨hmem, hstage, hlayer, -⟩ := mem_accesses hbatch ha
    refine ⟨hs.admitted _ (by simp [hstage]), fun t l hnew => ?_⟩
    rcases advance_cases hbatch hnew with ⟨-, hold, rfl⟩ | ⟨hnot, -⟩
    · obtain ⟨rfl, -⟩ := Prod.mk.inj (Option.some.inj (hstage.symm.trans hold))
      exact .inr ⟨rfl, by omega⟩
    · exact absurd hmem hnot

/-- A batch writes once for each request, and later than everything before. -/
theorem forward_unique (hs : Inv cfg s) (hbatch : Batch s layerId reqIds)
    (hlength : reqIds.length ≤ residual.length) :
    ((s.writes ++ s.accesses layerId reqIds residual).map Access.key).Nodup := by
  rw [List.map_append]
  refine List.nodup_append.2 ⟨hs.unique, ?_, ?_⟩
  · refine List.Nodup.of_map (·.1) ?_
    rw [List.map_map]
    exact (map_reqId_accesses (s := s) hlength).symm ▸ hbatch.2.1
  · intro x hx y hy hxy
    obtain ⟨a, ha, rfl⟩ := List.mem_map.1 hx
    obtain ⟨b, hb, rfl⟩ := List.mem_map.1 hy
    obtain ⟨-, hstage, hlayer, -⟩ := mem_accesses hbatch hb
    obtain ⟨hreq, hrest⟩ := Prod.mk.inj hxy
    obtain ⟨hstep, hlay⟩ := Prod.mk.inj hrest
    have := (hs.past a ha).2 _ _ (hreq ▸ hstage)
    omega

/-- What a request of a batch reads is what the layer before has written for it. -/
theorem exists_write_of_read (hs : Inv cfg s) {l layer : ℕ} (hbatch : Batch s (l + 1) reqIds)
    (hf : ∀ r ∈ reqIds, s.pool.stashSlotMap.lookup r = some (f r)) {a : Access V}
    (ha : a ∈ s.accesses layer reqIds (indexSelect s.residualStash (reqIds.map f ++ pad))) :
    a.layer = layer ∧ ⟨a.reqId, a.decodeStep, l, a.value⟩ ∈ s.writes := by
  obtain ⟨hmem, hstage, hlayer, hzip⟩ := mem_accesses hbatch ha
  obtain ⟨i, hi, hwrite⟩ := hs.content _ _ _ hstage
  obtain rfl := Option.some.inj ((hf _ hmem).symm.trans hi)
  refine ⟨hlayer, ?_⟩
  rw [eq_of_mem_zip_indexSelect hzip]
  exact hwrite

theorem forward (hs : Inv cfg s) (hbatch : Batch s layerId reqIds)
    (hf : ∀ r ∈ reqIds, s.pool.stashSlotMap.lookup r = some (f r))
    (hpad : ∀ i ∈ pad, i = cfg.maxRunningReqs) (hlength : reqIds.length ≤ residual.length) :
    Inv cfg (s.forward layerId reqIds (reqIds.map f ++ pad) residual) := by
  refine ⟨hs.pool, fun r i hr => ?_, fun r hr => ?_,
    fun r t l hr => hs.forward_content hbatch hf hpad hlength hr,
    fun a ha => hs.forward_past hbatch ha, hs.forward_unique hbatch hlength,
    fun a ha => ?_, fun i hi => ?_⟩
  · exact (not_congr advance_eq_none).2 (hs.running r i hr)
  · exact hs.admitted r ((not_congr advance_eq_none).1 hr)
  · rcases List.mem_append.1 ha with ha | ha
    · obtain ⟨l, hl, hwrite⟩ := hs.reads a ha
      exact ⟨l, hl, List.mem_append_left _ hwrite⟩
    · cases layerId with
      | zero => simp [State.accesses] at ha
      | succ l =>
        rw [if_neg (Nat.succ_ne_zero l)] at ha
        obtain ⟨hlayer, hwrite⟩ := hs.exists_write_of_read hbatch hf ha
        exact ⟨l, hlayer, List.mem_append_left _ hwrite⟩
  · rcases List.mem_append.1 hi with hi | hi
    · exact hs.padded i hi
    · rw [List.drop_left' (List.length_map f)] at hi
      exact hpad i hi

end Forward

theorem sampleResults (hs : Inv cfg s) {reqIds finishReqIds : List ℕ} {f : ℕ → ℕ}
    (hbatch : Batch s cfg.numLayers reqIds)
    (hf : ∀ r ∈ reqIds, s.pool.stashSlotMap.lookup r = some (f r)) :
    Inv cfg (s.sampleResults cfg reqIds (reqIds.map f) finishReqIds) := by
  obtain ⟨hpart, hlookup⟩ := hs.pool.releaseSeqs finishReqIds
  -- a request of the batch has finished or starts over
  have hstage : ∀ r t l, (s.sampleResults cfg reqIds (reqIds.map f) finishReqIds).stage r =
      some (t, l) → r ∉ finishReqIds ∧
        ((r ∈ reqIds ∧ ∃ t', s.stage r = some (t', cfg.numLayers) ∧ t = t' + 1 ∧ l = 0) ∨
          (r ∉ reqIds ∧ s.stage r = some (t, l))) := by
    intro r t l h
    simp only [State.sampleResults] at h
    by_cases hfin : r ∈ finishReqIds
    · rw [if_pos hfin] at h
      cases h
    · rw [if_neg hfin] at h
      refine ⟨hfin, ?_⟩
      by_cases hr : r ∈ reqIds
      · obtain ⟨t', ht'⟩ := hbatch.2.2 r hr
        rw [if_pos hr, ht'] at h
        obtain ⟨rfl, rfl⟩ := Prod.mk.inj (Option.some.inj h)
        exact .inl ⟨hr, t', ht', rfl, rfl⟩
      · rw [if_neg hr] at h
        exact .inr ⟨hr, h⟩
  refine ⟨hpart, fun r i hr => ?_, fun r hr => ?_, fun r t l hr => ?_, fun a ha => ?_, hs.unique,
    fun a ha => ?_, hs.padded⟩
  · have hfin : r ∉ finishReqIds := by
      intro hfin
      have hnone := hlookup r
      rw [if_pos hfin] at hnone
      rw [State.sampleResults] at hr
      exact absurd (hnone.symm.trans hr) (by simp)
    have hold := hs.running r i (by
      have h := hlookup r
      rw [if_neg hfin] at h
      exact h.symm.trans hr)
    simp only [State.sampleResults, if_neg hfin]
    split
    · simpa using hold
    · exact hold
  · obtain ⟨⟨t, l⟩, hx⟩ := Option.ne_none_iff_exists'.1 hr
    rcases (hstage r t l hx).2 with ⟨-, t', ht', -⟩ | ⟨-, hold⟩
    · exact hs.admitted r (by simp [ht'])
    · exact hs.admitted r (by simp [hold])
  · obtain ⟨hfin, ⟨-, t', -, -, hl⟩ | ⟨-, hold⟩⟩ := hstage r t (l + 1) hr
    · cases hl
    · obtain ⟨i, hi, hwrite⟩ := hs.content r t l hold
      refine ⟨i, ?_, hwrite⟩
      have h := hlookup r
      rw [if_neg hfin] at h
      exact h.trans hi
  · refine ⟨(hs.past a ha).1, fun t l hnew => ?_⟩
    rcases (hstage _ t l hnew).2 with ⟨-, t', hold, rfl, rfl⟩ | ⟨-, hold⟩
    · have := (hs.past a ha).2 t' _ hold
      omega
    · exact (hs.past a ha).2 t l hold
  · rcases List.mem_append.1 ha with ha | ha
    · exact hs.reads a ha
    · obtain ⟨l, hl⟩ := Nat.exists_eq_succ_of_ne_zero (Nat.pos_iff_ne_zero.1 cfg.numLayers_pos)
      rw [← List.append_nil (reqIds.map f)] at ha
      obtain ⟨hlayer, hwrite⟩ := hs.exists_write_of_read (hl ▸ hbatch) hf ha
      exact ⟨l, hlayer.trans hl, hwrite⟩

theorem admitRequest (hs : Inv cfg s) {r : ℕ} (hnew : r ∉ s.admitted) :
    Inv cfg { s with
      stage := Function.update s.stage r (some (0, 0))
      admitted := s.admitted ++ [r] } := by
  have hstage : ∀ q t l, Function.update s.stage r (some (0, 0)) q = some (t, l) →
      (q = r ∧ l = 0) ∨ (q ≠ r ∧ s.stage q = some (t, l)) := by
    intro q t l h
    by_cases hq : q = r
    · subst hq
      rw [Function.update_self] at h
      exact .inl ⟨rfl, (Prod.mk.inj (Option.some.inj h)).2.symm⟩
    · rw [Function.update_of_ne hq] at h
      exact .inr ⟨hq, h⟩
  refine ⟨hs.pool, fun q i hq => ?_, fun q hq => ?_, fun q t l hq => ?_, fun a ha => ?_, hs.unique,
    hs.reads, hs.padded⟩
  · show Function.update s.stage r (some (0, 0)) q ≠ none
    by_cases heq : q = r
    · subst heq
      simp
    · rw [Function.update_of_ne heq]
      exact hs.running q i hq
  · obtain ⟨⟨t, l⟩, hx⟩ := Option.ne_none_iff_exists'.1 hq
    rcases hstage q t l hx with ⟨rfl, -⟩ | ⟨-, hold⟩
    · exact List.mem_append_right _ (List.mem_singleton.2 rfl)
    · exact List.mem_append_left _ (hs.admitted q (by simp [hold]))
  · rcases hstage q t (l + 1) hq with ⟨-, hl⟩ | ⟨-, hold⟩
    · cases hl
    · exact hs.content q t l hold
  · obtain ⟨hadm, hpast⟩ := hs.past a ha
    refine ⟨List.mem_append_left _ hadm, fun t l h => ?_⟩
    rcases hstage _ t l h with ⟨heq, -⟩ | ⟨-, hold⟩
    · exact absurd (heq ▸ hadm) hnew
    · exact hpast t l hold

/-! ### Runs -/

/-- The rows of a graph: those of the batch, and the scratch row for padding. -/
theorem take_copyStashSlots {slots : List ℕ} {batchSize : ℕ} (hle : slots.length ≤ batchSize) :
    (s.copyStashSlots cfg slots batchSize).staticStashSlots.take batchSize =
      slots ++ List.replicate (batchSize - slots.length) cfg.stashScratchSlot := by
  refine List.take_left' ?_
  rw [List.length_append, List.length_replicate]
  omega

theorem step {s' : State V} (hs : Inv cfg s) (hstep : Step cfg s s') : Inv cfg s' := by
  cases hstep with
  | admitRequest hnew => exact hs.admitRequest hnew
  | executeNormal hlayer hbatch hslots hresidual =>
    rename_i layerId reqIds slots pool residual
    obtain ⟨hs', f, rfl, hf⟩ := hs.assign hbatch hslots
    rw [← List.append_nil (reqIds.map f)]
    exact hs'.forward hbatch hf (by rintro i ⟨⟩) hresidual.ge
  | executeGraph hlayer hbatch hslots hbucket hcopy hresidual =>
    rename_i s₁ layerId batchSize reqIds slots pool residual
    obtain ⟨hs', f, rfl, hf⟩ := hs.assign hbatch hslots
    have hle : reqIds.length ≤ batchSize := by simpa using List.find?_some hbucket
    have hs₁ : Inv cfg s₁ := by
      rw [hcopy]
      exact ⟨hs'.pool, hs'.running, hs'.admitted, hs'.content, hs'.past, hs'.unique, hs'.reads,
        hs'.padded⟩
    have hrows : s₁.staticStashSlots.take batchSize = reqIds.map f ++
        List.replicate (batchSize - (reqIds.map f).length) cfg.stashScratchSlot := by
      rw [hcopy]
      exact take_copyStashSlots (by rwa [List.length_map])
    rw [hrows]
    refine hs₁.forward ?_ ?_ (fun i hi => List.eq_of_mem_replicate hi) (hresidual ▸ hle)
    · rw [hcopy]
      exact hbatch
    · rw [hcopy]
      exact hf
  | sampleResults hbatch hslots hfinish =>
    obtain ⟨hs', f, rfl, hf⟩ := hs.assign hbatch hslots
    exact hs'.sampleResults hbatch hf

theorem of_run {stash : ℕ → V} {staticSize : ℕ}
    (hrun : Relation.ReflTransGen (Step cfg) (State.init cfg stash staticSize) s) : Inv cfg s := by
  induction hrun with
  | refl => exact inv_init cfg stash staticSize
  | tail _ hstep ih => exact ih.step hstep

end Inv

structure Integrity (cfg : Config) (s : State V) : Prop where
  injective : ∀ r r' i, s.pool.stashSlotMap.lookup r = some i →
    s.pool.stashSlotMap.lookup r' = some i → r = r'
  live : ∀ r i, s.pool.stashSlotMap.lookup r = some i → s.stage r ≠ none
  /-- Free and assigned rows are all rows, each once. -/
  partition : (s.pool.stashFreeSlots ++ s.pool.assigned).Perm (List.range cfg.maxRunningReqs)
  /-- Padded rows of a graph touch the scratch row only. -/
  padded : ∀ i ∈ s.paddedRows, i = cfg.maxRunningReqs
  /-- What a layer or the sampler read for a request was written for it by the layer before, in
  the same decode step; in particular the first layer read nothing. -/
  reads : ∀ a ∈ s.reads, ∃ l, a.layer = l + 1 ∧ ⟨a.reqId, a.decodeStep, l, a.value⟩ ∈ s.writes ∧
    ∀ w ∈ s.writes, w.reqId = a.reqId → w.decodeStep = a.decodeStep → w.layer = l →
      w.value = a.value

/-- **Integrity of the stash**, in every run. -/
theorem integrity_of_run {stash : ℕ → V} {staticSize : ℕ}
    (hrun : Relation.ReflTransGen (Step cfg) (State.init cfg stash staticSize) s) :
    Integrity cfg s := by
  have hs := Inv.of_run hrun
  refine ⟨fun r r' i hr hr' => hs.pool.injective hr hr', hs.running, hs.pool, hs.padded,
    fun a ha => ?_⟩
  obtain ⟨l, hl, hwrite⟩ := hs.reads a ha
  refine ⟨l, hl, hwrite, fun w hw hreq hstep hlayer => ?_⟩
  have hkey : w.key = Access.key ⟨a.reqId, a.decodeStep, l, a.value⟩ := by
    rw [Access.key, hreq, hstep, hlayer]
    rfl
  rw [List.inj_on_of_nodup_map hs.unique hw hwrite hkey]

/-- Two layers and two rows. One request runs its first layer in a padded graph, the other one
eagerly; they share a batch at the second layer and at the sampler, where the first has finished
and a third request gets its row. -/
theorem integrity_three_requests :
    ∃ s : State ℕ, Relation.ReflTransGen (Step ⟨2, 2, by decide, [2, 4]⟩)
        (State.init ⟨2, 2, by decide, [2, 4]⟩ (fun _ => 0) 4) s ∧
      s.reads.map (fun a => (a.reqId, a.layer, a.value)) =
        [(9, 1, 90), (7, 1, 70), (7, 2, 71), (9, 2, 91)] ∧
      s.paddedRows = [2] ∧ s.pool.stashSlotMap.lookup 5 = some 0 ∧
      Integrity ⟨2, 2, by decide, [2, 4]⟩ s := by
  have hrun : Relation.ReflTransGen (Step ⟨2, 2, by decide, [2, 4]⟩)
    (State.init ⟨2, 2, by decide, [2, 4]⟩ (fun _ => 0) 4) _ := .refl
  replace hrun := hrun.tail (@Step.admitRequest _ _ _ 7 (by decide))
  replace hrun := hrun.tail (@Step.admitRequest _ _ _ 9 (by decide))
  replace hrun := hrun.tail (@Step.executeGraph _ _ _ _ 0 2 [7] _ _ [70, 99] (by decide)
    ⟨by decide, by decide, List.forall_mem_singleton.2 ⟨_, rfl⟩⟩ rfl rfl rfl rfl)
  replace hrun := hrun.tail (@Step.executeNormal _ _ _ 0 [9] _ _ [90] (by decide)
    ⟨by decide, by decide, List.forall_mem_singleton.2 ⟨_, rfl⟩⟩ rfl rfl)
  replace hrun := hrun.tail (@Step.executeNormal _ _ _ 1 [9, 7] _ _ [91, 71] (by decide)
    ⟨by decide, by decide, List.forall_mem_cons.2 ⟨⟨_, rfl⟩, List.forall_mem_singleton.2 ⟨_, rfl⟩⟩⟩
    rfl rfl)
  replace hrun := hrun.tail (@Step.sampleResults _ _ _ [7, 9] _ [7] _
    ⟨by decide, by decide, List.forall_mem_cons.2 ⟨⟨_, rfl⟩, List.forall_mem_singleton.2 ⟨_, rfl⟩⟩⟩
    rfl (by decide))
  replace hrun := hrun.tail (@Step.admitRequest _ _ _ 5 (by decide))
  replace hrun := hrun.tail (@Step.executeNormal _ _ _ 0 [5] _ _ [50] (by decide)
    ⟨by decide, by decide, List.forall_mem_singleton.2 ⟨_, rfl⟩⟩ rfl rfl)
  exact ⟨_, hrun, rfl, rfl, rfl, integrity_of_run hrun⟩

end StashRun

end StreamEP

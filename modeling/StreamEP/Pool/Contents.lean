import StreamEP.Lib.LocalChange
import StreamEP.Pool.Work
import Mathlib.Algebra.Order.Group.Multiset

/-!
# The contents of a pool

What a pool holds, as multisets: the request ids waiting for attention, the rows waiting for an
expert, and the rows gathered so far. What a row or a gathered entry counts for is left to a
function `f` of the layer, so that the same lemmas serve every later reading of the contents.

`LayerScheduler.Holds` is the invariant of the queues: every queue holds work of its layer. Adding
work succeeds, keeps it and adds what was given; serving a layer takes what it returns. The pool
around the queues is in `StreamEP.Pool.PoolInvariant`.
-/

namespace StreamEP

open Finset LayerScheduler

variable {W V α : Type}

/-! ### Contents of the queues -/

def tokenId : Row W V ⊕ TokenTopKInfo V → ℕ
  | .inl r => r.reqId
  | .inr t => t.seqId

theorem reqId_comp_coreRow (gatherSum : List V → V) :
    (·.reqId) ∘ coreRow (W := W) gatherSum = tokenId := by
  funext x
  cases x <;> rfl

section Layers

variable [TensorRow V]

def UnifiedLayer.ids (L : UnifiedLayer W V) : Multiset ℕ := ↑(L.queued.map tokenId)

def UnifiedLayer.batchRows (L : UnifiedLayer W V) : List (Row W V) :=
  L.batchQueue.flatMap TokenBatch.rows

namespace LayerScheduler

variable {s : LayerScheduler W V}

def attnIds (s : LayerScheduler W V) : Multiset ℕ :=
  ∑ l ∈ range s.numAttnLayers, (s.layerAt l).ids

def expertWork (f : ℕ → Row W V → α) (s : LayerScheduler W V) : Multiset α :=
  ∑ l ∈ range s.numExpertLayers, ↑((s.layerAt (s.numAttnLayers + l)).batchRows.map (f l))

theorem attnIds_modifyLayer {i : ℕ} (hlen : i < s.layers.length) (hi : i < s.numAttnLayers)
    {g : UnifiedLayer W V → UnifiedLayer W V} {x y : Multiset ℕ}
    (h : (g (s.layerAt i)).ids + x = (s.layerAt i).ids + y) :
    (s.modifyLayer i g).attnIds + x = s.attnIds + y := by
  refine sum_local_change (mem_range.mpr hi) (fun j _ hj => ?_) ?_
  · rw [layerAt_modifyLayer_of_ne s hj]
  · rw [layerAt_modifyLayer_self s hlen, h]

theorem attnIds_modifyLayer_of_le {i : ℕ} (hi : s.numAttnLayers ≤ i)
    (g : UnifiedLayer W V → UnifiedLayer W V) : (s.modifyLayer i g).attnIds = s.attnIds := by
  refine sum_congr rfl fun j hj => ?_
  have hj' : j < s.numAttnLayers := mem_range.mp hj
  rw [layerAt_modifyLayer_of_ne s (by omega)]

theorem expertWork_modifyLayer (f : ℕ → Row W V → α) {l : ℕ}
    (hlen : s.numAttnLayers + l < s.layers.length) (hl : l < s.numExpertLayers)
    {g : UnifiedLayer W V → UnifiedLayer W V} {x y : List (Row W V)}
    (h : ((g (s.layerAt (s.numAttnLayers + l))).batchRows ++ x).Perm
      ((s.layerAt (s.numAttnLayers + l)).batchRows ++ y)) :
    (s.modifyLayer (s.numAttnLayers + l) g).expertWork f + ↑(x.map (f l)) =
      s.expertWork f + ↑(y.map (f l)) := by
  refine sum_local_change (mem_range.mpr hl) (fun j _ hj => ?_) ?_
  · show Multiset.ofList (((s.modifyLayer _ g).layerAt (s.numAttnLayers + j)).batchRows.map _) = _
    rw [layerAt_modifyLayer_of_ne s (by omega)]
  · show Multiset.ofList (((s.modifyLayer _ g).layerAt (s.numAttnLayers + l)).batchRows.map _) +
      _ = _
    rw [layerAt_modifyLayer_self s hlen, Multiset.coe_add, Multiset.coe_add, ← List.map_append,
      ← List.map_append]
    exact Multiset.coe_eq_coe.mpr (h.map _)

theorem expertWork_modifyLayer_of_lt (f : ℕ → Row W V → α) {i : ℕ} (hi : i < s.numAttnLayers)
    (g : UnifiedLayer W V → UnifiedLayer W V) :
    (s.modifyLayer i g).expertWork f = s.expertWork f := by
  refine sum_congr rfl fun j _ => ?_
  show Multiset.ofList (((s.modifyLayer i g).layerAt (s.numAttnLayers + j)).batchRows.map _) = _
  rw [layerAt_modifyLayer_of_ne s (by omega)]

end LayerScheduler

end Layers

/-! ### Contents of the gathering pools -/

/-- The gathered entries, each counted by `f`. -/
def gathered (f : ℕ → TokenTopKInfo V → Multiset α) (pools : List (TokenTopKPool V)) :
    Multiset α :=
  ∑ l ∈ range pools.length, ((pools.getD l (.create 0)).pool.map (f l)).sum

theorem gathered_set (f : ℕ → TokenTopKInfo V → Multiset α) {pools : List (TokenTopKPool V)}
    {l : ℕ} {p p' : TokenTopKPool V} (hp : pools[l]? = some p) {x y : Multiset α}
    (h : (p'.pool.map (f l)).sum + x = (p.pool.map (f l)).sum + y) :
    gathered f (pools.set l p') + x = gathered f pools + y := by
  obtain ⟨hl, rfl⟩ := List.getElem?_eq_some_iff.mp hp
  rw [gathered, List.length_set]
  refine sum_local_change (mem_range.mpr hl) (fun j _ hj => ?_) ?_
  · rw [List.getD_eq_getElem?_getD, List.getElem?_set_ne (Ne.symm hj),
      ← List.getD_eq_getElem?_getD]
  · rw [List.getD_eq_getElem?_getD, List.getElem?_set_self hl, List.getD_eq_getElem _ _ hl]
    exact h

/-! ### The invariant of the queues -/

section Holds

variable [TensorRow V]

/-- Layer `i` of rank `d` holds work of its kind: layers up to `N` are attention layers. -/
structure LayerHolds (N k d : ℕ) (okRow : Row W V → Prop) (i : ℕ) (L : UnifiedLayer W V) :
    Prop where
  attn : i ≤ N → ∀ b ∈ L.batchQueue, AttnWork i b
  tokens : i ≤ N → ∀ t ∈ L.tokenQueue, GatheredWork k d t
  expert : ∀ l, i = N + 1 + l → ∀ b ∈ L.batchQueue, ExpertWork okRow l b

/-- All layers hold work of their kind. -/
structure LayerScheduler.Holds (N k d : ℕ) (okRow : Row W V → Prop) (s : LayerScheduler W V) :
    Prop extends s.Ok where
  numExpertLayers : s.numExpertLayers = N
  /-- Tokens are gathered when there is more than one copy. -/
  useTokenQueue : s.attnUseTokenQueue = decide (1 < k)
  holds : ∀ i < s.numLayers, LayerHolds N k d okRow i (s.layerAt i)

/-- What adding work does: `ids` wait for attention, `rows` for an expert, and no counter goes
down. -/
structure LayerScheduler.Added (s s' : LayerScheduler W V) (ids : Multiset ℕ)
    (rows : Multiset (ℕ × Row W V)) : Prop where
  attnIds : s'.attnIds = s.attnIds + ids
  expertWork : ∀ {β : Type} (f : ℕ → Row W V → β),
    s'.expertWork f = s.expertWork f + rows.map fun x => f x.1 x.2
  mono : ∀ i, (s.layerAt i).numTokens ≤ (s'.layerAt i).numTokens

variable {N k d : ℕ} {okRow : Row W V → Prop}

namespace LayerScheduler

variable {s : LayerScheduler W V}

theorem Holds.numAttn (hs : s.Holds N k d okRow) : s.numAttnLayers = N + 1 := by
  rw [hs.numAttnLayers, hs.numExpertLayers]

theorem Holds.numLayers_eq (hs : s.Holds N k d okRow) : s.numLayers = N + 1 + N := by
  rw [numLayers, hs.numAttn, hs.numExpertLayers]

theorem Holds.modifyLayer (hs : s.Holds N k d okRow) {i : ℕ} (hi : i < s.numLayers)
    {g : UnifiedLayer W V → UnifiedLayer W V} (hok : (s.modifyLayer i g).Ok)
    (hg : LayerHolds N k d okRow i (g (s.layerAt i))) :
    (s.modifyLayer i g).Holds N k d okRow where
  toOk := hok
  numExpertLayers := hs.numExpertLayers
  useTokenQueue := hs.useTokenQueue
  holds j hj := by
    by_cases hji : j = i
    · subst hji
      rwa [layerAt_modifyLayer_self s (hs.length_layers ▸ hi)]
    · rw [layerAt_modifyLayer_of_ne s hji]
      exact hs.holds j hj

omit [TensorRow V] in
theorem numTokens_mono_modifyLayer (s : LayerScheduler W V) {i : ℕ} (hi : i < s.layers.length)
    {g : UnifiedLayer W V → UnifiedLayer W V}
    (hg : (s.layerAt i).numTokens ≤ (g (s.layerAt i)).numTokens) (j : ℕ) :
    (s.layerAt j).numTokens ≤ ((s.modifyLayer i g).layerAt j).numTokens := by
  by_cases hji : j = i
  · subst hji
    rwa [layerAt_modifyLayer_self s hi]
  · rw [layerAt_modifyLayer_of_ne s hji]

/-- **Queueing attention work** at a layer that does not gather tokens. -/
theorem Holds.add_attn (hs : s.Holds N k d okRow) {l : ℕ} (hl : l ≤ N) (hzero : l = 0 ∨ k ≤ 1)
    {b : TokenBatch W V} (hb : AttnWork l b) :
    ∃ s', s.addBatch b = .ok s' ∧ s'.Holds N k d okRow ∧
      s.Added s' ↑(b.rows.map (·.reqId)) 0 := by
  have hna := hs.numAttn
  have haddable : s.Addable b := by
    refine ⟨hb.toWf, .inl ⟨hb.tag, ?_, ?_, hb.safeCheck⟩⟩
    · rw [hb.layerId]
      omega
    · rw [hb.layerId, hs.useTokenQueue]
      exact hzero.imp id fun h => by simpa using h
  have htarget : s.target b = l := by
    rw [target, if_pos (by simp [BatchMetadata.isAttention, hb.tag]), hb.layerId]
  obtain ⟨hlt, hadd, hok, hq⟩ := hs.addBatch_spec haddable
  rw [htarget] at hlt hadd hok hq
  have hlen : l < s.layers.length := hs.length_layers ▸ hlt
  refine ⟨_, hadd, hs.modifyLayer hlt hok ?_, ?_, ?_, ?_⟩
  · have hold := hs.holds l hlt
    refine ⟨fun _ c hc => ?_, hold.tokens, fun l' hl' => by omega⟩
    rcases List.mem_append.mp hc with hc | hc
    · exact hold.attn hl c hc
    · exact List.mem_singleton.mp hc ▸ hb
  · have hids : ((s.layerAt l).addBatch b).ids + 0 =
        (s.layerAt l).ids + ↑(b.rows.map (·.reqId)) := by
      rw [add_zero, UnifiedLayer.ids, hq, List.map_append, List.map_map, ← Multiset.coe_add]
      rfl
    simpa using attnIds_modifyLayer hlen (by omega) (g := (·.addBatch b)) hids
  · intro β f
    simpa using expertWork_modifyLayer_of_lt f (by omega) _
  · exact numTokens_mono_modifyLayer s hlen (by simp [UnifiedLayer.addBatch])

theorem Holds.add_expert (hs : s.Holds N k d okRow) {l : ℕ} (hl : l < N)
    {b : TokenBatch W V} (hb : ExpertWork okRow l b) :
    ∃ s', s.addBatch b = .ok s' ∧ s'.Holds N k d okRow ∧
      s.Added s' 0 ↑(b.rows.map fun r => (l, r)) := by
  have hna := hs.numAttn
  have haddable : s.Addable b := by
    refine ⟨hb.toWf, .inr ⟨hb.tag, ?_, hb.expIds_length⟩⟩
    rw [hb.layerId, hs.numExpertLayers]
    exact hl
  have htarget : s.target b = s.numAttnLayers + l := by
    rw [target, if_neg (by simp [BatchMetadata.isAttention, hb.tag]), hb.layerId]
  obtain ⟨hlt, hadd, hok, -⟩ := hs.addBatch_spec haddable
  rw [htarget] at hlt hadd hok
  have hlen : s.numAttnLayers + l < s.layers.length := hs.length_layers ▸ hlt
  refine ⟨_, hadd, hs.modifyLayer hlt hok ?_, ?_, ?_, ?_⟩
  · have hold := hs.holds _ hlt
    refine ⟨fun h => by omega, fun h => by omega, fun l' hl' c hc => ?_⟩
    rcases List.mem_append.mp hc with hc | hc
    · exact hold.expert l' hl' c hc
    · have hll : l' = l := by omega
      rw [List.mem_singleton.mp hc, hll]
      exact hb
  · rw [add_zero]
    exact attnIds_modifyLayer_of_le (by omega) _
  · intro β f
    have h := expertWork_modifyLayer f (l := l) hlen (hs.numExpertLayers ▸ hl)
      (g := (·.addBatch b)) (x := []) (y := b.rows)
      (by simp [UnifiedLayer.batchRows, UnifiedLayer.addBatch])
    simpa [Function.comp_def] using h
  · exact numTokens_mono_modifyLayer s hlen (by simp [UnifiedLayer.addBatch])

theorem Holds.add_tokens (hs : s.Holds N k d okRow) {l : ℕ} (hpos : 0 < l) (hl : l ≤ N)
    (hk : 1 < k) {ts : List (TokenTopKInfo V)} (hts : ∀ t ∈ ts, GatheredWork k d t) :
    ∃ s', s.attnAddTokens l ts = .ok s' ∧ s'.Holds N k d okRow ∧
      s.Added s' ↑(ts.map (·.seqId)) 0 := by
  have hna := hs.numAttn
  obtain ⟨hadd, hok, hq⟩ := hs.attnAddTokens_spec hpos (by omega)
    (by rw [hs.useTokenQueue]; simpa using hk) fun t ht => (hts t ht).len
  have hlt : l < s.numLayers := by
    rw [hs.numLayers_eq]
    omega
  have hlen : l < s.layers.length := hs.length_layers ▸ hlt
  refine ⟨_, hadd, hs.modifyLayer hlt hok ?_, ?_, ?_, ?_⟩
  · have hold := hs.holds l hlt
    refine ⟨fun h => ?_, fun h t ht => ?_, fun l' hl' => by omega⟩
    · rw [addTokens_eq]
      exact hold.attn h
    · rw [addTokens_eq] at ht
      exact (List.mem_append.mp ht).elim (hold.tokens h t) (hts t)
  · have hids : ((s.layerAt l).addTokens ts).ids + 0 =
        (s.layerAt l).ids + ↑(ts.map (·.seqId)) := by
      rw [add_zero, UnifiedLayer.ids, hq, List.map_append, List.map_map, ← Multiset.coe_add]
      rfl
    simpa using attnIds_modifyLayer hlen (by omega) (g := (·.addTokens ts)) hids
  · intro β f
    simpa using expertWork_modifyLayer_of_lt f (by omega) _
  · exact numTokens_mono_modifyLayer s hlen (by simp [addTokens_eq])

/-- What is left of a layer after serving it still holds work of its kind. -/
theorem holds_served {uses : Bool} {i : ℕ} {L : UnifiedLayer W V}
    (h : LayerHolds N k d okRow i L) (t : ℤ) :
    LayerHolds N k d okRow i (served uses L t) := by
  cases uses with
  | true =>
    simp only [served, if_true, UnifiedLayer.getTokensRestricted, takeTokens_eq]
    exact ⟨h.attn, fun hi u hu => h.tokens hi u (List.mem_of_mem_drop hu), h.expert⟩
  | false =>
    simp only [served, Bool.false_eq_true, if_false, UnifiedLayer.getBatchesRestricted]
    refine ⟨fun hi => ?_, h.tokens, fun l hl => ?_⟩
    · exact (takeBatches_forall (fun b _ _ hb hn => AttnWork.chunk hb hn) t 0 (h.attn hi)).2
    · exact (takeBatches_forall (fun b _ _ hb hn => ExpertWork.chunk hb hn) t 0 (h.expert l hl)).2

/-- **Serving an attention layer** takes from the waiting requests those of the batch. -/
theorem Holds.get_attn [Inhabited W] (S : StdSort) (gatherSum : List V → V)
    (hs : s.Holds N k d okRow) {i : ℕ} (hi : i ≤ N) (hpos : 0 < (s.layerAt i).numTokens) {t : ℤ}
    (ht : 1 ≤ t) :
    ∃ s' b, s.getBatchFromLayerRestricted S gatherSum i t = (s', .ok (some b)) ∧
      AttnWork i b ∧ 0 < b.metadata.numTokens ∧ s'.Holds N k d okRow ∧
      s'.attnIds + ↑(b.rows.map (·.reqId)) = s.attnIds ∧
      (∀ {β : Type} (f : ℕ → Row W V → β), s'.expertWork f = s.expertWork f) ∧
      ∃ tokens, tokens ++ (s'.layerAt i).queued = (s.layerAt i).queued ∧
        (b.rows.map Row.core).Perm (tokens.map (coreRow gatherSum)) := by
  have hna := hs.numAttn
  have hlt : i < s.numLayers := by
    rw [hs.numLayers_eq]
    omega
  have hold := hs.holds i hlt
  obtain ⟨b, hget, hwork, hperm⟩ :=
    hs.toOk.get_attn S gatherSum hlt hpos ht (hold.attn hi) (hold.tokens hi)
  obtain ⟨hserved, hsplit, htaken⟩ := (hs.layers i hlt).serve (show 0 ≤ t by omega)
  have hnonempty : 0 < b.metadata.numTokens := by
    have hlen := hperm.length_eq
    rw [List.length_map, List.length_map, TokenBatch.length_rows] at hlen
    have hnum := (hs.layers i hlt).numTokens
    omega
  -- the ids of the batch are the ids of the tokens taken
  have hids : (b.rows.map (·.reqId)).Perm
      ((taken (s.layerUsesTokenQueue i) (s.layerAt i) t).map tokenId) := by
    have hmap := hperm.map (·.reqId)
    rwa [List.map_map, List.map_map, reqId_comp_coreRow] at hmap
  refine ⟨_, b, hget, hwork, hnonempty, hs.modifyLayer hlt (hs.toOk.modifyLayer hlt hserved)
    (holds_served hold t), ?_, fun f => expertWork_modifyLayer_of_lt f (by omega) _,
    taken (s.layerUsesTokenQueue i) (s.layerAt i) t, ?_, hperm⟩
  on_goal 2 => rw [layerAt_modifyLayer_self s (hs.length_layers ▸ hlt), hsplit]
  have hlocal : (served (s.layerUsesTokenQueue i) (s.layerAt i) t).ids +
      ↑(b.rows.map (·.reqId)) = (s.layerAt i).ids + 0 := by
    rw [add_zero, UnifiedLayer.ids, UnifiedLayer.ids, Multiset.coe_eq_coe.mpr hids, ← hsplit,
      List.map_append, ← Multiset.coe_add, add_comm]
  simpa using attnIds_modifyLayer (hs.length_layers ▸ hlt) (by omega)
    (g := fun _ => served (s.layerUsesTokenQueue i) (s.layerAt i) t) hlocal

/-- **Serving an expert layer** takes from the waiting rows those of the batch. -/
theorem Holds.get_expert [Inhabited W] (S : StdSort) (gatherSum : List V → V)
    (hexp : ∀ r, okRow r → ∀ e ∈ r.expId, e < maxNumExperts) (hs : s.Holds N k d okRow) {l : ℕ}
    (hl : l < N) (hpos : 0 < (s.layerAt (N + 1 + l)).numTokens) {t : ℤ} (ht : 1 ≤ t) :
    ∃ s' b, s.getBatchFromLayerRestricted S gatherSum (N + 1 + l : ℕ) t = (s', .ok (some b)) ∧
      ExpertWork okRow l b ∧ s'.Holds N k d okRow ∧ s'.attnIds = s.attnIds ∧
      ∀ {β : Type} (f : ℕ → Row W V → β),
        s'.expertWork f + ↑(b.rows.map (f l)) = s.expertWork f := by
  have hna := hs.numAttn
  have hlt : N + 1 + l < s.numLayers := by
    rw [hs.numLayers_eq]
    omega
  rw [← hna] at hpos hlt ⊢
  have hold := hs.holds _ hlt
  obtain ⟨b, hget, hwork, hperm⟩ := hs.toOk.get_expert S gatherSum hlt hpos ht hexp
    (hold.expert l (by omega))
  have huses := s.layerUsesTokenQueue_expert l
  have hserve := (hs.toOk.expertLayer hlt).serve (show 0 ≤ t by omega)
  refine ⟨_, b, hget, hwork, hs.modifyLayer hlt
    (hs.toOk.modifyLayer hlt (huses ▸ hserve.1)) (holds_served hold t),
    attnIds_modifyLayer_of_le (by omega) _, fun f => ?_⟩
  have hlocal : ((served false (s.layerAt (s.numAttnLayers + l)) t).batchRows ++ b.rows).Perm
      ((s.layerAt (s.numAttnLayers + l)).batchRows ++ []) := by
    rw [List.append_nil, UnifiedLayer.batchRows, UnifiedLayer.batchRows,
      ← takeBatches_append t (s.layerAt (s.numAttnLayers + l)).batchQueue 0]
    exact (List.Perm.append_left _ hperm).trans List.perm_append_comm
  simpa using expertWork_modifyLayer f (hs.length_layers ▸ hlt) (hs.numExpertLayers ▸ hl)
    (g := fun _ => served false (s.layerAt (s.numAttnLayers + l)) t) hlocal

end LayerScheduler

end Holds

end StreamEP

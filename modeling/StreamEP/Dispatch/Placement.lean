import StreamEP.Batch.Metadata
import Mathlib.Logic.Function.Basic
import Mathlib.Data.List.Induction
import Mathlib.Data.List.Nodup
import Mathlib.Order.Basic

/-!
# Colocated placement

`ColocatePlacement` of `disagmoe/utils/placement.py`: every device runs attention for all layers
and hosts some experts. The experts are handed out in id order, either by an explicit allocation
or in equal shares. From the placement follow the connections between devices (`_add_edges`), the
rank of every expert and the rank of every device.

A dictionary with default `[]` is a function here; its keys are the devices. Looking up a device
that does not exist raises `KeyError` in the source and is an error here. Without an allocation the
source divides by `num_experts_per_rank`, which is zero when there are fewer experts than ranks; the
division and the lookup stand in the loop over the layers, so nothing is raised without a layer.

## Design

Two structures carry what the modules above rely on. `Colocation` is a placement that was computed
without an error and in which every device hosts an expert; the routing tables, the delivery of
batches and the grouping of expert work need no more. `Deployment` extends it by what the whole
system needs: one attention rank per device, and expert ids that the counting sort can take.

## Main results

* `ColocateConfig.hosts_placeExperts` — every expert is on exactly one device
* `ColocateConfig.updateExpertRank_eq` — the rank of an expert is its device
* `Colocation.mem_expert_iff`, `Colocation.linked_place`, `Colocation.mem_outDeviceIds` — what a
  placement in use guarantees
-/

namespace StreamEP

/-- What `ColocatePlacement` reads of the model and cluster configuration. -/
structure ColocateConfig where
  numLayers : ℕ
  numExperts : ℕ
  /-- `n_node * n_gpu` -/
  numDevices : ℕ
  epSize : ℕ
  dpSize : ℕ
  expertAllocation : Option (List ℕ)
deriving DecidableEq, Repr

def ColocateConfig.numExpertsPerRank (cfg : ColocateConfig) : ℕ := cfg.numExperts / cfg.epSize

structure ModelPlacement where
  /-- `attn`: the attention layers of a device -/
  attn : ℕ → List ℕ
  /-- `expert`: the pairs `(layer_id, expert_id)` of a device -/
  expert : ℕ → List (ℕ × ℕ)
  inDeviceIds : ℕ → List ℕ
  outDeviceIds : ℕ → List ℕ
  /-- `expert_ranks`: the rank of `(layer_id, expert_id)` -/
  expertRanks : ℕ × ℕ → ℕ
  attnDpRanks : ℕ → ℕ

namespace ModelPlacement

def addEdge (p : ModelPlacement) (src dst : ℕ) : ModelPlacement :=
  if src ∈ p.inDeviceIds dst then p
  else { p with
    inDeviceIds := Function.update p.inDeviceIds dst (p.inDeviceIds dst ++ [src])
    outDeviceIds := Function.update p.outDeviceIds src (p.outDeviceIds src ++ [dst]) }

def attnDpRankAt (p : ModelPlacement) (deviceId : ℕ) : ℕ := p.attnDpRanks deviceId

def outExpertRanksAt (p : ModelPlacement) (deviceId : ℕ) : List (ℕ × ℕ × ℕ) :=
  (p.outDeviceIds deviceId).flatMap fun devOut =>
    (p.expert devOut).map fun x => (x.1, x.2, p.expertRanks x)

end ModelPlacement

namespace ColocateConfig

variable (cfg : ColocateConfig)

def allLayers : List ℕ := List.range cfg.numLayers

/-- The loop of `_solve` over an explicit allocation, from device `dev` and expert `expertId`
on. Also returns the next free expert id. -/
def placeAllocation : List ℕ → ℕ → ℕ → (ℕ → List (ℕ × ℕ)) → ℕ × (ℕ → List (ℕ × ℕ))
  | [], _, expertId, experts => (expertId, experts)
  | count :: rest, dev, expertId, experts =>
    placeAllocation rest (dev + 1) (expertId + count) (Function.update experts dev
      (experts dev ++
        (List.range' expertId count).flatMap fun e => cfg.allLayers.map fun l => (l, e)))

/-- The loop of `_solve` without an allocation: expert `i` goes to device
`i // num_experts_per_rank`. -/
def placeUniform (experts : ℕ → List (ℕ × ℕ)) (i : ℕ) : ℕ → List (ℕ × ℕ) :=
  Function.update experts (i / cfg.numExpertsPerRank)
    (experts (i / cfg.numExpertsPerRank) ++ cfg.allLayers.map fun j => (j, i))

/-- `experts` in `_solve` -/
def placeExperts : Except String (ℕ → List (ℕ × ℕ)) :=
  match cfg.expertAllocation with
  | some allocation => do
    ensure (allocation.sum = cfg.numExperts) "Sum of expert allocation must match num_experts"
    ensure (allocation.length ≤ cfg.numDevices)
      "Expert allocation size exceeds number of devices"
    let (expertId, experts) := cfg.placeAllocation allocation 0 0 fun _ => []
    ensure (expertId = cfg.numExperts) "expert_id == n_expert"
    return experts
  | none => do
    ensure (0 < cfg.numLayers → 0 < cfg.numExperts → 0 < cfg.numExpertsPerRank)
      "ZeroDivisionError"
    ensure (0 < cfg.numLayers → ∀ i < cfg.numExperts, i / cfg.numExpertsPerRank < cfg.numDevices)
      "KeyError"
    return (List.range cfg.numExperts).foldl cfg.placeUniform fun _ => []

/-- The pairs `_add_edges` connects, in order. Every device runs attention for every layer; a
device counts as often for a layer as it has experts there. -/
def edges (expert : ℕ → List (ℕ × ℕ)) : List (ℕ × ℕ) :=
  let attnDevs := List.range cfg.numDevices
  let expDevs (layerId : ℕ) : List ℕ := (List.range cfg.numDevices).flatMap fun dev =>
    ((expert dev).filter (·.1 = layerId)).map fun _ => dev
  let toAttn (layerId : ℕ) : List (ℕ × ℕ) :=
    attnDevs.flatMap fun dev => (expDevs layerId).map fun prevDev => (prevDev, dev)
  let toExpert (layerId : ℕ) : List (ℕ × ℕ) :=
    attnDevs.flatMap fun dev => (expDevs layerId).map fun expDev => (dev, expDev)
  (List.range cfg.numLayers).flatMap (fun layerId =>
    (if layerId > 0 then toAttn (layerId - 1) else []) ++ toExpert layerId) ++
  toAttn (cfg.numLayers - 1)

/-- One entry of `expert_ranks` under an allocation: the device the expert was put on. -/
def recordRanks (expert : ℕ → List (ℕ × ℕ)) (ranks : ℕ × ℕ → ℕ) (dev : ℕ) : ℕ × ℕ → ℕ :=
  (expert dev).foldl (fun ranks x => Function.update ranks x dev) ranks

def updateExpertRank (expert : ℕ → List (ℕ × ℕ)) : ℕ × ℕ → ℕ :=
  match cfg.expertAllocation with
  | some _ => (List.range cfg.numDevices).foldl (recordRanks expert) fun _ => 0
  | none => fun x => x.2 / cfg.numExpertsPerRank

/-- What `_solve` returns: no connections and no ranks yet. -/
def unconnected (expert : ℕ → List (ℕ × ℕ)) : ModelPlacement where
  attn := fun _ => cfg.allLayers
  expert := expert
  inDeviceIds := fun _ => []
  outDeviceIds := fun _ => []
  expertRanks := fun _ => 0
  attnDpRanks := fun _ => 0

def addEdges (place : ModelPlacement) : ModelPlacement :=
  (cfg.edges place.expert).foldl (fun p e => p.addEdge e.1 e.2) place

def solve : Except String ModelPlacement := do
  let expert ← cfg.placeExperts
  return { cfg.addEdges (cfg.unconnected expert) with
    expertRanks := cfg.updateExpertRank expert
    attnDpRanks := fun dev => dev }

/-! ### Every expert is on exactly one device -/

/-- The experts below `n` are placed, each for all layers on one device. -/
structure Hosts (n : ℕ) (expert : ℕ → List (ℕ × ℕ)) : Prop where
  range : ∀ dev l e, (l, e) ∈ expert dev → l < cfg.numLayers ∧ e < n ∧ dev < cfg.numDevices
  /-- Every expert is somewhere, with all its layers. -/
  placed : ∀ e < n, ∃ dev, ∀ l < cfg.numLayers, (l, e) ∈ expert dev
  unique : ∀ {e dev dev' l l'}, (l, e) ∈ expert dev → (l', e) ∈ expert dev' → dev = dev'

variable {cfg}

theorem Hosts.add {n : ℕ} {expert : ℕ → List (ℕ × ℕ)} (h : cfg.Hosts n expert) {dev : ℕ}
    (hdev : 0 < cfg.numLayers → dev < cfg.numDevices) (count : ℕ) :
    cfg.Hosts (n + count) (Function.update expert dev (expert dev ++
      (List.range' n count).flatMap fun e => cfg.allLayers.map fun l => (l, e))) := by
  have hmem : ∀ dev' l e, (l, e) ∈ Function.update expert dev (expert dev ++
      (List.range' n count).flatMap fun e => cfg.allLayers.map fun l => (l, e)) dev' ↔
      (l, e) ∈ expert dev' ∨ (dev' = dev ∧ l < cfg.numLayers ∧ n ≤ e ∧ e < n + count) := by
    intro dev' l e
    by_cases hd : dev' = dev
    · subst hd
      simp [allLayers, and_comm, and_assoc]
    · simp [hd]
  refine ⟨fun dev' l e he => ?_, fun e he => ?_, fun {e dev₁ dev₂ l l'} h₁ h₂ => ?_⟩
  · rcases (hmem dev' l e).mp he with hold | ⟨rfl, hl, hge, hlt⟩
    · obtain ⟨hl, he, hd⟩ := h.range dev' l e hold
      exact ⟨hl, by omega, hd⟩
    · exact ⟨hl, hlt, hdev (by omega)⟩
  · by_cases hlt : e < n
    · obtain ⟨dev', hdev'⟩ := h.placed e hlt
      exact ⟨dev', fun l hl => (hmem dev' l e).mpr (.inl (hdev' l hl))⟩
    · exact ⟨dev, fun l hl => (hmem dev l e).mpr (.inr ⟨rfl, hl, by omega, he⟩)⟩
  · rcases (hmem dev₁ l e).mp h₁ with hold₁ | ⟨rfl, -, hge₁, -⟩
    · rcases (hmem dev₂ l' e).mp h₂ with hold₂ | ⟨rfl, -, hge₂, -⟩
      · exact h.unique hold₁ hold₂
      · have := (h.range dev₁ l e hold₁).2.1
        omega
    · rcases (hmem dev₂ l' e).mp h₂ with hold₂ | ⟨rfl, -⟩
      · have := (h.range dev₂ l' e hold₂).2.1
        omega
      · rfl

theorem hosts_zero : cfg.Hosts 0 fun _ => [] :=
  ⟨by simp, by simp, by simp⟩

theorem hosts_placeAllocation {allocation : List ℕ} {dev n : ℕ} {expert : ℕ → List (ℕ × ℕ)}
    (h : cfg.Hosts n expert) (hlen : dev + allocation.length ≤ cfg.numDevices) :
    cfg.Hosts (cfg.placeAllocation allocation dev n expert).1
      (cfg.placeAllocation allocation dev n expert).2 := by
  induction allocation generalizing dev n expert with
  | nil => exact h
  | cons count rest ih =>
    rw [List.length_cons] at hlen
    exact ih (h.add (fun _ => by omega) count) (by omega)

theorem hosts_placeUniform {n : ℕ}
    (hn : 0 < cfg.numLayers → ∀ i < n, i / cfg.numExpertsPerRank < cfg.numDevices) :
    cfg.Hosts n ((List.range n).foldl cfg.placeUniform fun _ => []) := by
  induction n with
  | zero => exact hosts_zero
  | succ n ih =>
    rw [List.range_succ, List.foldl_append]
    have hadd := (ih fun hl i hi => hn hl i (by omega)).add (fun hl => hn hl n (by omega)) 1
    simpa [placeUniform] using hadd

theorem hosts_placeExperts {expert : ℕ → List (ℕ × ℕ)} (h : cfg.placeExperts = .ok expert) :
    cfg.Hosts cfg.numExperts expert := by
  rw [placeExperts] at h
  split at h
  · obtain ⟨-, h⟩ := ensure_bind_eq_ok.mp h
    obtain ⟨hlen, h⟩ := ensure_bind_eq_ok.mp h
    obtain ⟨hnum, h⟩ := ensure_bind_eq_ok.mp h
    obtain rfl := Except.ok.inj h
    rw [← hnum]
    exact hosts_placeAllocation hosts_zero (by omega)
  · obtain ⟨-, h⟩ := ensure_bind_eq_ok.mp h
    obtain ⟨hrange, h⟩ := ensure_bind_eq_ok.mp h
    obtain rfl := Except.ok.inj h
    exact hosts_placeUniform hrange

/-! ### The rank of an expert is its device -/

theorem recordRanks_apply (expert : ℕ → List (ℕ × ℕ)) (ranks : ℕ × ℕ → ℕ) (dev : ℕ)
    (x : ℕ × ℕ) : recordRanks expert ranks dev x = if x ∈ expert dev then dev else ranks x := by
  rw [recordRanks]
  generalize expert dev = l
  induction l generalizing ranks with
  | nil => rfl
  | cons y l ih =>
    rw [List.foldl_cons, ih]
    by_cases hl : x ∈ l
    · simp [hl]
    · by_cases hy : x = y
      · simp [hy]
      · simp [hl, hy]

theorem foldl_recordRanks {expert : ℕ → List (ℕ × ℕ)} {dev : ℕ} {x : ℕ × ℕ}
    (hx : x ∈ expert dev) (hunique : ∀ dev', x ∈ expert dev' → dev' = dev) {devs : List ℕ}
    (hdev : dev ∈ devs) (ranks : ℕ × ℕ → ℕ) :
    devs.foldl (recordRanks expert) ranks x = dev := by
  -- the last device of the list that has the expert decides
  induction devs using List.reverseRecOn with
  | nil => simp at hdev
  | append_singleton devs d ih =>
    rw [List.foldl_append, List.foldl_cons, List.foldl_nil, recordRanks_apply]
    split_ifs with hd
    · exact hunique d hd
    · refine ih ((List.mem_append.mp hdev).resolve_right fun h => ?_)
      exact hd (List.mem_singleton.mp h ▸ hx)

theorem mem_foldl_placeUniform {n dev l e : ℕ}
    (h : (l, e) ∈ (List.range n).foldl cfg.placeUniform (fun _ => []) dev) :
    e / cfg.numExpertsPerRank = dev := by
  induction n with
  | zero => simp at h
  | succ n ih =>
    rw [List.range_succ, List.foldl_append, List.foldl_cons, List.foldl_nil, placeUniform] at h
    by_cases hd : dev = n / cfg.numExpertsPerRank
    · rw [← hd, Function.update_self] at h
      rcases List.mem_append.mp h with h | h
      · exact ih h
      · obtain ⟨-, rfl⟩ := by simpa using h
        exact hd.symm
    · rw [Function.update_of_ne hd] at h
      exact ih h

theorem updateExpertRank_eq {expert : ℕ → List (ℕ × ℕ)} (h : cfg.placeExperts = .ok expert)
    {dev : ℕ} {x : ℕ × ℕ} (hx : x ∈ expert dev) : cfg.updateExpertRank expert x = dev := by
  have hhosts := hosts_placeExperts h
  rw [updateExpertRank]
  cases halloc : cfg.expertAllocation with
  | some allocation =>
    have hdev := (hhosts.range dev x.1 x.2 hx).2.2
    exact foldl_recordRanks hx (fun dev' hx' => hhosts.unique hx' hx) (List.mem_range.mpr hdev) _
  | none =>
    rw [placeExperts, halloc] at h
    obtain ⟨-, h⟩ := ensure_bind_eq_ok.mp h
    obtain ⟨-, h⟩ := ensure_bind_eq_ok.mp h
    obtain rfl := Except.ok.inj h
    exact mem_foldl_placeUniform (l := x.1) hx

/-! ### Connections -/

theorem mem_edges {expert : ℕ → List (ℕ × ℕ)} {src dst l e : ℕ} (hsrc : src < cfg.numDevices)
    (hdst : dst < cfg.numDevices) (hl : l < cfg.numLayers) (he : (l, e) ∈ expert dst) :
    (src, dst) ∈ cfg.edges expert := by
  refine List.mem_append_left _ (List.mem_flatMap.mpr ⟨l, List.mem_range.mpr hl,
    List.mem_append_right _ (List.mem_flatMap.mpr ⟨src, List.mem_range.mpr hsrc,
      List.mem_map.mpr ⟨dst, List.mem_flatMap.mpr ⟨dst, List.mem_range.mpr hdst,
        List.mem_map.mpr ⟨(l, e), ?_, rfl⟩⟩, rfl⟩⟩)⟩)
  exact List.mem_filter.mpr ⟨he, by simp⟩

theorem lt_of_mem_edges {expert : ℕ → List (ℕ × ℕ)} {src dst : ℕ}
    (h : (src, dst) ∈ cfg.edges expert) : src < cfg.numDevices ∧ dst < cfg.numDevices := by
  simp only [edges, List.mem_append, List.mem_flatMap, List.mem_map, List.mem_range,
    Prod.mk.injEq] at h
  rcases h with ⟨l, -, h | h⟩ | h
  · split_ifs at h
    · simp only [List.mem_flatMap, List.mem_map, List.mem_range, Prod.mk.injEq] at h
      obtain ⟨dev, hdev, x, ⟨y, hy, -, -, rfl⟩, rfl, rfl⟩ := h
      exact ⟨hy, hdev⟩
    · simp at h
  · obtain ⟨dev, hdev, x, ⟨y, hy, -, -, rfl⟩, rfl, rfl⟩ := h
    exact ⟨hdev, hy⟩
  · obtain ⟨dev, hdev, x, ⟨y, hy, -, -, rfl⟩, rfl, rfl⟩ := h
    exact ⟨hy, hdev⟩

end ColocateConfig

namespace ModelPlacement

/-- The two directions of the connections agree, and none is listed twice. -/
structure Linked (p : ModelPlacement) : Prop where
  /-- `in` and `out` agree. -/
  agree : ∀ src dst, dst ∈ p.outDeviceIds src ↔ src ∈ p.inDeviceIds dst
  nodup : ∀ src, (p.outDeviceIds src).Nodup

theorem Linked.addEdge {p : ModelPlacement} (h : p.Linked) (src dst : ℕ) :
    (p.addEdge src dst).Linked ∧ ∀ a b, b ∈ (p.addEdge src dst).outDeviceIds a ↔
      b ∈ p.outDeviceIds a ∨ (a, b) = (src, dst) := by
  rw [ModelPlacement.addEdge]
  split_ifs with hmem
  · refine ⟨h, fun a b => ⟨.inl, ?_⟩⟩
    rintro (hab | hab)
    · exact hab
    · obtain ⟨rfl, rfl⟩ := Prod.mk.inj hab
      exact (h.agree a b).mpr hmem
  · have hout : ∀ a b, b ∈ Function.update p.outDeviceIds src (p.outDeviceIds src ++ [dst]) a ↔
        b ∈ p.outDeviceIds a ∨ (a, b) = (src, dst) := by
      intro a b
      by_cases ha : a = src
      · subst ha
        simp
      · simp [ha]
    have hin : ∀ a b, a ∈ Function.update p.inDeviceIds dst (p.inDeviceIds dst ++ [src]) b ↔
        a ∈ p.inDeviceIds b ∨ (a, b) = (src, dst) := by
      intro a b
      by_cases hb : b = dst
      · subst hb
        simp
      · simp [hb]
    refine ⟨⟨fun a b => ?_, fun a => ?_⟩, hout⟩
    · rw [hout, hin, h.agree]
    · by_cases ha : a = src
      · subst ha
        simp only [Function.update_self]
        exact (h.nodup a).append (List.nodup_singleton dst)
          (List.disjoint_singleton.mpr fun hd => hmem ((h.agree a dst).mp hd))
      · simpa [ha] using h.nodup a

theorem Linked.foldl_addEdge {p : ModelPlacement} (h : p.Linked) (es : List (ℕ × ℕ)) :
    (es.foldl (fun p e => p.addEdge e.1 e.2) p).Linked ∧
      ∀ a b, b ∈ (es.foldl (fun p e => p.addEdge e.1 e.2) p).outDeviceIds a ↔
        b ∈ p.outDeviceIds a ∨ (a, b) ∈ es := by
  induction es generalizing p with
  | nil => exact ⟨h, by simp⟩
  | cons e es ih =>
    obtain ⟨hlinked, hmem⟩ := h.addEdge e.1 e.2
    obtain ⟨hlinked', hmem'⟩ := ih hlinked
    refine ⟨hlinked', fun a b => ?_⟩
    rw [List.foldl_cons, hmem', hmem, List.mem_cons, or_assoc]

theorem foldl_addEdge_expert (p : ModelPlacement) (es : List (ℕ × ℕ)) :
    (es.foldl (fun p e => p.addEdge e.1 e.2) p).expert = p.expert := by
  induction es generalizing p with
  | nil => rfl
  | cons e es ih =>
    rw [List.foldl_cons, ih, addEdge]
    split_ifs <;> rfl

theorem nodup_inDeviceIds_foldl_addEdge {p : ModelPlacement}
    (h : ∀ dst, (p.inDeviceIds dst).Nodup) (es : List (ℕ × ℕ)) (dst : ℕ) :
    ((es.foldl (fun p e => p.addEdge e.1 e.2) p).inDeviceIds dst).Nodup := by
  induction es generalizing p with
  | nil => exact h dst
  | cons e es ih =>
    refine ih fun b => ?_
    beta_reduce
    rw [addEdge]
    split_ifs with hmem
    · exact h b
    · by_cases hb : b = e.2
      · subst hb
        simp only [Function.update_self]
        exact (h e.2).append (List.nodup_singleton e.1) (List.disjoint_singleton.mpr hmem)
      · simpa [hb] using h b

end ModelPlacement

theorem ColocateConfig.linked_unconnected {cfg : ColocateConfig} (expert : ℕ → List (ℕ × ℕ)) :
    (cfg.unconnected expert).Linked :=
  ⟨by simp [unconnected], by simp [unconnected]⟩

/-! ### A placement in use -/

/-- A placement in which every device hosts an expert. -/
structure Colocation where
  cfg : ColocateConfig
  place : ModelPlacement
  solved : cfg.solve = .ok place
  numLayers_pos : 0 < cfg.numLayers
  hosts : ∀ d < cfg.numDevices, place.expert d ≠ []

namespace Colocation

variable (P : Colocation)

/-- The device that hosts expert `e`. -/
def owner (e : ℕ) : ℕ := P.place.expertRanks (0, e)

theorem place_eq : ∃ expert, P.cfg.placeExperts = .ok expert ∧
    P.place = { P.cfg.addEdges (P.cfg.unconnected expert) with
      expertRanks := P.cfg.updateExpertRank expert
      attnDpRanks := fun dev => dev } := by
  have h := P.solved
  rw [ColocateConfig.solve] at h
  obtain ⟨expert, hexpert, h⟩ := bind_eq_ok.mp h
  exact ⟨expert, hexpert, (Except.ok.inj h).symm⟩

theorem place_spec : P.cfg.placeExperts = .ok P.place.expert ∧
    P.place.expertRanks = P.cfg.updateExpertRank P.place.expert ∧
    P.place.attnDpRanks = (fun dev => dev) ∧
    P.place.inDeviceIds = (P.cfg.addEdges (P.cfg.unconnected P.place.expert)).inDeviceIds ∧
    P.place.outDeviceIds = (P.cfg.addEdges (P.cfg.unconnected P.place.expert)).outDeviceIds := by
  obtain ⟨expert, hexpert, hplace⟩ := P.place_eq
  have hsame : P.place.expert = expert := by
    rw [hplace]
    exact ModelPlacement.foldl_addEdge_expert _ _
  rw [hsame]
  exact ⟨hexpert, by rw [hplace], by rw [hplace], by rw [hplace], by rw [hplace]⟩

theorem hosts_place : P.cfg.Hosts P.cfg.numExperts P.place.expert :=
  ColocateConfig.hosts_placeExperts P.place_spec.1

theorem expertRanks_eq {dev : ℕ} {x : ℕ × ℕ} (hx : x ∈ P.place.expert dev) :
    P.place.expertRanks x = dev := by
  rw [P.place_spec.2.1]
  exact ColocateConfig.updateExpertRank_eq P.place_spec.1 hx

/-- An expert is hosted, with all its layers, by its owner and by no other device. -/
theorem mem_expert_iff {e l dev : ℕ} (he : e < P.cfg.numExperts) (hl : l < P.cfg.numLayers) :
    (l, e) ∈ P.place.expert dev ↔ dev = P.owner e := by
  obtain ⟨host, hhost⟩ := P.hosts_place.placed e he
  have howner : P.owner e = host := P.expertRanks_eq (hhost 0 P.numLayers_pos)
  rw [howner]
  refine ⟨fun h => P.hosts_place.unique h (hhost l hl), ?_⟩
  rintro rfl
  exact hhost l hl

theorem owner_lt {e : ℕ} (he : e < P.cfg.numExperts) : P.owner e < P.cfg.numDevices :=
  (P.hosts_place.range _ _ _ ((P.mem_expert_iff he P.numLayers_pos).mpr rfl)).2.2

theorem attnDpRankAt_eq (d : ℕ) : P.place.attnDpRankAt d = d := by
  rw [ModelPlacement.attnDpRankAt, P.place_spec.2.2.1]

theorem map_attnDpRankAt (devs : List ℕ) : devs.map P.place.attnDpRankAt = devs := by
  rw [List.map_congr_left fun d _ => P.attnDpRankAt_eq d, List.map_id']

/-- The connections agree at their two ends, and none is listed twice. -/
theorem linked_place : P.place.Linked ∧ ∀ dst, (P.place.inDeviceIds dst).Nodup := by
  have hempty : (P.cfg.unconnected P.place.expert).Linked := ColocateConfig.linked_unconnected _
  obtain ⟨-, -, -, hin, hout⟩ := P.place_spec
  refine ⟨⟨?_, ?_⟩, ?_⟩
  · rw [hin, hout]
    exact (hempty.foldl_addEdge _).1.agree
  · rw [hout]
    exact (hempty.foldl_addEdge _).1.nodup
  · rw [hin]
    exact ModelPlacement.nodup_inDeviceIds_foldl_addEdge (by simp [ColocateConfig.unconnected]) _

/-- **All devices are connected**: every device lists every device. -/
theorem mem_outDeviceIds {d d' : ℕ} (hd : d < P.cfg.numDevices) :
    d' ∈ P.place.outDeviceIds d ↔ d' < P.cfg.numDevices := by
  have hempty : (P.cfg.unconnected P.place.expert).Linked := ColocateConfig.linked_unconnected _
  obtain ⟨-, hmem⟩ := hempty.foldl_addEdge (P.cfg.edges P.place.expert)
  rw [P.place_spec.2.2.2.2]
  refine (hmem d d').trans ⟨?_, fun hd' => .inr ?_⟩
  · rintro (h | h)
    · simp [ColocateConfig.unconnected] at h
    · exact (ColocateConfig.lt_of_mem_edges h).2
  · -- the device hosts an expert of some layer, and is connected for that layer
    obtain ⟨⟨l, e⟩, hx⟩ := List.exists_mem_of_ne_nil _ (P.hosts d' hd')
    exact ColocateConfig.mem_edges hd hd' (P.hosts_place.range d' l e hx).1 hx

end Colocation

/-! ### A deployment -/

/-- A colocated deployment: a placement in which every device hosts an expert, with one attention
rank per device and expert ids within the limit of the counting sort. -/
structure Deployment extends Colocation where
  dpSize : cfg.dpSize = cfg.numDevices
  /-- Expert ids are within the limit of the counting sort. -/
  numExperts_le : cfg.numExperts ≤ maxNumExperts

/-! ### The smallest deployment with a network -/

/-- Two devices, two layers and one expert on each device. -/
def ColocateConfig.pair : ColocateConfig where
  numLayers := 2
  numExperts := 2
  numDevices := 2
  epSize := 2
  dpSize := 2
  expertAllocation := none

def Deployment.pair : Deployment where
  cfg := .pair
  place :=
    let expert := (List.range 2).foldl ColocateConfig.pair.placeUniform fun _ => []
    { ColocateConfig.pair.addEdges (ColocateConfig.pair.unconnected expert) with
      expertRanks := ColocateConfig.pair.updateExpertRank expert
      attnDpRanks := fun dev => dev }
  solved := rfl
  numLayers_pos := by decide
  dpSize := rfl
  numExperts_le := by decide
  hosts := by decide

end StreamEP

import StreamEP.Dispatch.ExpertTables

/-!
# The routing tables agree with the placement

A device routes by tables that are made from four descriptions of the placement: the connections,
the ranks of the channels, the ranks of the experts and the experts a device hosts. For every
allocation that gives each device an expert, the placement is found and the tables say the same
thing as the placement.

## Main results

* `ColocateConfig.exists_colocation` — such a configuration has a placement with all devices in use
* `ColocateConfig.routing_agrees` — its tables agree with it
-/

namespace StreamEP

namespace ColocateConfig

variable {cfg : ColocateConfig}

/-- Every device is given an expert: by an allocation for all devices, or by equal shares. -/
def EachHosts (cfg : ColocateConfig) : Prop :=
  match cfg.expertAllocation with
  | some allocation =>
    allocation.length = cfg.numDevices ∧ allocation.sum = cfg.numExperts ∧
      ∀ count ∈ allocation, 1 ≤ count
  | none =>
    cfg.epSize = cfg.numDevices ∧ cfg.epSize ∣ cfg.numExperts ∧ cfg.numDevices ≤ cfg.numExperts

/-! ### Every device hosts an expert -/

theorem placeAllocation_fst (allocation : List ℕ) (dev n : ℕ) (expert : ℕ → List (ℕ × ℕ)) :
    (cfg.placeAllocation allocation dev n expert).1 = n + allocation.sum := by
  induction allocation generalizing dev n expert with
  | nil => rfl
  | cons count rest ih => rw [placeAllocation, ih, List.sum_cons, Nat.add_assoc]

theorem mem_placeAllocation {allocation : List ℕ} {dev n d : ℕ} {expert : ℕ → List (ℕ × ℕ)}
    {x : ℕ × ℕ} (hx : x ∈ expert d) : x ∈ (cfg.placeAllocation allocation dev n expert).2 d := by
  induction allocation generalizing dev n expert with
  | nil => exact hx
  | cons count rest ih =>
    refine ih ?_
    by_cases hd : d = dev
    · subst hd
      rw [Function.update_self]
      exact List.mem_append_left _ hx
    · rwa [Function.update_of_ne hd]

theorem placeAllocation_ne_nil (hlayers : 1 ≤ cfg.numLayers) {allocation : List ℕ} {dev n d : ℕ}
    {expert : ℕ → List (ℕ × ℕ)} (hcount : ∀ count ∈ allocation, 1 ≤ count) (hd : dev ≤ d)
    (hlt : d < dev + allocation.length) :
    (cfg.placeAllocation allocation dev n expert).2 d ≠ [] := by
  induction allocation generalizing dev n expert with
  | nil =>
    rw [List.length_nil] at hlt
    omega
  | cons count rest ih =>
    rw [List.length_cons] at hlt
    rcases hd.eq_or_lt with rfl | hd
    · -- the device this round is about: its first expert, for the first layer
      rw [placeAllocation]
      refine List.ne_nil_of_mem (mem_placeAllocation (x := (0, n)) ?_)
      rw [Function.update_self]
      refine List.mem_append_right _ (List.mem_flatMap.mpr ⟨n, ?_, ?_⟩)
      · have := hcount count List.mem_cons_self
        exact List.mem_range'_1.mpr ⟨le_rfl, by omega⟩
      · exact List.mem_map_of_mem (List.mem_range.mpr hlayers)
    · exact ih (fun c hc => hcount c (List.mem_cons_of_mem _ hc)) hd (by omega)

theorem placeUniform_ne_nil (hlayers : 1 ≤ cfg.numLayers) {n d : ℕ}
    (hn : 0 < cfg.numLayers → ∀ i < n, i / cfg.numExpertsPerRank < cfg.numDevices)
    (hper : 0 < cfg.numExpertsPerRank)
    (hd : d * cfg.numExpertsPerRank < n) :
    (List.range n).foldl cfg.placeUniform (fun _ => []) d ≠ [] := by
  obtain ⟨dev, hdev⟩ := (hosts_placeUniform hn).placed _ hd
  have hmem := hdev 0 hlayers
  have heq := mem_foldl_placeUniform hmem
  rw [Nat.mul_div_cancel _ hper] at heq
  subst heq
  exact List.ne_nil_of_mem hmem

theorem placeExperts_spec (hlayers : 1 ≤ cfg.numLayers) (heach : cfg.EachHosts) :
    ∃ expert, cfg.placeExperts = .ok expert ∧ ∀ d < cfg.numDevices, expert d ≠ [] := by
  rw [EachHosts] at heach
  rw [placeExperts]
  cases halloc : cfg.expertAllocation with
  | some allocation =>
    rw [halloc] at heach
    obtain ⟨hlen, hsum, hcount⟩ := heach
    refine ⟨(cfg.placeAllocation allocation 0 0 fun _ => []).2, ?_,
      fun d hd => placeAllocation_ne_nil hlayers hcount d.zero_le (by omega)⟩
    simp only [placeAllocation_fst]
    rw [ensure_of_true hsum, ok_bind, ensure_of_true hlen.le, ok_bind,
      ensure_of_true (by omega), ok_bind]
    rfl
  | none =>
    rw [halloc] at heach
    obtain ⟨hep, hdvd, hle⟩ := heach
    -- the shares are equal, so expert `d * share` is the first one of device `d`
    have htotal : cfg.numDevices * cfg.numExpertsPerRank = cfg.numExperts := by
      rw [numExpertsPerRank, ← hep]
      exact Nat.mul_div_cancel' hdvd
    have hper : 0 < cfg.numLayers → 0 < cfg.numExperts → 0 < cfg.numExpertsPerRank := by
      intro _ hpos
      exact Nat.pos_of_mul_pos_left (htotal ▸ hpos)
    have hrange : 0 < cfg.numLayers →
        ∀ i < cfg.numExperts, i / cfg.numExpertsPerRank < cfg.numDevices := by
      intro _ i hi
      rw [← htotal, Nat.mul_comm] at hi
      exact Nat.div_lt_of_lt_mul hi
    refine ⟨_, by rw [ensure_of_true hper, ok_bind, ensure_of_true hrange, ok_bind]; rfl,
      fun d hd => ?_⟩
    have hpos := hper hlayers (by omega)
    refine placeUniform_ne_nil hlayers hrange hpos ?_
    rw [← htotal]
    exact Nat.mul_lt_mul_of_pos_right hd hpos

/-- **A configuration that gives every device an expert** has a placement in which it does. -/
theorem exists_colocation (hlayers : 1 ≤ cfg.numLayers) (heach : cfg.EachHosts) :
    ∃ P : Colocation, P.cfg = cfg := by
  obtain ⟨expert, hexpert, hhosts⟩ := placeExperts_spec hlayers heach
  refine ⟨⟨cfg, { cfg.addEdges (cfg.unconnected expert) with
    expertRanks := cfg.updateExpertRank expert
    attnDpRanks := fun dev => dev }, ?_, hlayers, fun d hd => ?_⟩, rfl⟩
  · rw [solve, hexpert]
    rfl
  · have hsame : (cfg.addEdges (cfg.unconnected expert)).expert = expert :=
      ModelPlacement.foldl_addEdge_expert _ _
    show (cfg.addEdges (cfg.unconnected expert)).expert d ≠ []
    rw [hsame]
    exact hhosts d hd

end ColocateConfig

/-! ### The tables -/

/-- **The routing tables agree with a placement.** -/
structure RoutingAgrees (cfg : ColocateConfig) (place : ModelPlacement) : Prop where
  /-- Every expert of a layer is on exactly one device. -/
  hosted : ∀ l < cfg.numLayers, ∀ e < cfg.numExperts,
    ∃! d, d < cfg.numDevices ∧ (l, e) ∈ place.expert d
  /-- An expert is routed to the channel whose peer hosts it, at every layer. -/
  expertChannel : ∀ d < cfg.numDevices, ∀ l e host, (l, e) ∈ place.expert host →
    place.peer d ((cfg.dispatcher place d).expertGetChannelId e) = some host
  /-- An attention rank is routed to the channel whose peer has it. -/
  attnChannel : ∀ d < cfg.numDevices, ∀ r < cfg.dpSize,
    ∃ dev < cfg.numDevices, place.attnDpRankAt dev = r ∧
      (∀ dev' < cfg.numDevices, place.attnDpRankAt dev' = r → dev' = dev) ∧
      place.peer d ((cfg.dispatcher place d).attnGetChannelId r) = some dev
  /-- No entry that is used is `-1`. -/
  used : ∀ d < cfg.numDevices,
    (∀ e < cfg.numExperts, (cfg.dispatcher place d).expertToRank.getD e (-1) ≠ -1 ∧
      (cfg.dispatcher place d).expertGetChannelId e ≠ -1) ∧
    ∀ r < cfg.dpSize, (cfg.dispatcher place d).attnGetChannelId r ≠ -1
  /-- A connection is listed at both ends, and once. -/
  edges : ∀ src dst, (place.outDeviceIds src).count dst = (place.inDeviceIds dst).count src ∧
    (place.outDeviceIds src).count dst ≤ 1
  /-- The tables of a device number exactly the experts it hosts. -/
  experts : ∀ d < cfg.numDevices, ∀ rank, ∃ x,
    buildExpertExecutor cfg.numExperts cfg.numExpertsPerRank rank
        (some (place.uniqueExpertIdsAt d)) = .ok x ∧
      x.Numbers cfg.numExperts (place.uniqueExpertIdsAt d) ∧
      ∀ e, e ∈ place.uniqueExpertIdsAt d ↔ ∃ l, (l, e) ∈ place.expert d

theorem ModelPlacement.ne_of_peer {p : ModelPlacement} {d d' : ℕ} {c : ℤ}
    (h : p.peer d c = some d') : c ≠ -1 := by
  rintro rfl
  cases h

namespace Colocation

variable (P : Colocation)

theorem mem_uniqueExpertIdsAt_iff {d e : ℕ} (he : e < P.cfg.numExperts) :
    e ∈ P.place.uniqueExpertIdsAt d ↔ P.owner e = d := by
  rw [ModelPlacement.mem_uniqueExpertIdsAt]
  constructor
  · rintro ⟨l, hl⟩
    exact ((P.mem_expert_iff he (P.hosts_place.range d l e hl).1).mp hl).symm
  · intro howner
    exact ⟨0, (P.mem_expert_iff he P.numLayers_pos).mpr howner.symm⟩

theorem lt_of_mem_uniqueExpertIdsAt {d e : ℕ} (he : e ∈ P.place.uniqueExpertIdsAt d) :
    e < P.cfg.numExperts := by
  obtain ⟨l, hl⟩ := ModelPlacement.mem_uniqueExpertIdsAt.mp he
  exact (P.hosts_place.range d l e hl).2.1

theorem uniqueExpertIdsAt_ne_nil {d : ℕ} (hd : d < P.cfg.numDevices) :
    P.place.uniqueExpertIdsAt d ≠ [] := by
  obtain ⟨⟨l, e⟩, hx⟩ := List.exists_mem_of_ne_nil _ (P.hosts d hd)
  exact List.ne_nil_of_mem (ModelPlacement.mem_uniqueExpertIdsAt.mpr ⟨l, hx⟩)

theorem buildExpertExecutor_spec {d : ℕ} (hd : d < P.cfg.numDevices) (numExpertsPerRank rank : ℕ) :
    ∃ x, buildExpertExecutor P.cfg.numExperts numExpertsPerRank rank
        (some (P.place.uniqueExpertIdsAt d)) = .ok x ∧
      x.Numbers P.cfg.numExperts (P.place.uniqueExpertIdsAt d) :=
  buildExpertExecutor_eq (P.uniqueExpertIdsAt_ne_nil hd)
    ((P.place.uniqueExpertIdsAt_sorted d).imp Nat.ne_of_lt)
    (fun _ he => P.lt_of_mem_uniqueExpertIdsAt he) numExpertsPerRank rank

theorem count_outDeviceIds (src dst : ℕ) :
    (P.place.outDeviceIds src).count dst = (P.place.inDeviceIds dst).count src ∧
      (P.place.outDeviceIds src).count dst ≤ 1 := by
  obtain ⟨hlinked, hin⟩ := P.linked_place
  have hout := hlinked.nodup src
  refine ⟨?_, List.nodup_iff_count_le_one.mp hout dst⟩
  rw [hout.count, (hin dst).count]
  simp [hlinked.agree]

/-- The tables of a placement agree with it when every device is an attention rank. -/
theorem routingAgrees (hdp : P.cfg.dpSize = P.cfg.numDevices) : RoutingAgrees P.cfg P.place := by
  have hattn : ∀ d < P.cfg.numDevices, ∀ r < P.cfg.dpSize,
      P.place.peer d ((P.cfg.dispatcher P.place d).attnGetChannelId r) = some r :=
    fun d hd r hr => P.peer_attnGetChannelId hd hdp.ge (hdp ▸ hr)
  have hexpert : ∀ d < P.cfg.numDevices, ∀ e < P.cfg.numExperts,
      P.place.peer d ((P.cfg.dispatcher P.place d).expertGetChannelId e) = some (P.owner e) := by
    intro d hd e he
    rw [P.expertGetChannelId_eq hd he]
    exact P.peer_attnGetChannelId hd hdp.ge (P.owner_lt he)
  constructor
  · intro l hl e he
    refine ⟨P.owner e, ⟨P.owner_lt he, (P.mem_expert_iff he hl).mpr rfl⟩, ?_⟩
    rintro d ⟨-, hd⟩
    exact (P.mem_expert_iff he hl).mp hd
  · intro d hd l e host hmem
    obtain ⟨hl, he, -⟩ := P.hosts_place.range host l e hmem
    rw [hexpert d hd e he, (P.mem_expert_iff he hl).mp hmem]
  · intro d hd r hr
    refine ⟨r, hdp ▸ hr, P.attnDpRankAt_eq r, fun dev _ hdev => ?_, hattn d hd r hr⟩
    rw [← hdev, P.attnDpRankAt_eq]
  · intro d hd
    refine ⟨fun e he => ⟨?_, ModelPlacement.ne_of_peer (hexpert d hd e he)⟩,
      fun r hr => ModelPlacement.ne_of_peer (hattn d hd r hr)⟩
    rw [P.expertToRank_eq hd he]
    omega
  · exact P.count_outDeviceIds
  · intro d hd rank
    obtain ⟨x, hbuild, hx⟩ := P.buildExpertExecutor_spec hd P.cfg.numExpertsPerRank rank
    exact ⟨x, hbuild, hx, fun e => ModelPlacement.mem_uniqueExpertIdsAt⟩

end Colocation

namespace ColocateConfig

/-- **Routing tables agree with placement**, for every configuration in which each device gets an
expert and is an attention rank. -/
theorem routing_agrees {cfg : ColocateConfig} (hlayers : 1 ≤ cfg.numLayers)
    (hdp : cfg.dpSize = cfg.numDevices) (heach : cfg.EachHosts) :
    ∃ place, cfg.solve = .ok place ∧ RoutingAgrees cfg place := by
  obtain ⟨P, rfl⟩ := exists_colocation hlayers heach
  exact ⟨P.place, P.solved, P.routingAgrees hdp⟩

/-- Three devices with one, three and two of six experts. -/
def uneven : ColocateConfig where
  numLayers := 2
  numExperts := 6
  numDevices := 3
  epSize := 3
  dpSize := 3
  expertAllocation := some [1, 3, 2]

theorem routing_agrees_uneven : ∃ place, uneven.solve = .ok place ∧ RoutingAgrees uneven place :=
  routing_agrees (by decide) rfl ⟨rfl, rfl, by decide⟩

end ColocateConfig

end StreamEP

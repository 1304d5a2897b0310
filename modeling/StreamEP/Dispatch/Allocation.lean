import StreamEP.Dispatch.Routing

/-!
# Explicit expert allocations

On a cluster of different devices the benchmark reads how many experts each device gets.
`resolve_expert_allocation` of `benchmark/benchmark_serving.py` finds the device of every entry and
checks the total. A device may be left out, or be given no expert: the allocation is accepted.

What follows does not expect that. `rank_at`, from which the controller takes the rank of a device,
asserts that the experts of the device have one rank, and there is none without experts. And
`build_expert_executor` reads an empty list of experts as no list.

The weights of the attention ranks and the overrides per device, which the same file may hold, have
no influence on the placement and are left out.

## Main results

* `resolveExpertAllocation_spec` — what an accepted allocation is
* `ColocateConfig.placeAllocation_apply` — the experts a device gets
* `ColocateConfig.startedWith_iff` — a device is started faithfully exactly when it has an expert
-/

namespace StreamEP

/-! ### The entries -/

inductive IdentityKey
  | hostIp
  | rayNodeId
  | rayActorId
  | cudaDevice
deriving DecidableEq, Repr

namespace IdentityKey

/-- The keys, in the order of `identity_keys`. -/
def all : List IdentityKey := [.hostIp, .rayNodeId, .rayActorId, .cudaDevice]

def name : IdentityKey → String
  | .hostIp => "host_ip"
  | .rayNodeId => "ray_node_id"
  | .rayActorId => "ray_actor_id"
  | .cudaDevice => "cuda_device"

end IdentityKey

/-- A JSON value where an integer is expected, or how it is printed. -/
inductive JsonInt
  | int (n : ℤ)
  | other (shown : String)
deriving DecidableEq, Repr

/-- An entry of `allocations`, absent fields being `none`. -/
structure AllocationEntry where
  numExperts : Option JsonInt
  identity : IdentityKey → Option String

/-- `num_experts`, checked -/
def AllocationEntry.count (entry : AllocationEntry) (idx : ℕ) : Except String ℕ :=
  match entry.numExperts with
  | some (.int n) => do
    ensure (0 ≤ n) s!"Allocation entry {idx} has invalid 'num_experts': {n}"
    return n.toNat
  | some (.other shown) => .error s!"Allocation entry {idx} has invalid 'num_experts': {shown}"
  | none => .error s!"Allocation entry {idx} must contain 'num_experts'"

def AllocationEntry.selectors (entry : AllocationEntry) : List (IdentityKey × String) :=
  IdentityKey.all.filterMap fun k => (entry.identity k).map fun v => (k, v)

structure WorkerIdentity where
  identity : IdentityKey → Option String
  deviceId : ℤ

def WorkerIdentity.matchesAll (worker : WorkerIdentity) (selectors : List (IdentityKey × String)) :
    Bool :=
  selectors.all fun x => (worker.identity x.1).getD "" = x.2

def showSelectors (selectors : List (IdentityKey × String)) : String :=
  "\x7b" ++ ", ".intercalate (selectors.map fun x => "'" ++ x.1.name ++ "': '" ++ x.2 ++ "'") ++
    "\x7d"

/-- The loop body of `resolve_expert_allocation`. -/
def resolveEntry (workerIdentities : List WorkerIdentity) (expertAllocation : List ℕ)
    (x : AllocationEntry × ℕ) : Except String (List ℕ) := do
  let (entry, idx) := x
  ensure (entry.numExperts.isSome) s!"Allocation entry {idx} must contain 'num_experts'"
  ensure ((entry.identity .cudaDevice).isSome)
    s!"Allocation entry {idx} must contain 'cuda_device'"
  ensure ((entry.identity .hostIp).isSome ∨ (entry.identity .rayNodeId).isSome ∨
      (entry.identity .rayActorId).isSome)
    s!"Allocation entry {idx} must include one of 'host_ip', 'ray_node_id', or 'ray_actor_id'"
  let numExperts ← entry.count idx
  let selectors := entry.selectors
  ensure (0 < selectors.length)
    (s!"Allocation entry {idx} must include at least one identity field among " ++
      "['host_ip', 'ray_node_id', 'ray_actor_id', 'cuda_device']")
  match workerIdentities.filter (·.matchesAll selectors) with
  | [worker] => do
    let deviceId := worker.deviceId
    ensure (0 ≤ deviceId ∧ deviceId < workerIdentities.length)
      s!"Allocation entry {idx} resolved invalid device_id: {deviceId}"
    return expertAllocation.modify deviceId.toNat (· + numExperts)
  | matched =>
    let found := matched.length
    let shown := showSelectors selectors
    .error (s!"Allocation entry {idx} matched {found} workers, expected exactly one. " ++
      s!"selectors={shown}")

/-- `resolve_expert_allocation`: `none` stands for no file. -/
def resolveExpertAllocation (workerIdentities : List WorkerIdentity) (totalNumExperts : ℕ) :
    Option (List AllocationEntry) → Except String (Option (List ℕ))
  | none => .ok none
  | some allocations => do
    let numDevices := workerIdentities.length
    let expertAllocation ← allocations.zipIdx.foldlM (resolveEntry workerIdentities)
      (List.replicate numDevices 0)
    let total := expertAllocation.sum
    ensure (total = totalNumExperts)
      s!"Total allocated experts ({total}) must match model config ({totalNumExperts})"
    return some expertAllocation

theorem length_resolveEntry {workers : List WorkerIdentity} {allocation allocation' : List ℕ}
    {x : AllocationEntry × ℕ} (h : resolveEntry workers allocation x = .ok allocation') :
    allocation'.length = allocation.length := by
  rw [resolveEntry] at h
  obtain ⟨-, h⟩ := ensure_bind_eq_ok.mp h
  obtain ⟨-, h⟩ := ensure_bind_eq_ok.mp h
  obtain ⟨-, h⟩ := ensure_bind_eq_ok.mp h
  obtain ⟨numExperts, -, h⟩ := bind_eq_ok.mp h
  obtain ⟨-, h⟩ := ensure_bind_eq_ok.mp h
  split at h
  · obtain ⟨-, h⟩ := ensure_bind_eq_ok.mp h
    obtain rfl := Except.ok.inj h
    exact List.length_modify ..
  · cases h

theorem length_foldlM_resolveEntry {workers : List WorkerIdentity} {entries}
    {allocation allocation' : List ℕ}
    (h : List.foldlM (resolveEntry workers) allocation entries = .ok allocation') :
    allocation'.length = allocation.length := by
  induction entries generalizing allocation with
  | nil =>
    obtain rfl := Except.ok.inj h
    rfl
  | cons x entries ih =>
    rw [List.foldlM_cons] at h
    obtain ⟨next, hnext, h⟩ := bind_eq_ok.mp h
    rw [ih h, length_resolveEntry hnext]

/-- **An accepted allocation** has a count for every device, and the counts add up. -/
theorem resolveExpertAllocation_spec {workers : List WorkerIdentity} {total : ℕ}
    {entries : Option (List AllocationEntry)} {allocation : List ℕ}
    (h : resolveExpertAllocation workers total entries = .ok (some allocation)) :
    allocation.length = workers.length ∧ allocation.sum = total := by
  cases entries with
  | none => cases Except.ok.inj h
  | some entries =>
    rw [resolveExpertAllocation] at h
    obtain ⟨resolved, hfold, h⟩ := bind_eq_ok.mp h
    obtain ⟨htotal, h⟩ := ensure_bind_eq_ok.mp h
    obtain rfl := Option.some.inj (Except.ok.inj h)
    exact ⟨(length_foldlM_resolveEntry hfold).trans List.length_replicate, htotal⟩

/-! ### What a device is told -/

namespace ModelPlacement

/-- `expert_rank_at`, which is `rank_at` for a device with an entry in `expert`, as every device of
a colocated placement has -/
def expertRankAt (p : ModelPlacement) (deviceId : ℕ) : Except String ℕ := do
  let ranks := (p.expert deviceId).map p.expertRanks
  ensure (ranks.dedup.length = 1) "AssertionError"
  return ranks.headD 0

end ModelPlacement

/-- What the controller passes to `setup_engine` and `init_core` about the experts. -/
structure StartupArgs where
  rank : ℕ
  localAttnDpRank : ℕ
  localExpertIds : List ℕ
deriving DecidableEq, Repr

namespace ColocateConfig

/-- The arguments for a device: `num_experts_per_rank` is a division by `ep_size`, and the address
of the tokenizer of the device is looked up under its rank. -/
def startupArgs (cfg : ColocateConfig) (place : ModelPlacement) (deviceId : ℕ) :
    Except String StartupArgs := do
  ensure (cfg.epSize ≠ 0) "ZeroDivisionError"
  let rank ← place.expertRankAt deviceId
  ensure (rank < cfg.dpSize) "IndexError"
  return {
    rank := rank
    localAttnDpRank := place.attnDpRankAt deviceId
    localExpertIds := place.uniqueExpertIdsAt deviceId }

/-- Device `d` is started, as the rank it is for attention, and its executor has the experts
`ids`. -/
def StartedWith (cfg : ColocateConfig) (place : ModelPlacement) (d : ℕ) (ids : List ℕ) : Prop :=
  ∃ args x, cfg.startupArgs place d = .ok args ∧ args.rank = args.localAttnDpRank ∧
    args.localAttnDpRank = d ∧
    buildExpertExecutor cfg.numExperts cfg.numExpertsPerRank args.rank
      (some args.localExpertIds) = .ok x ∧ x.Numbers cfg.numExperts ids

/-- The experts that an allocation gives to device `d`: they are handed out in order. -/
def allocated (allocation : List ℕ) (d : ℕ) : List ℕ :=
  List.range' (allocation.take d).sum (allocation.getD d 0)

def allocatedPairs (cfg : ColocateConfig) (allocation : List ℕ) (d : ℕ) : List (ℕ × ℕ) :=
  (allocated allocation d).flatMap fun e => cfg.allLayers.map fun l => (l, e)

variable {cfg : ColocateConfig}

/-- **The experts a device gets**, on top of what it had. -/
theorem placeAllocation_apply (allocation : List ℕ) (dev n d : ℕ) (expert : ℕ → List (ℕ × ℕ)) :
    (cfg.placeAllocation allocation dev n expert).2 d = expert d ++
      if dev ≤ d then
        (List.range' (n + (allocation.take (d - dev)).sum) (allocation.getD (d - dev) 0)).flatMap
          fun e => cfg.allLayers.map fun l => (l, e)
      else [] := by
  induction allocation generalizing dev n expert with
  | nil => simp [placeAllocation]
  | cons count rest ih =>
    rw [placeAllocation, ih]
    rcases Nat.lt_trichotomy d dev with hd | rfl | hd
    · rw [Function.update_of_ne hd.ne, if_neg (by omega), if_neg (by omega)]
    · rw [Function.update_self, if_neg (by omega), if_pos le_rfl]
      simp
    · -- later devices see one device and `count` experts less
      obtain ⟨k, rfl⟩ := Nat.exists_eq_add_of_lt hd
      rw [Function.update_of_ne hd.ne', if_pos (by omega), if_pos (by omega),
        show dev + k + 1 - (dev + 1) = k by omega, show dev + k + 1 - dev = k + 1 by omega,
        List.take_succ_cons, List.sum_cons, List.getD_cons_succ, Nat.add_assoc n]

variable {allocation : List ℕ}

theorem mem_allocatedPairs {d : ℕ} {x : ℕ × ℕ} :
    x ∈ cfg.allocatedPairs allocation d ↔ x.1 < cfg.numLayers ∧ x.2 ∈ allocated allocation d := by
  simp only [allocatedPairs, allLayers, List.mem_flatMap, List.mem_map, List.mem_range]
  constructor
  · rintro ⟨e, he, l, hl, rfl⟩
    exact ⟨hl, he⟩
  · rintro ⟨hl, he⟩
    exact ⟨x.2, he, x.1, hl, rfl⟩

theorem expertRankAt_of_nil {place : ModelPlacement} {d : ℕ} (h : place.expert d = []) :
    place.expertRankAt d = .error "AssertionError" := by
  rw [ModelPlacement.expertRankAt, h]
  rfl

theorem expertRankAt_of_ne_nil {place : ModelPlacement} {d : ℕ} (hne : place.expert d ≠ [])
    (hranks : ∀ x ∈ place.expert d, place.expertRanks x = d) : place.expertRankAt d = .ok d := by
  have hall : (place.expert d).map place.expertRanks =
      List.replicate (place.expert d).length d :=
    List.eq_replicate_iff.mpr ⟨List.length_map _, List.forall_mem_map.mpr hranks⟩
  have hlen : (place.expert d).length ≠ 0 := mt List.length_eq_zero_iff.mp hne
  obtain ⟨n, hn⟩ := Nat.exists_eq_succ_of_ne_zero hlen
  rw [ModelPlacement.expertRankAt, hall, ensure_of_true (by rw [List.replicate_dedup hlen]; rfl),
    hn]
  rfl

section Place

variable {place : ModelPlacement} {d : ℕ}
  (hexpert : place.expert d = cfg.allocatedPairs allocation d)
include hexpert

theorem uniqueExpertIdsAt_eq (hlayers : 1 ≤ cfg.numLayers) :
    place.uniqueExpertIdsAt d = allocated allocation d := by
  have hsorted := place.uniqueExpertIdsAt_sorted d
  have hsorted' : (allocated allocation d).Pairwise (· < ·) := List.pairwise_lt_range'
  refine ((List.perm_ext_iff_of_nodup (hsorted.imp Nat.ne_of_lt)
    (hsorted'.imp Nat.ne_of_lt)).mpr fun e => ?_).eq_of_pairwise
    (fun _ _ _ _ h h' => absurd h (Nat.lt_asymm h')) hsorted hsorted'
  rw [ModelPlacement.mem_uniqueExpertIdsAt, hexpert]
  simp only [mem_allocatedPairs]
  exact ⟨fun ⟨_, _, he⟩ => he, fun he => ⟨0, hlayers, he⟩⟩

theorem expert_eq_nil_iff (hlayers : 1 ≤ cfg.numLayers) :
    place.expert d = [] ↔ allocation.getD d 0 = 0 := by
  rw [hexpert, List.eq_nil_iff_forall_not_mem]
  simp only [mem_allocatedPairs, allocated, List.mem_range'_1]
  constructor
  · intro h
    by_contra hne
    exact h (0, (allocation.take d).sum) ⟨hlayers, le_rfl, by omega⟩
  · rintro hzero x ⟨-, hle, hlt⟩
    omega

end Place

variable (halloc : cfg.expertAllocation = some allocation)
  (hlen : allocation.length = cfg.numDevices) (hsum : allocation.sum = cfg.numExperts)
include halloc hlen hsum

theorem placeExperts_allocation : cfg.placeExperts = .ok (cfg.allocatedPairs allocation) := by
  have hplace : (cfg.placeAllocation allocation 0 0 fun _ => []).2 =
      cfg.allocatedPairs allocation := by
    funext d
    rw [placeAllocation_apply, if_pos (Nat.zero_le d), Nat.zero_add, Nat.sub_zero,
      List.nil_append, allocatedPairs, allocated]
  rw [placeExperts, halloc]
  simp only [placeAllocation_fst]
  rw [ensure_of_true hsum, ok_bind, ensure_of_true hlen.le, ok_bind,
    ensure_of_true (by omega), ok_bind, hplace]
  rfl

/-- There is a placement, with these experts and with each device as its own rank. -/
theorem solve_allocation :
    ∃ place, cfg.solve = .ok place ∧ place.expert = cfg.allocatedPairs allocation ∧
      (∀ d, ∀ x ∈ place.expert d, place.expertRanks x = d) ∧ ∀ d, place.attnDpRankAt d = d := by
  have hplace := placeExperts_allocation halloc hlen hsum
  have hsame : (cfg.addEdges (cfg.unconnected (cfg.allocatedPairs allocation))).expert =
      cfg.allocatedPairs allocation := ModelPlacement.foldl_addEdge_expert _ _
  refine ⟨{ cfg.addEdges (cfg.unconnected (cfg.allocatedPairs allocation)) with
    expertRanks := cfg.updateExpertRank (cfg.allocatedPairs allocation)
    attnDpRanks := fun dev => dev }, ?_, hsame, fun d x hx => ?_, fun d => rfl⟩
  · rw [solve, hplace]
    rfl
  · have hmem : x ∈ cfg.allocatedPairs allocation d := hsame ▸ hx
    exact updateExpertRank_eq hplace hmem

/-- **A device is started faithfully** exactly when it is given an expert, and there is a rank for
it. -/
theorem startedWith_iff (hlayers : 1 ≤ cfg.numLayers) :
    ∃ place, cfg.solve = .ok place ∧ ∀ d, cfg.StartedWith place d (allocated allocation d) ↔
      cfg.epSize ≠ 0 ∧ d < cfg.dpSize ∧ allocation.getD d 0 ≠ 0 := by
  obtain ⟨place, hsolve, hexpert, hranks, hattn⟩ := solve_allocation halloc hlen hsum
  refine ⟨place, hsolve, fun d => ⟨?_, ?_⟩⟩
  · rintro ⟨args, x, hargs, hrank, hd, -, -⟩
    rw [startupArgs] at hargs
    obtain ⟨hep, hargs⟩ := ensure_bind_eq_ok.mp hargs
    obtain ⟨rank, hat, hargs⟩ := bind_eq_ok.mp hargs
    obtain ⟨hlt, hargs⟩ := ensure_bind_eq_ok.mp hargs
    obtain rfl := Except.ok.inj hargs
    have hrankd : rank = d := hrank.trans hd
    refine ⟨hep, hrankd ▸ hlt, fun hzero => ?_⟩
    rw [expertRankAt_of_nil ((expert_eq_nil_iff (congrFun hexpert d) hlayers).mpr hzero)] at hat
    cases hat
  · rintro ⟨hep, hlt, hcount⟩
    have hne := mt (expert_eq_nil_iff (congrFun hexpert d) hlayers).mp hcount
    have hids := uniqueExpertIdsAt_eq (congrFun hexpert d) hlayers
    have hd : d < allocation.length := by
      by_contra hge
      exact hcount (List.getD_eq_default _ _ (by omega))
    have htotal := TokenBatch.sum_take_add_getD_le hsum.le hd
    have hmem : ∀ e ∈ allocated allocation d, e < cfg.numExperts := fun e he => by
      have hrange := (List.mem_range'_1.mp he).2
      omega
    obtain ⟨x, hbuild, hx⟩ := buildExpertExecutor_eq
      (by simpa [allocated] using hcount) List.nodup_range' hmem cfg.numExpertsPerRank d
    refine ⟨⟨d, d, allocated allocation d⟩, x, ?_, rfl, rfl, hbuild, hx⟩
    rw [startupArgs, ensure_of_true hep, ok_bind, expertRankAt_of_ne_nil hne (hranks d), ok_bind,
      ensure_of_true hlt, ok_bind, hattn, hids]
    rfl

end ColocateConfig

/-! ### From the file to the executors -/

/-- **An accepted allocation has a placement**, and a device is started as its own rank, with the
experts allocated to it, exactly when there is one. -/
theorem allocation_placed {workers : List WorkerIdentity} {total : ℕ}
    {entries : Option (List AllocationEntry)} {allocation : List ℕ}
    (haccept : resolveExpertAllocation workers total entries = .ok (some allocation))
    {numLayers : ℕ} (hlayers : 1 ≤ numLayers) (epSize dpSize : ℕ) :
    ∃ place, (ColocateConfig.mk numLayers total workers.length epSize dpSize
        (some allocation)).solve = .ok place ∧
      ∀ d, (ColocateConfig.mk numLayers total workers.length epSize dpSize
        (some allocation)).StartedWith place d (ColocateConfig.allocated allocation d) ↔
          epSize ≠ 0 ∧ d < dpSize ∧ allocation.getD d 0 ≠ 0 := by
  obtain ⟨hlen, hsum⟩ := resolveExpertAllocation_spec haccept
  exact ColocateConfig.startedWith_iff rfl hlen hsum hlayers

/-- Worker `i` of one host, on device `i`. -/
def WorkerIdentity.onHost (i : ℕ) : WorkerIdentity where
  identity
    | .hostIp => some "10.0.0.1"
    | .cudaDevice => some (toString i)
    | _ => none
  deviceId := i

/-- `n` experts for device `i` of the host. -/
def AllocationEntry.onHost (i : ℕ) (n : ℤ) : AllocationEntry where
  numExperts := some (.int n)
  identity := (WorkerIdentity.onHost i).identity

theorem allocation_placed_two_devices :
    ∃ place, (ColocateConfig.mk 2 3 2 2 2 (some [1, 2])).solve = .ok place ∧
      (ColocateConfig.mk 2 3 2 2 2 (some [1, 2])).StartedWith place 0 [0] ∧
      (ColocateConfig.mk 2 3 2 2 2 (some [1, 2])).StartedWith place 1 [1, 2] := by
  have haccept : resolveExpertAllocation [.onHost 0, .onHost 1] 3
      (some [.onHost 0 1, .onHost 1 2]) = .ok (some [1, 2]) := rfl
  obtain ⟨place, hsolve, hiff⟩ := allocation_placed haccept (show 1 ≤ 2 by decide) 2 2
  exact ⟨place, hsolve, (hiff 0).mpr (by decide), (hiff 1).mpr (by decide)⟩

/-- Both experts on device 0: the allocation is accepted and has a placement, and device 1 is not
started. -/
theorem empty_device_not_started :
    resolveExpertAllocation [.onHost 0, .onHost 1] 2 (some [.onHost 0 2]) = .ok (some [2, 0]) ∧
      ∃ place, (ColocateConfig.mk 1 2 2 2 2 (some [2, 0])).solve = .ok place ∧
        (ColocateConfig.mk 1 2 2 2 2 (some [2, 0])).startupArgs place 1 =
          .error "AssertionError" :=
  ⟨rfl, _, rfl, rfl⟩

end StreamEP

import StreamEP.Lib.Checked
import StreamEP.Lib.Milp
import Mathlib.Data.List.Dedup
import Mathlib.Data.Rat.Floor
import Mathlib.Tactic.Linarith

/-!
# The flow of a placement

`solve_full_helix` of `helix_pp/full_placement.py` places the layers of a model on the nodes of a
network and routes requests through it, as much as possible at a time. Every node holds an interval
of layers. Flow goes from the source through nodes to the sink, and an edge may only carry flow if
its second node goes on where the first one ends; with partial inference it may also hold layers
that were already passed.

The program has a switch for every edge, tied to the intervals by rows with large constants, which
are relaxed for an edge that is switched off. What the rows mean is `ValidPlacement`, in terms of
intervals and flows alone. Values that satisfy the rows give a valid placement here; that a valid
placement can be completed to values of all variables is shown with the comparison of the models.

The order of `set` and of dictionaries is immaterial, since they only determine the order of rows
and variables. A lookup that fails raises `KeyError`.

## Main results

* `FullHelix.validPlacement_of_feasible`
* `ValidPlacement.acyclic`, `ValidPlacement.process_path`
* `FullHelix.sound_of_feasible`
-/

namespace StreamEP

open Milp

/-! ### The arguments -/

inductive NodeId (n : ℕ)
  | node (i : Fin n)
  | source
  | sink
  deriving DecidableEq

instance {n : ℕ} : ToString (NodeId n) where
  toString
    | .node i => toString i
    | .source => "source"
    | .sink => "sink"

structure NodeSpec where
  maxLayers : ℕ
  layerCountToThroughput : ℕ → Option ℚ

/-- A link, with a throughput that is not negative. -/
structure EdgeSpec (n : ℕ) where
  fromId : NodeId n
  toId : NodeId n
  throughput : ℚ
  throughput_nonneg : 0 ≤ throughput

/-- The arguments of `solve_full_helix`. -/
structure FullHelix (n : ℕ) where
  numLayers : ℕ
  nodes : Fin n → NodeSpec
  edges : List (EdgeSpec n)
  allowPartialInference : Bool
  removeRedundant : Bool

inductive HelixVar (n : ℕ)
  | start (i : Fin n)
  | hold (i : Fin n) (k : ℕ)
  | flow (a b : NodeId n)
  | switch (a b : NodeId n)
  | cond1 (a b : NodeId n)
  | cond2 (a b : NodeId n)
  deriving DecidableEq

namespace FullHelix

variable {n : ℕ} (h : FullHelix n)

/-- The keys of `link_map` -/
def links : List (NodeId n × NodeId n) := (h.edges.map fun e => (e.fromId, e.toId)).dedup

/-- `link_map.get((a, b))`: of several links with the same ends, the last -/
def linkMap (a b : NodeId n) : Option (EdgeSpec n) :=
  h.edges.reverse.find? fun e => e.fromId = a ∧ e.toId = b

/-- `nodes[i].connected_to`, which is `adjacency[i]` -/
def connectedTo (i : Fin n) : List (NodeId n) :=
  (h.edges.flatMap fun e =>
    (if e.fromId = .node i then [e.toId] else []) ++
    (if e.toId = .node i then [e.fromId] else [])).dedup

def directedEdges : List (NodeId n × NodeId n) :=
  (h.links.flatMap fun (a, b) =>
    (if a ≠ .sink ∧ b ≠ .source then [(a, b)] else []) ++
    (if b ≠ .sink ∧ a ≠ .source then [(b, a)] else [])).dedup

def computeEdges : List (NodeId n × NodeId n) :=
  h.directedEdges.filter fun (a, b) =>
    a ≠ .source ∧ b ≠ .sink ∧ a ≠ .sink ∧ b ≠ .source

/-- `range(1, nodes[i].max_layers + 1)` -/
def holdCounts (i : Fin n) : List ℕ := List.range' 1 (h.nodes i).maxLayers

/-! ### The program -/

/-- `V.idx(f"start_{i}")` -/
def startIdx : NodeId n → Except String (HelixVar n)
  | .node i => .ok (.start i)
  | .source => .error "KeyError: 'start_source'"
  | .sink => .error "KeyError: 'start_sink'"

/-- `end_coeffs` of a node that computes -/
def nodeEndCoeffs (i : Fin n) : List (HelixVar n × ℚ) :=
  (.start i, 1) :: (h.holdCounts i).map fun k => (HelixVar.hold i k, (Nat.cast k : ℚ))

def endCoeffs : NodeId n → Except String (List (HelixVar n × ℚ))
  | .node i => .ok (h.nodeEndCoeffs i)
  | .source => .error "KeyError: 'start_source'"
  | .sink => .error "KeyError: 'start_sink'"

def inNeighbours (i : Fin n) : List (NodeId n) :=
  (h.connectedTo i).filter fun a => a ≠ .sink ∧ (a, NodeId.node i) ∈ h.directedEdges

def outNeighbours (i : Fin n) : List (NodeId n) :=
  (h.connectedTo i).filter fun b => b ≠ .source ∧ (NodeId.node i, b) ∈ h.directedEdges

def flowIn (i : Fin n) : List (HelixVar n × ℚ) :=
  (h.inNeighbours i).map fun a => (HelixVar.flow a (.node i), 1)

def flowOut (i : Fin n) : List (HelixVar n × ℚ) :=
  (h.outNeighbours i).map fun b => (HelixVar.flow (.node i) b, 1)

/-- `nodes[i].layer_count_to_throughput.get(k, 0.0)` -/
def nodeThroughput (i : Fin n) (k : ℕ) : ℚ := ((h.nodes i).layerCountToThroughput k).getD 0

/-- The rows of a node: model placement, flow conservation and throughput. -/
def nodeRows (i : Fin n) : List (Row (HelixVar n) ℚ) :=
  [Row.eq ((h.holdCounts i).map fun k => (HelixVar.hold i k, 1)) 1,
   Row.leq (h.nodeEndCoeffs i) h.numLayers,
   Row.eq (h.flowIn i ++ neg (h.flowOut i)) 0,
   Row.leq (h.flowIn i ++
    neg ((h.holdCounts i).map fun k => (HelixVar.hold i k, h.nodeThroughput i k))) 0]

/-- The switch rows of an edge, with `L` and `M` as rationals. -/
def switchRows (a b : NodeId n) : Except String (List (Row (HelixVar n) ℚ)) :=
  let L : ℚ := h.numLayers
  let M : ℚ := h.numLayers + 1
  let sw : HelixVar n := .switch a b
  let c1 : HelixVar n := .cond1 a b
  let c2 : HelixVar n := .cond2 a b
  if a = .source then do
    -- switch = (start_b == 0)
    let si ← startIdx b
    return (if h.removeRedundant then [] else [Row.geq [(sw, 1), (si, 1)] 1]) ++
      [Row.leq [(si, 1), (sw, L)] L]
  else if b = .sink then do
    -- switch = (end_a == L)
    let ec ← h.endCoeffs a
    return (if h.removeRedundant then [] else [Row.geq ((sw, L - 1) :: neg ec) (-(L - 1))]) ++
      [Row.leq ((sw, L) :: neg ec) 0]
  else if h.allowPartialInference then do
    -- switch = cond(start_b ≤ end_a) and cond(end_a < end_b)
    let ea ← h.endCoeffs a
    let sb ← startIdx b
    let eb ← h.endCoeffs b
    return (if h.removeRedundant then [] else [Row.geq ((c1, M) :: neg ea ++ [(sb, 1)]) 1]) ++
      [Row.geq ((c1, -M) :: (sb, -1) :: ea) (-M)] ++
      (if h.removeRedundant then [] else [Row.geq ((c2, M) :: neg eb ++ ea) 0]) ++
      [Row.geq ((c2, -M) :: eb ++ neg ea) (1 - M)] ++
      (if h.removeRedundant then [] else [Row.leq [(c1, 1), (c2, 1), (sw, -1)] 1]) ++
      [Row.leq [(sw, 2), (c1, -1), (c2, -1)] 0]
  else do
    -- switch = (end_a == start_b)
    let ea ← h.endCoeffs a
    let sb ← startIdx b
    return [Row.leq ((sw, L) :: (sb, -1) :: ea) L, Row.leq ((sw, L) :: (sb, 1) :: neg ea) L]

def edgeThroughput (a b : NodeId n) : Except String ℚ :=
  match h.linkMap a b, h.linkMap b a with
  | some e, _ => .ok e.throughput
  | none, some e => .ok e.throughput
  | none, none => .error s!"KeyError: 'No edge between {a} and {b}'"

def flowRow (a b : NodeId n) : Except String (Row (HelixVar n) ℚ) := do
  let tp ← h.edgeThroughput a b
  return Row.leq [(.flow a b, 1), (.switch a b, -tp)] 0

def vars : List (HelixVar n × Bound ℚ) :=
  ((List.finRange n).map fun i => (HelixVar.start i,
    Bound.int 0 (if h.removeRedundant then (h.numLayers : ℤ) else h.numLayers - 1))) ++
  ((List.finRange n).flatMap fun i => (h.holdCounts i).map fun k =>
    (HelixVar.hold i k, Bound.binary)) ++
  (h.directedEdges.flatMap fun (a, b) =>
    [(HelixVar.flow a b, Bound.nonneg), (HelixVar.switch a b, Bound.binary)]) ++
  (if h.allowPartialInference then h.computeEdges.flatMap fun (a, b) =>
    [(HelixVar.cond1 a b, Bound.binary), (HelixVar.cond2 a b, Bound.binary)] else [])

def objective : List (HelixVar n × ℚ) :=
  ((List.finRange n).filter fun j => (NodeId.source, NodeId.node j) ∈ h.directedEdges).map
    fun j => (HelixVar.flow .source (.node j), -1)

/-- The program that `solve_full_helix` builds. -/
def model : Except String (Problem (HelixVar n) ℚ) := do
  let switchRows ← h.directedEdges.mapM fun (a, b) => h.switchRows a b
  let flowRows ← h.directedEdges.mapM fun (a, b) => h.flowRow a b
  return { vars := h.vars
           rows := (List.finRange n).flatMap h.nodeRows ++ switchRows.flatten ++ flowRows
           objective := h.objective }

/-! ### The solution -/

/-- `node_layers[i]` -/
def nodeLayers (x : HelixVar n → ℚ) (i : Fin n) : ℤ × ℤ :=
  let s := roundHalfEven (x (.start i))
  (s, s + ((pick (fun k => x (.hold i k)) (h.holdCounts i)).getD 0 : ℕ))

def edgeFlows (x : HelixVar n → ℚ) : List ((NodeId n × NodeId n) × ℚ) :=
  (h.directedEdges.map fun e => (e, x (.flow e.1 e.2))).filter fun f => 1 / 10 ^ 6 < f.2

def partialUsed (x : HelixVar n → ℚ) : Bool :=
  (h.edgeFlows x).any fun
    | ((.node a, .node b), _) => (h.nodeLayers x a).2 ≠ (h.nodeLayers x b).1
    | _ => false

/-- `FullHelixSolution` -/
structure Solution (n : ℕ) where
  nodeLayers : Fin n → ℤ × ℤ
  edgeFlows : List ((NodeId n × NodeId n) × ℚ)
  totalFlow : ℚ
  usesPartialInference : Bool

/-- `solve_full_helix` with a solver -/
def solveFullHelix
    (milp : Problem (HelixVar n) ℚ → Except String (HelixVar n → ℚ)) :
    Except String (Solution n) := do
  let P ← h.model
  match milp P with
  | .error message => .error s!"ValueError: ILP solver failed: {message}"
  | .ok x => .ok { nodeLayers := h.nodeLayers x
                   edgeFlows := h.edgeFlows x
                   totalFlow := -value x P.objective
                   usesPartialInference := h.partialUsed x }

end FullHelix

/-! ### What the program is for -/

structure Placement (n : ℕ) where
  start : Fin n → ℕ
  held : Fin n → ℕ

def Placement.stop {n : ℕ} (p : Placement n) (i : Fin n) : ℕ := p.start i + p.held i

/-- **The second end of an edge goes on where the first one stops.** -/
def Connects {n : ℕ} (allowPartialInference : Bool) (numLayers : ℕ) (p : Placement n) :
    NodeId n → NodeId n → Prop
  | .source, .node b => p.start b = 0
  | .node a, .sink => p.stop a = numLayers
  | .node a, .node b =>
    if allowPartialInference then p.start b ≤ p.stop a ∧ p.stop a < p.stop b
    else p.stop a = p.start b
  | _, _ => False

def FullHelix.inflow {n : ℕ} (h : FullHelix n) (flow : NodeId n → NodeId n → ℚ) (i : Fin n) : ℚ :=
  ((h.inNeighbours i).map fun a => flow a (.node i)).sum

def FullHelix.outflow {n : ℕ} (h : FullHelix n) (flow : NodeId n → NodeId n → ℚ) (i : Fin n) : ℚ :=
  ((h.outNeighbours i).map fun b => flow (.node i) b).sum

/-- **Intervals and flows that respect the network.** -/
structure ValidPlacement {n : ℕ} (h : FullHelix n) (p : Placement n)
    (flow : NodeId n → NodeId n → ℚ) : Prop where
  held_mem : ∀ i, p.held i ∈ h.holdCounts i
  stop_le : ∀ i, p.stop i ≤ h.numLayers
  conserved : ∀ i, h.inflow flow i = h.outflow flow i
  inflow_le : ∀ i, h.inflow flow i ≤ h.nodeThroughput i (p.held i)
  nonneg : ∀ a b, (a, b) ∈ h.directedEdges → 0 ≤ flow a b
  le_throughput : ∀ a b, (a, b) ∈ h.directedEdges →
    ∀ t, h.edgeThroughput a b = .ok t → flow a b ≤ t
  connects : ∀ a b, (a, b) ∈ h.directedEdges → 0 < flow a b →
    Connects h.allowPartialInference h.numLayers p a b

/-- The values of the variables are those of a placement. -/
structure Encodes {n : ℕ} (h : FullHelix n) (x : HelixVar n → ℚ) (p : Placement n) : Prop where
  start : ∀ i, x (.start i) = p.start i
  hold : ∀ i, ∀ k ∈ h.holdCounts i, x (.hold i k) = if k = p.held i then 1 else 0

/-! ### The network -/

namespace FullHelix

variable {n : ℕ} {h : FullHelix n} {a b : NodeId n} {i : Fin n} {k : ℕ}

theorem mem_holdCounts : k ∈ h.holdCounts i ↔ 0 < k ∧ k ≤ (h.nodes i).maxLayers := by
  rw [holdCounts, List.mem_range'_1]
  omega

theorem nodup_holdCounts : (h.holdCounts i).Nodup := List.nodup_range'

/-- There is a link between two nodes, in one of the directions. -/
def Linked (h : FullHelix n) (a b : NodeId n) : Prop := (a, b) ∈ h.links ∨ (b, a) ∈ h.links

theorem mem_links : (a, b) ∈ h.links ↔ ∃ e ∈ h.edges, e.fromId = a ∧ e.toId = b := by
  rw [links, List.mem_dedup, List.mem_map]
  simp only [Prod.mk.injEq]

theorem mem_directedEdges :
    (a, b) ∈ h.directedEdges ↔ h.Linked a b ∧ a ≠ .sink ∧ b ≠ .source := by
  rw [directedEdges, List.mem_dedup, List.mem_flatMap]
  constructor
  · rintro ⟨⟨c, d⟩, hlink, hmem⟩
    rcases List.mem_append.mp hmem with hmem | hmem
    · split_ifs at hmem with hcond
      · obtain ⟨rfl, rfl⟩ := Prod.mk.inj (List.mem_singleton.mp hmem)
        exact ⟨.inl hlink, hcond⟩
      · cases hmem
    · split_ifs at hmem with hcond
      · obtain ⟨rfl, rfl⟩ := Prod.mk.inj (List.mem_singleton.mp hmem)
        exact ⟨.inr hlink, hcond⟩
      · cases hmem
  · rintro ⟨hlink | hlink, hcond⟩
    · refine ⟨(a, b), hlink, List.mem_append_left _ ?_⟩
      rw [if_pos hcond]
      exact List.mem_singleton_self _
    · refine ⟨(b, a), hlink, List.mem_append_right _ ?_⟩
      rw [if_pos hcond]
      exact List.mem_singleton_self _

theorem mem_connectedTo : a ∈ h.connectedTo i ↔ h.Linked (.node i) a := by
  rw [connectedTo, List.mem_dedup, List.mem_flatMap, Linked, mem_links, mem_links]
  constructor
  · rintro ⟨e, he, hmem⟩
    rcases List.mem_append.mp hmem with hmem | hmem
    · split_ifs at hmem with hfrom
      · exact .inl ⟨e, he, hfrom, (List.mem_singleton.mp hmem).symm⟩
      · cases hmem
    · split_ifs at hmem with hto
      · exact .inr ⟨e, he, (List.mem_singleton.mp hmem).symm, hto⟩
      · cases hmem
  · rintro (⟨e, he, hfrom, rfl⟩ | ⟨e, he, rfl, hto⟩)
    · refine ⟨e, he, List.mem_append_left _ ?_⟩
      rw [if_pos hfrom]
      exact List.mem_singleton_self _
    · refine ⟨e, he, List.mem_append_right _ ?_⟩
      rw [if_pos hto]
      exact List.mem_singleton_self _

theorem Linked.symm (hlink : h.Linked a b) : h.Linked b a := Or.symm hlink

theorem mem_inNeighbours : a ∈ h.inNeighbours i ↔ (a, .node i) ∈ h.directedEdges := by
  rw [inNeighbours, List.mem_filter, decide_eq_true_iff, mem_connectedTo]
  refine ⟨fun hmem => hmem.2.2, fun hedge => ?_⟩
  obtain ⟨hlink, hsink, -⟩ := mem_directedEdges.mp hedge
  exact ⟨hlink.symm, hsink, hedge⟩

theorem mem_outNeighbours : b ∈ h.outNeighbours i ↔ (.node i, b) ∈ h.directedEdges := by
  rw [outNeighbours, List.mem_filter, decide_eq_true_iff, mem_connectedTo]
  refine ⟨fun hmem => hmem.2.2, fun hedge => ?_⟩
  obtain ⟨hlink, -, hsource⟩ := mem_directedEdges.mp hedge
  exact ⟨hlink, hsource, hedge⟩

theorem nodup_inNeighbours : (h.inNeighbours i).Nodup := (List.nodup_dedup _).filter _

theorem nodup_outNeighbours : (h.outNeighbours i).Nodup := (List.nodup_dedup _).filter _

theorem mem_computeEdges {a b : Fin n} :
    (.node a, .node b) ∈ h.computeEdges ↔ (.node a, .node b) ∈ h.directedEdges := by
  rw [computeEdges, List.mem_filter]
  exact and_iff_left (by simp)

/-- `KeyError` is not raised for the throughput of an edge. -/
theorem exists_edgeThroughput (hedge : (a, b) ∈ h.directedEdges) :
    ∃ e ∈ h.edges, h.edgeThroughput a b = .ok e.throughput := by
  have hfind : ∀ {c d : NodeId n}, (c, d) ∈ h.links → ∃ e, h.linkMap c d = some e := by
    intro c d hlink
    obtain ⟨e, he, hfrom, hto⟩ := mem_links.mp hlink
    refine Option.isSome_iff_exists.mp (List.find?_isSome.mpr ⟨e, List.mem_reverse.mpr he, ?_⟩)
    exact decide_eq_true ⟨hfrom, hto⟩
  have hmem : ∀ {c d : NodeId n} {e}, h.linkMap c d = some e → e ∈ h.edges := fun hsome =>
    List.mem_reverse.mp (List.mem_of_find?_eq_some hsome)
  rw [edgeThroughput]
  cases hab : h.linkMap a b with
  | some e => exact ⟨e, hmem hab, rfl⟩
  | none =>
    cases hba : h.linkMap b a with
    | some e => exact ⟨e, hmem hba, rfl⟩
    | none =>
      rcases (mem_directedEdges.mp hedge).1 with hlink | hlink
      · obtain ⟨e, he⟩ := hfind hlink
        rw [hab] at he
        cases he
      · obtain ⟨e, he⟩ := hfind hlink
        rw [hba] at he
        cases he

/-! ### The rows -/

variable {P : Problem (HelixVar n) ℚ} {x : HelixVar n → ℚ} {p : Placement n}

theorem objective_of_model (hmodel : h.model = .ok P) : P.objective = h.objective := by
  obtain ⟨_, -, hmodel⟩ := bind_eq_ok.mp hmodel
  obtain ⟨_, -, hmodel⟩ := bind_eq_ok.mp hmodel
  obtain rfl := Except.ok.inj hmodel
  rfl

theorem feasible_iff (hmodel : h.model = .ok P) :
    P.Feasible x ↔ (∀ v ∈ h.vars, v.2.Holds (x v.1)) ∧ (∀ i, ∀ row ∈ h.nodeRows i, row.Holds x) ∧
      ∀ a b, (a, b) ∈ h.directedEdges →
        (∃ rows, h.switchRows a b = .ok rows ∧ ∀ row ∈ rows, row.Holds x) ∧
        ∃ row, h.flowRow a b = .ok row ∧ row.Holds x := by
  obtain ⟨switchRows, hswitch, hmodel⟩ := bind_eq_ok.mp hmodel
  obtain ⟨flowRows, hflow, hmodel⟩ := bind_eq_ok.mp hmodel
  obtain rfl := Except.ok.inj hmodel
  obtain ⟨hswitchMem, hswitchOf⟩ := mem_of_mapM_eq_ok hswitch
  obtain ⟨hflowMem, hflowOf⟩ := mem_of_mapM_eq_ok hflow
  rw [Problem.feasible_iff]
  simp only [List.forall_mem_append, List.forall_mem_flatMap, List.mem_finRange, forall_const,
    and_assoc]
  refine and_congr_right fun _ => and_congr_right fun _ => ⟨?_, fun hedges => ⟨?_, ?_⟩⟩
  · rintro ⟨hswitchHolds, hflowHolds⟩ a b hedge
    obtain ⟨rows, hrows, heq⟩ := hswitchMem (a, b) hedge
    obtain ⟨row, hrow, heq'⟩ := hflowMem (a, b) hedge
    exact ⟨⟨rows, heq, fun r hr => hswitchHolds r (List.mem_flatten.mpr ⟨rows, hrows, hr⟩)⟩,
      row, heq', hflowHolds row hrow⟩
  · intro row hrow
    obtain ⟨rows, hrows, hrow⟩ := List.mem_flatten.mp hrow
    obtain ⟨⟨a, b⟩, hedge, heq⟩ := hswitchOf rows hrows
    obtain ⟨⟨rows', heq', hholds⟩, -⟩ := hedges a b hedge
    obtain rfl := Except.ok.inj (heq.symm.trans heq')
    exact hholds row hrow
  · intro row hrow
    obtain ⟨⟨a, b⟩, hedge, heq⟩ := hflowOf row hrow
    obtain ⟨-, row', heq', hholds⟩ := hedges a b hedge
    obtain rfl := Except.ok.inj (heq.symm.trans heq')
    exact hholds

theorem forall_mem_vars :
    (∀ v ∈ h.vars, v.2.Holds (x v.1)) ↔
      (∀ i, ∃ m : ℤ, x (.start i) = m ∧ 0 ≤ m ∧
        m ≤ (if h.removeRedundant then (h.numLayers : ℤ) else h.numLayers - 1)) ∧
      (∀ i, ∀ k ∈ h.holdCounts i, x (.hold i k) = 0 ∨ x (.hold i k) = 1) ∧
      (∀ a b, (a, b) ∈ h.directedEdges →
        0 ≤ x (.flow a b) ∧ (x (.switch a b) = 0 ∨ x (.switch a b) = 1)) ∧
      (h.allowPartialInference = true → ∀ a b, (a, b) ∈ h.computeEdges →
        (x (.cond1 a b) = 0 ∨ x (.cond1 a b) = 1) ∧
        (x (.cond2 a b) = 0 ∨ x (.cond2 a b) = 1)) := by
  have hconds : (∀ v ∈ (if h.allowPartialInference then h.computeEdges.flatMap fun (a, b) =>
      [(HelixVar.cond1 a b, (Bound.binary : Bound ℚ)), (HelixVar.cond2 a b, Bound.binary)]
      else []), v.2.Holds (x v.1)) ↔
      (h.allowPartialInference = true → ∀ a b, (a, b) ∈ h.computeEdges →
        (x (.cond1 a b) = 0 ∨ x (.cond1 a b) = 1) ∧
        (x (.cond2 a b) = 0 ∨ x (.cond2 a b) = 1)) := by
    split_ifs with hallow
    · rw [List.forall_mem_flatMap, Prod.forall]
      simp [hallow]
    · simp [hallow]
  have hedges : (∀ v ∈ (h.directedEdges.flatMap fun (a, b) =>
      [(HelixVar.flow a b, (Bound.nonneg : Bound ℚ)), (HelixVar.switch a b, Bound.binary)]),
      v.2.Holds (x v.1)) ↔ (∀ a b, (a, b) ∈ h.directedEdges →
        0 ≤ x (.flow a b) ∧ (x (.switch a b) = 0 ∨ x (.switch a b) = 1)) := by
    rw [List.forall_mem_flatMap, Prod.forall]
    simp
  rw [vars, List.forall_mem_append, hconds, List.forall_mem_append, hedges]
  simp only [List.forall_mem_append, List.forall_mem_map, List.forall_mem_flatMap,
    List.mem_finRange, forall_const, Bound.holds_int, Bound.holds_binary, and_assoc]

section Encoded

variable (hx : Encodes h x p)
include hx

theorem value_nodeEndCoeffs (hmem : p.held i ∈ h.holdCounts i) :
    value x (h.nodeEndCoeffs i) = p.stop i := by
  rw [nodeEndCoeffs, value_cons, value_map,
    sum_mul_oneHot nodup_holdCounts hmem (hx.hold i) fun k => (k : ℚ), hx.start, one_mul,
    Placement.stop, Nat.cast_add]

theorem nodeRows_hold_iff (hmem : p.held i ∈ h.holdCounts i) :
    (∀ row ∈ h.nodeRows i, row.Holds x) ↔
      p.stop i ≤ h.numLayers ∧
      h.inflow (fun a b => x (.flow a b)) i = h.outflow (fun a b => x (.flow a b)) i ∧
      h.inflow (fun a b => x (.flow a b)) i ≤ h.nodeThroughput i (p.held i) := by
  have hone : ((h.holdCounts i).map fun k => (1 : ℚ) * x (.hold i k)).sum = 1 :=
    sum_mul_oneHot nodup_holdCounts hmem (hx.hold i) fun _ => 1
  have hthroughput : ((h.holdCounts i).map fun k => h.nodeThroughput i k * x (.hold i k)).sum =
      h.nodeThroughput i (p.held i) :=
    sum_mul_oneHot nodup_holdCounts hmem (hx.hold i) (h.nodeThroughput i)
  have hin : value x (h.flowIn i) = h.inflow (fun a b => x (.flow a b)) i := by
    rw [flowIn, value_map, inflow]
    simp only [one_mul]
  have hout : value x (h.flowOut i) = h.outflow (fun a b => x (.flow a b)) i := by
    rw [flowOut, value_map, outflow]
    simp only [one_mul]
  simp only [nodeRows, List.forall_mem_cons, Row.holds_eq, Row.holds_leq, value_append, value_neg,
    value_nodeEndCoeffs hx hmem, hin, hout, value_map, hone, hthroughput, true_and,
    ← sub_eq_add_neg, sub_eq_zero, sub_nonpos, Nat.cast_le, List.not_mem_nil, false_imp_iff,
    implies_true, and_true]

/-- **An edge that is switched on connects**, whether or not the redundant rows are there. -/
theorem connects_of_switch (hmem : ∀ i, p.held i ∈ h.holdCounts i)
    (hstop : ∀ i, p.stop i ≤ h.numLayers) (hedge : (a, b) ∈ h.directedEdges)
    {rows : List (Row (HelixVar n) ℚ)} (hrows : h.switchRows a b = .ok rows)
    (hholds : ∀ row ∈ rows, row.Holds x)
    (hcond : h.allowPartialInference = true → (a, b) ∈ h.computeEdges →
      x (.cond1 a b) ≤ 1 ∧ x (.cond2 a b) ≤ 1)
    (hswitch : x (.switch a b) = 1) :
    Connects h.allowPartialInference h.numLayers p a b := by
  have hend := fun i => value_nodeEndCoeffs hx (hmem i)
  match a, b with
  | .sink, _ => exact absurd rfl (mem_directedEdges.mp hedge).2.1
  | .node _, .source | .source, .source => exact absurd rfl (mem_directedEdges.mp hedge).2.2
  | .source, .sink => cases hrows
  | .source, .node b =>
    obtain rfl := Except.ok.inj hrows
    have hrow := (List.forall_mem_append.mp hholds).2 _ (List.mem_singleton_self _)
    rw [Row.holds_leq] at hrow
    simp only [value_cons, value_nil, hx.start, hswitch, one_mul, mul_one, add_zero,
      add_le_iff_nonpos_left] at hrow
    exact Nat.le_zero.mp (by exact_mod_cast hrow)
  | .node a, .sink =>
    obtain rfl := Except.ok.inj hrows
    have hrow := (List.forall_mem_append.mp hholds).2 _ (List.mem_singleton_self _)
    rw [Row.holds_leq] at hrow
    simp only [value_cons, value_neg, hend, hswitch, mul_one, ← sub_eq_add_neg, sub_nonpos,
      Nat.cast_le] at hrow
    exact (hstop a).antisymm hrow
  | .node a, .node b =>
    rw [Connects]
    split_ifs with hallow
    · obtain rfl := Except.ok.inj ((if_pos hallow).symm.trans hrows)
      simp only [List.forall_mem_append, List.forall_mem_singleton] at hholds
      obtain ⟨⟨⟨⟨⟨-, hrow1⟩, -⟩, hrow2⟩, -⟩, hand⟩ := hholds
      simp only [Row.holds_geq, Row.holds_leq, value_cons, value_nil, value_append, value_neg, hend,
        hx.start, hswitch] at hrow1 hrow2 hand
      obtain ⟨hcond1, hcond2⟩ := hcond hallow (mem_computeEdges.mpr hedge)
      have hone1 : x (.cond1 (.node a) (.node b)) = 1 := by linarith
      have hone2 : x (.cond2 (.node a) (.node b)) = 1 := by linarith
      rw [hone1] at hrow1
      rw [hone2] at hrow2
      have hle : (p.start b : ℚ) ≤ p.stop a := by linarith
      have hlt : (p.stop a : ℚ) + 1 ≤ p.stop b := by linarith
      exact ⟨by exact_mod_cast hle, by exact_mod_cast hlt⟩
    · obtain rfl := Except.ok.inj ((if_neg hallow).symm.trans hrows)
      simp only [List.forall_mem_cons, Row.holds_leq, value_cons, value_neg, hend, hx.start,
        hswitch] at hholds
      have hle : (p.stop a : ℚ) ≤ p.start b := by linarith [hholds.1]
      have hge : (p.start b : ℚ) ≤ p.stop a := by linarith [hholds.2.1]
      exact_mod_cast hle.antisymm hge

end Encoded

theorem exists_encodes (hvars : ∀ v ∈ h.vars, v.2.Holds (x v.1))
    (hrows : ∀ i, ∀ row ∈ h.nodeRows i, row.Holds x) :
    ∃ p : Placement n, Encodes h x p ∧ (∀ i, p.held i ∈ h.holdCounts i) ∧
      ∀ i, h.nodeLayers x i = ((p.start i : ℤ), (p.stop i : ℤ)) := by
  obtain ⟨hstart, hhold, -, -⟩ := forall_mem_vars.mp hvars
  have hnode : ∀ i, ∃ s k : ℕ, x (.start i) = s ∧ k ∈ h.holdCounts i ∧
      (∀ k' ∈ h.holdCounts i, x (.hold i k') = if k' = k then 1 else 0) ∧
      h.nodeLayers x i = ((s : ℤ), ((s + k : ℕ) : ℤ)) := by
    intro i
    obtain ⟨m, hm, hnonneg, -⟩ := hstart i
    obtain ⟨s, rfl⟩ := Int.eq_ofNat_of_zero_le hnonneg
    have hone : ((h.holdCounts i).map fun k => x (.hold i k)).sum = 1 := by
      have hrow := hrows i _ List.mem_cons_self
      rw [Row.holds_eq, value_map] at hrow
      simpa only [one_mul] using hrow
    obtain ⟨k, hk, hpicked⟩ := exists_oneHot nodup_holdCounts (hhold i) hone
    refine ⟨s, k, by rw [hm, Int.cast_natCast], hk, hpicked, ?_⟩
    rw [nodeLayers, hm, roundHalfEven_intCast, pick_oneHot hk hpicked, Nat.cast_add]
    rfl
  choose start held hx using hnode
  exact ⟨⟨start, held⟩, ⟨fun i => (hx i).1, fun i => (hx i).2.2.1⟩, fun i => (hx i).2.1,
    fun i => (hx i).2.2.2⟩

theorem validPlacement_of_feasible (hmodel : h.model = .ok P) (hfeasible : P.Feasible x) :
    ∃ p : Placement n, Encodes h x p ∧ ValidPlacement h p (fun a b => x (.flow a b)) ∧
      ∀ i, h.nodeLayers x i = ((p.start i : ℤ), (p.stop i : ℤ)) := by
  obtain ⟨hvars, hrows, hedges⟩ := (feasible_iff hmodel).mp hfeasible
  obtain ⟨p, hx, hmem, hlayers⟩ := exists_encodes hvars hrows
  have hnode := fun i => (nodeRows_hold_iff hx (hmem i)).mp (hrows i)
  obtain ⟨-, -, hbounds, hconds⟩ := forall_mem_vars.mp hvars
  have hcond : ∀ {a b}, h.allowPartialInference = true → (a, b) ∈ h.computeEdges →
      x (.cond1 a b) ≤ 1 ∧ x (.cond2 a b) ≤ 1 := by
    intro a b hallow hedge
    have hle : ∀ {c : ℚ}, c = 0 ∨ c = 1 → c ≤ 1 := by
      rintro c (rfl | rfl)
      · exact zero_le_one
      · exact le_rfl
    exact ⟨hle (hconds hallow a b hedge).1, hle (hconds hallow a b hedge).2⟩
  -- an edge is off, and has no flow, or on
  have hflow : ∀ a b, (a, b) ∈ h.directedEdges → ∀ t, h.edgeThroughput a b = .ok t →
      x (.switch a b) = 0 ∧ x (.flow a b) ≤ 0 ∨ x (.switch a b) = 1 ∧ x (.flow a b) ≤ t := by
    intro a b hedge t ht
    obtain ⟨-, row, hrow, hholds⟩ := hedges a b hedge
    rw [flowRow, ht] at hrow
    obtain rfl := Except.ok.inj hrow
    simp only [Row.holds_leq, value_cons, value_nil, one_mul, add_zero] at hholds
    refine (hbounds a b hedge).2.imp (fun hoff => ⟨hoff, ?_⟩) fun hon => ⟨hon, ?_⟩
    · rw [hoff] at hholds
      linarith
    · rw [hon] at hholds
      linarith
  refine ⟨p, hx, ⟨hmem, fun i => (hnode i).1, fun i => (hnode i).2.1, fun i => (hnode i).2.2,
    fun a b hedge => (hbounds a b hedge).1, fun a b hedge t ht => ?_, fun a b hedge hpos => ?_⟩,
    hlayers⟩
  · obtain ⟨e, -, he⟩ := exists_edgeThroughput hedge
    obtain rfl := Except.ok.inj (he.symm.trans ht)
    rcases hflow a b hedge _ ht with ⟨-, hle⟩ | ⟨-, hle⟩
    · exact hle.trans e.throughput_nonneg
    · exact hle
  · obtain ⟨e, -, he⟩ := exists_edgeThroughput hedge
    obtain ⟨⟨rows, hrows, hholds⟩, -⟩ := hedges a b hedge
    rcases hflow a b hedge _ he with ⟨-, hle⟩ | ⟨hon, -⟩
    · exact absurd hpos hle.not_gt
    · exact connects_of_switch hx hmem (fun i => (hnode i).1) hedge hrows hholds hcond hon

/-! ### From placements to values -/

instance (allowPartialInference : Bool) (numLayers : ℕ) (p : Placement n) :
    (a b : NodeId n) → Decidable (Connects allowPartialInference numLayers p a b)
  | .source, .node b => inferInstanceAs (Decidable (p.start b = 0))
  | .node a, .sink => inferInstanceAs (Decidable (p.stop a = numLayers))
  | .node a, .node b => inferInstanceAs (Decidable (if allowPartialInference = true then
      p.start b ≤ p.stop a ∧ p.stop a < p.stop b else p.stop a = p.start b))
  | .source, .source | .source, .sink | .sink, _ | .node _, .source => .isFalse id

/-- The values of the other variables that fit a placement. -/
def extend (h : FullHelix n) (p : Placement n) (x : HelixVar n → ℚ) : HelixVar n → ℚ
  | .switch a b => if Connects h.allowPartialInference h.numLayers p a b then 1 else 0
  | .cond1 (.node a) (.node b) => if p.start b ≤ p.stop a then 1 else 0
  | .cond2 (.node a) (.node b) => if p.stop a < p.stop b then 1 else 0
  | v => x v

theorem forall_mem_unless {c : Bool} {α : Type} {l : List α} {q : α → Prop} :
    (∀ r ∈ (if c = true then [] else l), q r) ↔ (c = false → ∀ r ∈ l, q r) := by
  cases c <;> simp

theorem switchRows_hold_extend (hsize : 2 ≤ h.numLayers ∨ h.removeRedundant = true)
    (hx : Encodes h x p) (hmem : ∀ i, p.held i ∈ h.holdCounts i)
    (hstop : ∀ i, p.stop i ≤ h.numLayers) {rows : List (Row (HelixVar n) ℚ)}
    (hedge : (a, b) ∈ h.directedEdges) (hrows : h.switchRows a b = .ok rows) :
    ∀ row ∈ rows, row.Holds (h.extend p x) := by
  have hy : Encodes h (h.extend p x) p := ⟨hx.start, hx.hold⟩
  have hend := fun i => value_nodeEndCoeffs hy (hmem i)
  have hle : ∀ i, (p.stop i : ℚ) ≤ h.numLayers := fun i => by exact_mod_cast hstop i
  have hpos : ∀ i, (p.start i : ℚ) + 1 ≤ p.stop i := by
    intro i
    have := (mem_holdCounts.mp (hmem i)).1
    exact_mod_cast Nat.add_le_add_left this (p.start i)
  have hnonneg : ∀ i, (0 : ℚ) ≤ p.start i := fun i => Nat.cast_nonneg _
  match a, b with
  | .sink, _ => exact absurd rfl (mem_directedEdges.mp hedge).2.1
  | .node _, .source | .source, .source => exact absurd rfl (mem_directedEdges.mp hedge).2.2
  | .source, .sink => cases hrows
  | .source, .node b =>
    obtain rfl := Except.ok.inj hrows
    have hswitch : h.extend p x (.switch .source (.node b)) = if p.start b = 0 then 1 else 0 := rfl
    simp only [List.forall_mem_append, forall_mem_unless, List.forall_mem_singleton, Row.holds_geq,
      Row.holds_leq, value_cons, value_nil, hy.start, hswitch]
    have hbound := hpos b
    have hbound' := hle b
    split_ifs with hzero
    · have hcast : (p.start b : ℚ) = 0 := by exact_mod_cast hzero
      exact ⟨fun _ => by linarith, by linarith⟩
    · have hcast : (1 : ℚ) ≤ p.start b := by exact_mod_cast Nat.one_le_iff_ne_zero.mpr hzero
      exact ⟨fun _ => by linarith, by linarith⟩
  | .node a, .sink =>
    obtain rfl := Except.ok.inj hrows
    have hswitch : h.extend p x (.switch (.node a) .sink) =
        if p.stop a = h.numLayers then 1 else 0 := rfl
    simp only [List.forall_mem_append, forall_mem_unless, List.forall_mem_singleton, Row.holds_geq,
      Row.holds_leq, value_cons, value_neg, hend, hswitch]
    split_ifs with hlast
    · have hcast : (p.stop a : ℚ) = h.numLayers := by exact_mod_cast hlast
      refine ⟨fun hkept => ?_, by linarith⟩
      -- the row is what makes a model with a single layer infeasible
      have htwo : (2 : ℚ) ≤ h.numLayers := by
        exact_mod_cast hsize.resolve_right (by simp [hkept])
      linarith
    · have hcast : (p.stop a : ℚ) + 1 ≤ h.numLayers := by
        exact_mod_cast lt_of_le_of_ne (hstop a) hlast
      have hbound := hpos a
      have hbound' := hnonneg a
      exact ⟨fun _ => by linarith, by linarith⟩
  | .node a, .node b =>
    have hab := hpos a
    have hbb := hpos b
    have ha := hle a
    have hb := hle b
    have ha' := hnonneg a
    have hb' := hnonneg b
    by_cases hallow : h.allowPartialInference = true
    · obtain rfl := Except.ok.inj ((if_pos hallow).symm.trans hrows)
      have hswitch : h.extend p x (.switch (.node a) (.node b)) =
          if p.start b ≤ p.stop a ∧ p.stop a < p.stop b then 1 else 0 :=
        if_congr (Iff.of_eq (if_pos hallow)) rfl rfl
      have hcond1 : h.extend p x (.cond1 (.node a) (.node b)) =
          if p.start b ≤ p.stop a then 1 else 0 := rfl
      have hcond2 : h.extend p x (.cond2 (.node a) (.node b)) =
          if p.stop a < p.stop b then 1 else 0 := rfl
      simp only [List.forall_mem_append, forall_mem_unless, List.forall_mem_singleton,
        Row.holds_geq, Row.holds_leq, value_cons, value_append, value_neg, value_nil, hend,
        hy.start, hswitch, hcond1, hcond2]
      by_cases hreach : p.start b ≤ p.stop a
      · have hreachCast : (p.start b : ℚ) ≤ p.stop a := by exact_mod_cast hreach
        by_cases hfurther : p.stop a < p.stop b
        · have hfurtherCast : (p.stop a : ℚ) + 1 ≤ p.stop b := by exact_mod_cast hfurther
          simp only [hreach, hfurther, and_self, if_true]
          exact ⟨⟨⟨⟨⟨fun _ => by linarith, by linarith⟩, fun _ => by linarith⟩, by linarith⟩,
            fun _ => by linarith⟩, by linarith⟩
        · have hfurtherCast : (p.stop b : ℚ) ≤ p.stop a := by exact_mod_cast not_lt.mp hfurther
          simp only [hreach, hfurther, and_false, if_true, if_false]
          exact ⟨⟨⟨⟨⟨fun _ => by linarith, by linarith⟩, fun _ => by linarith⟩, by linarith⟩,
            fun _ => by linarith⟩, by linarith⟩
      · have hreachCast : (p.stop a : ℚ) + 1 ≤ p.start b := by exact_mod_cast not_le.mp hreach
        have hfurther : p.stop a < p.stop b :=
          (not_le.mp hreach).trans_le (Nat.le_add_right _ _)
        simp only [hreach, hfurther, false_and, if_true, if_false]
        exact ⟨⟨⟨⟨⟨fun _ => by linarith, by linarith⟩, fun _ => by linarith⟩, by linarith⟩,
          fun _ => by linarith⟩, by linarith⟩
    · obtain rfl := Except.ok.inj ((if_neg hallow).symm.trans hrows)
      have hswitch : h.extend p x (.switch (.node a) (.node b)) =
          if p.stop a = p.start b then 1 else 0 := if_congr (Iff.of_eq (if_neg hallow)) rfl rfl
      simp only [List.forall_mem_cons, Row.holds_leq, value_cons, value_neg, hend, hy.start,
        hswitch, List.not_mem_nil, false_imp_iff, implies_true, and_true]
      split_ifs with hnext
      · have hcast : (p.stop a : ℚ) = p.start b := by exact_mod_cast hnext
        exact ⟨by linarith, by linarith⟩
      · exact ⟨by linarith, by linarith⟩

theorem exists_switchRows (hmodel : h.model = .ok P) (hedge : (a, b) ∈ h.directedEdges) :
    ∃ rows, h.switchRows a b = .ok rows := by
  obtain ⟨switchRows, hswitch, -⟩ := bind_eq_ok.mp hmodel
  obtain ⟨rows, -, hrows⟩ := (mem_of_mapM_eq_ok hswitch).1 (a, b) hedge
  exact ⟨rows, hrows⟩

/-- **`KeyError` is raised** exactly if the source and the sink are linked. -/
theorem exists_model_iff :
    (∃ P, h.model = .ok P) ↔ (NodeId.source, NodeId.sink) ∉ h.directedEdges := by
  constructor
  · rintro ⟨P, hmodel⟩ hedge
    obtain ⟨rows, hrows⟩ := exists_switchRows hmodel hedge
    cases hrows
  · intro hnot
    have hswitch : ∀ e ∈ h.directedEdges, ∃ rows, h.switchRows e.1 e.2 = .ok rows := by
      rintro ⟨a, b⟩ hedge
      match a, b with
      | .sink, _ => exact absurd rfl (mem_directedEdges.mp hedge).2.1
      | .node _, .source | .source, .source => exact absurd rfl (mem_directedEdges.mp hedge).2.2
      | .source, .sink => exact absurd hedge hnot
      | .source, .node b => exact ⟨_, rfl⟩
      | .node a, .sink => exact ⟨_, rfl⟩
      | .node a, .node b =>
        by_cases hallow : h.allowPartialInference = true
        · exact ⟨_, if_pos hallow⟩
        · exact ⟨_, if_neg hallow⟩
    have hflow : ∀ e ∈ h.directedEdges, ∃ row, h.flowRow e.1 e.2 = .ok row := by
      rintro ⟨a, b⟩ hedge
      obtain ⟨e, -, he⟩ := exists_edgeThroughput hedge
      exact ⟨_, by rw [flowRow, he]; rfl⟩
    obtain ⟨switchRows, hswitchRows⟩ := exists_mapM_eq_ok hswitch
    obtain ⟨flowRows, hflowRows⟩ := exists_mapM_eq_ok hflow
    exact ⟨_, bind_eq_ok.mpr ⟨switchRows, hswitchRows, bind_eq_ok.mpr ⟨flowRows, hflowRows, rfl⟩⟩⟩

theorem feasible_extend (hmodel : h.model = .ok P)
    (hsize : 2 ≤ h.numLayers ∨ h.removeRedundant = true) (hx : Encodes h x p)
    (hp : ValidPlacement h p fun a b => x (.flow a b)) : P.Feasible (h.extend p x) := by
  have hy : Encodes h (h.extend p x) p := ⟨hx.start, hx.hold⟩
  refine (feasible_iff hmodel).mpr ⟨forall_mem_vars.mpr ⟨fun i => ?_, fun i k hk => ?_,
    fun a b hedge => ?_, fun _ a b hedge => ?_⟩, fun i => ?_, fun a b hedge => ⟨?_, ?_⟩⟩
  · refine ⟨p.start i, hx.start i, Int.natCast_nonneg _, ?_⟩
    have hpos := (mem_holdCounts.mp (hp.held_mem i)).1
    have hstop := hp.stop_le i
    rw [Placement.stop] at hstop
    split_ifs
    · omega
    · omega
  · rw [hy.hold i k hk]
    exact ite_zero_or_one _
  · exact ⟨hp.nonneg a b hedge, ite_zero_or_one _⟩
  · obtain ⟨hdirected, hcond⟩ := List.mem_filter.mp hedge
    match a, b with
    | .node a, .node b => exact ⟨ite_zero_or_one _, ite_zero_or_one _⟩
    | .sink, _ => exact absurd rfl (mem_directedEdges.mp hdirected).2.1
    | .node _, .source => exact absurd rfl (mem_directedEdges.mp hdirected).2.2
    | .node _, .sink | .source, _ => simp at hcond
  · exact (nodeRows_hold_iff hy (hp.held_mem i)).mpr
      ⟨hp.stop_le i, hp.conserved i, hp.inflow_le i⟩
  · obtain ⟨rows, hrows⟩ := exists_switchRows hmodel hedge
    exact ⟨rows, hrows, switchRows_hold_extend hsize hx hp.held_mem hp.stop_le hedge hrows⟩
  · obtain ⟨e, -, he⟩ := exists_edgeThroughput hedge
    refine ⟨Row.leq [(.flow a b, 1), (.switch a b, -e.throughput)] 0, by rw [flowRow, he]; rfl, ?_⟩
    have hflow : h.extend p x (.flow a b) = x (.flow a b) := rfl
    have hswitch : h.extend p x (.switch a b) =
        if Connects h.allowPartialInference h.numLayers p a b then 1 else 0 := rfl
    simp only [Row.holds_leq, value_cons, value_nil, hflow, hswitch]
    have hle := hp.le_throughput a b hedge _ he
    split_ifs with hconnects
    · linarith
    · have hzero : x (.flow a b) ≤ 0 := not_lt.mp fun hpos => hconnects (hp.connects a b hedge hpos)
      linarith

end FullHelix

/-! ### Paths -/

/-- How far the layers are processed at a node. -/
def Placement.reached {n : ℕ} (p : Placement n) (numLayers : ℕ) : NodeId n → ℕ
  | .source => 0
  | .node i => p.stop i
  | .sink => numLayers + 1

/-- The layers that the nodes of a path process: each goes on where the one before stopped. -/
def process {n : ℕ} (p : Placement n) : ℕ → List (Fin n) → List (Fin n × ℕ)
  | _, [] => []
  | done, i :: path =>
    ((List.range' done (p.stop i - done)).map fun layer => (i, layer)) ++ process p (p.stop i) path

section Paths

variable {n : ℕ} {h : FullHelix n} {p : Placement n} {flow : NodeId n → NodeId n → ℚ}
  {a b : NodeId n} {i : Fin n}

def Carries (h : FullHelix n) (flow : NodeId n → NodeId n → ℚ) (a b : NodeId n) : Prop :=
  (a, b) ∈ h.directedEdges ∧ 0 < flow a b

namespace ValidPlacement

variable (hp : ValidPlacement h p flow)
include hp

theorem held_pos (i : Fin n) : 0 < p.held i := (FullHelix.mem_holdCounts.mp (hp.held_mem i)).1

theorem connects_of_carries (hcarries : Carries h flow a b) :
    Connects h.allowPartialInference h.numLayers p a b := hp.connects a b hcarries.1 hcarries.2

theorem reached_node (hcarries : Carries h flow a (.node i)) :
    p.start i ≤ p.reached h.numLayers a ∧ p.reached h.numLayers a < p.stop i := by
  have hconnects := hp.connects_of_carries hcarries
  have hpos := hp.held_pos i
  match a with
  | .source =>
    have hstart : p.start i = 0 := hconnects
    exact ⟨hstart.le, Nat.add_pos_right _ hpos⟩
  | .sink => exact hconnects.elim
  | .node a =>
    rw [Connects] at hconnects
    split_ifs at hconnects with hallow
    · exact hconnects
    · exact ⟨hconnects.ge, hconnects.trans_lt (Nat.lt_add_of_pos_right hpos)⟩

theorem reached_sink (hcarries : Carries h flow a .sink) :
    p.reached h.numLayers a = h.numLayers := by
  have hconnects := hp.connects_of_carries hcarries
  match a with
  | .source | .sink => exact hconnects.elim
  | .node a => exact hconnects

theorem reached_lt (hcarries : Carries h flow a b) :
    p.reached h.numLayers a < p.reached h.numLayers b := by
  match b with
  | .source => exact absurd rfl (FullHelix.mem_directedEdges.mp hcarries.1).2.2
  | .sink =>
    rw [hp.reached_sink hcarries]
    exact Nat.lt_succ_self _
  | .node i => exact (hp.reached_node hcarries).2

/-- **The flow has no cycle**, since every edge goes further. -/
theorem acyclic (a : NodeId n) : ¬ Relation.TransGen (Carries h flow) a a := by
  intro hcycle
  have hlt : ∀ {c d}, Relation.TransGen (Carries h flow) c d →
      p.reached h.numLayers c < p.reached h.numLayers d := by
    intro c d hpath
    induction hpath with
    | single hedge => exact hp.reached_lt hedge
    | tail _ hedge ih => exact ih.trans (hp.reached_lt hedge)
  exact lt_irrefl _ (hlt hcycle)

/-- **The rest of a path** processes the rest of the layers, in order, on nodes that hold them. -/
theorem process_path {path : List (Fin n)}
    (hpath : List.IsChain (Carries h flow) (a :: (path.map .node ++ [.sink]))) :
    (process p (p.reached h.numLayers a) path).map Prod.snd =
      List.range' (p.reached h.numLayers a) (h.numLayers - p.reached h.numLayers a) ∧
    ∀ task ∈ process p (p.reached h.numLayers a) path,
      p.start task.1 ≤ task.2 ∧ task.2 < p.stop task.1 := by
  induction path generalizing a with
  | nil =>
    rw [List.map_nil, List.nil_append, List.isChain_cons_cons] at hpath
    rw [hp.reached_sink hpath.1, Nat.sub_self]
    exact ⟨rfl, by simp [process]⟩
  | cons i path ih =>
    rw [List.map_cons, List.cons_append, List.isChain_cons_cons] at hpath
    obtain ⟨hstart, hlt⟩ := hp.reached_node hpath.1
    obtain ⟨hlayers, hheld⟩ := ih hpath.2
    have hstop := hp.stop_le i
    have hreached : p.reached h.numLayers (.node i) = p.stop i := rfl
    rw [hreached] at hlayers hheld
    rw [process]
    constructor
    · rw [List.map_append, hlayers, List.map_map]
      have hsnd : Prod.snd ∘ (fun layer => (i, layer)) = (id : ℕ → ℕ) := funext fun _ => rfl
      rw [hsnd, List.map_id]
      have hsplit := @List.range'_append (p.reached h.numLayers a)
        (p.stop i - p.reached h.numLayers a) (h.numLayers - p.stop i) 1
      rw [one_mul, Nat.add_sub_of_le hlt.le] at hsplit
      rw [hsplit]
      congr 1
      omega
    · intro task htask
      rcases List.mem_append.mp htask with htask | htask
      · obtain ⟨layer, hlayer, rfl⟩ := List.mem_map.mp htask
        rw [List.mem_range'_1] at hlayer
        dsimp only
        omega
      · exact hheld task htask

end ValidPlacement

end Paths

/-! ### Soundness -/

section Soundness

variable {n : ℕ} {h : FullHelix n} {P : Problem (HelixVar n) ℚ} {x : HelixVar n → ℚ}

/-- The flow through a node, over all edges into it. -/
def FullHelix.flowThrough (h : FullHelix n) (flow : NodeId n → NodeId n → ℚ) (i : Fin n) : ℚ :=
  ((h.directedEdges.filter fun e => e.2 = .node i).map fun e => flow e.1 e.2).sum

theorem FullHelix.flowThrough_eq_inflow (flow : NodeId n → NodeId n → ℚ) (i : Fin n) :
    h.flowThrough flow i = h.inflow flow i := by
  have hperm : (h.directedEdges.filter fun e => e.2 = .node i).Perm
      ((h.inNeighbours i).map fun a => (a, NodeId.node i)) := by
    refine (List.perm_ext_iff_of_nodup ((List.nodup_dedup _).filter _)
      (nodup_inNeighbours.map fun a b heq => (Prod.mk.inj heq).1)).mpr ?_
    rintro ⟨a, b⟩
    rw [List.mem_filter, List.mem_map, decide_eq_true_iff]
    constructor
    · rintro ⟨hedge, rfl⟩
      exact ⟨a, mem_inNeighbours.mpr hedge, rfl⟩
    · rintro ⟨c, hc, heq⟩
      obtain ⟨rfl, rfl⟩ := Prod.mk.inj heq
      exact ⟨mem_inNeighbours.mp hc, rfl⟩
  rw [flowThrough, (hperm.map _).sum_eq, List.map_map, inflow]
  rfl

theorem FullHelix.usesPartialInference_eq_false
    {milp : Problem (HelixVar n) ℚ → Except String (HelixVar n → ℚ)}
    (hmilp : ∀ P, h.model = .ok P → P.IsResult (milp P)) {solution : Solution n}
    (hsolution : h.solveFullHelix milp = .ok solution) (hstrict : h.allowPartialInference = false) :
    solution.usesPartialInference = false := by
  obtain ⟨P, hmodel, hsolution⟩ := bind_eq_ok.mp hsolution
  have hresult := hmilp P hmodel
  cases hx : milp P with
  | error message =>
    rw [hx] at hsolution
    cases hsolution
  | ok x =>
    rw [hx] at hsolution hresult
    obtain rfl := Except.ok.inj hsolution
    obtain ⟨p, -, hp, hlayers⟩ := validPlacement_of_feasible hmodel hresult.1
    refine List.any_eq_false.mpr ?_
    rintro ⟨⟨a, b⟩, f⟩ hmem
    obtain ⟨hmem, hpos⟩ := List.mem_filter.mp hmem
    obtain ⟨⟨c, d⟩, hedge, heq⟩ := List.mem_map.mp hmem
    obtain ⟨⟨rfl, rfl⟩, rfl⟩ := by simpa only [Prod.mk.injEq] using heq
    match c, d with
    | .source, _ | .sink, _ | .node _, .source | .node _, .sink => exact Bool.false_ne_true
    | .node a, .node b =>
      have hflow : 0 < x (.flow (.node a) (.node b)) :=
        lt_trans (by norm_num) (of_decide_eq_true hpos)
      have hnext := hp.connects _ _ hedge hflow
      rw [hstrict] at hnext
      have hnext : p.stop a = p.start b := hnext
      simp [hlayers, hnext]

/-- **What the values of the variables mean**: the placement that is read off is the one of the
variables, and flow only goes where layers go on. -/
structure Sound (h : FullHelix n) (x : HelixVar n → ℚ) (p : Placement n) : Prop where
  nodeLayers : ∀ i, h.nodeLayers x i = ((p.start i : ℤ), (p.stop i : ℤ))
  start : ∀ i, x (.start i) = p.start i
  stop : ∀ i, value x (h.nodeEndCoeffs i) = p.stop i
  stop_le : ∀ i, p.stop i ≤ h.numLayers
  held_pos : ∀ i, 1 ≤ p.stop i - p.start i
  held_le : ∀ i, p.stop i - p.start i ≤ (h.nodes i).maxLayers
  next : ∀ a b, Carries h (fun a b => x (.flow a b)) (.node a) (.node b) →
    p.start b ≤ p.stop a ∧ p.stop a < p.stop b ∧
      (h.allowPartialInference = false → p.stop a = p.start b)
  source : ∀ b, Carries h (fun a b => x (.flow a b)) .source b → ∃ i, b = .node i ∧ p.start i = 0
  sink : ∀ a, Carries h (fun a b => x (.flow a b)) a .sink →
    ∃ i, a = .node i ∧ p.stop i = h.numLayers
  acyclic : ∀ a, ¬ Relation.TransGen (Carries h fun a b => x (.flow a b)) a a
  layers : ∀ path : List (Fin n),
    List.IsChain (Carries h fun a b => x (.flow a b)) (.source :: (path.map .node ++ [.sink])) →
    (process p 0 path).map Prod.snd = List.range h.numLayers ∧
      ∀ task ∈ process p 0 path, p.start task.1 ≤ task.2 ∧ task.2 < p.stop task.1
  throughput : ∀ i, h.flowThrough (fun a b => x (.flow a b)) i ≤
    h.nodeThroughput i (p.stop i - p.start i)

/-- **The encoding is sound**, with and without partial inference and the redundant rows. -/
theorem FullHelix.sound_of_feasible (hmodel : h.model = .ok P) (hfeasible : P.Feasible x) :
    ∃ p, Sound h x p := by
  obtain ⟨p, hx, hp, hlayers⟩ := validPlacement_of_feasible hmodel hfeasible
  have hheld : ∀ i, p.stop i - p.start i = p.held i := fun i => Nat.add_sub_cancel_left _ _
  have hcounts := fun i => mem_holdCounts.mp (hp.held_mem i)
  refine ⟨p, hlayers, hx.start, fun i => value_nodeEndCoeffs hx (hp.held_mem i), hp.stop_le,
    fun i => (hheld i).symm ▸ (hcounts i).1, fun i => (hheld i).symm ▸ (hcounts i).2, ?_, ?_, ?_,
    hp.acyclic, ?_, fun i => ?_⟩
  · intro a b hcarries
    obtain ⟨hstart, hlt⟩ := hp.reached_node hcarries
    refine ⟨hstart, hlt, fun hstrict => ?_⟩
    have hconnects := hp.connects_of_carries hcarries
    rw [hstrict] at hconnects
    exact hconnects
  · intro b hcarries
    have hconnects := hp.connects_of_carries hcarries
    match b with
    | .node i => exact ⟨i, rfl, hconnects⟩
    | .source | .sink => exact hconnects.elim
  · intro a hcarries
    have hconnects := hp.connects_of_carries hcarries
    match a with
    | .node i => exact ⟨i, rfl, hconnects⟩
    | .source | .sink => exact hconnects.elim
  · intro path hpath
    have hprocess := hp.process_path hpath
    rwa [Placement.reached, Nat.sub_zero, ← List.range_eq_range'] at hprocess
  · rw [flowThrough_eq_inflow, hheld]
    exact hp.inflow_le i

/-- Three layers on two nodes of two layers each, which overlap. -/
def overlapping : FullHelix 2 where
  numLayers := 3
  nodes _ := ⟨2, fun _ => some 1⟩
  edges := [⟨.source, .node ⟨0, Nat.two_pos⟩, 1, zero_le_one⟩,
    ⟨.node ⟨0, Nat.two_pos⟩, .node ⟨1, Nat.one_lt_two⟩, 1, zero_le_one⟩,
    ⟨.node ⟨1, Nat.one_lt_two⟩, .sink, 1, zero_le_one⟩]
  allowPartialInference := true
  removeRedundant := false

/-- The second node holds one layer more of the end. -/
def overlap : Placement 2 := ⟨fun i => i, fun _ => 2⟩

/-- One unit of flow through both nodes. -/
def overlapValues : HelixVar 2 → ℚ
  | .start i => (i : ℕ)
  | .hold _ k => if k = 2 then 1 else 0
  | .flow .source (.node 0) | .flow (.node 0) (.node 1) | .flow (.node 1) .sink => 1
  | _ => 0

theorem validPlacement_overlap :
    ValidPlacement overlapping overlap fun a b => overlapValues (.flow a b) := by
  have hnonneg : ∀ e ∈ overlapping.directedEdges, 0 ≤ overlapValues (.flow e.1 e.2) := by
    decide +kernel
  have hle : ∀ e ∈ overlapping.directedEdges, overlapValues (.flow e.1 e.2) ≤ 1 := by
    decide +kernel
  have hconnects : ∀ e ∈ overlapping.directedEdges, 0 < overlapValues (.flow e.1 e.2) →
      Connects true 3 overlap e.1 e.2 := by decide +kernel
  have hunit : ∀ e ∈ overlapping.edges, e.throughput = 1 := by simp [overlapping]
  refine ⟨by decide, by decide, by decide +kernel, by decide +kernel,
    fun a b => hnonneg (a, b), fun a b hedge t ht => ?_, fun a b => hconnects (a, b)⟩
  obtain ⟨e, he, heq⟩ := FullHelix.exists_edgeThroughput hedge
  obtain rfl := Except.ok.inj (heq.symm.trans ht)
  exact (hle (a, b) hedge).trans (hunit e he).ge

/-- The overlapping nodes are a case with all rows. -/
theorem sound_of_feasible_overlapping :
    ∃ P x, overlapping.model = .ok P ∧ P.Feasible x ∧ 0 < x (.flow (.node 0) (.node 1)) ∧
      ∃ p, Sound overlapping x p := by
  obtain ⟨P, hmodel⟩ : ∃ P, overlapping.model = .ok P :=
    FullHelix.exists_model_iff.mpr (by decide +kernel)
  have hfeasible := FullHelix.feasible_extend hmodel (.inl (by decide))
    ⟨fun _ => rfl, fun _ _ _ => rfl⟩ validPlacement_overlap
  exact ⟨P, _, hmodel, hfeasible, zero_lt_one, FullHelix.sound_of_feasible hmodel hfeasible⟩

end Soundness

end StreamEP

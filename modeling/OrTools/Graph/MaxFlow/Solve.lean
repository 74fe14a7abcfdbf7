import OrTools.Graph.MaxFlow.ExcessReturn

/-!
# The solver driver

`SaturateOutgoingArcsFromSource()`, the loops of `RefineWithGlobalUpdate()`,
`AugmentingPathExists()`, `Solve()` and the two cut extractors built on
`ComputeReachableNodes<reverse>()`.

The three loops of `RefineWithGlobalUpdate()` (the queue loop, the
`do … while (num_skipped > 0)` loop and the outer `while` on the source
saturation) share one `fuel` with the loops they call; `none` is some loop still
running when its fuel is spent.  The two graph searches mark a node before they
queue it, so `num_nodes` iterations bound them; they are given that many.
-/

set_option autoImplicit false

namespace OrTools.MaxFlow

open Function

variable (g : Graph)

/-- The arc loop of `SaturateOutgoingArcsFromSource()`; `pushed` is
`flow_pushed`. -/
def saturateArcs (source : Nat) : List ArcIndex → Bool → State → Bool × State
  | [], pushed, s => (pushed, s)
  | arc :: arcs, pushed, s =>
    let flow := s.residualArcCapacity arc
    if flow = 0 ∨ g.numNodes ≤ s.nodePotential (g.head arc) then saturateArcs source arcs pushed s
    else
      let currentFlowOutOfSource := -s.nodeExcess source
      let cappedFlow := kMaxFlowQuantity - currentFlowOutOfSource
      if cappedFlow < flow then
        if cappedFlow = 0 then (true, s) else (true, s.pushFlow g cappedFlow source arc)
      else saturateArcs source arcs true (s.pushFlow g flow source arc)

/-- `SaturateOutgoingArcsFromSource()`: whether some flow was pushed, and the
new state. -/
def saturateOutgoingArcsFromSource (source sink : Nat) (s : State) : Bool × State :=
  if s.nodeExcess sink = kMaxFlowQuantity then (false, s)
  else if s.nodeExcess source = -kMaxFlowQuantity then (false, s)
  else saturateArcs g source (g.outgoingArcs source) false s

/-- `skip_active_node` at the start of a round: `2` at the sink and the source. -/
def skipActiveNodeStart (source sink : Nat) : Nat → Nat :=
  update (update (fun _ => 0) sink 2) source 2

@[simp] theorem skipActiveNodeStart_source (source sink : Nat) :
    skipActiveNodeStart source sink source = 2 := update_same _ _ _

@[simp] theorem skipActiveNodeStart_sink (source sink : Nat) :
    skipActiveNodeStart source sink sink = 2 := by
  simp [skipActiveNodeStart, update_apply]

/-- Raising `skip_active_node[node]` by one lowers no entry. -/
theorem le_update_skip (skip : Nat → Nat) (node w : Nat) :
    skip w ≤ update skip node (skip node + 1) w := by
  rw [update_apply]
  split_ifs with e
  · rw [e]; omega
  · exact le_rfl

/-- The loop `while (!IsEmptyActiveNodeContainer())` of one round: the final
state and `num_skipped`. -/
def processActiveNodes (source sink : Nat) :
    Nat → (Nat → Nat) → Nat → State → Option (State × Nat)
  | 0, _, _, _ => none
  | fuel + 1, skip, numSkipped, s =>
    match s.activeNodeByHeight.pop with
    | none => some (s, numSkipped)
    | some (node, q) =>
      let s := { s with activeNodeByHeight := q }
      if 1 < skip node then
        processActiveNodes source sink fuel skip
          (if node ≠ sink ∧ node ≠ source then numSkipped + 1 else numSkipped) s
      else
        match discharge g node fuel s with
        | none => none
        | some s' =>
          let skip := if s.nodePotential node + 1 < s'.nodePotential node then
              update skip node (skip node + 1) else skip
          processActiveNodes source sink fuel skip numSkipped s'

/-- The loop `do { GlobalUpdate(); … } while (num_skipped > 0)`. -/
def refineRounds (source sink : Nat) : Nat → State → Option State
  | 0, _ => none
  | fuel + 1, s =>
    match processActiveNodes g source sink fuel (skipActiveNodeStart source sink) 0
        (globalUpdate g source sink s) with
    | none => none
    | some (s, numSkipped) => if 0 < numSkipped then refineRounds source sink fuel s else some s

/-- `RefineWithGlobalUpdate()`. -/
def refineWithGlobalUpdate (source sink : Nat) : Nat → State → Option State
  | 0, _ => none
  | fuel + 1, s =>
    let r := saturateOutgoingArcsFromSource g source sink s
    if r.1 then
      match refineRounds g source sink fuel r.2 with
      | none => none
      | some s =>
        match pushFlowExcessBackToSource g source sink fuel s with
        | none => none
        | some s => refineWithGlobalUpdate source sink fuel s
    else some r.2

/-- On the path `0 → 1 → 2 → 3` with capacities 10, 10 and 1 (source 0, sink 3),
the first phase ends with node 2 at height `8 = 2 * num_nodes`, above
`2 * num_nodes - 1`, and with the residual arc `1 → 0` into the source leaving
node 1 at height 7, more than one above the source's height 4. -/
theorem refineRounds_height_above_bound :
    let g : Graph := Graph.ofArcs 4 [(0, 1), (1, 2), (2, 3)] (by decide)
    let s := State.initializePreflow g 0
      { (List.range 3).foldl (fun s i => s.setArcCapacity g (.direct i) ([10, 10, 1].getD i 0))
          State.init with status := .notSolved }
    let r := saturateOutgoingArcsFromSource g 0 3 s
    r.1 = true ∧
    (refineRounds g 0 3 8 r.2).any (fun s₁ =>
      decide (2 * g.numNodes - 1 < s₁.nodePotential 2) &&
        decide (0 < s₁.residualArcCapacity (.reverse 0)) && g.tail (.reverse 0) != 0 &&
        decide (s₁.nodePotential 0 + 1 < s₁.nodePotential 1)) = true := by
  decide

/-- The arc loop of `AugmentingPathExists()`: push the unreached heads of the
residual arcs on `to_process` (top first) and mark them. -/
def augmentingPathArc (s : State) (b : List Nat × (Nat → Bool)) (arc : ArcIndex) :
    List Nat × (Nat → Bool) :=
  if 0 < s.residualArcCapacity arc then
    let head := g.head arc
    if b.2 head then b else (head :: b.1, update b.2 head true)
  else b

/-- The loop `while (!to_process.empty())` of `AugmentingPathExists()`. -/
def augmentingPathLoop (s : State) : Nat → List Nat × (Nat → Bool) → Nat → Bool
  | 0, b => b.2
  | _ + 1, ([], r) => r
  | fuel + 1, (node :: toProcess, r) =>
    augmentingPathLoop s fuel
      ((g.outgoingOrOppositeIncomingArcs node).foldl (augmentingPathArc g s) (toProcess, r))

/-- `AugmentingPathExists()`: whether the sink is reachable from the source in
the residual graph. -/
def augmentingPathExists (source sink : Nat) (s : State) : Bool :=
  augmentingPathLoop g s g.numNodes ([source], update (fun _ => false) source true) sink

/-- `Solve()`.  `GetOptimalFlow()` is `nodeExcess sink` of the result. -/
def solve (source sink fuel : Nat) (s : State) : Option State :=
  let s := State.initializePreflow g source { s with status := .notSolved }
  if g.numNodes ≤ sink ∨ g.numNodes ≤ source then some { s with status := .optimal }
  else
    match refineWithGlobalUpdate g source sink fuel s with
    | none => none
    | some s =>
      let s := { s with status := .optimal }
      if s.nodeExcess sink = kMaxFlowQuantity ∧ augmentingPathExists g source sink s = true then
        some { s with status := .intOverflow }
      else some s

/-- `GetOptimalFlow()`. -/
def getOptimalFlow (sink : Nat) (s : State) : Int := s.nodeExcess sink

/-- `CheckResult()`: the source's excess is the opposite of the sink's, no
other node of the graph has excess, no direct arc nor its opposite has negative
residual capacity, nor has their sum, and no augmenting path is left unless the
flow is already `kMaxFlowQuantity`.  The checks have no side effect but their
logging, so their order does not matter. -/
def checkResult (source sink : Nat) (s : State) : Bool :=
  s.nodeExcess source == -s.nodeExcess sink &&
    (List.range g.numNodes).all (fun node => node == source || node == sink || s.nodeExcess node == 0) &&
    (List.range g.numArcs).all (fun arc =>
      decide (0 ≤ s.residualArcCapacity (.direct arc)) &&
        decide (0 ≤ s.residualArcCapacity (.reverse arc)) &&
        decide (0 ≤ s.residualArcCapacity (.direct arc) + s.residualArcCapacity (.reverse arc))) &&
    !(decide (getOptimalFlow sink s < kMaxFlowQuantity) && augmentingPathExists g source sink s)

/-- The arc loop of `ComputeReachableNodes<reverse>()`. -/
def reachableArc (reverse : Bool) (s : State) (b : List Nat × (Nat → Bool)) (arc : ArcIndex) :
    List Nat × (Nat → Bool) :=
  let head := g.head arc
  if b.2 head then b
  else if s.residualArcCapacity (if reverse then arc.opposite else arc) = 0 then b
  else (b.1 ++ [head], update b.2 head true)

/-- The loop `while (queue_index != bfs_queue_.size())` of
`ComputeReachableNodes<reverse>()`. -/
def reachableLoop (reverse : Bool) (s : State) :
    Nat → Nat → List Nat × (Nat → Bool) → List Nat × (Nat → Bool)
  | 0, _, b => b
  | fuel + 1, queueIndex, b =>
    if queueIndex = b.1.length then b
    else
      let node := b.1.getD queueIndex 0
      reachableLoop reverse s fuel (queueIndex + 1)
        ((g.outgoingOrOppositeIncomingArcs node).foldl (reachableArc g reverse s) b)

/-- `ComputeReachableNodes<reverse>(start, result)`: the nodes reachable from
`start` in the residual graph, or in its reverse. -/
def computeReachableNodes (reverse : Bool) (start : Nat) (s : State) : List Nat :=
  if g.numNodes ≤ start then [start]
  else (reachableLoop g reverse s g.numNodes 0 ([start], update (fun _ => false) start true)).1

/-- `GetSourceSideMinCut(result)`. -/
def getSourceSideMinCut (source : Nat) (s : State) : List Nat :=
  computeReachableNodes g false source s

/-- `GetSinkSideMinCut(result)`. -/
def getSinkSideMinCut (sink : Nat) (s : State) : List Nat :=
  computeReachableNodes g true sink s

end OrTools.MaxFlow

import OrTools.Graph.MaxFlow.Discharge

/-!
# `PushFlowExcessBackToSource()`

The second phase of the solver.  A depth-first search from the source along the
direct arcs carrying flow cancels every flow cycle it closes (a variation of
Tarjan's strongly connected component algorithm), and records the nodes in
reverse topological order of the remaining acyclic flow.  The excess of each
recorded node is then pushed back along its incoming flow arcs, leaves first.

`arc_stack` and `index_branch` are vectors whose back is the top; they are
modelled by lists in vector order (front first).  The `DCHECK`s of the function
are part of the model: a failed one makes the phase fail (`none`), as does the
search loop when its `fuel` iterations are spent.
-/

set_option autoImplicit false

namespace OrTools.MaxFlow

open Function

/-- The working variables of the search of `PushFlowExcessBackToSource()`. -/
structure Dfs where
  state : State
  /-- `stored`: settled nodes, already in the topological order. -/
  stored : Nat → Bool
  /-- `visited`: `stored` nodes and the nodes of the current branch. -/
  visited : Nat → Bool
  /-- `arc_stack`, front first. -/
  arcStack : List ArcIndex
  /-- `index_branch`: indices into `arc_stack` of the arcs of the branch. -/
  indexBranch : List Nat
  /-- `reverse_topological_order`. -/
  reverseTopologicalOrder : List Nat

/-- `arc_stack[index_branch[i]]`. -/
def Dfs.branchArc (d : Dfs) (i : Nat) : ArcIndex :=
  d.arcStack.getD (d.indexBranch.getD i 0) default

/-- The indices `hi - 1, hi - 2, …, lo` of a `for (i = hi - 1; i >= lo; --i)`. -/
def downFrom (lo hi : Nat) : List Nat := (List.range' lo (hi - lo)).reverse

variable (g : Graph)

/-- The loop `while (cycle_begin > 0 && Head(arc_stack[index_branch[cycle_begin - 1]]) != head)`. -/
def cycleBegin (d : Dfs) (head : Nat) : Nat → Nat
  | 0 => 0
  | k + 1 => if g.head (d.branchArc k) ≠ head then cycleBegin d head k else k + 1

/-- The loop computing `max_flow` and `first_saturated_index` over the cycle. -/
def cycleMaxFlow (d : Dfs) (flow : Int) (size : Nat) (indices : List Nat) : Int × Nat :=
  indices.foldl (fun acc i =>
    let f := d.state.flow g (d.branchArc i)
    if f ≤ acc.1 then (f, i) else acc) (flow, size)

/-- One step of the cancelling loop: cancel `max_flow` on a branch arc of the
cycle and unvisit its head when the search will backtrack over it, with the
`DCHECK`s of the two cases. -/
def cancelCycleArc (maxFlow : Int) (firstSaturatedIndex : Nat) (d : Dfs) (i : Nat) : Option Dfs :=
  let arc := d.branchArc i
  let s := d.state.pushFlow g (-maxFlow) (g.tail arc) arc
  if firstSaturatedIndex ≤ i then
    if d.visited (g.head arc) then
      some { d with state := s, visited := update d.visited (g.head arc) false }
    else none
  else if 0 < s.flow g arc then some { d with state := s } else none

/-- The cancellation of the cycle that `arc` closes from `node` back to the
branch: `(max_flow, first_saturated_index)` and the search state after the
pushes of `-max_flow` on `arc` and on the branch arcs of the cycle, with the
`DCHECK_EQ(excess, node_excess_[head])` that follows them. -/
def cancelCycle (node : Nat) (arc : ArcIndex) (d : Dfs) : Option ((Int × Nat) × Dfs) := do
  let size := d.indexBranch.length
  let head := g.head arc
  let begin := cycleBegin g d head size
  let r := cycleMaxFlow g d (d.state.flow g arc) size (downFrom begin size)
  let excess := d.state.nodeExcess head
  let d' ← (downFrom begin size).foldlM (cancelCycleArc g r.1 r.2)
    { d with state := d.state.pushFlow g (-r.1) node arc }
  if d'.state.nodeExcess head = excess then some (r, d') else none

/-- The loop over the outgoing arcs of a newly visited node, with its `break`. -/
def dfsScan (node : Nat) : List ArcIndex → Dfs → Option Dfs
  | [], d => some d
  | arc :: arcs, d =>
    if 0 < d.state.flow g arc ∧ d.stored (g.head arc) = false then
      if d.visited (g.head arc) = false then
        dfsScan node arcs { d with arcStack := d.arcStack ++ [arc] }
      else
        match cancelCycle g node arc d with
        | none => none
        | some (r, d) =>
          if r.2 < d.indexBranch.length then
            some { d with
              arcStack := d.arcStack.take (d.indexBranch.getD r.2 0)
              indexBranch := d.indexBranch.take r.2 }
          else dfsScan node arcs d
    else dfsScan node arcs d

/-- One iteration of the loop `while (!arc_stack.empty())`, on the arc `top`
at the back of `arc_stack`; `none` is a failed `DCHECK`. -/
def dfsStep (d : Dfs) (top : ArcIndex) : Option Dfs :=
  let node := g.head top
  if d.visited node then
    if d.stored node = false then
      if d.indexBranch = [] then none
      else
        some { d with
          stored := update d.stored node true
          reverseTopologicalOrder := d.reverseTopologicalOrder ++ [node]
          indexBranch := d.indexBranch.dropLast
          arcStack := d.arcStack.dropLast }
    else some { d with arcStack := d.arcStack.dropLast }
  else if d.stored node then none
  else if d.indexBranch.getLast?.all (· < d.arcStack.length - 1) then
    dfsScan g node (g.outgoingArcs node)
      { d with
        visited := update d.visited node true
        indexBranch := d.indexBranch ++ [d.arcStack.length - 1] }
  else none

/-- The loop `while (!arc_stack.empty())`, run for at most `fuel` iterations;
`none` is a failed `DCHECK` or a loop still running when the fuel is spent. -/
def dfsLoop : Nat → Dfs → Option Dfs
  | 0, _ => none
  | fuel + 1, d =>
    match d.arcStack.getLast? with
    | none => some d
    | some top =>
      match dfsStep g d top with
      | none => none
      | some d => dfsLoop fuel d

/-- The loop returning the excess of `node` along its incoming arcs. -/
def returnArcs (node : Nat) : List ArcIndex → State → State
  | [], s => s
  | arc :: arcs, s =>
    let oppositeArc := arc.opposite
    if 0 < s.residualArcCapacity oppositeArc then
      let flow := min (s.nodeExcess node) (s.residualArcCapacity oppositeArc)
      let s := s.pushFlow g flow node oppositeArc
      if s.nodeExcess node = 0 then s else returnArcs node arcs s
    else returnArcs node arcs s

/-- The final loop over `reverse_topological_order`, with its
`DCHECK_EQ(0, node_excess_[node])`. -/
def returnExcess (order : List Nat) (s : State) : Option State :=
  order.foldlM (fun s node =>
    if s.nodeExcess node = 0 then some s
    else
      let s := returnArcs g node (g.incomingArcs node) s
      if s.nodeExcess node = 0 then some s else none) s

/-- The search state at the start of the loop: the outgoing flow arcs of the
source on the stack, the sink stored and visited, the source visited. -/
def dfsStart (source sink : Nat) (s : State) : Dfs where
  state := s
  stored := update (fun _ => false) sink true
  visited := update (update (fun _ => false) sink true) source true
  arcStack := (g.outgoingArcs source).filter (fun arc => 0 < s.flow g arc)
  indexBranch := []
  reverseTopologicalOrder := []

/-- `PushFlowExcessBackToSource()`, with the `DCHECK`s after the search and at
the end. -/
def pushFlowExcessBackToSource (source sink fuel : Nat) (s : State) : Option State := do
  let d ← dfsLoop g fuel (dfsStart g source sink s)
  if d.indexBranch = [] then
    let s ← returnExcess g d.reverseTopologicalOrder d.state
    if -s.nodeExcess source = s.nodeExcess sink then some s else none
  else none

end OrTools.MaxFlow

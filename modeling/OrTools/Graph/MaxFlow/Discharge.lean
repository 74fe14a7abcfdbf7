import OrTools.Graph.MaxFlow.GlobalUpdate

/-!
# `Relabel(node)` and `Discharge(node)`

`Relabel` is the relaxed version of the source: it scans every residual arc of
the node for the lowest head, but stops at the first arc that is admissible at
the current height, which it then records as `first_admissible_arc_[node]`.

`Discharge` repeats: scan the arcs from `first_admissible_arc_[node]`, pushing
along admissible ones (and queueing heads that become active), return once the
excess is zero; otherwise relabel, and stop once the height reaches `num_nodes`.
The `while (true)` loop is given `fuel` iterations; `none` is the loop still
running when the fuel is spent.
-/

set_option autoImplicit false

namespace OrTools.MaxFlow

open Function

variable (g : Graph)

/-- The arc loop of `Relabel(node)`: `(min_height, first_admissible_arc)`. -/
def relabelScan (s : State) (height : Nat) :
    List ArcIndex → Nat → Option ArcIndex → Nat × Option ArcIndex
  | [], minHeight, arc => (minHeight, arc)
  | a :: arcs, minHeight, arc =>
    if 0 < s.residualArcCapacity a then
      let headHeight := s.nodePotential (g.head a)
      if headHeight < minHeight then
        if headHeight + 1 = height then (headHeight, some a)
        else relabelScan s height arcs headHeight (some a)
      else relabelScan s height arcs minHeight arc
    else relabelScan s height arcs minHeight arc

/-- `Relabel(node)`. -/
def relabel (node : Nat) (s : State) : State :=
  let r := relabelScan g s (s.nodePotential node) (g.outgoingOrOppositeIncomingArcs node)
    kMaxNodeHeight none
  { s with
    nodePotential := update s.nodePotential node (r.1 + 1)
    firstAdmissibleArc := update s.firstAdmissibleArc node r.2 }

/-- How the arc scan of `Discharge` ends: by the `return` once the excess is
zero, or by running out of arcs. -/
inductive ScanEnd where
  | returned (s : State)
  | exhausted (s : State)

/-- The state a scan ends in. -/
def ScanEnd.state : ScanEnd → State
  | .returned s => s
  | .exhausted s => s

/-- Whether the scan ran out of arcs, so that `Relabel` follows. -/
def ScanEnd.isExhausted : ScanEnd → Bool
  | .returned _ => false
  | .exhausted _ => true

/-- The arc loop of `Discharge(node)`. -/
def dischargeScan (node : Nat) : List ArcIndex → State → ScanEnd
  | [], s => .exhausted s
  | arc :: arcs, s =>
    if s.IsAdmissible g node arc then
      let head := g.head arc
      let s := if s.nodeExcess head = 0 then s.pushActiveNode head else s
      let delta := min (s.nodeExcess node) (s.residualArcCapacity arc)
      let s := s.pushFlow g delta node arc
      if s.nodeExcess node = 0 then
        .returned { s with firstAdmissibleArc := update s.firstAdmissibleArc node (some arc) }
      else dischargeScan node arcs s
    else dischargeScan node arcs s

/-- `Discharge(node)`, with at most `fuel` rounds of its `while (true)` loop. -/
def discharge (node : Nat) : Nat → State → Option State
  | 0, _ => none
  | fuel + 1, s =>
    match dischargeScan g node
        (g.outgoingOrOppositeIncomingArcsFrom node (s.firstAdmissibleArc node)) s with
    | .returned s => some s
    | .exhausted s =>
      let s := relabel g node s
      if g.numNodes ≤ s.nodePotential node then some s else discharge node fuel s

end OrTools.MaxFlow

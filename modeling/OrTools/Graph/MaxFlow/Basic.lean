import OrTools.Graph.Graph
import OrTools.Graph.PriorityQueue
import Mathlib.Logic.Function.Basic
import Mathlib.Order.MinMax
import Mathlib.Algebra.Order.Ring.Int

/-!
# `GenericMaxFlow`: state and primitive operations

The data members of `GenericMaxFlow<Graph>` that a solve reads or writes, and
the operations of `generic_max_flow.h` that touch them directly: `Flow`,
`Capacity`, `PushFlow`, `SetCapacityAndClearFlow`, `SetArcCapacity`,
`InitializePreflow`, `IsAdmissible`, `IsActive` and `PushActiveNode`.

`FlowQuantity` is `int64_t`; it is modelled by `Int`, and `kMaxFlowQuantity` is
its maximum.  The arrays indexed by nodes and arcs are total functions: only
their values at valid indices are ever read.  The graph, the source and the
sink are fixed at construction and are parameters of every operation.
-/

set_option autoImplicit false

namespace OrTools.MaxFlow

open Function

/-- `kMaxFlowQuantity = std::numeric_limits<int64_t>::max()`. -/
def kMaxFlowQuantity : Int := 2 ^ 63 - 1

/-- `std::numeric_limits<NodeHeight>::max()` for the 32-bit `NodeIndex`. -/
def kMaxNodeHeight : Nat := 2 ^ 31 - 1

/-- `MaxFlowStatusClass::Status`. -/
inductive Status where
  | notSolved
  | optimal
  | intOverflow
  | badInput
  | badResult
  deriving DecidableEq, Repr

/-- The mutable members of `GenericMaxFlow` used by a solve. -/
@[ext]
structure State where
  /-- `residual_arc_capacity_`, indexed by signed arc. -/
  residualArcCapacity : ArcIndex → Int
  /-- `node_excess_`. -/
  nodeExcess : Nat → Int
  /-- `node_potential_`, the heights. -/
  nodePotential : Nat → Nat
  /-- `first_admissible_arc_`; `none` is `kNilArc`. -/
  firstAdmissibleArc : Nat → Option ArcIndex
  /-- `active_node_by_height_`. -/
  activeNodeByHeight : PriorityQueueWithRestrictedPush Nat
  /-- `status_`. -/
  status : Status

namespace State

variable (g : Graph)

/-- The state right after the constructor: every array zeroed, every
`first_admissible_arc_` at `kNilArc`, the queue empty. -/
def init : State where
  residualArcCapacity := fun _ => 0
  nodeExcess := fun _ => 0
  nodePotential := fun _ => 0
  firstAdmissibleArc := fun _ => none
  activeNodeByHeight := .empty
  status := .notSolved

/-- `Flow(arc)`. -/
def flow (s : State) (arc : ArcIndex) : Int :=
  if g.isArcDirect arc then s.residualArcCapacity arc.opposite
  else -s.residualArcCapacity arc

/-- `Capacity(arc)`. -/
def capacity (s : State) (arc : ArcIndex) : Int :=
  if g.isArcDirect arc then s.residualArcCapacity arc + s.residualArcCapacity arc.opposite
  else 0

/-- `PushFlow(flow, tail, arc)` (and `FastPushFlow`, which only caches the
excess array): consume `flow` on the arc and `-flow` on its opposite, then move
`flow` of excess from `tail` to `Head(arc)`. -/
def pushFlow (flow : Int) (tail : Nat) (arc : ArcIndex) (s : State) : State :=
  let res := update s.residualArcCapacity arc (s.residualArcCapacity arc - flow)
  let res := update res arc.opposite (res arc.opposite + flow)
  let excess := update s.nodeExcess tail (s.nodeExcess tail - flow)
  let excess := update excess (g.head arc) (excess (g.head arc) + flow)
  { s with residualArcCapacity := res, nodeExcess := excess }

/-- `SetCapacityAndClearFlow(arc, capacity)`. -/
def setCapacityAndClearFlow (arc : ArcIndex) (cap : Int) (s : State) : State :=
  let res := update s.residualArcCapacity arc cap
  { s with residualArcCapacity := update res arc.opposite 0 }

/-- `SetArcCapacity(arc, new_capacity)`. -/
def setArcCapacity (arc : ArcIndex) (newCapacity : Int) (s : State) : State :=
  let freeCapacity := s.residualArcCapacity arc
  let capacityDelta := newCapacity - s.capacity g arc
  if capacityDelta = 0 then s
  else
    let s := { s with status := .notSolved }
    if 0 ≤ freeCapacity + capacityDelta then
      { s with residualArcCapacity := update s.residualArcCapacity arc (freeCapacity + capacityDelta) }
    else s.setCapacityAndClearFlow arc newCapacity

/-- `InitializePreflow()`: clear the excesses, put the whole capacity of each
direct arc back on the arc, reset the heights (the source at `num_nodes`) and
the admissible-arc hints. -/
def initializePreflow (source : Nat) (s : State) : State :=
  let s := { s with nodeExcess := fun _ => 0 }
  let s := (List.range g.numArcs).foldl
    (fun s i => s.setCapacityAndClearFlow (.direct i) (s.capacity g (.direct i))) s
  { s with
    nodePotential := update (fun _ => 0) source g.numNodes
    firstAdmissibleArc := fun _ => none }

/-- `IsAdmissible(tail, arc, potentials)`. -/
def IsAdmissible (tail : Nat) (arc : ArcIndex) (s : State) : Prop :=
  0 < s.residualArcCapacity arc ∧ s.nodePotential tail = s.nodePotential (g.head arc) + 1

instance (tail : Nat) (arc : ArcIndex) (s : State) : Decidable (s.IsAdmissible g tail arc) :=
  inferInstanceAs (Decidable (_ ∧ _))

/-- `IsActive(node)`. -/
def IsActive (source sink : Nat) (node : Nat) (s : State) : Prop :=
  node ≠ source ∧ node ≠ sink ∧ 0 < s.nodeExcess node

instance (source sink node : Nat) (s : State) : Decidable (s.IsActive source sink node) :=
  inferInstanceAs (Decidable (_ ∧ _ ∧ _))

/-- `PushActiveNode(node)`: queue the node at its current height. -/
def pushActiveNode (node : Nat) (s : State) : State :=
  { s with activeNodeByHeight := s.activeNodeByHeight.push node (s.nodePotential node) }

/-! ## Frame and update lemmas -/

section Lemmas

variable {g}

@[simp] theorem pushFlow_nodePotential (f : Int) (t : Nat) (a : ArcIndex) (s : State) :
    (s.pushFlow g f t a).nodePotential = s.nodePotential := rfl

@[simp] theorem pushFlow_firstAdmissibleArc (f : Int) (t : Nat) (a : ArcIndex) (s : State) :
    (s.pushFlow g f t a).firstAdmissibleArc = s.firstAdmissibleArc := rfl

@[simp] theorem pushFlow_activeNodeByHeight (f : Int) (t : Nat) (a : ArcIndex) (s : State) :
    (s.pushFlow g f t a).activeNodeByHeight = s.activeNodeByHeight := rfl

@[simp] theorem pushFlow_status (f : Int) (t : Nat) (a : ArcIndex) (s : State) :
    (s.pushFlow g f t a).status = s.status := rfl

theorem pushFlow_residual (f : Int) (t : Nat) (a b : ArcIndex) (s : State) :
    (s.pushFlow g f t a).residualArcCapacity b =
      if b = a then s.residualArcCapacity a - f
      else if b = a.opposite then s.residualArcCapacity a.opposite + f
      else s.residualArcCapacity b := by
  simp only [pushFlow]
  by_cases h1 : b = a
  · subst h1; simp
  · by_cases h2 : b = a.opposite
    · subst h2; simp
    · simp [update_noteq h1, update_noteq h2, h1, h2]

@[simp] theorem pushFlow_residual_self (f : Int) (t : Nat) (a : ArcIndex) (s : State) :
    (s.pushFlow g f t a).residualArcCapacity a = s.residualArcCapacity a - f := by
  simp [pushFlow_residual]

@[simp] theorem pushFlow_residual_opposite (f : Int) (t : Nat) (a : ArcIndex) (s : State) :
    (s.pushFlow g f t a).residualArcCapacity a.opposite = s.residualArcCapacity a.opposite + f := by
  simp [pushFlow_residual]

theorem pushFlow_residual_of_index_ne (f : Int) (t : Nat) {a b : ArcIndex} (s : State)
    (h : b.index ≠ a.index) :
    (s.pushFlow g f t a).residualArcCapacity b = s.residualArcCapacity b := by
  rw [pushFlow_residual, if_neg (by rintro rfl; exact h rfl),
    if_neg (by rintro rfl; exact h (by simp))]

theorem pushFlow_excess (f : Int) (t : Nat) (a : ArcIndex) (s : State) (v : Nat) :
    (s.pushFlow g f t a).nodeExcess v =
      s.nodeExcess v - (if v = t then f else 0) + (if v = g.head a then f else 0) := by
  simp only [pushFlow]
  by_cases h1 : v = g.head a <;> by_cases h2 : v = t
  · subst h1; subst h2; simp
  · subst h1; simp [update_noteq h2, h2]
  · subst h2; simp [update_noteq h1, h1]
  · simp [update_noteq h1, update_noteq h2, h1, h2]

/-- A push changes the pair sum of no arc. -/
theorem pushFlow_pairSum (f : Int) (t : Nat) (a b : ArcIndex) (s : State) :
    (s.pushFlow g f t a).residualArcCapacity b + (s.pushFlow g f t a).residualArcCapacity b.opposite =
      s.residualArcCapacity b + s.residualArcCapacity b.opposite := by
  by_cases h1 : b = a
  · subst h1; rw [pushFlow_residual_self, pushFlow_residual_opposite]; omega
  · by_cases h2 : b = a.opposite
    · subst h2
      rw [ArcIndex.opposite_opposite, pushFlow_residual_self, pushFlow_residual_opposite]; omega
    · have h3 : b.opposite ≠ a := fun h => h2 (by rw [← h, ArcIndex.opposite_opposite])
      have h4 : b.opposite ≠ a.opposite := fun h => h1 (ArcIndex.opposite_injective h)
      rw [pushFlow_residual, pushFlow_residual, if_neg h1, if_neg h2, if_neg h3, if_neg h4]

@[simp] theorem pushActiveNode_residual (v : Nat) (s : State) :
    (s.pushActiveNode v).residualArcCapacity = s.residualArcCapacity := rfl

@[simp] theorem pushActiveNode_nodeExcess (v : Nat) (s : State) :
    (s.pushActiveNode v).nodeExcess = s.nodeExcess := rfl

@[simp] theorem pushActiveNode_nodePotential (v : Nat) (s : State) :
    (s.pushActiveNode v).nodePotential = s.nodePotential := rfl

@[simp] theorem pushActiveNode_firstAdmissibleArc (v : Nat) (s : State) :
    (s.pushActiveNode v).firstAdmissibleArc = s.firstAdmissibleArc := rfl

end Lemmas

end State

end OrTools.MaxFlow

namespace OrTools.MaxFlow.State

variable {g : Graph}

/-- Pushing a nonnegative amount lowers no residual capacity but that of the
arc pushed on. -/
theorem pushFlow_residual_ge {f : Int} (hf : 0 ≤ f) (t : Nat) {a b : ArcIndex} (s : State)
    (hb : b ≠ a) : s.residualArcCapacity b ≤ (s.pushFlow g f t a).residualArcCapacity b := by
  rw [pushFlow_residual, if_neg hb]
  split
  · subst b; omega
  · exact le_refl _

/-- Pushing a nonnegative amount raises no residual capacity but that of the
opposite arc. -/
theorem pushFlow_residual_le {f : Int} (hf : 0 ≤ f) (t : Nat) {a b : ArcIndex} (s : State)
    (hb : b ≠ a.opposite) : (s.pushFlow g f t a).residualArcCapacity b ≤ s.residualArcCapacity b := by
  rw [pushFlow_residual]
  split
  · subst b; omega
  · exact le_refl _

/-! ## `SetArcCapacity()` and `InitializePreflow()` -/

theorem capacity_direct {s : State} {i : Nat} (hi : i < g.numArcs) :
    s.capacity g (.direct i) =
      s.residualArcCapacity (.direct i) + s.residualArcCapacity (.reverse i) := by
  simp [capacity, Graph.isArcDirect, Graph.IsArcValid, ArcIndex.isDirect, ArcIndex.index, hi,
    ArcIndex.opposite]

theorem setCapacityAndClearFlow_residual (arc : ArcIndex) (cap : Int) (s : State) (b : ArcIndex) :
    (s.setCapacityAndClearFlow arc cap).residualArcCapacity b =
      if b = arc.opposite then 0 else if b = arc then cap else s.residualArcCapacity b := by
  simp only [setCapacityAndClearFlow]
  split_ifs with h1 h2
  · rw [h1, Function.update_same]
  · rw [Function.update_noteq h1, h2, Function.update_same]
  · rw [Function.update_noteq h1, Function.update_noteq h2]

theorem setArcCapacity_residual_of_index_ne {i : Nat} (c : Int) (s : State) {b : ArcIndex}
    (hb : b.index ≠ i) : (s.setArcCapacity g (.direct i) c).residualArcCapacity b =
      s.residualArcCapacity b := by
  have h1 : b ≠ .direct i := by rintro rfl; exact hb rfl
  have h2 : b ≠ (ArcIndex.direct i).opposite := by rintro rfl; exact hb rfl
  simp only [setArcCapacity]
  split_ifs
  · rfl
  · exact Function.update_noteq h1 _ _
  · rw [setCapacityAndClearFlow_residual, if_neg h2, if_neg h1]

@[simp] theorem setArcCapacity_activeNodeByHeight (arc : ArcIndex) (c : Int) (s : State) :
    (s.setArcCapacity g arc c).activeNodeByHeight = s.activeNodeByHeight := by
  simp only [setArcCapacity]
  split_ifs <;> rfl

/-- `SetArcCapacity(arc, new_capacity)` on a valid direct arc sets its capacity
and leaves the capacity of every other arc alone. -/
theorem setArcCapacity_capacity {i : Nat} (hi : i < g.numArcs) (c : Int) (s : State)
    (j : Nat) : (s.setArcCapacity g (.direct i) c).capacity g (.direct j) =
      if j = i then c else s.capacity g (.direct j) := by
  split_ifs with hj
  · subst hj
    have hrd : ArcIndex.reverse j ≠ .direct j := ArcIndex.noConfusion
    rw [capacity_direct hi]
    simp only [setArcCapacity, capacity_direct hi]
    split_ifs with h0 h1
    · omega
    · simp only [Function.update_same, Function.update_noteq hrd]; omega
    · rw [setCapacityAndClearFlow_residual, setCapacityAndClearFlow_residual]
      simp [ArcIndex.opposite]
  · simp only [capacity, ArcIndex.opposite]
    rw [setArcCapacity_residual_of_index_ne (b := .direct j) c s hj,
      setArcCapacity_residual_of_index_ne (b := .reverse j) c s hj]

theorem setCapacityAndClearFlow_capacity_of_ne {i j : Nat} (h : j ≠ i) (c : Int) (s : State) :
    (s.setCapacityAndClearFlow (.direct i) c).capacity g (.direct j) = s.capacity g (.direct j) := by
  simp [capacity, setCapacityAndClearFlow_residual, ArcIndex.opposite, h]

/-- The loop of `InitializePreflow()` over the direct arcs `is`: each gets its
whole capacity back as residual capacity, its opposite none. -/
theorem foldl_setCapacityAndClearFlow (s : State) : ∀ is : List Nat, is.Nodup →
    is.foldl (fun s i => s.setCapacityAndClearFlow (.direct i) (s.capacity g (.direct i))) s =
      { s with residualArcCapacity := fun a =>
          if a.index ∈ is then (if a.isDirect then s.capacity g (.direct a.index) else 0)
          else s.residualArcCapacity a }
  | [], _ => by simp
  | i :: is, hnd => by
    have hi : i ∉ is := (List.nodup_cons.mp hnd).1
    rw [List.foldl_cons, foldl_setCapacityAndClearFlow _ is (List.nodup_cons.mp hnd).2]
    congr 1
    funext a
    cases a with
    | direct k =>
      by_cases hk : k = i
      · subst hk; simp [hi, setCapacityAndClearFlow_residual, ArcIndex.opposite, ArcIndex.index, ArcIndex.isDirect]
      · simp [hk, setCapacityAndClearFlow_capacity_of_ne, setCapacityAndClearFlow_residual,
          ArcIndex.opposite, ArcIndex.index, ArcIndex.isDirect]
    | reverse k =>
      by_cases hk : k = i
      · subst hk; simp [hi, setCapacityAndClearFlow_residual, ArcIndex.opposite, ArcIndex.index, ArcIndex.isDirect]
      · simp [hk, setCapacityAndClearFlow_residual, ArcIndex.opposite, ArcIndex.index, ArcIndex.isDirect]

/-- `InitializePreflow()` gives every valid direct arc its whole capacity as
residual capacity and its opposite none, clears the excesses and resets the
heights and the hints; the residual capacities of invalid arcs, the queue and
the status stay. -/
theorem initializePreflow_eq (source : Nat) (s : State) :
    s.initializePreflow g source =
      { s with
        residualArcCapacity := fun a =>
          if g.IsArcValid a then (if a.isDirect then s.capacity g a else 0)
          else s.residualArcCapacity a
        nodeExcess := fun _ => 0
        nodePotential := Function.update (fun _ => 0) source g.numNodes
        firstAdmissibleArc := fun _ => none } := by
  rw [initializePreflow, foldl_setCapacityAndClearFlow _ _ (List.nodup_range _)]
  congr 1
  funext a
  cases a <;> simp [Graph.IsArcValid, ArcIndex.index, ArcIndex.isDirect, capacity]

theorem initializePreflow_capacity (source : Nat) (s : State) {i : Nat} (hi : i < g.numArcs) :
    (s.initializePreflow g source).capacity g (.direct i) = s.capacity g (.direct i) := by
  rw [capacity_direct hi, initializePreflow_eq]
  simp [Graph.IsArcValid, ArcIndex.index, ArcIndex.isDirect, hi]

end OrTools.MaxFlow.State

import OrTools.Graph.MaxFlow.Basic
import Mathlib.Algebra.BigOperators.Group.Finset
import Mathlib.Algebra.Order.BigOperators.Group.Finset
import Mathlib.Algebra.Order.Group.Int

/-!
# Flow bookkeeping

The solver never stores a flow: `Flow(arc)` is read off the residual capacities,
and `node_excess_` is kept in step with it by `PushFlow`.  This module states
the two facts every phase relies on: a push changes no `Capacity(arc)`, and a
push along a valid arc from its tail keeps every excess equal to the net inflow
of `Flow` at the node (the conservation law `CheckResult()` asserts).

Every phase of the solver changes the flow only by such pushes; `Moves` is the
relation they generate, together with the changes that leave residual
capacities and excesses alone (heights, hints, the queue, the status).
-/

set_option autoImplicit false

namespace OrTools.MaxFlow

open Function Finset

namespace State

variable (g : Graph)

/-- What the direct arc `i` brings to the net inflow at `v`. -/
def netInflowTerm (s : State) (v i : Nat) : Int :=
  (if g.headOf i = v then s.flow g (.direct i) else 0) -
    (if g.tailOf i = v then s.flow g (.direct i) else 0)

/-- The net inflow of `Flow` at `v`: flow on the direct arcs into `v` minus
flow on the direct arcs out of `v`. -/
def netInflow (s : State) (v : Nat) : Int :=
  ∑ i ∈ range g.numArcs, s.netInflowTerm g v i

/-- Every `node_excess_` equals the net inflow of `Flow` at its node. -/
def Conserves (s : State) : Prop := ∀ v, s.nodeExcess v = s.netInflow g v

variable {g}

theorem flow_direct {s : State} {i : Nat} (hi : i < g.numArcs) :
    s.flow g (.direct i) = s.residualArcCapacity (.reverse i) := by
  simp [flow, Graph.isArcDirect, Graph.IsArcValid, ArcIndex.isDirect, ArcIndex.index, hi,
    ArcIndex.opposite]

/-- The net inflow only reads the flow on the direct arcs. -/
theorem netInflow_congr {s s' : State}
    (h : ∀ i < g.numArcs, s'.residualArcCapacity (.reverse i) = s.residualArcCapacity (.reverse i))
    (v : Nat) : s'.netInflow g v = s.netInflow g v := by
  refine sum_congr rfl fun i hi => ?_
  have hi := mem_range.mp hi
  rw [netInflowTerm, netInflowTerm, flow_direct hi, flow_direct hi, h i hi]

/-- Conservation only reads the residual capacities and the excesses. -/
theorem Conserves.of_eq {s s' : State} (h : s.Conserves g)
    (hres : s'.residualArcCapacity = s.residualArcCapacity) (hex : s'.nodeExcess = s.nodeExcess) :
    s'.Conserves g := fun v => by
  rw [hex, h v, netInflow_congr (fun i _ => by rw [hres])]

/-- A push changes no capacity. -/
@[simp] theorem capacity_pushFlow (f : Int) (t : Nat) (a b : ArcIndex) (s : State) :
    (s.pushFlow g f t a).capacity g b = s.capacity g b := by
  simp only [capacity]
  split
  · exact pushFlow_pairSum f t a b s
  · rfl

/-- A sum over `range m` in which one summand changes by `D`. -/
theorem sum_range_update_one {m i : Nat} (hi : i < m) (F F' : Nat → Int) (D : Int)
    (hne : ∀ j < m, j ≠ i → F' j = F j) (heq : F' i = F i + D) :
    ∑ j ∈ range m, F' j = ∑ j ∈ range m, F j + D := by
  have hmem : i ∈ range m := mem_range.mpr hi
  have hrest : ∑ j ∈ (range m).erase i, F' j = ∑ j ∈ (range m).erase i, F j :=
    sum_congr rfl fun j hj => hne j (mem_range.mp (mem_of_mem_erase hj)) (ne_of_mem_erase hj)
  rw [← add_sum_erase _ _ hmem, ← add_sum_erase _ _ hmem, heq, hrest]
  omega

/-- Pushing `f` on a valid arc changes the net inflow by `f` at its head and
by `-f` at its tail. -/
theorem netInflow_pushFlow (f : Int) (t : Nat) {a : ArcIndex} (ha : g.IsArcValid a)
    (s : State) (v : Nat) :
    (s.pushFlow g f t a).netInflow g v =
      s.netInflow g v - (if v = g.tail a then f else 0) + (if v = g.head a then f else 0) := by
  have hi : a.index < g.numArcs := ha
  have hne : ∀ j < g.numArcs, j ≠ a.index →
      (s.pushFlow g f t a).residualArcCapacity (.reverse j) = s.residualArcCapacity (.reverse j) :=
    fun j _ hj => pushFlow_residual_of_index_ne f t s (by simpa [ArcIndex.index] using hj)
  unfold netInflow
  rw [sum_range_update_one hi (s.netInflowTerm g v) ((s.pushFlow g f t a).netInflowTerm g v)
    (-(if v = g.tail a then f else 0) + (if v = g.head a then f else 0))
    (fun j hj hji => by rw [netInflowTerm, netInflowTerm, flow_direct hj, flow_direct hj,
      hne j hj hji])]
  · omega
  · rw [netInflowTerm, netInflowTerm, flow_direct hi, flow_direct hi]
    cases a with
    | direct k =>
      have : (ArcIndex.reverse k) = (ArcIndex.direct k).opposite := rfl
      simp only [ArcIndex.index]
      rw [this, pushFlow_residual_opposite]
      simp only [Graph.tail, Graph.head, ArcIndex.tailIn, ArcIndex.headIn]
      split_ifs <;> omega
    | reverse k =>
      simp only [ArcIndex.index]
      rw [pushFlow_residual_self]
      simp only [Graph.tail, Graph.head, ArcIndex.tailIn, ArcIndex.headIn]
      split_ifs <;> omega

/-- A push along a valid arc from its tail keeps the excesses conserved. -/
theorem Conserves.pushFlow {s : State} (h : s.Conserves g) (f : Int) {a : ArcIndex}
    (ha : g.IsArcValid a) : (s.pushFlow g f (g.tail a) a).Conserves g := by
  intro v
  rw [netInflow_pushFlow f _ ha, pushFlow_excess, h v]

/-- A push between two nodes changes no total of the excesses over all nodes. -/
theorem sum_excess_pushFlow (f : Int) {t : Nat} {a : ArcIndex} (ht : t < g.numNodes)
    (hh : g.head a < g.numNodes) (s : State) :
    ∑ v ∈ range g.numNodes, (s.pushFlow g f t a).nodeExcess v =
      ∑ v ∈ range g.numNodes, s.nodeExcess v := by
  simp [pushFlow_excess, sum_add_distrib, sum_sub_distrib, ht, hh]

/-! ## Net inflows over sets of nodes -/

/-- The net inflows over all the nodes add up to nothing: every arc leaves one
node of the graph and enters one. -/
theorem sum_netInflow (s : State) : ∑ v ∈ range g.numNodes, s.netInflow g v = 0 := by
  unfold netInflow
  rw [sum_comm]
  refine sum_eq_zero fun i hi => ?_
  have hi := mem_range.mp hi
  simp only [netInflowTerm, sum_sub_distrib, sum_ite_eq, mem_range, g.headOf_lt i hi,
    g.tailOf_lt i hi, if_true, sub_self]

/-- No arc meets a node outside the graph. -/
theorem netInflow_of_ge (s : State) {v : Nat} (hv : g.numNodes ≤ v) : s.netInflow g v = 0 := by
  refine sum_eq_zero fun i hi => ?_
  have hi := mem_range.mp hi
  have h1 : g.headOf i ≠ v := by have := g.headOf_lt i hi; omega
  have h2 : g.tailOf i ≠ v := by have := g.tailOf_lt i hi; omega
  simp [netInflowTerm, h1, h2]

/-- With no flow on the arcs into `v`, the net inflow at `v` is not positive. -/
theorem netInflow_nonpos (s : State) {v : Nat} (hf : ∀ i < g.numArcs, 0 ≤ s.flow g (.direct i))
    (hin : ∀ i < g.numArcs, g.headOf i = v → s.flow g (.direct i) ≤ 0) : s.netInflow g v ≤ 0 := by
  unfold netInflow
  refine sum_nonpos fun i hi => ?_
  have hi := mem_range.mp hi
  have := hf i hi
  unfold netInflowTerm
  split_ifs with h1 <;> (try have := hin i hi h1) <;> omega

/-- A set of nodes with non-negative excesses into which no arc carries flow:
none of its nodes has an excess, and no arc carries flow out of it. -/
theorem Conserves.closed {s : State} (h : s.Conserves g) (U : Nat → Prop) [DecidablePred U]
    (hf : ∀ i < g.numArcs, 0 ≤ s.flow g (.direct i))
    (hin : ∀ i < g.numArcs, U (g.headOf i) → ¬ U (g.tailOf i) → s.flow g (.direct i) ≤ 0)
    (hex : ∀ v < g.numNodes, U v → 0 ≤ s.nodeExcess v) :
    (∀ v < g.numNodes, U v → s.nodeExcess v = 0) ∧
      (∀ i < g.numArcs, U (g.tailOf i) → ¬ U (g.headOf i) → s.flow g (.direct i) = 0) := by
  set W := (range g.numNodes).filter U
  set term := fun i => (if U (g.headOf i) then s.flow g (.direct i) else 0) -
    (if U (g.tailOf i) then s.flow g (.direct i) else 0)
  -- the excess of the set is what its arcs bring in minus what they take out
  have hsum : ∑ v ∈ W, s.nodeExcess v = ∑ i ∈ range g.numArcs, term i := by
    rw [sum_congr rfl fun v _ => h v]
    unfold netInflow
    rw [sum_comm]
    refine sum_congr rfl fun i hi => ?_
    have hi := mem_range.mp hi
    simp only [netInflowTerm, sum_sub_distrib, sum_ite_eq, W, term, mem_filter, mem_range,
      g.headOf_lt i hi, g.tailOf_lt i hi, true_and]
  have hterm : ∀ i ∈ range g.numArcs, term i ≤ 0 := fun i hi => by
    have hi := mem_range.mp hi
    have := hf i hi
    simp only [term]
    split_ifs with h1 h2 <;> (try have := hin i hi h1 h2) <;> omega
  have hexW : ∀ v ∈ W, 0 ≤ s.nodeExcess v := fun v hv =>
    hex v (mem_range.mp (mem_filter.mp hv).1) (mem_filter.mp hv).2
  have hle : ∑ v ∈ W, s.nodeExcess v ≤ 0 := hsum.trans_le (sum_nonpos hterm)
  have hge : 0 ≤ ∑ v ∈ W, s.nodeExcess v := sum_nonneg hexW
  have h0 : ∑ v ∈ W, s.nodeExcess v = 0 := le_antisymm hle hge
  refine ⟨fun v hv hU => (sum_eq_zero_iff_of_nonneg hexW).mp h0 v
    (mem_filter.mpr ⟨mem_range.mpr hv, hU⟩), fun i hi ht hh => ?_⟩
  have := (sum_eq_zero_iff_of_nonpos hterm).mp (hsum.symm.trans h0) i (mem_range.mpr hi)
  simp only [term, ht, hh, if_true, if_false] at this
  omega

end State

/-! ## Moves of flow -/

/-- `s'` is reached from `s` by pushes along valid arcs, each from the arc's
tail, and by changes that keep every residual capacity and every excess. -/
inductive Moves (g : Graph) : State → State → Prop
  | refl (s : State) : Moves g s s
  | push {s s' : State} (f : Int) {a : ArcIndex} (ha : g.IsArcValid a) :
      Moves g (s.pushFlow g f (g.tail a) a) s' → Moves g s s'
  | other {s t s' : State} (hres : t.residualArcCapacity = s.residualArcCapacity)
      (hex : t.nodeExcess = s.nodeExcess) : Moves g t s' → Moves g s s'

namespace Moves

variable {g : Graph} {s t u : State}

theorem trans (h₁ : Moves g s t) (h₂ : Moves g t u) : Moves g s u := by
  induction h₁ with
  | refl => exact h₂
  | push f ha _ ih => exact .push f ha (ih h₂)
  | other hres hex _ ih => exact .other hres hex (ih h₂)

theorem pushFlow (f : Int) {a : ArcIndex} (ha : g.IsArcValid a) :
    Moves g s (s.pushFlow g f (g.tail a) a) :=
  .push f ha (.refl _)

theorem of_eq (hres : t.residualArcCapacity = s.residualArcCapacity)
    (hex : t.nodeExcess = s.nodeExcess) : Moves g s t :=
  .other hres hex (.refl _)

/-- Moves change no pair sum, hence no capacity. -/
theorem pairSum (h : Moves g s t) (b : ArcIndex) :
    t.residualArcCapacity b + t.residualArcCapacity b.opposite =
      s.residualArcCapacity b + s.residualArcCapacity b.opposite := by
  induction h with
  | refl => rfl
  | push f _ _ ih => exact ih.trans (State.pushFlow_pairSum f _ _ b _)
  | other hres _ _ ih => rw [ih, hres]

theorem capacity (h : Moves g s t) (b : ArcIndex) : t.capacity g b = s.capacity g b := by
  simp only [State.capacity]
  split
  · exact h.pairSum b
  · rfl

/-- Moves leave the residual capacity of an invalid arc alone. -/
theorem residual_of_not_valid (h : Moves g s t) {b : ArcIndex} (hb : ¬ g.IsArcValid b) :
    t.residualArcCapacity b = s.residualArcCapacity b := by
  induction h with
  | refl => rfl
  | push f ha _ ih =>
    exact ih.trans (State.pushFlow_residual_of_index_ne f _ _ fun e =>
      hb (show b.index < g.numArcs from e ▸ ha))
  | other hres _ _ ih => rw [ih, hres]

theorem conserves (h : Moves g s t) (hs : s.Conserves g) : t.Conserves g := by
  induction h with
  | refl => exact hs
  | push f ha _ ih => exact ih (hs.pushFlow f ha)
  | other hres hex _ ih => exact ih (hs.of_eq hres hex)

/-- Moves keep the total excess over the nodes of the graph. -/
theorem totalExcess (h : Moves g s t) :
    ∑ v ∈ range g.numNodes, t.nodeExcess v = ∑ v ∈ range g.numNodes, s.nodeExcess v := by
  induction h with
  | refl => rfl
  | push f ha _ ih =>
    exact ih.trans (State.sum_excess_pushFlow f (g.tail_lt ha) (g.head_lt ha) _)
  | other _ hex _ ih => rw [ih, hex]

end Moves

/-- `s'` is reached from `s` by pushes along valid arcs from their tails alone. -/
inductive Pushes (g : Graph) : State → State → Prop
  | refl (s : State) : Pushes g s s
  | push {s s' : State} (f : Int) {a : ArcIndex} (ha : g.IsArcValid a) :
      Pushes g (s.pushFlow g f (g.tail a) a) s' → Pushes g s s'

namespace Pushes

variable {g : Graph} {s t u : State}

theorem trans (h₁ : Pushes g s t) (h₂ : Pushes g t u) : Pushes g s u := by
  induction h₁ with
  | refl => exact h₂
  | push f ha _ ih => exact .push f ha (ih h₂)

theorem pushFlow (f : Int) {a : ArcIndex} (ha : g.IsArcValid a) :
    Pushes g s (s.pushFlow g f (g.tail a) a) :=
  .push f ha (.refl _)

theorem moves (h : Pushes g s t) : Moves g s t := by
  induction h with
  | refl => exact .refl _
  | push f ha _ ih => exact .push f ha ih

/-- Pushes change nothing but residual capacities and excesses. -/
theorem frame (h : Pushes g s t) :
    { s with residualArcCapacity := t.residualArcCapacity, nodeExcess := t.nodeExcess } = t := by
  induction h with
  | refl => rfl
  | push _ _ _ ih => exact ih

end Pushes

end OrTools.MaxFlow

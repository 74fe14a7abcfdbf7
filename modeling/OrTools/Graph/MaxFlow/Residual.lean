import OrTools.Graph.MaxFlow.Conservation

/-!
# The residual graph

An arc is in the residual graph when its residual capacity is positive.  Walks
in it are the paths of `AugmentingPathExists()`, of the reverse search of
`GlobalUpdate()` and of the cut extractors.  A walk carries a predicate every
node on it satisfies: `GlobalUpdate()` only sees walks that avoid the source.

The one fact about heights that every phase uses: along a walk, a labelling
with `height[Tail(a)] ≤ height[Head(a)] + 1` on residual arcs lets the height
drop by at most one per arc.
-/

set_option autoImplicit false

namespace OrTools.MaxFlow

variable (g : Graph)

/-- A walk of `k` residual arcs from `u` to `v` whose nodes all satisfy `ok`. -/
inductive Walk (s : State) (ok : Nat → Prop) : Nat → Nat → Nat → Prop
  | nil {v : Nat} : ok v → Walk s ok v v 0
  | cons {a : ArcIndex} {v k : Nat} : g.IsArcValid a → 0 < s.residualArcCapacity a →
      ok (g.tail a) → Walk s ok (g.head a) v k → Walk s ok (g.tail a) v (k + 1)

/-- `v` is reachable from `u` by a residual walk through nodes satisfying `ok`. -/
def Reaches (s : State) (ok : Nat → Prop) (u v : Nat) : Prop := ∃ k, Walk g s ok u v k

/-- The labelling condition on the residual arcs between nodes satisfying `ok`. -/
def LabelingOn (s : State) (ok : Nat → Prop) : Prop :=
  ∀ a, g.IsArcValid a → 0 < s.residualArcCapacity a → ok (g.tail a) → ok (g.head a) →
    s.nodePotential (g.tail a) ≤ s.nodePotential (g.head a) + 1

/-- The invariant of the first phase: a preflow whose excesses are the net
inflows of `Flow`, with the source at height `num_nodes`, the sink at height 0
and a valid labelling on the residual arcs that avoid the source. -/
structure Labeled (source sink : Nat) (s : State) : Prop where
  residual_nonneg : ∀ a, g.IsArcValid a → 0 ≤ s.residualArcCapacity a
  excess_nonneg : ∀ v, v ≠ source → 0 ≤ s.nodeExcess v
  conserves : s.Conserves g
  source_height : s.nodePotential source = g.numNodes
  sink_height : s.nodePotential sink = 0
  labeling : LabelingOn g s (· ≠ source)

variable {g}

namespace Walk

variable {s : State} {ok : Nat → Prop}

theorem ok_start {u v k : Nat} (w : Walk g s ok u v k) : ok u := by
  cases w <;> assumption

theorem ok_end {u v k : Nat} (w : Walk g s ok u v k) : ok v := by
  induction w with
  | nil h => exact h
  | cons _ _ _ _ ih => exact ih

theorem of_eq_start {u u' v k : Nat} (h : u' = u) (p : Walk g s ok u v k) :
    Walk g s ok u' v k := by
  subst h; exact p

theorem append {u v w : Nat} {k l : Nat} (p : Walk g s ok u v k) (q : Walk g s ok v w l) :
    Walk g s ok u w (k + l) := by
  induction p with
  | nil _ => simpa using q
  | cons ha hr ht _ ih => simpa [Nat.add_right_comm] using Walk.cons ha hr ht (ih q)

/-- A walk survives any change that keeps positive the arcs it may use. -/
theorem mono {s' : State} {ok' : Nat → Prop} (hok : ∀ v, ok v → ok' v)
    (hres : ∀ a, g.IsArcValid a → ok (g.tail a) → 0 < s.residualArcCapacity a →
      0 < s'.residualArcCapacity a)
    {u v k : Nat} (p : Walk g s ok u v k) : Walk g s' ok' u v k := by
  induction p with
  | nil h => exact .nil (hok _ h)
  | cons ha hr ht _ ih => exact .cons ha (hres _ ha ht hr) (hok _ ht) ih

/-- Walks depend on the residual capacities only. -/
theorem congr_residual {s' : State} (h : s'.residualArcCapacity = s.residualArcCapacity)
    {u v k : Nat} : Walk g s' ok u v k ↔ Walk g s ok u v k :=
  ⟨mono (fun _ h => h) fun _ _ _ hr => h ▸ hr, mono (fun _ h => h) fun _ _ _ hr => h ▸ hr⟩

/-- A set containing the end of a walk and closed under residual predecessors
contains every node of the walk. -/
theorem restrict {R : Nat → Prop}
    (hclosed : ∀ a, g.IsArcValid a → 0 < s.residualArcCapacity a → ok (g.tail a) →
      R (g.head a) → R (g.tail a))
    {u v k : Nat} (p : Walk g s ok u v k) (hv : R v) : Walk g s (fun x => ok x ∧ R x) u v k := by
  induction p with
  | nil h => exact .nil ⟨h, hv⟩
  | cons ha hr ht _ ih =>
    have ih := ih hv
    exact .cons ha hr ⟨ht, hclosed _ ha hr ht ih.ok_start.2⟩ ih

/-- Under a labelling on the walk's nodes, heights drop by at most one per arc. -/
theorem height_le (hlab : LabelingOn g s ok) {u v k : Nat} (p : Walk g s ok u v k) :
    s.nodePotential u ≤ s.nodePotential v + k := by
  induction p with
  | nil _ => exact Nat.le_add_right _ _
  | cons ha hr ht p ih =>
    have := hlab _ ha hr ht p.ok_start
    omega

end Walk

end OrTools.MaxFlow

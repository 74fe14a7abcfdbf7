import OrTools.Graph.MaxFlow.Residual
import Mathlib.Data.Finset.Card

/-!
# Residual walks: splitting, shortening, crossing

Facts about walks in the residual graph that the optimality argument needs.
A walk through `k ≥ num_nodes` arcs passes some node twice, so a shorter one
exists: under a labelling, a node that reaches the sink is below `num_nodes`.
A walk from outside a set of nodes into it crosses an arc into the set.  A walk
that starts at a node leaves it for the last time along one residual arc.

The augmenting paths of the optimality argument are lists of arcs
(`ResidualPath`): any such path can be cut down to one that uses each arc once.
-/

set_option autoImplicit false

namespace OrTools.MaxFlow

open Finset

variable {g : Graph} {s : State} {ok : Nat → Prop}

namespace Walk

/-- A walk from a node of the graph stays in the graph. -/
theorem end_lt {u v k : Nat} (p : Walk g s ok u v k) (hu : u < g.numNodes) : v < g.numNodes := by
  induction p with
  | nil _ => exact hu
  | cons ha _ _ _ ih => exact ih (g.head_lt ha)

/-- A walk into a node of the graph starts in the graph. -/
theorem start_lt {u v k : Nat} (p : Walk g s ok u v k) (hv : v < g.numNodes) : u < g.numNodes := by
  cases p with
  | nil _ => exact hv
  | cons ha _ _ _ => exact g.tail_lt ha

/-- After `i ≤ k` of its arcs a walk is at a node from which the rest of it goes
on. -/
theorem split {u v k : Nat} (p : Walk g s ok u v k) :
    ∀ i ≤ k, ∃ x, Walk g s ok u x i ∧ Walk g s ok x v (k - i) := by
  induction p with
  | nil h => intro i hi; exact ⟨_, by rw [Nat.le_zero.mp hi]; exact .nil h, by simpa using .nil h⟩
  | cons ha hr ht p ih =>
    intro i hi
    cases i with
    | zero => exact ⟨_, .nil ht, .cons ha hr ht p⟩
    | succ i =>
      obtain ⟨x, hx, hxv⟩ := ih i (by omega)
      exact ⟨x, .cons ha hr ht hx, by simpa using hxv⟩

/-- A walk from a node of the graph can be shortened below `num_nodes` arcs: a
longer one passes some node twice. -/
theorem exists_lt_numNodes {u v k : Nat} (p : Walk g s ok u v k) (hu : u < g.numNodes) :
    ∃ k' < g.numNodes, Walk g s ok u v k' := by
  induction k using Nat.strong_induction_on with
  | _ k ih =>
    by_cases hk : k < g.numNodes
    · exact ⟨k, hk, p⟩
    have hx : ∀ i ∈ range (k + 1), ∃ x, (Walk g s ok u x i ∧ Walk g s ok x v (k - i)) ∧
        x < g.numNodes := fun i hi => by
      obtain ⟨x, hux, hxv⟩ := p.split i (by simpa [Nat.lt_succ_iff] using hi)
      exact ⟨x, ⟨hux, hxv⟩, hux.end_lt hu⟩
    choose! f hf hlt using hx
    obtain ⟨i, hi, j, hj, hij, hfij⟩ := exists_ne_map_eq_of_card_lt_of_maps_to
      (t := range g.numNodes) (by simp; omega) fun i hi => mem_range.mpr (hlt i hi)
    -- cut out the loop between the two visits of the repeated node
    have cut : ∀ i j, i < j → i ∈ range (k + 1) → j ∈ range (k + 1) → f i = f j →
        ∃ k' < g.numNodes, Walk g s ok u v k' := fun i j hlt hi hj he => by
      have hj' := mem_range.mp hj
      have hrest : Walk g s ok (f i) v (k - j) := by rw [he]; exact (hf j hj).2
      exact ih (i + (k - j)) (by omega) ((hf i hi).1.append hrest)
    rcases Nat.lt_or_gt_of_ne hij with h | h
    · exact cut i j h hi hj hfij
    · exact cut j i h hj hi hfij.symm

/-- A walk from outside a set of nodes into it crosses a residual arc into the
set. -/
theorem exists_cross (T : Nat → Prop) {u v k : Nat} (p : Walk g s ok u v k) (hu : ¬ T u)
    (hv : T v) : ∃ a, g.IsArcValid a ∧ 0 < s.residualArcCapacity a ∧ ok (g.tail a) ∧
      ok (g.head a) ∧ ¬ T (g.tail a) ∧ T (g.head a) := by
  induction p with
  | nil _ => exact absurd hv hu
  | @cons a _ _ ha hr ht p ih =>
    by_cases hh : T (g.head a)
    · exact ⟨a, ha, hr, ht, p.ok_start, hu, hh⟩
    · exact ih hh hv

/-- A walk from `x` to another node leaves `x` for the last time along a
residual arc, and goes on without coming back. -/
theorem exists_last_exit {x u v k : Nat} (p : Walk g s ok u v k) (hv : v ≠ x) :
    (∃ k', Walk g s (fun y => ok y ∧ y ≠ x) u v k') ∨
      ∃ a, g.IsArcValid a ∧ 0 < s.residualArcCapacity a ∧ g.tail a = x ∧
        ∃ k', Walk g s (fun y => ok y ∧ y ≠ x) (g.head a) v k' := by
  induction p with
  | nil h => exact .inl ⟨0, .nil ⟨h, hv⟩⟩
  | @cons a _ _ ha hr ht _ ih =>
    rcases ih hv with ⟨k', q⟩ | hexit
    · by_cases hx : g.tail a = x
      · exact .inr ⟨a, ha, hr, hx, k', q⟩
      · exact .inl ⟨k' + 1, .cons ha hr ⟨ht, hx⟩ q⟩
    · exact .inr hexit

/-- Under a labelling of the walks that avoid the source, a node reaching the
sink sits below `num_nodes`. -/
theorem height_lt {source sink u k : Nat} (hlab : LabelingOn g s (· ≠ source))
    (hsink : s.nodePotential sink = 0) (hk : sink < g.numNodes)
    (p : Walk g s (· ≠ source) u sink k) : s.nodePotential u < g.numNodes := by
  obtain ⟨k', hk', q⟩ := p.exists_lt_numNodes (p.start_lt hk)
  have := q.height_le hlab
  omega

end Walk

/-! ## Paths as lists of arcs -/

variable (g)

/-- `arcs` leads from `u` to `v` through arcs of positive residual capacity. -/
def ResidualPath (s : State) : Nat → List ArcIndex → Nat → Prop
  | u, [], v => u = v
  | u, a :: arcs, v =>
    g.IsArcValid a ∧ 0 < s.residualArcCapacity a ∧ g.tail a = u ∧ ResidualPath s (g.head a) arcs v

variable {g}

namespace ResidualPath

theorem append {u w : Nat} : ∀ {arcs arcs' : List ArcIndex},
    ResidualPath g s u (arcs ++ arcs') w ↔ ∃ v, ResidualPath g s u arcs v ∧ ResidualPath g s v arcs' w
  | [], _ => by simp [ResidualPath]
  | a :: arcs, arcs' => by
    constructor
    · rintro ⟨ha, hr, ht, h⟩
      obtain ⟨v, h1, h2⟩ := append.mp h
      exact ⟨v, ⟨ha, hr, ht, h1⟩, h2⟩
    · rintro ⟨v, ⟨ha, hr, ht, h1⟩, h2⟩
      exact ⟨ha, hr, ht, append.mpr ⟨v, h1, h2⟩⟩

/-- Every walk is a path of arcs. -/
theorem of_walk {u v k : Nat} (p : Walk g s ok u v k) : ∃ arcs, ResidualPath g s u arcs v := by
  induction p with
  | nil _ => exact ⟨[], rfl⟩
  | cons ha hr _ _ ih =>
    obtain ⟨arcs, h⟩ := ih
    exact ⟨_ :: arcs, ha, hr, rfl, h⟩

/-- A path can be cut down to one using each of its arcs once: a repeated arc
closes a loop, which is dropped. -/
theorem exists_nodup {v : Nat} : ∀ {u : Nat} {arcs : List ArcIndex}, ResidualPath g s u arcs v →
    ∃ arcs', arcs'.Nodup ∧ (∀ a ∈ arcs', a ∈ arcs) ∧ ResidualPath g s u arcs' v
  | _, [], h => ⟨[], List.nodup_nil, fun _ h => h, h⟩
  | _, a :: arcs, ⟨ha, hr, ht, h⟩ => by
    obtain ⟨arcs', hnd, hsub, h'⟩ := exists_nodup h
    by_cases hm : a ∈ arcs'
    · obtain ⟨l₁, l₂, rfl⟩ := List.append_of_mem hm
      obtain ⟨w, -, hw⟩ := append.mp h'
      refine ⟨a :: l₂, hnd.sublist (List.sublist_append_right _ _), fun b hb => ?_, ?_⟩
      · exact List.mem_cons.mpr (.inr (hsub b (List.mem_append_right _ hb)))
      · obtain ⟨_, _, hw', hrest⟩ := hw
        exact ⟨ha, hr, ht, hrest⟩
    · exact ⟨a :: arcs', List.nodup_cons.mpr ⟨hm, hnd⟩,
        fun b hb => (List.mem_cons.mp hb).elim (fun e => e ▸ List.mem_cons_self _ _)
          fun hb => List.mem_cons_of_mem _ (hsub b hb), ha, hr, ht, h'⟩

/-- Along a path each node other than its ends is entered as often as it is
left. -/
theorem count_head_sub_count_tail {v : Nat} : ∀ {u : Nat} {arcs : List ArcIndex},
    ResidualPath g s u arcs v → ∀ x, ((arcs.map g.head).count x : Int) - (arcs.map g.tail).count x =
      (if x = v then 1 else 0) - (if x = u then 1 else 0)
  | _, [], h, x => by subst h; simp
  | _, a :: arcs, ⟨_, _, ht, h⟩, x => by
    have := count_head_sub_count_tail h x
    simp only [List.map_cons, List.count_cons, beq_iff_eq, ← ht] at this ⊢
    split_ifs at this ⊢ <;> push_cast <;> omega

/-- The arcs of a path are valid and residual. -/
theorem mem {u v : Nat} : ∀ {arcs : List ArcIndex}, ResidualPath g s u arcs v → ∀ a ∈ arcs,
    g.IsArcValid a ∧ 0 < s.residualArcCapacity a
  | [], _, _, ha => absurd ha (List.not_mem_nil _)
  | b :: arcs, ⟨hb, hr, _, h⟩, a, ha => by
    rcases List.mem_cons.mp ha with rfl | ha
    · exact ⟨hb, hr⟩
    · exact mem h a ha

end ResidualPath

end OrTools.MaxFlow

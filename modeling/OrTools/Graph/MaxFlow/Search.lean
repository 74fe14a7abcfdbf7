import OrTools.Graph.MaxFlow.Frames
import OrTools.Graph.MaxFlow.Moves
import Mathlib.Tactic.Ring

/-!
# The search of `PushFlowExcessBackToSource()`

The invariant of the depth-first search on the arcs carrying flow, over the
frames of `Frames.lean`: the branch goes from the source through distinct
nodes, none of them stored; every arc of a frame is a direct arc leaving the
frame's node with flow, towards no node of the branch up to that frame; a node
is visited exactly when it is stored or on the branch; and every arc carrying
flow out of a stored node leads to the sink or to a node stored before it.

Cancelling a cycle is a sequence of pushes of `-max_flow` around a closed
walk (`pushAll`), so it changes no excess; every arc of the cycle keeps a
non-negative flow because `max_flow` is their minimum.
-/

set_option autoImplicit false

namespace OrTools.MaxFlow

open Function

variable (g : Graph) (source sink : Nat)

/-- The nodes of the branch of a stack of frames: the source, then the head of
each branch arc. -/
def branchNodes (frames : List DfsFrame) : List Nat := source :: frames.map fun f => g.head f.2

/-- The current node: the head of the last branch arc, or the source. -/
def lastNode (frames : List DfsFrame) : Nat := (frames.getLast?.map fun f => g.head f.2).getD source

/-- `a` is a direct arc leaving the current node of `frames` towards no node of
their branch. -/
def Leaves (frames : List DfsFrame) (a : ArcIndex) : Prop :=
  g.isArcDirect a = true ∧ g.tail a = lastNode g source frames ∧
    g.head a ∉ branchNodes g source frames

/-- Pushes of `f` along `arcs` in turn, each from the arc's tail. -/
def pushAll (f : Int) (arcs : List ArcIndex) (s : State) : State :=
  arcs.foldl (fun s a => s.pushFlow g f (g.tail a) a) s

/-- The invariant of the search at `d`, laid out as `frames` with `top` pending
on the current node; `rest` are the arcs of the current node still to scan
(none between two iterations of the loop), `s₀` the state the search started
from. -/
structure Search (s₀ : State) (d : Dfs) (frames : List DfsFrame) (top rest : List ArcIndex) :
    Prop where
  stack_eq : d.arcStack = stackOf frames top
  branch_eq : d.indexBranch = branchIndices frames 0
  frame_arcs : ∀ i < frames.length, ∀ a ∈ (frames.getD i ([], default)).1 ++
    [(frames.getD i ([], default)).2], Leaves g source (frames.take i) a
  top_arcs : ∀ a ∈ top, Leaves g source frames a
  nodes_nodup : (branchNodes g source frames).Nodup
  stack_nodup : d.arcStack.Nodup
  stack_flow : ∀ a ∈ d.arcStack, 0 < d.state.flow g a
  visited_iff : ∀ v, d.visited v = true ↔ d.stored v = true ∨ v ∈ branchNodes g source frames
  nodes_not_stored : ∀ v ∈ branchNodes g source frames, d.stored v = false
  stored_iff : ∀ v, d.stored v = true ↔ v = sink ∨ v ∈ d.reverseTopologicalOrder
  order_nodup : d.reverseTopologicalOrder.Nodup
  sink_not_mem : sink ∉ d.reverseTopologicalOrder
  /-- Every arc carrying flow out of a stored node leads to the sink or to a
  node stored before it. -/
  order_closed : ∀ pre x post, d.reverseTopologicalOrder = pre ++ x :: post →
    ∀ b, g.isArcDirect b = true → g.tail b = x → 0 < d.state.flow g b → g.head b = sink ∨ g.head b ∈ pre
  /-- Every arc carrying flow out of a node of the branch is on the stack, leads
  to a stored node, or is still to be scanned. -/
  branch_closed : ∀ v ∈ branchNodes g source frames, ∀ b, g.isArcDirect b = true → g.tail b = v →
    0 < d.state.flow g b →
      b ∈ d.arcStack ∨ d.stored (g.head b) = true ∨ (v = lastNode g source frames ∧ b ∈ rest)
  /-- The arcs still to scan leave the current node and are not on the stack. -/
  rest_arcs : ∀ a ∈ rest, g.isArcDirect a = true ∧ g.tail a = lastNode g source frames ∧ a ∉ d.arcStack
  rest_nodup : rest.Nodup
  residual_nonneg : ∀ a, g.IsArcValid a → 0 ≤ d.state.residualArcCapacity a
  flow_le : ∀ b, g.isArcDirect b = true → d.state.flow g b ≤ s₀.flow g b
  excess_eq : d.state.nodeExcess = s₀.nodeExcess
  pushes : Pushes g s₀ d.state

/-! ## Branch nodes -/

variable {g source}

@[simp] theorem branchNodes_nil : branchNodes g source [] = [source] := rfl

theorem branchNodes_append (frames frames' : List DfsFrame) :
    branchNodes g source (frames ++ frames') =
      branchNodes g source frames ++ frames'.map fun f => g.head f.2 := by
  simp [branchNodes]

@[simp] theorem lastNode_nil : lastNode g source [] = source := rfl

@[simp] theorem lastNode_snoc (frames : List DfsFrame) (f : DfsFrame) :
    lastNode g source (frames ++ [f]) = g.head f.2 := by
  simp [lastNode]

theorem lastNode_mem (frames : List DfsFrame) :
    lastNode g source frames ∈ branchNodes g source frames := by
  induction frames using List.reverseRecOn with
  | nil => simp
  | append_singleton frames f _ => simp [branchNodes_append]

theorem length_branchNodes (frames : List DfsFrame) :
    (branchNodes g source frames).length = frames.length + 1 := by
  simp [branchNodes]

theorem getD_branchNodes (frames : List DfsFrame) :
    ∀ i ≤ frames.length, (branchNodes g source frames).getD i 0 = lastNode g source (frames.take i) := by
  induction frames using List.reverseRecOn with
  | nil => intro i hi; simp at hi; subst hi; rfl
  | append_singleton frames f ih =>
    intro i hi
    rw [branchNodes_append]
    rcases Nat.lt_or_ge i (frames.length + 1) with h | h
    · rw [List.getD_append _ _ _ _ (by rw [length_branchNodes]; exact h), ih i (by omega),
        List.take_append_of_le_length (by omega)]
    · have hi' : i = frames.length + 1 := by simp at hi; omega
      subst hi'
      rw [List.getD_append_right _ _ _ _ (by rw [length_branchNodes]), length_branchNodes,
        List.take_of_length_le (by simp), lastNode_snoc]
      simp

theorem mem_branchNodes {frames : List DfsFrame} {v : Nat} :
    v ∈ branchNodes g source frames ↔ ∃ i ≤ frames.length, lastNode g source (frames.take i) = v := by
  rw [List.mem_iff_getElem]
  constructor
  · rintro ⟨i, hi, rfl⟩
    rw [length_branchNodes] at hi
    exact ⟨i, by omega, by rw [← getD_branchNodes frames i (by omega), List.getD_eq_getElem]⟩
  · rintro ⟨i, hi, rfl⟩
    refine ⟨i, by rw [length_branchNodes]; omega, ?_⟩
    rw [← getD_branchNodes frames i hi, List.getD_eq_getElem]

theorem branchNodes_take (frames : List DfsFrame) (i : Nat) :
    branchNodes g source (frames.take i) = (branchNodes g source frames).take (i + 1) := by
  simp [branchNodes, List.map_take]

theorem mem_branchNodes_take {frames : List DfsFrame} {i : Nat} (hi : i ≤ frames.length) {v : Nat} :
    v ∈ branchNodes g source (frames.take i) ↔ ∃ j ≤ i, lastNode g source (frames.take j) = v := by
  rw [mem_branchNodes, List.length_take, min_eq_left hi]
  refine exists_congr fun j => and_congr_right fun hj => ?_
  rw [List.take_take, min_eq_left hj]

theorem lastNode_take_injective {frames : List DfsFrame} (h : (branchNodes g source frames).Nodup)
    {i j : Nat} (hi : i ≤ frames.length) (hj : j ≤ frames.length)
    (e : lastNode g source (frames.take i) = lastNode g source (frames.take j)) : i = j := by
  have hi' : i < (branchNodes g source frames).length := by rw [length_branchNodes]; omega
  have hj' : j < (branchNodes g source frames).length := by rw [length_branchNodes]; omega
  rw [← getD_branchNodes frames i hi, ← getD_branchNodes frames j hj,
    List.getD_eq_getElem _ _ hi', List.getD_eq_getElem _ _ hj'] at e
  exact (h.getElem_inj_iff).mp e

theorem lastNode_take_succ {frames : List DfsFrame} {i : Nat} (hi : i < frames.length) :
    lastNode g source (frames.take (i + 1)) = g.head (frames.getD i ([], default)).2 := by
  rw [List.take_succ, List.getElem?_eq_getElem hi, Option.toList_some, lastNode_snoc,
    List.getD_eq_getElem]

/-! ## Pushes around a cycle -/

section PushAll

variable (g)

@[simp] theorem pushAll_nil (f : Int) (s : State) : pushAll g f [] s = s := rfl

@[simp] theorem pushAll_cons (f : Int) (a : ArcIndex) (arcs : List ArcIndex) (s : State) :
    pushAll g f (a :: arcs) s = pushAll g f arcs (s.pushFlow g f (g.tail a) a) := rfl

theorem pushAll_append (f : Int) (arcs arcs' : List ArcIndex) (s : State) :
    pushAll g f (arcs ++ arcs') s = pushAll g f arcs' (pushAll g f arcs s) := by
  simp [pushAll, List.foldl_append]

theorem pushAll_residual (f : Int) :
    ∀ (arcs : List ArcIndex) (s : State) (c : ArcIndex),
      (pushAll g f arcs s).residualArcCapacity c =
        s.residualArcCapacity c - f * arcs.count c + f * arcs.count c.opposite
  | [], s, c => by simp
  | a :: arcs, s, c => by
    rw [pushAll_cons, pushAll_residual f arcs, State.pushFlow_residual]
    simp only [List.count_cons, beq_iff_eq]
    by_cases h1 : c = a
    · subst h1
      simp only [if_true, ArcIndex.opposite_ne, ArcIndex.ne_opposite, if_false]
      push_cast; ring
    · by_cases h2 : c = a.opposite
      · subst h2
        simp only [h1, ArcIndex.opposite_opposite, if_false, if_true, ArcIndex.ne_opposite]
        push_cast; ring
      · have h3 : a ≠ c.opposite := fun h => h2 (by rw [h, ArcIndex.opposite_opposite])
        simp only [h1, h2, h3, Ne.symm h1, if_false]
        push_cast; ring

theorem pushAll_excess (f : Int) :
    ∀ (arcs : List ArcIndex) (s : State) (v : Nat),
      (pushAll g f arcs s).nodeExcess v =
        s.nodeExcess v - f * (arcs.map g.tail).count v + f * (arcs.map g.head).count v
  | [], s, v => by simp
  | a :: arcs, s, v => by
    rw [pushAll_cons, pushAll_excess f arcs, State.pushFlow_excess]
    simp only [List.map_cons, List.count_cons, beq_iff_eq, @eq_comm _ v]
    split_ifs <;> push_cast <;> ring

/-- Pushes around a closed walk change no excess. -/
theorem pushAll_excess_of_perm (f : Int) {arcs : List ArcIndex}
    (hp : (arcs.map g.tail).Perm (arcs.map g.head)) (s : State) :
    (pushAll g f arcs s).nodeExcess = s.nodeExcess := by
  funext v
  rw [pushAll_excess, hp.count_eq]
  ring

theorem flow_of_isArcDirect {a : ArcIndex} (ha : g.isArcDirect a = true) (s : State) :
    s.flow g a = s.residualArcCapacity a.opposite := by
  simp [State.flow, ha]

theorem pushAll_flow (f : Int) (arcs : List ArcIndex) (s : State) {a : ArcIndex}
    (ha : g.isArcDirect a = true) :
    (pushAll g f arcs s).flow g a = s.flow g a + f * arcs.count a - f * arcs.count a.opposite := by
  rw [flow_of_isArcDirect g ha, flow_of_isArcDirect g ha, pushAll_residual,
    ArcIndex.opposite_opposite]
  ring

theorem flow_pushFlow_of_index_ne (f : Int) (t : Nat) {a b : ArcIndex} (s : State)
    (h : b.index ≠ a.index) : (s.pushFlow g f t a).flow g b = s.flow g b := by
  simp only [State.flow]
  rw [State.pushFlow_residual_of_index_ne f t s (by simpa using h),
    State.pushFlow_residual_of_index_ne f t s h]

theorem pushAll_pushes (f : Int) :
    ∀ (arcs : List ArcIndex) (s : State), (∀ a ∈ arcs, g.IsArcValid a) → Pushes g s (pushAll g f arcs s)
  | [], s, _ => .refl s
  | a :: arcs, _, h =>
    (Pushes.pushFlow f (h a (List.mem_cons_self _ _))).trans
      (pushAll_pushes f arcs _ fun b hb => h b (List.mem_cons_of_mem a hb))

end PushAll

/-! ## The loops over the cycle -/

section Cycle

theorem downFrom_self (lo : Nat) : downFrom lo lo = [] := by simp [downFrom]

theorem downFrom_succ {lo hi : Nat} (h : lo ≤ hi) : downFrom lo (hi + 1) = hi :: downFrom lo hi := by
  unfold downFrom
  rw [show hi + 1 - lo = (hi - lo) + 1 by omega, List.range'_concat]
  simp; omega

theorem mem_downFrom {lo hi i : Nat} : i ∈ downFrom lo hi ↔ lo ≤ i ∧ i < hi := by
  simp [downFrom, List.mem_range'_1]; omega

theorem nodup_downFrom (lo hi : Nat) : (downFrom lo hi).Nodup :=
  List.nodup_reverse.mpr (List.nodup_range' _ _)

theorem downFrom_eq_append {lo hi : Nat} (h : lo < hi) :
    downFrom lo hi = downFrom (lo + 1) hi ++ [lo] := by
  unfold downFrom
  rw [show hi - lo = (hi - (lo + 1)) + 1 by omega, List.range'_succ]
  simp

theorem map_succ_downFrom (lo hi : Nat) :
    (downFrom lo hi).map (· + 1) = downFrom (lo + 1) (hi + 1) := by
  have key : ∀ n lo, (List.range' lo n).map (· + 1) = List.range' (lo + 1) n := by
    intro n
    induction n with
    | zero => intro; rfl
    | succ n ih => intro lo; simp [List.range'_succ, ih]
  unfold downFrom
  rw [List.map_reverse, key, show hi + 1 - (lo + 1) = hi - lo by omega]

variable (g)

/-- What the loop computing `max_flow` and `first_saturated_index` knows once it
has looked at the branch arcs `lo, …, size - 1`: `max_flow` is the least flow
on them and on the closing arc, and `first_saturated_index` the lowest branch
arc carrying it, `size` when only the closing arc does. -/
structure CycleMin (d : Dfs) (flow : Int) (size lo : Nat) (r : Int × Nat) : Prop where
  le_flow : r.1 ≤ flow
  le_arc : ∀ i, lo ≤ i → i < size → r.1 ≤ d.state.flow g (d.branchArc i)
  lo_le : lo ≤ r.2
  le_size : r.2 ≤ size
  lt_arc : ∀ i, lo ≤ i → i < r.2 → r.1 < d.state.flow g (d.branchArc i)
  arc_eq : r.2 < size → d.state.flow g (d.branchArc r.2) = r.1
  flow_eq : r.2 = size → flow = r.1

variable {g}

theorem CycleMin.init (d : Dfs) (flow : Int) (size : Nat) : CycleMin g d flow size size (flow, size) where
  le_flow := le_refl _
  le_arc _ h h' := absurd h' (by omega)
  lo_le := le_refl _
  le_size := le_refl _
  lt_arc _ h h' := absurd h' (by omega)
  arc_eq h := absurd h (lt_irrefl _)
  flow_eq _ := rfl

theorem CycleMin.step {d : Dfs} {flow : Int} {size lo : Nat} {r : Int × Nat}
    (h : CycleMin g d flow size (lo + 1) r) (hlo : lo < size) :
    CycleMin g d flow size lo
      (if d.state.flow g (d.branchArc lo) ≤ r.1 then (d.state.flow g (d.branchArc lo), lo) else r) := by
  split_ifs with hle
  · exact ⟨hle.trans h.le_flow, fun i hi hi' => by
      rcases Nat.eq_or_lt_of_le hi with rfl | hi
      · exact le_refl _
      · exact hle.trans (h.le_arc i hi hi'), le_refl _, hlo.le, fun i hi hi' => absurd hi' (by omega),
      fun _ => rfl, fun e => absurd e (by omega)⟩
  · have hlt := lt_of_not_le hle
    refine ⟨h.le_flow, fun i hi hi' => ?_, by have := h.lo_le; omega, h.le_size, fun i hi hi' => ?_,
      h.arc_eq, h.flow_eq⟩
    · rcases Nat.eq_or_lt_of_le hi with rfl | hi
      · exact hlt.le
      · exact h.le_arc i hi hi'
    · rcases Nat.eq_or_lt_of_le hi with rfl | hi
      · exact hlt
      · exact h.lt_arc i hi hi'

/-- The loop computing `max_flow` over the branch arcs `size - 1, …, lo`. -/
theorem cycleMaxFlow_spec (d : Dfs) (flow : Int) {size : Nat} :
    ∀ {lo hi : Nat} {r : Int × Nat}, lo ≤ hi → hi ≤ size → CycleMin g d flow size hi r →
      CycleMin g d flow size lo ((downFrom lo hi).foldl (fun acc i =>
        let f := d.state.flow g (d.branchArc i)
        if f ≤ acc.1 then (f, i) else acc) r)
  | lo, 0, r, h, _, hr => by
    rw [Nat.le_zero.mp h, downFrom_self]; exact hr
  | lo, hi + 1, r, h, hs, hr => by
    rcases Nat.eq_or_lt_of_le h with rfl | h
    · rw [downFrom_self]; exact hr
    · rw [downFrom_succ (by omega), List.foldl_cons]
      exact cycleMaxFlow_spec d flow (by omega) (by omega) (hr.step (by omega))

theorem cycleMaxFlow_eq (d : Dfs) (flow : Int) {lo size : Nat} (h : lo ≤ size) :
    CycleMin g d flow size lo (cycleMaxFlow g d flow size (downFrom lo size)) :=
  cycleMaxFlow_spec d flow h (le_refl _) (CycleMin.init d flow size)

end Cycle

theorem index_ne_of_isArcDirect {a b : ArcIndex} (ha : g.isArcDirect a = true)
    (hb : g.isArcDirect b = true) (h : a ≠ b) : a.index ≠ b.index := by
  cases a <;> cases b <;> simp_all [Graph.isArcDirect, ArcIndex.isDirect, ArcIndex.index]

/-- The branch arcs only read `arc_stack` and `index_branch`. -/
@[simp] theorem Dfs.branchArc_mk (D : Dfs) (s : State) (stored visited : Nat → Bool)
    (order : List Nat) :
    (Dfs.mk s stored visited D.arcStack D.indexBranch order).branchArc = D.branchArc := rfl

/-- The cancelling loop over the branch arcs `is`: when the heads it unvisits
are visited and the arcs it leaves with flow keep a positive flow, it runs
through, pushing `-max_flow` on each arc and unvisiting the heads from
`first_saturated_index` on. -/
theorem foldlM_cancelCycleArc (maxFlow : Int) (fsi : Nat) :
    ∀ (is : List Nat) (D : Dfs),
      (is.map D.branchArc).Nodup → (is.map fun i => g.head (D.branchArc i)).Nodup →
      (∀ i ∈ is, g.isArcDirect (D.branchArc i) = true) →
      (∀ i ∈ is, fsi ≤ i → D.visited (g.head (D.branchArc i)) = true) →
      (∀ i ∈ is, i < fsi → maxFlow < D.state.flow g (D.branchArc i)) →
      is.foldlM (cancelCycleArc g maxFlow fsi) D =
        some { D with
          state := pushAll g (-maxFlow) (is.map D.branchArc) D.state
          visited := fun v =>
            if ∃ i ∈ is, fsi ≤ i ∧ g.head (D.branchArc i) = v then false else D.visited v }
  | [], D, _, _, _, _, _ => by simp
  | i :: is, D, hnd, hhead, hdir, hvis, hflow => by
    have hi := List.mem_cons_self i is
    have hnd' := (List.nodup_cons.mp hnd)
    have hhead' := (List.nodup_cons.mp hhead)
    have hne : ∀ j ∈ is, (D.branchArc j).index ≠ (D.branchArc i).index := fun j hj =>
      index_ne_of_isArcDirect (hdir j (List.mem_cons_of_mem _ hj)) (hdir i hi)
        fun e => hnd'.1 (List.mem_map.mpr ⟨j, hj, e⟩)
    have hhne : ∀ j ∈ is, g.head (D.branchArc j) ≠ g.head (D.branchArc i) :=
      fun j hj e => hhead'.1 (List.mem_map.mpr ⟨j, hj, e⟩)
    simp only [List.foldlM_cons, cancelCycleArc]
    by_cases hfi : fsi ≤ i
    · rw [if_pos hfi, if_pos (hvis i hi hfi)]
      simp only [bind, Option.some_bind]
      rw [foldlM_cancelCycleArc maxFlow fsi is
        { D with
          state := D.state.pushFlow g (-maxFlow) (g.tail (D.branchArc i)) (D.branchArc i)
          visited := update D.visited (g.head (D.branchArc i)) false } hnd'.2 hhead'.2
        (fun j hj => hdir j (List.mem_cons_of_mem _ hj))
        (fun j hj hj' => by
          show update D.visited _ false (g.head (D.branchArc j)) = true
          rw [Function.update_noteq (hhne j hj)]; exact hvis j (List.mem_cons_of_mem _ hj) hj')
        (fun j hj hj' => by
          show _ < (D.state.pushFlow g (-maxFlow) (g.tail (D.branchArc i)) (D.branchArc i)).flow g
            (D.branchArc j)
          rw [flow_pushFlow_of_index_ne g _ _ _ (hne j hj)]
          exact hflow j (List.mem_cons_of_mem _ hj) hj')]
      congr 2
      funext v
      by_cases hv : g.head (D.branchArc i) = v
      · subst hv; simp [hfi]
      · simp [Function.update_noteq (Ne.symm hv), hv]
    · have hpos : 0 < (D.state.pushFlow g (-maxFlow) (g.tail (D.branchArc i)) (D.branchArc i)).flow g
          (D.branchArc i) := by
        have := pushAll_flow g (-maxFlow) [D.branchArc i] D.state (hdir i hi)
        simp only [pushAll_cons, pushAll_nil, List.count_singleton_self,
          List.count_singleton] at this
        rw [this]
        have := hflow i hi (by omega)
        simp [ArcIndex.opposite_ne]; omega
      rw [if_neg hfi, if_pos hpos]
      simp only [bind, Option.some_bind]
      rw [foldlM_cancelCycleArc maxFlow fsi is
        { D with
          state := D.state.pushFlow g (-maxFlow) (g.tail (D.branchArc i)) (D.branchArc i) }
        hnd'.2 hhead'.2
        (fun j hj => hdir j (List.mem_cons_of_mem _ hj))
        (fun j hj hj' => hvis j (List.mem_cons_of_mem _ hj) hj')
        (fun j hj hj' => by
          show _ < (D.state.pushFlow g (-maxFlow) (g.tail (D.branchArc i)) (D.branchArc i)).flow g
            (D.branchArc j)
          rw [flow_pushFlow_of_index_ne g _ _ _ (hne j hj)]
          exact hflow j (List.mem_cons_of_mem _ hj) hj')]
      congr 2
      funext v
      simp [hfi]

/-! ## The branch arcs -/

namespace Search

variable {sink : Nat} {s₀ : State} {d : Dfs} {frames : List DfsFrame} {top rest : List ArcIndex}

theorem branchArc_eq (h : Search g source sink s₀ d frames top rest) {i : Nat}
    (hi : i < frames.length) : d.branchArc i = (frames.getD i ([], default)).2 := by
  unfold Dfs.branchArc
  rw [h.stack_eq, h.branch_eq]
  simpa using getD_stackOf_branchIndices top [] frames i hi

theorem leaves_branchArc (h : Search g source sink s₀ d frames top rest) {i : Nat}
    (hi : i < frames.length) : Leaves g source (frames.take i) (d.branchArc i) :=
  h.branchArc_eq hi ▸ h.frame_arcs i hi _ (List.mem_append_right _ (List.mem_singleton_self _))

theorem head_branchArc (h : Search g source sink s₀ d frames top rest) {i : Nat}
    (hi : i < frames.length) : g.head (d.branchArc i) = lastNode g source (frames.take (i + 1)) := by
  rw [h.branchArc_eq hi, lastNode_take_succ hi]

theorem branchArc_mem (h : Search g source sink s₀ d frames top rest) {i : Nat}
    (hi : i < frames.length) : d.branchArc i ∈ d.arcStack := by
  rw [h.branchArc_eq hi, h.stack_eq, mem_stackOf, List.getD_eq_getElem _ _ hi]
  exact .inl ⟨_, List.getElem_mem hi, .inr rfl⟩

/-- The loop finding `cycle_begin` stops at the position of the cycle's first
node on the branch. -/
theorem cycleBegin_eq (h : Search g source sink s₀ d frames top rest) {k : Nat} :
    ∀ j, k ≤ j → j ≤ frames.length →
      cycleBegin g d (lastNode g source (frames.take k)) j = k
  | 0, hk, _ => by rw [Nat.le_zero.mp hk]; rfl
  | j + 1, hk, hj => by
    rw [cycleBegin, h.head_branchArc (by omega)]
    rcases Nat.eq_or_lt_of_le hk with rfl | hk
    · simp
    · rw [if_pos fun e => absurd (lastNode_take_injective h.nodes_nodup hj (by omega) e) (by omega)]
      exact cycleBegin_eq h j (by omega) (by omega)

end Search

/-! ## Cancelling a cycle -/

variable (g) in
/-- `(max_flow, first_saturated_index)` for the cycle that the arc `b` closes at
the `k`-th node of a branch of `m` arcs. -/
def cycleMin (d : Dfs) (b : ArcIndex) (k m : Nat) : Int × Nat :=
  cycleMaxFlow g d (d.state.flow g b) m (downFrom k m)

/-- The arcs of the cycle that the arc `b` closes at the `k`-th node of a branch
of `m` arcs: `b`, then the branch arcs `m - 1, …, k`, in the order they are
pushed on. -/
def cycleArcs (d : Dfs) (b : ArcIndex) (k m : Nat) : List ArcIndex :=
  b :: (downFrom k m).map d.branchArc

theorem mem_cycleArcs_self (d : Dfs) (b : ArcIndex) (k m : Nat) : b ∈ cycleArcs d b k m :=
  List.mem_cons_self _ _

theorem branchArc_mem_cycleArcs (d : Dfs) (b : ArcIndex) {k m i : Nat} (hi : k ≤ i) (hi' : i < m) :
    d.branchArc i ∈ cycleArcs d b k m :=
  List.mem_cons_of_mem _ (List.mem_map_of_mem _ (mem_downFrom.mpr ⟨hi, hi'⟩))

namespace Search

variable {sink : Nat} {s₀ : State} {d : Dfs} {frames : List DfsFrame} {top rest : List ArcIndex}
  {b : ArcIndex} {k : Nat}

/-- Every arc of the stack below frame `i` leaves the node of a frame at or above `i`. -/
theorem leaves_of_mem_drop (h : Search g source sink s₀ d frames top rest) {i : Nat} {a : ArcIndex}
    (hi : i ≤ frames.length) (ha : a ∈ stackOf (frames.drop i) top) :
    ∃ j, i ≤ j ∧ j ≤ frames.length ∧ Leaves g source (frames.take j) a := by
  rcases (mem_stackOf _).mp ha with ⟨f, hf, haf⟩ | ha
  · obtain ⟨j, hj, rfl⟩ := List.mem_iff_getElem.mp hf
    rw [List.length_drop] at hj
    refine ⟨i + j, by omega, by omega, h.frame_arcs (i + j) (by omega) a ?_⟩
    rw [List.getElem_drop, ← List.getD_eq_getElem _ ([], default) (by omega)] at haf
    simpa [or_comm] using haf
  · exact ⟨frames.length, hi, le_rfl, by rw [List.take_of_length_le le_rfl]; exact h.top_arcs a ha⟩

theorem leaves_of_mem_stack (h : Search g source sink s₀ d frames top rest) {a : ArcIndex}
    (ha : a ∈ d.arcStack) : ∃ j ≤ frames.length, Leaves g source (frames.take j) a := by
  rw [h.stack_eq] at ha
  obtain ⟨j, -, hj, hl⟩ := h.leaves_of_mem_drop (i := 0) (Nat.zero_le _) (by simpa using ha)
  exact ⟨j, hj, hl⟩

/-- The cycle is closed: its tails are its heads. -/
theorem cycleArcs_tails_perm (h : Search g source sink s₀ d frames top rest)
    (hbt : g.tail b = lastNode g source frames) (hk : k ≤ frames.length)
    (hbk : g.head b = lastNode g source (frames.take k)) :
    ((cycleArcs d b k frames.length).map g.tail).Perm ((cycleArcs d b k frames.length).map g.head) := by
  set node := fun j => lastNode g source (frames.take j)
  have htail : (downFrom k frames.length).map (fun i => g.tail (d.branchArc i)) =
      (downFrom k frames.length).map node :=
    List.map_congr_left fun i hi => (h.leaves_branchArc (mem_downFrom.mp hi).2).2.1
  have hhead : (downFrom k frames.length).map (fun i => g.head (d.branchArc i)) =
      (downFrom (k + 1) (frames.length + 1)).map node := by
    rw [← map_succ_downFrom, List.map_map]
    exact List.map_congr_left fun i hi => h.head_branchArc (mem_downFrom.mp hi).2
  have hm : lastNode g source frames = node frames.length := by
    simp [node, List.take_of_length_le]
  simp only [cycleArcs, List.map_cons, List.map_map, Function.comp_def, htail, hhead, hbt, hbk, hm]
  rw [← List.map_cons, ← downFrom_succ hk, downFrom_eq_append (by omega), List.map_append]
  exact List.perm_append_singleton _ _

/-- The branch arcs of the cycle differ from each other and from the closing arc. -/
theorem cycleArcs_nodup (h : Search g source sink s₀ d frames top rest)
    (hbt : g.tail b = lastNode g source frames) :
    (cycleArcs d b k frames.length).Nodup := by
  have hinj : ∀ i ∈ downFrom k frames.length, ∀ j ∈ downFrom k frames.length,
      d.branchArc i = d.branchArc j → i = j := fun i hi j hj e => by
    have := congrArg g.head e
    rw [h.head_branchArc (mem_downFrom.mp hi).2, h.head_branchArc (mem_downFrom.mp hj).2] at this
    have := lastNode_take_injective h.nodes_nodup (mem_downFrom.mp hi).2 (mem_downFrom.mp hj).2 this
    omega
  refine List.nodup_cons.mpr ⟨fun hb => ?_, (nodup_downFrom _ _).map_on hinj⟩
  obtain ⟨i, hi, rfl⟩ := List.mem_map.mp hb
  have hi' := (mem_downFrom.mp hi).2
  have hx : lastNode g source frames = lastNode g source (frames.take frames.length) := by
    rw [List.take_of_length_le le_rfl]
  have := (h.leaves_branchArc hi').2.1
  rw [hbt, hx] at this
  have := lastNode_take_injective h.nodes_nodup le_rfl hi'.le this
  omega

theorem cycleArcs_direct (h : Search g source sink s₀ d frames top rest)
    (hb : g.isArcDirect b = true) : ∀ a ∈ cycleArcs d b k frames.length, g.isArcDirect a = true := by
  intro a ha
  rcases List.mem_cons.mp ha with rfl | ha
  · exact hb
  · obtain ⟨i, hi, rfl⟩ := List.mem_map.mp ha
    exact (h.leaves_branchArc (mem_downFrom.mp hi).2).1

theorem flow_nonneg (h : Search g source sink s₀ d frames top rest) {a : ArcIndex}
    (ha : g.isArcDirect a = true) : 0 ≤ d.state.flow g a := by
  rw [flow_of_isArcDirect g ha]
  exact h.residual_nonneg _ ((g.isArcValid_opposite a).mpr (g.isArcValid_of_isArcDirect ha))

/-- Cancelling the cycle that `b` closes at the `k`-th node of the branch: every
`DCHECK` holds, and the result is the pushes of `-max_flow` around the cycle
with the nodes from `first_saturated_index` on unvisited. -/
theorem cancelCycle_eq (h : Search g source sink s₀ d frames top rest)
    (hb : g.isArcDirect b = true) (hbt : g.tail b = lastNode g source frames)
    (hk : k ≤ frames.length) (hbk : g.head b = lastNode g source (frames.take k)) :
    let r := cycleMin g d b k frames.length
    cancelCycle g (lastNode g source frames) b d =
      some (r, { d with
        state := pushAll g (-r.1) (cycleArcs d b k frames.length) d.state
        visited := fun v =>
          if ∃ i ∈ downFrom k frames.length, r.2 ≤ i ∧ g.head (d.branchArc i) = v then false
          else d.visited v }) := by
  intro r
  have hm : d.indexBranch.length = frames.length := by rw [h.branch_eq, length_branchIndices]
  have hcb : cycleBegin g d (g.head b) frames.length = k := by
    rw [hbk]; exact h.cycleBegin_eq frames.length hk le_rfl
  have hr : CycleMin g d (d.state.flow g b) frames.length k r := cycleMaxFlow_eq d _ hk
  have hnd := h.cycleArcs_nodup hbt (b := b) (k := k)
  have hdir := h.cycleArcs_direct hb (k := k)
  have hbr : ∀ i ∈ downFrom k frames.length, (d.branchArc i).index ≠ b.index := fun i hi =>
    index_ne_of_isArcDirect (hdir _ (List.mem_cons_of_mem _ (List.mem_map_of_mem _ hi))) hb
      fun e => (List.nodup_cons.mp hnd).1 (e ▸ List.mem_map_of_mem _ hi)
  have hfold := foldlM_cancelCycleArc r.1 r.2 (downFrom k frames.length)
    { d with state := d.state.pushFlow g (-r.1) (lastNode g source frames) b }
    (List.nodup_cons.mp hnd).2
    (by
      refine (nodup_downFrom _ _).map_on fun i hi j hj e => ?_
      simp only [Dfs.branchArc_mk, h.head_branchArc (mem_downFrom.mp hi).2,
        h.head_branchArc (mem_downFrom.mp hj).2] at e
      have := lastNode_take_injective h.nodes_nodup (mem_downFrom.mp hi).2 (mem_downFrom.mp hj).2 e
      omega)
    (fun i hi => hdir _ (List.mem_cons_of_mem _ (List.mem_map_of_mem _ hi)))
    (fun i hi _ => (h.visited_iff _).mpr (.inr (by
      rw [Dfs.branchArc_mk, h.head_branchArc (mem_downFrom.mp hi).2, mem_branchNodes]
      exact ⟨i + 1, (mem_downFrom.mp hi).2, rfl⟩)))
    (fun i hi hi' => by
      show r.1 < (d.state.pushFlow g _ _ b).flow g (d.branchArc i)
      rw [flow_pushFlow_of_index_ne g _ _ _ (hbr i hi)]
      exact hr.lt_arc i (mem_downFrom.mp hi).1 hi')
  have hstate : pushAll g (-r.1) ((downFrom k frames.length).map d.branchArc)
      (d.state.pushFlow g (-r.1) (lastNode g source frames) b) =
        pushAll g (-r.1) (cycleArcs d b k frames.length) d.state := by
    rw [cycleArcs, pushAll_cons, hbt]
  have hr_def : cycleMaxFlow g d (d.state.flow g b) frames.length (downFrom k frames.length) = r := rfl
  simp only [cancelCycle, hm, hcb, hr_def]
  rw [hfold]
  simp only [Dfs.branchArc_mk, bind, Option.some_bind, hstate,
    pushAll_excess_of_perm g _ (h.cycleArcs_tails_perm hbt hk hbk), if_true]

/-! ### What a cancellation does to the flow -/

variable (g d) in
theorem cycleMin_spec (b : ArcIndex) (hk : k ≤ frames.length) :
    CycleMin g d (d.state.flow g b) frames.length k (cycleMin g d b k frames.length) :=
  cycleMaxFlow_eq d _ hk

variable (g) in
/-- `max_flow` bounds the flow of every arc of the cycle from below. -/
theorem cycleMin_le_flow (hk : k ≤ frames.length) : ∀ c ∈ cycleArcs d b k frames.length,
    (cycleMin g d b k frames.length).1 ≤ d.state.flow g c := by
  intro c hc
  have hr := cycleMin_spec g d b hk
  rcases List.mem_cons.mp hc with rfl | hc
  · exact hr.le_flow
  · obtain ⟨i, hi, rfl⟩ := List.mem_map.mp hc
    exact hr.le_arc i (mem_downFrom.mp hi).1 (mem_downFrom.mp hi).2

section Cancel

variable (h : Search g source sink s₀ d frames top rest) (hb : g.isArcDirect b = true)
  (hbt : g.tail b = lastNode g source frames) (hk : k ≤ frames.length)
include h hb hbt hk

omit hbt in
theorem cycleMin_nonneg : 0 ≤ (cycleMin g d b k frames.length).1 := by
  have hr := cycleMin_spec g d b hk
  rcases Nat.lt_or_ge (cycleMin g d b k frames.length).2 frames.length with hlt | hge
  · rw [← hr.arc_eq hlt]; exact h.flow_nonneg (h.leaves_branchArc hlt).1
  · rw [← hr.flow_eq (le_antisymm hr.le_size hge)]; exact h.flow_nonneg hb

omit hk in
/-- A cancellation lowers the flow of each arc of the cycle by `max_flow` and
leaves the other arcs alone. -/
theorem flow_cancel {a : ArcIndex} (ha : g.isArcDirect a = true) :
    (pushAll g (-(cycleMin g d b k frames.length).1) (cycleArcs d b k frames.length) d.state).flow g a =
      d.state.flow g a - if a ∈ cycleArcs d b k frames.length then (cycleMin g d b k frames.length).1
        else 0 := by
  have hopp : (cycleArcs d b k frames.length).count a.opposite = 0 :=
    List.count_eq_zero.mpr fun hmem => by
      have := h.cycleArcs_direct hb a.opposite hmem
      cases a <;> simp_all [Graph.isArcDirect, ArcIndex.isDirect, ArcIndex.opposite]
  rw [pushAll_flow g _ _ _ ha, hopp, List.count_eq_of_nodup (h.cycleArcs_nodup hbt)]
  split_ifs <;> ring

theorem flow_cancel_le {a : ArcIndex} (ha : g.isArcDirect a = true) :
    (pushAll g (-(cycleMin g d b k frames.length).1) (cycleArcs d b k frames.length) d.state).flow g a ≤
      d.state.flow g a := by
  rw [h.flow_cancel hb hbt ha]
  have := h.cycleMin_nonneg hb hk
  split_ifs <;> omega

theorem residual_cancel_nonneg {a : ArcIndex} (ha : g.IsArcValid a) :
    0 ≤ (pushAll g (-(cycleMin g d b k frames.length).1) (cycleArcs d b k frames.length)
      d.state).residualArcCapacity a := by
  have hnn := h.cycleMin_nonneg hb hk
  have hdir := h.cycleArcs_direct hb (k := k)
  rw [pushAll_residual, List.count_eq_of_nodup (h.cycleArcs_nodup hbt),
    List.count_eq_of_nodup (h.cycleArcs_nodup hbt)]
  have hres := h.residual_nonneg a ha
  cases a with
  | direct i =>
    have : ArcIndex.reverse i ∉ cycleArcs d b k frames.length := fun hm => by
      simpa [Graph.isArcDirect, ArcIndex.isDirect] using hdir _ hm
    simp only [ArcIndex.opposite, this, if_false]
    split_ifs <;> omega
  | reverse i =>
    have : ArcIndex.reverse i ∉ cycleArcs d b k frames.length := fun hm => by
      simpa [Graph.isArcDirect, ArcIndex.isDirect] using hdir _ hm
    simp only [ArcIndex.opposite, this, if_false]
    split_ifs with hm
    · have hle := cycleMin_le_flow g hk _ hm
      rw [flow_of_isArcDirect g (hdir _ hm)] at hle
      simp only [ArcIndex.opposite] at hle
      omega
    · omega

omit hb in
theorem excess_cancel (hbk : g.head b = lastNode g source (frames.take k)) :
    (pushAll g (-(cycleMin g d b k frames.length).1) (cycleArcs d b k frames.length) d.state).nodeExcess =
      d.state.nodeExcess :=
  pushAll_excess_of_perm g _ (h.cycleArcs_tails_perm hbt hk hbk) _

omit hbt hk in
theorem pushes_cancel :
    Pushes g s₀ (pushAll g (-(cycleMin g d b k frames.length).1) (cycleArcs d b k frames.length) d.state) :=
  h.pushes.trans (pushAll_pushes g _ _ _ fun a ha => g.isArcValid_of_isArcDirect (h.cycleArcs_direct hb a ha))

end Cancel

section Scan

variable {rest : List ArcIndex} (h : Search g source sink s₀ d frames top (b :: rest))
  (hb : g.isArcDirect b = true) (hbt : g.tail b = lastNode g source frames) (hk : k ≤ frames.length)
  (hbk : g.head b = lastNode g source (frames.take k)) (hbs : b ∉ d.arcStack)
  {r : Int × Nat} {d' : Dfs} (hc : cancelCycle g (lastNode g source frames) b d = some (r, d'))
include h hb hbt hk hbk hbs hc

/-- A cancellation that saturates only the closing arc keeps the branch: the
search goes on with the closing arc done. -/
theorem cancel_keep (hfsi : ¬ r.2 < d'.indexBranch.length) : Search g source sink s₀ d' frames top rest := by
  rw [h.cancelCycle_eq hb hbt hk hbk, Option.some.injEq, Prod.mk.injEq] at hc
  obtain ⟨rfl, rfl⟩ := hc
  have hm : d.indexBranch.length = frames.length := by rw [h.branch_eq, length_branchIndices]
  have hr := cycleMin_spec g d b hk
  have hfsi' : (cycleMin g d b k frames.length).2 = frames.length := by
    have := hr.le_size; simp only [hm] at hfsi; omega
  have hvis : ∀ v, (if ∃ i ∈ downFrom k frames.length, (cycleMin g d b k frames.length).2 ≤ i ∧
      g.head (d.branchArc i) = v then false else d.visited v) = d.visited v := fun v => by
    rw [if_neg]; rintro ⟨i, hi, hle, -⟩; have := (mem_downFrom.mp hi).2; omega
  refine { h with
    stack_flow := fun a ha => ?_
    visited_iff := fun v => by simp only [hvis]; exact h.visited_iff v
    order_closed := fun pre x post ho c hc hct hcf => h.order_closed pre x post ho c hc hct
      (lt_of_lt_of_le hcf (h.flow_cancel_le hb hbt hk hc))
    branch_closed := fun v hv c hc hct hcf => ?_
    rest_arcs := fun a ha => h.rest_arcs a (List.mem_cons_of_mem _ ha)
    rest_nodup := (List.nodup_cons.mp h.rest_nodup).2
    residual_nonneg := fun a ha => h.residual_cancel_nonneg hb hbt hk ha
    flow_le := fun a ha => (h.flow_cancel_le hb hbt hk ha).trans (h.flow_le a ha)
    excess_eq := (h.excess_cancel hbt hk hbk).trans h.excess_eq
    pushes := h.pushes_cancel hb }
  · have had : g.isArcDirect a = true := by
      obtain ⟨_, _, hl⟩ := h.leaves_of_mem_stack ha; exact hl.1
    show 0 < (pushAll g _ _ d.state).flow g a
    rw [h.flow_cancel hb hbt had]
    split_ifs with hac
    · rcases List.mem_cons.mp hac with rfl | hac
      · exact absurd ha hbs
      · obtain ⟨i, hi, rfl⟩ := List.mem_map.mp hac
        have := hr.lt_arc i (mem_downFrom.mp hi).1 (by rw [hfsi']; exact (mem_downFrom.mp hi).2)
        omega
    · simpa using h.stack_flow a ha
  · have hcf' : 0 < d.state.flow g c := lt_of_lt_of_le hcf (h.flow_cancel_le hb hbt hk hc)
    rcases h.branch_closed v hv c hc hct hcf' with hs | hs | ⟨hv, hcr⟩
    · exact .inl hs
    · exact .inr (.inl hs)
    · rcases List.mem_cons.mp hcr with rfl | hcr
      · have : (pushAll g (-(cycleMin g d c k frames.length).1) (cycleArcs d c k frames.length)
            d.state).flow g c = 0 := by
          rw [h.flow_cancel hb hbt hc,
            if_pos (mem_cycleArcs_self d c k _),
            ← hr.flow_eq hfsi']
          ring
        exact absurd hcf (by rw [this]; exact lt_irrefl 0)
      · exact .inr (.inr ⟨hv, hcr⟩)

/-- A cancellation that saturates a branch arc backtracks the search to the tail
of that arc, whose pending arcs are back on top. -/
theorem cancel_cut (hfsi : r.2 < d'.indexBranch.length) :
    Search g source sink s₀
      { d' with
        arcStack := d'.arcStack.take (d'.indexBranch.getD r.2 0)
        indexBranch := d'.indexBranch.take r.2 }
      (frames.take r.2) (frames.getD r.2 ([], default)).1 [] := by
  rw [h.cancelCycle_eq hb hbt hk hbk, Option.some.injEq, Prod.mk.injEq] at hc
  obtain ⟨rfl, rfl⟩ := hc
  have hm : d.indexBranch.length = frames.length := by rw [h.branch_eq, length_branchIndices]
  have hr := cycleMin_spec g d b hk
  set fsi := (cycleMin g d b k frames.length).2 with hfsi_def
  have hfm : fsi < frames.length := by simpa only [hm] using hfsi
  have hkf : k ≤ fsi := hr.lo_le
  set s' := pushAll g (-(cycleMin g d b k frames.length).1) (cycleArcs d b k frames.length) d.state
  -- the stack around the saturated branch arc
  have hsplit := stackOf_split top hfm
  have hnew : (stackOf frames top).take ((branchIndices frames 0).getD fsi 0) =
      stackOf (frames.take fsi) (frames.getD fsi ([], default)).1 := by
    simpa using take_stackOf_branchIndices top [] frames fsi hfm
  have hnd : (stackOf frames top).Nodup := h.stack_eq ▸ h.stack_nodup
  rw [hsplit] at hnd
  have hdisj : ∀ a ∈ stackOf (frames.take fsi) (frames.getD fsi ([], default)).1,
      a ∉ (frames.getD fsi ([], default)).2 :: stackOf (frames.drop (fsi + 1)) top :=
    fun a ha ha' => List.disjoint_of_nodup_append hnd ha ha'
  have hold : ∀ a ∈ stackOf (frames.take fsi) (frames.getD fsi ([], default)).1, a ∈ d.arcStack :=
    fun a ha => by rw [h.stack_eq, hsplit]; exact List.mem_append_left _ ha
  -- the branch arcs the cut removes
  have hcut : ∀ i, fsi ≤ i → i < frames.length →
      d.branchArc i ∈ (frames.getD fsi ([], default)).2 :: stackOf (frames.drop (fsi + 1)) top := by
    intro i hi hi'
    rw [h.branchArc_eq hi']
    rcases Nat.eq_or_lt_of_le hi with rfl | hi
    · exact List.mem_cons_self _ _
    · refine List.mem_cons_of_mem _ ((mem_stackOf _).mpr (.inl ⟨frames.getD i ([], default),
        ?_, .inr rfl⟩))
      rw [List.getD_eq_getElem _ _ hi']
      exact List.mem_iff_getElem.mpr ⟨i - (fsi + 1), by simp; omega,
        by simp [List.getElem_drop]; congr 1; omega⟩
  have hstack : d.arcStack.take (d.indexBranch.getD fsi 0) =
      stackOf (frames.take fsi) (frames.getD fsi ([], default)).1 := by
    rw [h.stack_eq, h.branch_eq, hnew]
  -- the nodes the cut takes off the branch are those it unvisits
  have hcutnode : ∀ i ∈ downFrom k frames.length, fsi ≤ i →
      g.head (d.branchArc i) ∉ branchNodes g source (frames.take fsi) := by
    intro i hi hfi hv
    obtain ⟨j, hj, e⟩ := (mem_branchNodes_take hfm.le).mp hv
    rw [h.head_branchArc (mem_downFrom.mp hi).2] at e
    have := lastNode_take_injective h.nodes_nodup (by omega) (mem_downFrom.mp hi).2 e
    omega
  have hnode : ∀ v ∈ branchNodes g source frames, v ∉ branchNodes g source (frames.take fsi) →
      ∃ i ∈ downFrom k frames.length, fsi ≤ i ∧ g.head (d.branchArc i) = v := by
    intro v hv hv'
    obtain ⟨j, hj, rfl⟩ := mem_branchNodes.mp hv
    have : fsi < j := by
      by_contra hle; exact hv' ((mem_branchNodes_take hfm.le).mpr ⟨j, by omega, rfl⟩)
    refine ⟨j - 1, mem_downFrom.mpr ⟨by omega, by omega⟩, by omega, ?_⟩
    rw [h.head_branchArc (by omega), Nat.sub_add_cancel (by omega)]
  have hsub : ∀ v ∈ branchNodes g source (frames.take fsi), v ∈ branchNodes g source frames :=
    fun v hv => by rw [branchNodes_take] at hv; exact List.mem_of_mem_take hv
  refine
    { stack_eq := hstack
      branch_eq := by show d.indexBranch.take fsi = _; rw [h.branch_eq, take_branchIndices]
      frame_arcs := fun i hi a ha => ?_
      top_arcs := fun a ha => h.frame_arcs fsi hfm a (List.mem_append_left _ ha)
      nodes_nodup := by rw [branchNodes_take]; exact h.nodes_nodup.sublist (List.take_sublist _ _)
      stack_nodup := h.stack_nodup.sublist (List.take_sublist _ _)
      stack_flow := fun a ha => ?_
      visited_iff := fun v => ?_
      nodes_not_stored := fun v hv => h.nodes_not_stored v (hsub v hv)
      stored_iff := h.stored_iff
      order_nodup := h.order_nodup
      sink_not_mem := h.sink_not_mem
      order_closed := fun pre x post ho c hc hct hcf => h.order_closed pre x post ho c hc hct
        (lt_of_lt_of_le hcf (h.flow_cancel_le hb hbt hk hc))
      branch_closed := fun v hv c hc hct hcf => ?_
      rest_arcs := fun a ha => absurd ha (List.not_mem_nil _)
      rest_nodup := List.nodup_nil
      residual_nonneg := fun a ha => h.residual_cancel_nonneg hb hbt hk ha
      flow_le := fun a ha => (h.flow_cancel_le hb hbt hk ha).trans (h.flow_le a ha)
      excess_eq := (h.excess_cancel hbt hk hbk).trans h.excess_eq
      pushes := h.pushes_cancel hb }
  · rw [List.length_take, lt_min_iff] at hi
    rw [List.take_take, min_eq_left hi.1.le]
    rw [List.getD_eq_getElem?_getD, List.getElem?_take_of_lt hi.1, ← List.getD_eq_getElem?_getD] at ha
    exact h.frame_arcs i hi.2 a ha
  · have ha' : a ∈ stackOf (frames.take fsi) (frames.getD fsi ([], default)).1 := hstack ▸ ha
    have had : g.isArcDirect a = true := by
      obtain ⟨_, _, hl⟩ := h.leaves_of_mem_stack (hold a ha'); exact hl.1
    show 0 < s'.flow g a
    rw [h.flow_cancel hb hbt had]
    split_ifs with hac
    · rcases List.mem_cons.mp hac with rfl | hac
      · exact absurd (hold a ha') hbs
      · obtain ⟨i, hi, rfl⟩ := List.mem_map.mp hac
        by_cases hfi : fsi ≤ i
        · exact absurd (hcut i hfi (mem_downFrom.mp hi).2) (hdisj _ ha')
        · have := hr.lt_arc i (mem_downFrom.mp hi).1 (by omega); omega
    · simpa using h.stack_flow a (hold a ha')
  · show (if _ then false else d.visited v) = true ↔
      d.stored v = true ∨ v ∈ branchNodes g source (frames.take fsi)
    split_ifs with hv
    · obtain ⟨i, hi, hfi, rfl⟩ := hv
      have hbn : g.head (d.branchArc i) ∈ branchNodes g source frames := by
        rw [h.head_branchArc (mem_downFrom.mp hi).2]
        exact mem_branchNodes.mpr ⟨_, (mem_downFrom.mp hi).2, rfl⟩
      simp only [Bool.false_eq_true, false_iff, not_or, h.nodes_not_stored _ hbn]
      exact ⟨by simp, hcutnode i hi hfi⟩
    · rw [h.visited_iff]
      refine or_congr_right ⟨fun hv' => ?_, hsub v⟩
      by_contra hn; exact hv (hnode v hv' hn)
  · change 0 < s'.flow g c at hcf
    have hcf' : 0 < d.state.flow g c := lt_of_lt_of_le hcf (h.flow_cancel_le hb hbt hk hc)
    obtain ⟨j, hj, rfl⟩ := (mem_branchNodes_take hfm.le).mp hv
    rcases h.branch_closed _ (hsub _ hv) c hc hct hcf' with hs | hs | ⟨hv', -⟩
    · rw [h.stack_eq, hsplit] at hs
      rcases List.mem_append.mp hs with hs | hs
      · exact .inl (by show c ∈ d.arcStack.take _; rw [hstack]; exact hs)
      · exfalso
        rcases List.mem_cons.mp hs with rfl | hs
        · rw [← h.branchArc_eq hfm, h.flow_cancel hb hbt (h.leaves_branchArc hfm).1,
            if_pos (branchArc_mem_cycleArcs d b hkf hfm),
            hr.arc_eq hfm] at hcf
          simp at hcf
        · obtain ⟨j', hj', hj'm, hl⟩ := h.leaves_of_mem_drop (by omega) hs
          rw [hl.2.1] at hct
          have := lastNode_take_injective h.nodes_nodup hj'm (by omega) hct
          omega
    · exact .inr (.inl hs)
    · exfalso
      have := lastNode_take_injective h.nodes_nodup (i := j) (j := frames.length) (by omega) le_rfl
        (by rw [hv', List.take_of_length_le le_rfl])
      omega

omit hbs in
theorem cancel_flow_le {a : ArcIndex} (ha : g.isArcDirect a = true) :
    d'.state.flow g a ≤ d.state.flow g a := by
  rw [h.cancelCycle_eq hb hbt hk hbk, Option.some.injEq, Prod.mk.injEq] at hc
  obtain ⟨rfl, rfl⟩ := hc
  exact h.flow_cancel_le hb hbt hk ha

omit hbs in
/-- A cancellation empties an arc that carried flow: the closing arc, or the
branch arc at `first_saturated_index`. -/
theorem cancel_saturates (hbf : 0 < d.state.flow g b) :
    ∃ c, g.isArcDirect c = true ∧ 0 < d.state.flow g c ∧ d'.state.flow g c = 0 := by
  rw [h.cancelCycle_eq hb hbt hk hbk, Option.some.injEq, Prod.mk.injEq] at hc
  obtain ⟨rfl, rfl⟩ := hc
  have hr := cycleMin_spec g d b hk
  rcases Nat.lt_or_ge (cycleMin g d b k frames.length).2 frames.length with hlt | hge
  · have hc := (h.leaves_branchArc hlt).1
    refine ⟨_, hc, h.stack_flow _ (h.branchArc_mem hlt), ?_⟩
    rw [h.flow_cancel hb hbt hc, if_pos (branchArc_mem_cycleArcs d b hr.lo_le hlt),
      hr.arc_eq hlt, sub_self]
  · refine ⟨b, hb, hbf, ?_⟩
    rw [h.flow_cancel hb hbt hb, if_pos (mem_cycleArcs_self d b k _),
      ← hr.flow_eq (le_antisymm hr.le_size hge), sub_self]

end Scan

end Search

end OrTools.MaxFlow

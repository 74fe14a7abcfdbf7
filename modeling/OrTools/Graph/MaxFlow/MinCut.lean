import OrTools.Graph.MaxFlow.Reachable
import OrTools.Graph.MaxFlow.Paths
import OrTools.Graph.MaxFlow.Feasible

/-!
# Maximum flows and minimum cuts

What makes the flow a state holds maximum, said of the network alone: a
`FeasibleFlow` puts on each direct arc a value between 0 and its capacity and
is conserved at every node but the source and the sink; its value is its net
inflow at the sink; a cut is a set of nodes with the source and without the
sink, and its capacity is that of the direct arcs leaving it.

The solver's state holds such a flow (`Flow(arc)` on each direct arc) once no
residual capacity is negative and no node but the source and the sink has
excess.  Two facts make `AugmentingPathExists()` the optimality test that
`CheckResult()` and `Solve()` use it as:

* no flow is worth more than any cut, and when the sink cannot be reached the
  state's flow is worth exactly the cut `GetSourceSideMinCut()` returns: its
  arcs out are full and its arcs in are empty;
* when the sink can be reached, one unit pushed along a residual path that
  uses each arc once gives a flow worth one more.
-/

set_option autoImplicit false

namespace OrTools.MaxFlow

open Finset Relation

variable (g : Graph)

/-- The net inflow at `v` of the values `f i` on the direct arcs `i`. -/
def inflow (f : Nat → Int) (v : Nat) : Int :=
  ∑ i ∈ range g.numArcs, ((if g.headOf i = v then f i else 0) - (if g.tailOf i = v then f i else 0))

/-- A flow from `source` to `sink` of the network with capacity `cap i` on each
direct arc `i`. -/
structure FeasibleFlow (source sink : Nat) (cap f : Nat → Int) : Prop where
  nonneg : ∀ i < g.numArcs, 0 ≤ f i
  le_cap : ∀ i < g.numArcs, f i ≤ cap i
  conserve : ∀ v < g.numNodes, v ≠ source → v ≠ sink → inflow g f v = 0

/-- The value of a flow: its net inflow at the sink. -/
def flowValue (sink : Nat) (f : Nat → Int) : Int := inflow g f sink

/-- The capacity of the cut between the nodes of `S` and the others. -/
def cutCapacity (cap : Nat → Int) (S : Nat → Prop) [DecidablePred S] : Int :=
  ∑ i ∈ range g.numArcs, if S (g.tailOf i) ∧ ¬ S (g.headOf i) then cap i else 0

namespace State

/-- `Flow(arc)` of each direct arc. -/
def flowOf (s : State) (i : Nat) : Int := s.flow g (.direct i)

/-- `Capacity(arc)` of each direct arc. -/
def capacityOf (s : State) (i : Nat) : Int := s.capacity g (.direct i)

theorem netInflow_eq_inflow (s : State) (v : Nat) : s.netInflow g v = inflow g (s.flowOf g) v := rfl

end State

variable {g}

/-! ## Flows and cuts -/

section Duality

variable {source sink : Nat} {cap f : Nat → Int}

/-- A flow only reads the capacities of the arcs of the graph. -/
theorem FeasibleFlow.congr_cap {cap' : Nat → Int} (h : FeasibleFlow g source sink cap f)
    (hc : ∀ i < g.numArcs, cap i = cap' i) : FeasibleFlow g source sink cap' f :=
  ⟨h.nonneg, fun i hi => hc i hi ▸ h.le_cap i hi, h.conserve⟩

/-- Summed over the nodes of the graph outside `S`, the net inflows count each
arc into the complement once positively and each arc out of it once
negatively. -/
theorem sum_inflow_compl (f : Nat → Int) (S : Nat → Prop) [DecidablePred S] :
    ∑ v ∈ (range g.numNodes).filter (¬ S ·), inflow g f v =
      ∑ i ∈ range g.numArcs,
        ((if ¬ S (g.headOf i) then f i else 0) - (if ¬ S (g.tailOf i) then f i else 0)) := by
  unfold inflow
  rw [sum_comm]
  refine sum_congr rfl fun i hi => ?_
  have hi := mem_range.mp hi
  rw [sum_sub_distrib, sum_ite_eq, sum_ite_eq]
  simp [g.headOf_lt i hi, g.tailOf_lt i hi]

/-- The value of a flow is what crosses any cut: the flow on the arcs into the
sink's side minus the flow on the arcs out of it. -/
theorem flowValue_eq_crossing (hf : FeasibleFlow g source sink cap f) (hsink : sink < g.numNodes)
    {S : Nat → Prop} [DecidablePred S] (hs : S source) (ht : ¬ S sink) :
    flowValue g sink f = ∑ i ∈ range g.numArcs,
      ((if ¬ S (g.headOf i) then f i else 0) - (if ¬ S (g.tailOf i) then f i else 0)) := by
  rw [← sum_inflow_compl, flowValue, sum_eq_single_of_mem sink (by simp [hsink, ht])]
  intro v hv hne
  rw [mem_filter, mem_range] at hv
  exact hf.conserve v hv.1 (fun e => hv.2 (e ▸ hs)) hne

/-- Weak duality: no flow is worth more than a cut. -/
theorem flowValue_le_cutCapacity (hf : FeasibleFlow g source sink cap f) (hsink : sink < g.numNodes)
    {S : Nat → Prop} [DecidablePred S] (hs : S source) (ht : ¬ S sink) :
    flowValue g sink f ≤ cutCapacity g cap S := by
  rw [flowValue_eq_crossing hf hsink hs ht, cutCapacity]
  refine sum_le_sum fun i hi => ?_
  have h₀ := hf.nonneg i (mem_range.mp hi)
  have h₁ := hf.le_cap i (mem_range.mp hi)
  by_cases hh : S (g.headOf i) <;> by_cases ht : S (g.tailOf i) <;> simp [hh, ht] <;> omega

/-- A flow that fills every arc out of a cut and empties every arc into it is
worth the cut's capacity. -/
theorem flowValue_eq_cutCapacity (hf : FeasibleFlow g source sink cap f) (hsink : sink < g.numNodes)
    {S : Nat → Prop} [DecidablePred S] (hs : S source) (ht : ¬ S sink)
    (hout : ∀ i < g.numArcs, S (g.tailOf i) → ¬ S (g.headOf i) → f i = cap i)
    (hin : ∀ i < g.numArcs, ¬ S (g.tailOf i) → S (g.headOf i) → f i = 0) :
    flowValue g sink f = cutCapacity g cap S := by
  rw [flowValue_eq_crossing hf hsink hs ht, cutCapacity]
  refine sum_congr rfl fun i hi => ?_
  have hi := mem_range.mp hi
  by_cases hh : S (g.headOf i) <;> by_cases ht : S (g.tailOf i) <;> simp [hh, ht, hout i hi, hin i hi]

end Duality

/-! ## The flow of the state -/

variable (g) in
/-- The state holds a flow from `source` to `sink`: no residual capacity is
negative, every excess is the net inflow at its node, and no node of the graph
but the source and the sink has excess. -/
structure HoldsFlow (source sink : Nat) (s : State) : Prop where
  residual_nonneg : ∀ a, g.IsArcValid a → 0 ≤ s.residualArcCapacity a
  conserves : s.Conserves g
  balanced : ∀ v < g.numNodes, v ≠ source → v ≠ sink → s.nodeExcess v = 0

section State

variable {source sink : Nat} {s : State}

/-- The invariant of the solver, with no excess left but at the source and the
sink, is a flow. -/
theorem Preflow.holdsFlow (h : Preflow g source sink s) (hb : Balanced source sink s) :
    HoldsFlow g source sink s :=
  ⟨h.residual_nonneg, h.conserves, fun v _ => hb v⟩

/-- A state holding a flow puts a flow of its capacities on the direct arcs,
worth `GetOptimalFlow()`. -/
theorem HoldsFlow.feasibleFlow (h : HoldsFlow g source sink s) :
    FeasibleFlow g source sink (s.capacityOf g) (s.flowOf g) ∧
      flowValue g sink (s.flowOf g) = getOptimalFlow sink s := by
  refine ⟨⟨fun i hi => ?_, fun i hi => ?_, fun v hv hs ht => ?_⟩, (h.conserves sink).symm⟩
  · rw [State.flowOf, State.flow_direct hi]; exact h.residual_nonneg _ hi
  · rw [State.flowOf, State.capacityOf, State.flow_direct hi, State.capacity_direct hi]
    have := h.residual_nonneg (.direct i) hi
    omega
  · rw [← State.netInflow_eq_inflow, ← h.conserves v]; exact h.balanced v hv hs ht

/-- With no negative residual capacity, the arcs of non-zero residual capacity
are those of positive residual capacity. -/
theorem reflTransGen_reachStep_iff (hres : ∀ a, g.IsArcValid a → 0 ≤ s.residualArcCapacity a)
    {u v : Nat} : ReflTransGen (ReachStep g false s) u v ↔ Reaches g s (fun _ => True) u v := by
  constructor
  · intro h
    induction h with
    | refl => exact ⟨0, .nil trivial⟩
    | tail _ hxy ih =>
      obtain ⟨k, p⟩ := ih
      obtain ⟨a, ha, rfl, rfl, hr⟩ := hxy
      have hr : 0 < s.residualArcCapacity a := lt_of_le_of_ne (hres a ha) (Ne.symm hr)
      exact ⟨k + (0 + 1), p.append (.cons ha hr trivial (.nil trivial))⟩
  · rintro ⟨k, p⟩
    induction p with
    | nil _ => exact .refl
    | cons ha hr _ _ ih => exact .head ⟨_, ha, rfl, rfl, ne_of_gt hr⟩ ih

/-- `GetSourceSideMinCut()` holds the nodes reachable from the source through
arcs of positive residual capacity. -/
theorem mem_getSourceSideMinCut_iff (hsource : source < g.numNodes)
    (hres : ∀ a, g.IsArcValid a → 0 ≤ s.residualArcCapacity a) {v : Nat} :
    v ∈ getSourceSideMinCut g source s ↔ Reaches g s (fun _ => True) source v :=
  (mem_computeReachableNodes_iff hsource).trans (reflTransGen_reachStep_iff hres)

/-- `GetSinkSideMinCut()` holds the nodes from which the sink can be reached
through arcs of positive residual capacity. -/
theorem mem_getSinkSideMinCut_iff (hsink : sink < g.numNodes)
    (hres : ∀ a, g.IsArcValid a → 0 ≤ s.residualArcCapacity a) {v : Nat} :
    v ∈ getSinkSideMinCut g sink s ↔ Reaches g s (fun _ => True) v sink := by
  rw [getSinkSideMinCut, mem_computeReachableNodes_iff hsink, reachStep_reverse, reflTransGen_swap]
  exact reflTransGen_reachStep_iff hres

/-- No arc of non-zero residual capacity leaves `GetSourceSideMinCut()`. -/
theorem getSourceSideMinCut_closed (hsource : source < g.numNodes) (a : ArcIndex) (ha : g.IsArcValid a)
    (hu : g.tail a ∈ getSourceSideMinCut g source s) (hr : s.residualArcCapacity a ≠ 0) :
    g.head a ∈ getSourceSideMinCut g source s :=
  (mem_computeReachableNodes_iff hsource).mpr
    (((mem_computeReachableNodes_iff hsource).mp hu).tail ⟨a, ha, rfl, rfl, hr⟩)

/-- No arc of non-zero residual capacity enters `GetSinkSideMinCut()` from
outside it. -/
theorem getSinkSideMinCut_closed (hsink : sink < g.numNodes) (a : ArcIndex) (ha : g.IsArcValid a)
    (hu : g.tail a ∉ getSinkSideMinCut g sink s) (hr : s.residualArcCapacity a ≠ 0) :
    g.head a ∉ getSinkSideMinCut g sink s := fun hv =>
  hu <| (mem_computeReachableNodes_iff hsink).mpr <| ((mem_computeReachableNodes_iff hsink).mp hv).tail
    ⟨a.opposite, (g.isArcValid_opposite a).mpr ha, g.tail_opposite a, g.head_opposite a, by simpa using hr⟩

/-- A set of nodes with the source and without the sink that no arc of
non-zero residual capacity leaves is a minimum cut: the flow of the state fills
every arc out of it and empties every arc into it, so it is worth the cut's
capacity, and by weak duality no flow is worth more and no cut has less. -/
theorem HoldsFlow.minimum_of_closed (h : HoldsFlow g source sink s) (hsink : sink < g.numNodes)
    {S : Nat → Prop} [DecidablePred S] (hs : S source) (ht : ¬ S sink)
    (hclosed : ∀ a, g.IsArcValid a → S (g.tail a) → s.residualArcCapacity a ≠ 0 → S (g.head a)) :
    (∀ f, FeasibleFlow g source sink (s.capacityOf g) f → flowValue g sink f ≤ getOptimalFlow sink s) ∧
      getOptimalFlow sink s = cutCapacity g (s.capacityOf g) S ∧
      ∀ (T : Nat → Prop) [DecidablePred T], T source → ¬ T sink →
        cutCapacity g (s.capacityOf g) S ≤ cutCapacity g (s.capacityOf g) T := by
  obtain ⟨hf, hv⟩ := h.feasibleFlow
  have hcut : getOptimalFlow sink s = cutCapacity g (s.capacityOf g) S := by
    rw [← hv]
    refine flowValue_eq_cutCapacity hf hsink hs ht (fun i hi ht hh => ?_) (fun i hi ht hh => ?_)
    · rw [State.flowOf, State.capacityOf, State.flow_direct hi, State.capacity_direct hi]
      by_contra hne
      exact hh (hclosed (.direct i) hi ht (by omega))
    · rw [State.flowOf, State.flow_direct hi]
      by_contra hne
      exact ht (hclosed (.reverse i) hi hh hne)
  refine ⟨fun f hf' => hcut ▸ flowValue_le_cutCapacity hf' hsink hs ht, hcut, fun T _ hs ht => ?_⟩
  rw [← hcut, ← hv]
  exact flowValue_le_cutCapacity hf hsink hs ht

/-- When the sink cannot be reached, `GetSourceSideMinCut()` is a minimum cut,
worth `GetOptimalFlow()`. -/
theorem HoldsFlow.getSourceSideMinCut_minimum (h : HoldsFlow g source sink s)
    (hsource : source < g.numNodes) (hsink : sink < g.numNodes)
    (hno : ¬ Reaches g s (fun _ => True) source sink) :
    (∀ f, FeasibleFlow g source sink (s.capacityOf g) f → flowValue g sink f ≤ getOptimalFlow sink s) ∧
      getOptimalFlow sink s = cutCapacity g (s.capacityOf g) (· ∈ getSourceSideMinCut g source s) ∧
      ∀ (T : Nat → Prop) [DecidablePred T], T source → ¬ T sink →
        cutCapacity g (s.capacityOf g) (· ∈ getSourceSideMinCut g source s) ≤
          cutCapacity g (s.capacityOf g) T :=
  have hmem := fun v => mem_getSourceSideMinCut_iff (v := v) hsource h.residual_nonneg
  h.minimum_of_closed hsink ((hmem source).mpr ⟨0, .nil trivial⟩) (fun h => hno ((hmem sink).mp h))
    (getSourceSideMinCut_closed hsource)

/-- A false `AugmentingPathExists()` is a proof that no residual path joins the
source to the sink. -/
theorem not_reaches_of_augmentingPathExists_eq_false (hsource : source < g.numNodes)
    (ha : augmentingPathExists g source sink s = false) : ¬ Reaches g s (fun _ => True) source sink :=
  fun hr => by rw [(augmentingPathExists_iff s hsource sink).mpr hr] at ha; cases ha

/-- When the sink can be reached, one unit pushed along a residual path that
uses each arc once gives a flow of the same capacities worth one more. -/
theorem HoldsFlow.exists_succ (h : HoldsFlow g source sink s) (hne : source ≠ sink)
    (hreach : Reaches g s (fun _ => True) source sink) :
    ∃ f, FeasibleFlow g source sink (s.capacityOf g) f ∧ flowValue g sink f = getOptimalFlow sink s + 1 := by
  obtain ⟨k, p⟩ := hreach
  obtain ⟨arcs, hpath⟩ := ResidualPath.of_walk p
  obtain ⟨arcs, hnd, -, hpath⟩ := hpath.exists_nodup
  have hmoves : Moves g s (pushAll g 1 arcs s) :=
    (pushAll_pushes g 1 arcs s fun a ha => (hpath.mem a ha).1).moves
  have hex : ∀ v, (pushAll g 1 arcs s).nodeExcess v =
      s.nodeExcess v + ((if v = sink then 1 else 0) - (if v = source then 1 else 0)) := fun v => by
    rw [pushAll_excess, ← hpath.count_head_sub_count_tail v]
    ring
  have h' : HoldsFlow g source sink (pushAll g 1 arcs s) := by
    refine ⟨fun a ha => ?_, hmoves.conserves h.conserves, fun v hv hs ht => ?_⟩
    · rw [pushAll_residual]
      have hle := List.nodup_iff_count_le_one.mp hnd a
      have := h.residual_nonneg a ha
      by_cases hm : a ∈ arcs
      · have := (hpath.mem a hm).2
        omega
      · rw [List.count_eq_zero_of_not_mem hm]
        omega
    · rw [hex v, h.balanced v hv hs ht, if_neg ht, if_neg hs]; rfl
  obtain ⟨hf, hv⟩ := h'.feasibleFlow
  refine ⟨_, hf.congr_cap fun i _ => hmoves.capacity _, ?_⟩
  rw [hv, getOptimalFlow, hex sink, if_pos rfl, if_neg (Ne.symm hne), getOptimalFlow]
  ring

/-- The flow of a state is maximum exactly when `AugmentingPathExists()` is
false. -/
theorem HoldsFlow.augmentingPathExists_eq_false_iff (h : HoldsFlow g source sink s)
    (hsource : source < g.numNodes) (hsink : sink < g.numNodes) (hne : source ≠ sink) :
    augmentingPathExists g source sink s = false ↔
      ∀ f, FeasibleFlow g source sink (s.capacityOf g) f → flowValue g sink f ≤ getOptimalFlow sink s := by
  constructor
  · intro ha
    exact (h.getSourceSideMinCut_minimum hsource hsink
      (not_reaches_of_augmentingPathExists_eq_false hsource ha)).1
  · intro hmax
    cases ha : augmentingPathExists g source sink s
    · rfl
    · obtain ⟨f, hf, hv⟩ := h.exists_succ hne ((augmentingPathExists_iff s hsource sink).mp ha)
      have := hmax f hf
      omega

end State

/-! ## What `AugmentingPathExists()` certifies -/

section Optimality

variable {source sink : Nat} {s : State}

/-- **`AugmentingPathExists()` is false exactly when the flow of the state is
maximum.**  On a state holding a flow between two distinct nodes of the graph,
no flow of the state's capacities is worth more than `GetOptimalFlow()` if and
only if `AugmentingPathExists()` is false; and then `GetSourceSideMinCut()` is a
minimum cut, of capacity `GetOptimalFlow()`. -/
theorem maximum_iff_not_augmentingPathExists (h : HoldsFlow g source sink s)
    (hsource : source < g.numNodes) (hsink : sink < g.numNodes) (hne : source ≠ sink) :
    (augmentingPathExists g source sink s = false ↔
        ∀ f, FeasibleFlow g source sink (s.capacityOf g) f → flowValue g sink f ≤ getOptimalFlow sink s) ∧
      (augmentingPathExists g source sink s = false →
        getOptimalFlow sink s = cutCapacity g (s.capacityOf g) (· ∈ getSourceSideMinCut g source s) ∧
          ∀ (T : Nat → Prop) [DecidablePred T], T source → ¬ T sink →
            cutCapacity g (s.capacityOf g) (· ∈ getSourceSideMinCut g source s) ≤
              cutCapacity g (s.capacityOf g) T) := by
  refine ⟨h.augmentingPathExists_eq_false_iff hsource hsink hne, fun ha => ?_⟩
  exact (h.getSourceSideMinCut_minimum hsource hsink
    (not_reaches_of_augmentingPathExists_eq_false hsource ha)).2

/-- On the arc `0 → 1` of capacity 5, `Solve()` from 0 to 1 returns a state
holding a flow. -/
theorem holdsFlow_solve_on_edge :
    let g : Graph := Graph.ofArcs 2 [(0, 1)] (by decide)
    solve g 0 1 4 (State.init.setArcCapacity g (.direct 0) 5) =
        some ((solve g 0 1 4 (State.init.setArcCapacity g (.direct 0) 5)).getD State.init) ∧
      HoldsFlow g 0 1 ((solve g 0 1 4 (State.init.setArcCapacity g (.direct 0) 5)).getD State.init) := by
  intro g
  obtain ⟨x, hx⟩ := Option.isSome_iff_exists.mp
    (show (solve g 0 1 4 (State.init.setArcCapacity g (.direct 0) 5)).isSome = true by decide)
  rw [hx]
  have hset := Settled.init.replay _ (by decide) (show replay g 0 1 4 [Call.setArcCapacity 0 5]
    State.init = some (State.init.setArcCapacity g (.direct 0) 5) from rfl)
  obtain ⟨hp, hb, -⟩ := preflow_solve hset
    (fun i _ => foldl_capacityAfter_nonneg _ (fun _ => le_rfl) (by simp) i) (by decide) hx
  exact ⟨rfl, hp.holdsFlow hb⟩

theorem maximum_iff_not_augmentingPathExists_on_edge :
    let g : Graph := Graph.ofArcs 2 [(0, 1)] (by decide)
    let s' := (solve g 0 1 4 (State.init.setArcCapacity g (.direct 0) 5)).getD State.init
    HoldsFlow g 0 1 s' ∧
      ((augmentingPathExists g 0 1 s' = false ↔
          ∀ f, FeasibleFlow g 0 1 (s'.capacityOf g) f → flowValue g 1 f ≤ getOptimalFlow 1 s') ∧
        (augmentingPathExists g 0 1 s' = false →
          getOptimalFlow 1 s' = cutCapacity g (s'.capacityOf g) (· ∈ getSourceSideMinCut g 0 s') ∧
            ∀ (T : Nat → Prop) [DecidablePred T], T 0 → ¬ T 1 →
              cutCapacity g (s'.capacityOf g) (· ∈ getSourceSideMinCut g 0 s') ≤
                cutCapacity g (s'.capacityOf g) T)) :=
  ⟨holdsFlow_solve_on_edge.2, maximum_iff_not_augmentingPathExists holdsFlow_solve_on_edge.2
    (by decide) (by decide) (by decide)⟩

/-- **`GetSinkSideMinCut()` gives a minimum cut from the sink's side.**  On a
state holding a flow, `GetSinkSideMinCut()` holds the nodes from which the sink
can be reached through arcs of positive residual capacity; and when
`AugmentingPathExists()` is false, the nodes outside it form a cut of capacity
`GetOptimalFlow()`, and no cut has less. -/
theorem getSinkSideMinCut_minimum (h : HoldsFlow g source sink s) (hsource : source < g.numNodes)
    (hsink : sink < g.numNodes) :
    (∀ v, v ∈ getSinkSideMinCut g sink s ↔ Reaches g s (fun _ => True) v sink) ∧
      (augmentingPathExists g source sink s = false →
        getOptimalFlow sink s = cutCapacity g (s.capacityOf g) (· ∉ getSinkSideMinCut g sink s) ∧
          ∀ (T : Nat → Prop) [DecidablePred T], T source → ¬ T sink →
            cutCapacity g (s.capacityOf g) (· ∉ getSinkSideMinCut g sink s) ≤
              cutCapacity g (s.capacityOf g) T) := by
  have hmem := fun v => mem_getSinkSideMinCut_iff (v := v) hsink h.residual_nonneg
  refine ⟨hmem, fun ha => ?_⟩
  have hno := not_reaches_of_augmentingPathExists_eq_false hsource ha
  exact (h.minimum_of_closed hsink (fun hs => hno ((hmem source).mp hs))
    (fun ht => ht ((hmem sink).mpr ⟨0, .nil trivial⟩)) (getSinkSideMinCut_closed hsink)).2

theorem getSinkSideMinCut_minimum_on_edge :
    let g : Graph := Graph.ofArcs 2 [(0, 1)] (by decide)
    let s' := (solve g 0 1 4 (State.init.setArcCapacity g (.direct 0) 5)).getD State.init
    HoldsFlow g 0 1 s' ∧
      ((∀ v, v ∈ getSinkSideMinCut g 1 s' ↔ Reaches g s' (fun _ => True) v 1) ∧
        (augmentingPathExists g 0 1 s' = false →
          getOptimalFlow 1 s' = cutCapacity g (s'.capacityOf g) (· ∉ getSinkSideMinCut g 1 s') ∧
            ∀ (T : Nat → Prop) [DecidablePred T], T 0 → ¬ T 1 →
              cutCapacity g (s'.capacityOf g) (· ∉ getSinkSideMinCut g 1 s') ≤
                cutCapacity g (s'.capacityOf g) T)) :=
  ⟨holdsFlow_solve_on_edge.2, getSinkSideMinCut_minimum holdsFlow_solve_on_edge.2 (by decide) (by decide)⟩

/-- **What a pass of `CheckResult()` certifies.**  On a state whose excesses
are the net inflows at its nodes, `CheckResult()` returning true with
`GetOptimalFlow()` below `kMaxFlowQuantity` means that no flow of the state's
capacities is worth more than `GetOptimalFlow()`, and that
`GetSourceSideMinCut()` is a minimum cut of that capacity. -/
theorem checkResult_maximum (hsource : source < g.numNodes) (hsink : sink < g.numNodes)
    (hcons : s.Conserves g) (hcheck : checkResult g source sink s = true)
    (hlt : getOptimalFlow sink s < kMaxFlowQuantity) :
    (∀ f, FeasibleFlow g source sink (s.capacityOf g) f → flowValue g sink f ≤ getOptimalFlow sink s) ∧
      getOptimalFlow sink s = cutCapacity g (s.capacityOf g) (· ∈ getSourceSideMinCut g source s) ∧
      ∀ (T : Nat → Prop) [DecidablePred T], T source → ¬ T sink →
        cutCapacity g (s.capacityOf g) (· ∈ getSourceSideMinCut g source s) ≤
          cutCapacity g (s.capacityOf g) T := by
  simp only [checkResult, Bool.and_eq_true, List.all_eq_true, List.mem_range, Bool.or_eq_true,
    beq_iff_eq, decide_eq_true_eq, Bool.not_eq_true', Bool.and_eq_false_iff,
    decide_eq_false_iff_not] at hcheck
  obtain ⟨⟨⟨-, hnodes⟩, harcs⟩, hpath⟩ := hcheck
  have h : HoldsFlow g source sink s := by
    refine ⟨fun a ha => ?_, hcons, fun v hv hs ht => (hnodes v hv).resolve_left (by tauto)⟩
    cases a with
    | direct i => exact (harcs i ha).1.1
    | reverse i => exact (harcs i ha).1.2
  have hno : ¬ Reaches g s (fun _ => True) source sink := fun hr => by
    rw [(augmentingPathExists_iff s hsource sink).mpr hr] at hpath
    simp [hlt] at hpath
  exact h.getSourceSideMinCut_minimum hsource hsink hno

theorem checkResult_maximum_on_edge :
    let g : Graph := Graph.ofArcs 2 [(0, 1)] (by decide)
    let s' := (solve g 0 1 4 (State.init.setArcCapacity g (.direct 0) 5)).getD State.init
    s'.Conserves g ∧ checkResult g 0 1 s' = true ∧ getOptimalFlow 1 s' < kMaxFlowQuantity ∧
      ((∀ f, FeasibleFlow g 0 1 (s'.capacityOf g) f → flowValue g 1 f ≤ getOptimalFlow 1 s') ∧
        getOptimalFlow 1 s' = cutCapacity g (s'.capacityOf g) (· ∈ getSourceSideMinCut g 0 s') ∧
        ∀ (T : Nat → Prop) [DecidablePred T], T 0 → ¬ T 1 →
          cutCapacity g (s'.capacityOf g) (· ∈ getSourceSideMinCut g 0 s') ≤
            cutCapacity g (s'.capacityOf g) T) :=
  have hcheck : checkResult (Graph.ofArcs 2 [(0, 1)] (by decide)) 0 1 ((solve (Graph.ofArcs 2 [(0, 1)] (by decide))
      0 1 4 (State.init.setArcCapacity (Graph.ofArcs 2 [(0, 1)] (by decide)) (.direct 0) 5)).getD State.init) = true := by
    decide
  have hlt : getOptimalFlow 1 ((solve (Graph.ofArcs 2 [(0, 1)] (by decide)) 0 1 4
      (State.init.setArcCapacity (Graph.ofArcs 2 [(0, 1)] (by decide)) (.direct 0) 5)).getD State.init) <
        kMaxFlowQuantity := by
    decide
  ⟨holdsFlow_solve_on_edge.2.conserves, hcheck, hlt,
    checkResult_maximum (by decide) (by decide) holdsFlow_solve_on_edge.2.conserves hcheck hlt⟩

end Optimality

/-! ## What `Solve()` leaves -/

section Solve

variable {source sink fuel : Nat} {s s' : State}

/-- `Solve()` reports `INT_OVERFLOW` only with `GetOptimalFlow()` at
`kMaxFlowQuantity` and an augmenting path left. -/
theorem solve_intOverflow (h : solve g source sink fuel s = some s') (hst : s'.status = .intOverflow) :
    getOptimalFlow sink s' = kMaxFlowQuantity ∧ augmentingPathExists g source sink s' = true := by
  simp only [solve] at h
  split_ifs at h
  · cases h; cases hst
  split at h
  · cases h
  split_ifs at h with hover
  · cases h
    have (st : Status) (t : State) :
        augmentingPathExists g source sink { t with status := st } = augmentingPathExists g source sink t :=
      augmentingPathExists_congr
        (show ({ t with status := st } : State).residualArcCapacity = t.residualArcCapacity from rfl) _ _
    simp only [this] at hover ⊢
    exact hover
  · cases h; cases hst

/-- **What `Solve()` leaves.**  After any history of `SetArcCapacity()` calls on
direct arcs with non-negative capacities and `Solve()` calls, a `Solve()`
between two distinct nodes of the graph leaves a flow of the capacities last
set that is maximum exactly when `AugmentingPathExists()` is false; and when it
reports `INT_OVERFLOW`, some flow of those capacities is worth more than
`kMaxFlowQuantity`. -/
theorem solve_maximum_iff (source sink fuel fuel' : Nat) (calls : List Call)
    (hcalls : ∀ c ∈ calls, c.Valid g) (hcap : ∀ arc c, Call.setArcCapacity arc c ∈ calls → 0 ≤ c)
    (hsource : source < g.numNodes) (hsink : sink < g.numNodes) (hne : source ≠ sink)
    (hs : replay g source sink fuel calls State.init = some s) (h : solve g source sink fuel' s = some s') :
    (augmentingPathExists g source sink s' = false ↔
        ∀ f, FeasibleFlow g source sink (lastCapacity calls) f → flowValue g sink f ≤ getOptimalFlow sink s') ∧
      (s'.status = .intOverflow →
        ∃ f, FeasibleFlow g source sink (lastCapacity calls) f ∧ kMaxFlowQuantity < flowValue g sink f) := by
  have hset := Settled.init.replay calls hcalls hs
  obtain ⟨hp, hb, -⟩ := preflow_solve hset
    (fun i _ => foldl_capacityAfter_nonneg calls (fun _ => le_rfl) hcap i) hne h
  have hflow := hp.holdsFlow hb
  have hcapeq : ∀ i < g.numArcs, s'.capacityOf g i = lastCapacity calls i := (hset.solve h).capacity_eq
  have hcongr : ∀ f, FeasibleFlow g source sink (lastCapacity calls) f ↔
      FeasibleFlow g source sink (s'.capacityOf g) f := fun f =>
    ⟨fun hf => hf.congr_cap fun i hi => (hcapeq i hi).symm, fun hf => hf.congr_cap hcapeq⟩
  refine ⟨(hflow.augmentingPathExists_eq_false_iff hsource hsink hne).trans
    (forall_congr' fun f => imp_congr_left (hcongr f).symm), fun hst => ?_⟩
  obtain ⟨hk, hpath⟩ := solve_intOverflow h hst
  obtain ⟨f, hf, hv⟩ := hflow.exists_succ hne ((augmentingPathExists_iff s' hsource sink).mp hpath)
  exact ⟨f, (hcongr f).mpr hf, by rw [hv, hk]; omega⟩

theorem solve_maximum_iff_on_edge :
    let g : Graph := Graph.ofArcs 2 [(0, 1)] (by decide)
    let s' := (solve g 0 1 4 (State.init.setArcCapacity g (.direct 0) 5)).getD State.init
    (augmentingPathExists g 0 1 s' = false ↔
        ∀ f, FeasibleFlow g 0 1 (lastCapacity [Call.setArcCapacity 0 5]) f → flowValue g 1 f ≤ getOptimalFlow 1 s') ∧
      (s'.status = .intOverflow →
        ∃ f, FeasibleFlow g 0 1 (lastCapacity [Call.setArcCapacity 0 5]) f ∧ kMaxFlowQuantity < flowValue g 1 f) :=
  solve_maximum_iff 0 1 4 4 [Call.setArcCapacity 0 5] (by decide) (by simp) (by decide) (by decide) (by decide)
    rfl holdsFlow_solve_on_edge.1

end Solve

end OrTools.MaxFlow

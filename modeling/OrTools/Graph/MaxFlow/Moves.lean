import OrTools.Graph.MaxFlow.Solve
import OrTools.Graph.MaxFlow.GlobalUpdateSpec

/-!
# Every phase only moves flow

Each function of the solver changes the residual capacities and the excesses
only by pushes along valid arcs from their tails: `Moves` holds between the
state a call starts from and the state it returns.  Capacities, the residual
capacities of invalid arcs, conservation and the total excess follow for all
of them at once (`Moves.capacity` and its siblings).

The arcs pushed on are those the graph's iterators list, which are valid by the
graph contract; the cycle cancellation of `PushFlowExcessBackToSource()` pushes
on arcs of `arc_stack`, which only ever holds arcs from those iterators.

Along the way: a round of the first phase ends with the queue empty, and the
second phase does not touch it.
-/

set_option autoImplicit false

namespace OrTools.MaxFlow

open Function

variable {g : Graph}

/-! ## `SaturateOutgoingArcsFromSource()` -/

theorem saturateArcs_moves (source : Nat) :
    ∀ (arcs : List ArcIndex) (pushed : Bool) (s : State),
      (∀ a ∈ arcs, g.IsArcValid a ∧ g.tail a = source) →
      Moves g s (saturateArcs g source arcs pushed s).2 ∧
        (saturateArcs g source arcs pushed s).2.activeNodeByHeight = s.activeNodeByHeight
  | [], _, s, _ => ⟨.refl s, rfl⟩
  | a :: arcs, pushed, s, harcs => by
    have ha := harcs a (List.mem_cons_self _ _)
    have hrest := fun b hb => harcs b (List.mem_cons_of_mem a hb)
    have hpush : ∀ f, Moves g s (s.pushFlow g f source a) := fun f => by
      have := Moves.pushFlow (s := s) f ha.1; rwa [ha.2] at this
    simp only [saturateArcs]
    split_ifs
    · exact saturateArcs_moves source arcs pushed s hrest
    · exact ⟨.refl s, rfl⟩
    · exact ⟨hpush _, rfl⟩
    · obtain ⟨h1, h2⟩ := saturateArcs_moves source arcs true _ hrest
      exact ⟨(hpush _).trans h1, h2⟩

theorem saturateOutgoingArcsFromSource_moves (source sink : Nat) (s : State) :
    Moves g s (saturateOutgoingArcsFromSource g source sink s).2 ∧
      (saturateOutgoingArcsFromSource g source sink s).2.activeNodeByHeight =
        s.activeNodeByHeight := by
  simp only [saturateOutgoingArcsFromSource]
  split_ifs
  · exact ⟨.refl s, rfl⟩
  · exact ⟨.refl s, rfl⟩
  · exact saturateArcs_moves source _ false s fun a ha => g.valid_of_mem_outgoing ha

/-! ## `GlobalUpdate()` -/

theorem globalUpdateArc_moves (d : Nat) (b : Bfs) {arc : ArcIndex} (harc : g.IsArcValid arc) :
    Moves g b.state (globalUpdateArc g d b arc).state := by
  have hsteal : ∀ f, Moves g b.state (b.state.pushFlow g f (g.head arc) arc.opposite) := fun f => by
    have := Moves.pushFlow (s := b.state) f ((g.isArcValid_opposite arc).mpr harc)
    rwa [g.tail_opposite] at this
  dsimp only [globalUpdateArc]
  split_ifs
  · exact .refl _
  · exact hsteal _
  · exact (hsteal _).trans (Moves.of_eq rfl rfl)
  · exact Moves.of_eq rfl rfl
  · exact .refl _

theorem globalUpdateLoop_moves : ∀ (fuel : Nat) (b : Bfs),
    Moves g b.state (globalUpdateLoop g fuel b).state
  | 0, b => .refl _
  | fuel + 1, b => by
    rw [globalUpdateLoop]
    split_ifs
    · exact .refl _
    · refine Moves.trans ?_ (globalUpdateLoop_moves fuel _)
      have hfold : ∀ (arcs : List ArcIndex) (d : Nat) (b' : Bfs),
          (∀ a ∈ arcs, g.IsArcValid a) →
          Moves g b'.state (arcs.foldl (globalUpdateArc g d) b').state := by
        intro arcs d
        induction arcs with
        | nil => exact fun b' _ => .refl _
        | cons a arcs ih =>
          exact fun b' ha => (globalUpdateArc_moves d b' (ha a (List.mem_cons_self _ _))).trans
            (ih _ fun x hx => ha x (List.mem_cons_of_mem a hx))
      exact hfold _ _ { b with queueIndex := b.queueIndex + 1 }
        fun a ha => ((g.mem_adjacent_iff _ a).mp ha).1

theorem globalUpdate_moves (source sink : Nat) (s : State) :
    Moves g s (globalUpdate g source sink s) :=
  (globalUpdateLoop_moves _ _).trans
    (Moves.of_eq (globalUpdate_residual g source sink s) (globalUpdate_nodeExcess g source sink s))

/-! ## `Discharge(node)` and the queue loop -/

theorem dischargeScan_moves (node : Nat) : ∀ (arcs : List ArcIndex) (s : State),
    (∀ a ∈ arcs, g.IsArcValid a ∧ g.tail a = node) → Moves g s (dischargeScan g node arcs s).state
  | [], s, _ => .refl s
  | a :: arcs, s, harcs => by
    have ha := harcs a (List.mem_cons_self _ _)
    have hrest := fun b hb => harcs b (List.mem_cons_of_mem a hb)
    by_cases hadm : s.IsAdmissible g node a
    · simp only [dischargeScan, if_pos hadm]
      generalize hdef : (if s.nodeExcess (g.head a) = 0 then s.pushActiveNode (g.head a) else s)
        = s1
      have h1 : Moves g s s1 := by
        rw [← hdef]; split <;> exact Moves.of_eq rfl rfl
      have h2 : Moves g s1 (s1.pushFlow g (min (s1.nodeExcess node) (s1.residualArcCapacity a))
          node a) := by
        have := Moves.pushFlow (s := s1) (min (s1.nodeExcess node) (s1.residualArcCapacity a)) ha.1
        rwa [ha.2] at this
      split_ifs
      · exact h1.trans (h2.trans (Moves.of_eq rfl rfl))
      · exact h1.trans (h2.trans (dischargeScan_moves node arcs _ hrest))
    · simp only [dischargeScan, if_neg hadm]
      exact dischargeScan_moves node arcs s hrest

theorem discharge_moves (node : Nat) : ∀ (fuel : Nat) {s s' : State},
    discharge g node fuel s = some s' → Moves g s s'
  | 0, _, _, hd => by simp [discharge] at hd
  | fuel + 1, s, s', hd => by
    rw [discharge] at hd
    have hscan := dischargeScan_moves node
      (g.outgoingOrOppositeIncomingArcsFrom node (s.firstAdmissibleArc node)) s
      (fun a ha => (g.mem_adjacent_iff node a).mp (g.mem_adjacentFrom ha))
    generalize dischargeScan g node (g.outgoingOrOppositeIncomingArcsFrom node
      (s.firstAdmissibleArc node)) s = e at hd hscan
    cases e with
    | returned s1 => cases hd; exact hscan
    | exhausted s1 =>
      have hrel : Moves g s (relabel g node s1) := hscan.trans (Moves.of_eq rfl rfl)
      simp only at hd
      split_ifs at hd
      · cases hd; exact hrel
      · exact hrel.trans (discharge_moves node fuel hd)

/-- The queue loop of a round only moves flow and ends with the queue empty. -/
theorem processActiveNodes_moves (source sink : Nat) : ∀ (fuel : Nat) (skip : Nat → Nat)
    (numSkipped : Nat) {s s' : State} {k : Nat},
    processActiveNodes g source sink fuel skip numSkipped s = some (s', k) →
      Moves g s s' ∧ s'.activeNodeByHeight.isEmpty = true
  | 0, _, _, _, _, _, h => by simp [processActiveNodes] at h
  | fuel + 1, skip, numSkipped, s, s', k, h => by
    rw [processActiveNodes] at h
    split at h
    · rename_i hpop
      cases h
      exact ⟨.refl _, (PriorityQueueWithRestrictedPush.pop_eq_none_iff _).mp hpop⟩
    · rename_i node q _
      have h0 : Moves g s { s with activeNodeByHeight := q } := Moves.of_eq rfl rfl
      simp only at h
      by_cases hskip : 1 < skip node
      · rw [if_pos hskip] at h
        obtain ⟨h1, h2⟩ := processActiveNodes_moves source sink fuel _ _ h
        exact ⟨h0.trans h1, h2⟩
      · rw [if_neg hskip] at h
        split at h
        · cases h
        · rename_i s1 hd
          obtain ⟨h1, h2⟩ := processActiveNodes_moves source sink fuel _ _ h
          exact ⟨h0.trans ((discharge_moves node fuel hd).trans h1), h2⟩

theorem refineRounds_moves (source sink : Nat) : ∀ (fuel : Nat) {s s' : State},
    refineRounds g source sink fuel s = some s' →
      Moves g s s' ∧ s'.activeNodeByHeight.isEmpty = true
  | 0, _, _, h => by simp [refineRounds] at h
  | fuel + 1, s, s', h => by
    rw [refineRounds] at h
    split at h
    · cases h
    · rename_i s1 k hp
      obtain ⟨h1, h2⟩ := processActiveNodes_moves source sink fuel _ _ hp
      have h0 := (globalUpdate_moves source sink s).trans h1
      split_ifs at h
      · obtain ⟨h3, h4⟩ := refineRounds_moves source sink fuel h
        exact ⟨h0.trans h3, h4⟩
      · cases h; exact ⟨h0, h2⟩

/-! ## `PushFlowExcessBackToSource()` -/

/-- A branch arc is an arc of `arc_stack`; read out of range it is arc 0, which
is valid as soon as any arc is. -/
theorem Dfs.branchArc_valid {d : Dfs} (hstack : ∀ a ∈ d.arcStack, g.IsArcValid a)
    (hne : d.arcStack ≠ []) (i : Nat) : g.IsArcValid (d.branchArc i) := by
  unfold Dfs.branchArc
  rcases Nat.lt_or_ge (d.indexBranch.getD i 0) d.arcStack.length with h | h
  · rw [List.getD_eq_getElem _ _ h]; exact hstack _ (List.getElem_mem h)
  · rw [List.getD_eq_default _ _ h]
    obtain ⟨a, ha⟩ := List.exists_mem_of_ne_nil _ hne
    exact Nat.lt_of_le_of_lt (Nat.zero_le _) (hstack a ha)

theorem cancelCycleArcs_pushes (maxFlow : Int) (firstSaturatedIndex : Nat) :
    ∀ (is : List Nat) {d d' : Dfs}, (∀ a ∈ d.arcStack, g.IsArcValid a) → d.arcStack ≠ [] →
      is.foldlM (cancelCycleArc g maxFlow firstSaturatedIndex) d = some d' →
      Pushes g d.state d'.state ∧ d'.arcStack = d.arcStack
  | [], _, _, _, _, h => by cases h; exact ⟨.refl _, rfl⟩
  | i :: is, d, d', hstack, hne, h => by
    simp only [List.foldlM_cons, bind, Option.bind_eq_some] at h
    obtain ⟨d1, h1, h2⟩ := h
    have hpush : Pushes g d.state d1.state ∧ d1.arcStack = d.arcStack := by
      simp only [cancelCycleArc] at h1
      split_ifs at h1 <;> cases h1 <;>
        exact ⟨Pushes.pushFlow _ (d.branchArc_valid hstack hne i), rfl⟩
    obtain ⟨h3, h4⟩ := cancelCycleArcs_pushes maxFlow firstSaturatedIndex is
      (hpush.2 ▸ hstack) (hpush.2 ▸ hne) h2
    exact ⟨hpush.1.trans h3, h4.trans hpush.2⟩

theorem cancelCycle_pushes (node : Nat) {arc : ArcIndex} (harc : g.IsArcValid arc)
    (hy : g.tail arc = node) {d d' : Dfs} {r : Int × Nat} (hstack : ∀ a ∈ d.arcStack, g.IsArcValid a)
    (hne : d.arcStack ≠ []) (h : cancelCycle g node arc d = some (r, d')) :
    Pushes g d.state d'.state ∧ d'.arcStack = d.arcStack := by
  simp only [cancelCycle, bind, Option.bind_eq_some] at h
  obtain ⟨d1, h1, h2⟩ := h
  split_ifs at h2
  cases h2
  have hpush := Pushes.pushFlow (s := d.state)
    (-(cycleMaxFlow g d (d.state.flow g arc) d.indexBranch.length
      (downFrom (cycleBegin g d (g.head arc) d.indexBranch.length) d.indexBranch.length)).1) harc
  rw [hy] at hpush
  obtain ⟨h3, h4⟩ := cancelCycleArcs_pushes _ _ _ (by exact hstack) (by exact hne) h1
  exact ⟨hpush.trans h3, h4⟩

theorem dfsScan_pushes (node : Nat) : ∀ (arcs : List ArcIndex) {d d' : Dfs},
    (∀ a ∈ arcs, g.IsArcValid a ∧ g.tail a = node) → (∀ a ∈ d.arcStack, g.IsArcValid a) →
      d.arcStack ≠ [] → dfsScan g node arcs d = some d' →
      Pushes g d.state d'.state ∧ ∀ a ∈ d'.arcStack, g.IsArcValid a
  | [], _, _, _, hstack, _, h => by cases h; exact ⟨.refl _, hstack⟩
  | a :: arcs, d, d', harcs, hstack, hne, h => by
    have ha := harcs a (List.mem_cons_self _ _)
    have hrest := fun b hb => harcs b (List.mem_cons_of_mem a hb)
    simp only [dfsScan] at h
    split_ifs at h with h1 h2
    · refine dfsScan_pushes node arcs (d := { d with arcStack := d.arcStack ++ [a] }) hrest
        (fun b hb => ?_) (by simp) h
      rcases List.mem_append.mp hb with hb | hb
      · exact hstack b hb
      · rw [List.mem_singleton.mp hb]; exact ha.1
    · split at h
      · cases h
      · rename_i r d1 hc
        obtain ⟨hm, hst⟩ := cancelCycle_pushes node ha.1 ha.2 hstack hne hc
        split_ifs at h
        · cases h
          exact ⟨hm, fun b hb => hstack b (hst ▸ List.mem_of_mem_take hb)⟩
        · obtain ⟨h4, h5⟩ := dfsScan_pushes node arcs hrest (hst ▸ hstack) (hst ▸ hne) h
          exact ⟨hm.trans h4, h5⟩
    · exact dfsScan_pushes node arcs hrest hstack hne h

theorem dfsStep_pushes {d d' : Dfs} {top : ArcIndex} (htop : d.arcStack.getLast? = some top)
    (hstack : ∀ a ∈ d.arcStack, g.IsArcValid a) (h : dfsStep g d top = some d') :
    Pushes g d.state d'.state ∧ ∀ a ∈ d'.arcStack, g.IsArcValid a := by
  have hne : d.arcStack ≠ [] := fun h => by simp [h] at htop
  have hdrop : ∀ b ∈ d.arcStack.dropLast, g.IsArcValid b :=
    fun b hb => hstack b (List.mem_of_mem_dropLast hb)
  simp only [dfsStep] at h
  split_ifs at h <;> first
    | cases h; exact ⟨.refl _, hdrop⟩
    | exact dfsScan_pushes (g.head top) (g.outgoingArcs (g.head top)) (d := { d with
        visited := update d.visited (g.head top) true
        indexBranch := d.indexBranch ++ [d.arcStack.length - 1] })
        (fun a ha => g.valid_of_mem_outgoing ha) hstack hne h

theorem dfsLoop_pushes : ∀ (fuel : Nat) {d d' : Dfs}, (∀ a ∈ d.arcStack, g.IsArcValid a) →
    dfsLoop g fuel d = some d' → Pushes g d.state d'.state
  | 0, _, _, _, h => by simp [dfsLoop] at h
  | fuel + 1, d, d', hstack, h => by
    rw [dfsLoop] at h
    split at h
    · cases h; exact .refl _
    · rename_i top htop
      split at h
      · cases h
      · rename_i d1 hd
        obtain ⟨h1, h2⟩ := dfsStep_pushes htop hstack hd
        exact h1.trans (dfsLoop_pushes fuel h2 h)

theorem returnArcs_pushes (node : Nat) : ∀ (arcs : List ArcIndex) (s : State),
    (∀ a ∈ arcs, g.IsArcValid a ∧ g.head a = node) → Pushes g s (returnArcs g node arcs s)
  | [], s, _ => .refl s
  | a :: arcs, s, harcs => by
    have ha := harcs a (List.mem_cons_self _ _)
    have hrest := fun b hb => harcs b (List.mem_cons_of_mem a hb)
    have hpush : ∀ f, Pushes g s (s.pushFlow g f node a.opposite) := fun f => by
      have := Pushes.pushFlow (s := s) f ((g.isArcValid_opposite a).mpr ha.1)
      rwa [g.tail_opposite, ha.2] at this
    simp only [returnArcs]
    split_ifs
    · exact hpush _
    · exact (hpush _).trans (returnArcs_pushes node arcs _ hrest)
    · exact returnArcs_pushes node arcs s hrest

theorem returnExcess_pushes : ∀ (order : List Nat) {s s' : State},
    returnExcess g order s = some s' → Pushes g s s'
  | [], _, _, h => by cases h; exact .refl _
  | v :: order, s, s', h => by
    simp only [returnExcess, List.foldlM_cons, bind, Option.bind_eq_some] at h
    obtain ⟨s1, h1, h2⟩ := h
    refine Pushes.trans ?_ (returnExcess_pushes order h2)
    split_ifs at h1 <;> cases h1
    · exact .refl s
    · exact returnArcs_pushes v _ s fun a ha => g.valid_of_mem_incoming ha

/-- The second phase only pushes flow. -/
theorem pushFlowExcessBackToSource_pushes (source sink fuel : Nat) {s s' : State}
    (h : pushFlowExcessBackToSource g source sink fuel s = some s') : Pushes g s s' := by
  simp only [pushFlowExcessBackToSource, bind, Option.bind_eq_some] at h
  obtain ⟨d, hd, h⟩ := h
  split_ifs at h
  simp only [Option.bind_eq_some] at h
  obtain ⟨s1, h1, h2⟩ := h
  split_ifs at h2
  cases h2
  exact (dfsLoop_pushes fuel
    (fun a ha => (g.valid_of_mem_outgoing (List.mem_of_mem_filter ha)).1) hd).trans
      (returnExcess_pushes _ h1)

/-! ## `RefineWithGlobalUpdate()` and `Solve()` -/

/-- `RefineWithGlobalUpdate()` only moves flow, and returns the queue it was
given or an empty one. -/
theorem refineWithGlobalUpdate_moves (source sink : Nat) : ∀ (fuel : Nat) {s s' : State},
    refineWithGlobalUpdate g source sink fuel s = some s' →
      Moves g s s' ∧ (s'.activeNodeByHeight = s.activeNodeByHeight ∨ s'.activeNodeByHeight = .empty)
  | 0, _, _, h => by simp [refineWithGlobalUpdate] at h
  | fuel + 1, s, s', h => by
    rw [refineWithGlobalUpdate] at h
    obtain ⟨h0, hq0⟩ := saturateOutgoingArcsFromSource_moves (g := g) source sink s
    split_ifs at h
    · split at h
      · cases h
      · rename_i s1 hr
        obtain ⟨h1, hq1⟩ := refineRounds_moves source sink fuel hr
        split at h
        · cases h
        · rename_i s2 hp
          have h2 := pushFlowExcessBackToSource_pushes source sink fuel hp
          have hq2 : s2.activeNodeByHeight = .empty := by
            rw [← h2.frame]; exact (PriorityQueueWithRestrictedPush.isEmpty_iff_eq_empty _).mp hq1
          obtain ⟨h3, hq3⟩ := refineWithGlobalUpdate_moves source sink fuel h
          exact ⟨h0.trans (h1.trans (h2.moves.trans h3)), .inr (hq3.elim (·.trans hq2) id)⟩
    · cases h; exact ⟨h0, .inl hq0⟩

/-- `Solve()` moves flow from the preflow `InitializePreflow()` builds, and
returns the queue it was given or an empty one. -/
theorem solve_moves (source sink fuel : Nat) {s s' : State}
    (h : solve g source sink fuel s = some s') :
    Moves g (State.initializePreflow g source { s with status := .notSolved }) s' ∧
      (s'.activeNodeByHeight = s.activeNodeByHeight ∨ s'.activeNodeByHeight = .empty) := by
  have hq : (State.initializePreflow g source { s with status := .notSolved }).activeNodeByHeight =
      s.activeNodeByHeight := by
    rw [State.initializePreflow_eq]
  simp only [solve] at h
  split_ifs at h
  · cases h; exact ⟨Moves.of_eq rfl rfl, .inl hq⟩
  · split at h
    · cases h
    · rename_i s1 hr
      obtain ⟨h1, hq1⟩ := refineWithGlobalUpdate_moves source sink fuel hr
      rw [hq] at hq1
      split_ifs at h <;> cases h <;> exact ⟨h1.trans (Moves.of_eq rfl rfl), hq1⟩

end OrTools.MaxFlow

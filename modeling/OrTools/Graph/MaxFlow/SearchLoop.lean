import OrTools.Graph.MaxFlow.Search

/-!
# The loop of the search

Every iteration of the `while` loop of `PushFlowExcessBackToSource()` keeps the
invariant `Search` and lowers, lexicographically, the number of direct arcs
carrying flow, the number of unvisited nodes and the length of `arc_stack`:
popping an arc or storing a node shortens the stack, expanding a node visits
it, and a cancellation empties an arc.  So from any state the invariant holds
in, the loop runs through with every `DCHECK` holding, and it stops with an
empty stack.
-/

set_option autoImplicit false

namespace OrTools.MaxFlow

open Function

/-! ## What the loop lowers -/

section Progress

variable (g : Graph)

/-- The direct arcs carrying flow. -/
def positiveArcs (s : State) : Nat :=
  (List.range g.numArcs).countP fun i => 0 < s.flow g (.direct i)

/-- The nodes of the graph not visited yet. -/
def unvisitedNodes (d : Dfs) : Nat :=
  (List.range g.numNodes).countP fun v => !d.visited v

/-- `d'` is further on than `d`: fewer arcs with flow, or as many and fewer
unvisited nodes, or as many of both and a shorter stack. -/
def Advances (d' d : Dfs) : Prop :=
  Prod.Lex (· < ·) (Prod.Lex (· < ·) (· < ·))
    (positiveArcs g d'.state, unvisitedNodes g d', d'.arcStack.length)
    (positiveArcs g d.state, unvisitedNodes g d, d.arcStack.length)

theorem advances_wf : WellFounded (Advances g) :=
  InvImage.wf (fun d : Dfs => (positiveArcs g d.state, unvisitedNodes g d, d.arcStack.length))
    (WellFounded.prod_lex Nat.lt_wfRel.wf (WellFounded.prod_lex Nat.lt_wfRel.wf Nat.lt_wfRel.wf))

variable {g}

theorem countP_lt_countP {α : Type} {p q : α → Bool} :
    ∀ {l : List α}, (∀ x ∈ l, p x = true → q x = true) → ∀ y ∈ l, q y = true → p y = false →
      l.countP p < l.countP q
  | [], _, _, hy, _, _ => absurd hy (List.not_mem_nil _)
  | x :: l, hpq, y, hy, hq, hp => by
    have hle := List.countP_mono_left fun z hz => hpq z (List.mem_cons_of_mem _ hz)
    simp only [List.countP_cons]
    rcases List.mem_cons.mp hy with rfl | hy
    · simp only [hp, hq, Bool.false_eq_true, if_false, if_true]; omega
    · have := countP_lt_countP (fun z hz => hpq z (List.mem_cons_of_mem _ hz)) y hy hq hp
      have hx := hpq x (List.mem_cons_self _ _)
      split_ifs <;> simp_all [Nat.lt_add_right]

theorem positiveArcs_le {s s' : State} (h : ∀ a, g.isArcDirect a = true → s'.flow g a ≤ s.flow g a) :
    positiveArcs g s' ≤ positiveArcs g s :=
  List.countP_mono_left fun i hi hpos => by
    have := h (.direct i) ((g.isArcDirect_iff _).mpr ⟨i, List.mem_range.mp hi, rfl⟩)
    simp only [decide_eq_true_eq] at hpos ⊢
    omega

theorem positiveArcs_lt {s s' : State} (h : ∀ a, g.isArcDirect a = true → s'.flow g a ≤ s.flow g a)
    {c : ArcIndex} (hc : g.isArcDirect c = true) (hpos : 0 < s.flow g c) (hz : s'.flow g c = 0) :
    positiveArcs g s' < positiveArcs g s := by
  obtain ⟨i, hi, rfl⟩ := (g.isArcDirect_iff c).mp hc
  refine countP_lt_countP (fun j hj hpos' => ?_) i (List.mem_range.mpr hi) (by simpa using hpos)
    (by simp [hz])
  have := h (.direct j) ((g.isArcDirect_iff _).mpr ⟨j, List.mem_range.mp hj, rfl⟩)
  simp only [decide_eq_true_eq] at hpos' ⊢
  omega

theorem unvisitedNodes_lt {d : Dfs} (d' : Dfs) {v : Nat} (hv : v < g.numNodes) (hf : d.visited v = false)
    (h : d'.visited = update d.visited v true) : unvisitedNodes g d' < unvisitedNodes g d := by
  refine countP_lt_countP (fun w _ hw => ?_) v (List.mem_range.mpr hv) (by simp [hf]) (by simp [h])
  by_cases e : w = v
  · subst e; simp [hf]
  · simpa [h, update_noteq e] using hw

theorem advances_of_lt {d d' : Dfs} (h : positiveArcs g d'.state < positiveArcs g d.state) :
    Advances g d' d :=
  Prod.Lex.left _ _ h

theorem advances_of_eq_lt {d d' : Dfs} (hp : positiveArcs g d'.state = positiveArcs g d.state)
    (hu : unvisitedNodes g d' < unvisitedNodes g d) : Advances g d' d := by
  unfold Advances; rw [hp]; exact Prod.Lex.right _ (Prod.Lex.left _ _ hu)

/-- Popping an arc, the state and the visited nodes kept. -/
theorem advances_of_dropLast {d : Dfs} (hne : d.arcStack ≠ []) {d' : Dfs} (hs : d'.state = d.state)
    (hv : d'.visited = d.visited) (ha : d'.arcStack = d.arcStack.dropLast) : Advances g d' d := by
  unfold Advances unvisitedNodes
  rw [hs, hv, ha, List.length_dropLast]
  have : d.arcStack.length ≠ 0 := by simpa using hne
  exact Prod.Lex.right _ (Prod.Lex.right _ (by omega))

end Progress

/-! ## One arc of the scan -/

namespace Search

variable {g : Graph} {source sink : Nat} {s₀ : State} {d : Dfs} {frames : List DfsFrame}
  {top rest : List ArcIndex} {b : ArcIndex} {f : DfsFrame}

theorem not_mem_branchNodes_of_visited_eq_false (h : Search g source sink s₀ d frames top rest) {v : Nat}
    (hv : d.visited v = false) : v ∉ branchNodes g source frames :=
  fun hm => by simp [(h.visited_iff v).mpr (.inr hm)] at hv

theorem stored_eq_false_of_visited_eq_false (h : Search g source sink s₀ d frames top rest) {v : Nat}
    (hv : d.visited v = false) : d.stored v = false := by
  cases hs : d.stored v
  · rfl
  · simp [(h.visited_iff v).mpr (.inl hs)] at hv

/-- An arc that carries no flow, or leads to a stored node, is passed over. -/
theorem skip (h : Search g source sink s₀ d frames top (b :: rest))
    (hn : ¬ (0 < d.state.flow g b ∧ d.stored (g.head b) = false)) :
    Search g source sink s₀ d frames top rest :=
  { h with
    branch_closed := fun v hv c hc hct hcf => by
      rcases h.branch_closed v hv c hc hct hcf with hs | hs | ⟨hv', hcr⟩
      · exact .inl hs
      · exact .inr (.inl hs)
      · rcases List.mem_cons.mp hcr with rfl | hcr
        · exact .inr (.inl (by simpa [hcf] using hn))
        · exact .inr (.inr ⟨hv', hcr⟩)
    rest_arcs := fun a ha => h.rest_arcs a (List.mem_cons_of_mem _ ha)
    rest_nodup := (List.nodup_cons.mp h.rest_nodup).2 }

/-- An arc with flow towards an unvisited node is pushed on the stack. -/
theorem push (h : Search g source sink s₀ d frames top (b :: rest)) (hbf : 0 < d.state.flow g b)
    (hv : d.visited (g.head b) = false) :
    Search g source sink s₀ { d with arcStack := d.arcStack ++ [b] } frames (top ++ [b]) rest := by
  obtain ⟨hb, hbt, hbs⟩ := h.rest_arcs b (List.mem_cons_self _ _)
  have hbr := (List.nodup_cons.mp h.rest_nodup).1
  refine { h with
    stack_eq := by show d.arcStack ++ [b] = _; rw [h.stack_eq, stackOf_append_top]
    top_arcs := fun a ha => ?_
    stack_nodup := List.nodup_append.mpr ⟨h.stack_nodup, List.nodup_singleton _,
      List.disjoint_singleton.mpr hbs⟩
    stack_flow := fun a ha => ?_
    branch_closed := fun v hv c hc hct hcf => ?_
    rest_arcs := fun a ha => ?_
    rest_nodup := (List.nodup_cons.mp h.rest_nodup).2 }
  · rcases List.mem_append.mp ha with ha | ha
    · exact h.top_arcs a ha
    · rw [List.mem_singleton.mp ha]
      exact ⟨hb, hbt, h.not_mem_branchNodes_of_visited_eq_false hv⟩
  · rcases List.mem_append.mp ha with ha | ha
    · exact h.stack_flow a ha
    · rw [List.mem_singleton.mp ha]; exact hbf
  · rcases h.branch_closed v hv c hc hct hcf with hs | hs | ⟨hv', hcr⟩
    · exact .inl (List.mem_append_left _ hs)
    · exact .inr (.inl hs)
    · rcases List.mem_cons.mp hcr with rfl | hcr
      · exact .inl (List.mem_append_right _ (List.mem_singleton_self _))
      · exact .inr (.inr ⟨hv', hcr⟩)
  · obtain ⟨ha1, ha2, ha3⟩ := h.rest_arcs a (List.mem_cons_of_mem _ ha)
    refine ⟨ha1, ha2, fun hm => ?_⟩
    rcases List.mem_append.mp hm with hm | hm
    · exact ha3 hm
    · exact hbr (List.mem_singleton.mp hm ▸ ha)

/-! ## One iteration of the loop -/

/-- With nothing pending on the current node, no arc of the stack leaves it. -/
theorem tail_ne_of_mem_stack (h : Search g source sink s₀ d frames [] rest) {c : ArcIndex}
    (hc : c ∈ d.arcStack) : g.tail c ≠ lastNode g source frames := by
  rw [h.stack_eq, mem_stackOf] at hc
  rcases hc with ⟨f, hf, hcf⟩ | hc
  · obtain ⟨i, hi, rfl⟩ := List.mem_iff_getElem.mp hf
    have hl := h.frame_arcs i hi c (by rw [List.getD_eq_getElem _ _ hi]; simpa [or_comm] using hcf)
    intro e
    have := lastNode_take_injective h.nodes_nodup (i := i) (j := frames.length) hi.le le_rfl
      (by rw [← hl.2.1, e, List.take_of_length_le le_rfl])
    omega
  · exact absurd hc (List.not_mem_nil _)

theorem getD_append_frame {i : Nat} (hi : i < frames.length) :
    (frames ++ [f]).getD i ([], default) = frames.getD i ([], default) :=
  List.getD_append _ _ _ _ hi

theorem getD_append_frame_self : (frames ++ [f]).getD frames.length ([], default) = f := by
  simp [List.getD_eq_getElem?_getD]

/-- The arcs of the frames below the last one keep their places. -/
theorem frame_arcs_append (h : Search g source sink s₀ d (frames ++ [f]) top rest) {i : Nat}
    (hi : i < frames.length) :
    ∀ a ∈ (frames.getD i ([], default)).1 ++ [(frames.getD i ([], default)).2],
      Leaves g source (frames.take i) a := by
  have := h.frame_arcs i (by simp; omega)
  rwa [getD_append_frame hi, List.take_append_of_le_length hi.le] at this

/-- Popping a pending arc towards a stored node. -/
theorem pop {tl : List ArcIndex} {a : ArcIndex} (h : Search g source sink s₀ d frames (tl ++ [a]) [])
    (hv : d.visited (g.head a) = true) :
    Search g source sink s₀ { d with arcStack := d.arcStack.dropLast } frames tl [] := by
  have hs : d.arcStack = stackOf frames tl ++ [a] := by rw [h.stack_eq, stackOf_append_top]
  have hdrop : d.arcStack.dropLast = stackOf frames tl := by rw [hs, List.dropLast_concat]
  have ha : d.stored (g.head a) = true :=
    ((h.visited_iff _).mp hv).resolve_right (h.top_arcs a (by simp)).2.2
  refine { h with
    stack_eq := hdrop
    top_arcs := fun c hc => h.top_arcs c (List.mem_append_left _ hc)
    stack_nodup := h.stack_nodup.sublist (List.dropLast_sublist _)
    stack_flow := fun c hc => h.stack_flow c (List.mem_of_mem_dropLast hc)
    branch_closed := fun v hv c hc hct hcf => ?_
    rest_arcs := fun c hc => absurd hc (List.not_mem_nil _) }
  rcases h.branch_closed v hv c hc hct hcf with hs' | hs' | ⟨-, hc'⟩
  · rw [hs, List.mem_append, List.mem_singleton] at hs'
    rcases hs' with hs' | rfl
    · exact .inl (by show c ∈ d.arcStack.dropLast; rw [hdrop]; exact hs')
    · exact .inr (.inl ha)
  · exact .inr (.inl hs')
  · exact absurd hc' (List.not_mem_nil _)

/-- Storing the current node once all its arcs are done: it leaves the branch
and joins `reverse_topological_order`. -/
theorem store {seg : List ArcIndex} {br : ArcIndex} (h : Search g source sink s₀ d (frames ++ [(seg, br)]) [] []) :
    Search g source sink s₀
      { d with
        stored := update d.stored (g.head br) true
        reverseTopologicalOrder := d.reverseTopologicalOrder ++ [g.head br]
        indexBranch := d.indexBranch.dropLast
        arcStack := d.arcStack.dropLast }
      frames seg [] := by
  set x := g.head br
  have hs : d.arcStack = stackOf frames seg ++ [br] := by
    rw [h.stack_eq, stackOf_snoc, stackOf_append_top]
  have hdrop : d.arcStack.dropLast = stackOf frames seg := by rw [hs, List.dropLast_concat]
  have hbn : branchNodes g source (frames ++ [(seg, br)]) = branchNodes g source frames ++ [x] := by
    rw [branchNodes_append]; rfl
  have hnd := h.nodes_nodup
  rw [hbn] at hnd
  have hxn : x ∉ branchNodes g source frames := fun hm =>
    (List.disjoint_of_nodup_append hnd) hm (List.mem_singleton_self _)
  have hmem : ∀ v ∈ branchNodes g source frames, v ∈ branchNodes g source (frames ++ [(seg, br)]) :=
    fun v hv => by rw [hbn]; exact List.mem_append_left _ hv
  have hxs : d.stored x = false := h.nodes_not_stored x (by rw [hbn]; simp)
  have hxo : x ∉ d.reverseTopologicalOrder := fun hm => by simp [(h.stored_iff x).mpr (.inr hm)] at hxs
  have hxk : x ≠ sink := fun e => by simp [(h.stored_iff x).mpr (.inl e)] at hxs
  -- every arc with flow out of the node leads to a stored node
  have hout : ∀ c, g.isArcDirect c = true → g.tail c = x → 0 < d.state.flow g c →
      d.stored (g.head c) = true := by
    intro c hc hct hcf
    rcases h.branch_closed x (by rw [hbn]; simp) c hc hct hcf with hs' | hs' | ⟨-, hc'⟩
    · exact absurd (by rw [lastNode_snoc]; exact hct) (h.tail_ne_of_mem_stack hs')
    · exact hs'
    · exact absurd hc' (List.not_mem_nil _)
  have hupd : ∀ v, update d.stored x true v = true ↔ v = x ∨ d.stored v = true := fun v => by
    by_cases e : v = x
    · subst e; simp
    · simp [update_noteq e, e]
  refine
    { stack_eq := hdrop
      branch_eq := by show d.indexBranch.dropLast = _; rw [h.branch_eq, dropLast_branchIndices_snoc]
      frame_arcs := fun i hi => h.frame_arcs_append hi
      top_arcs := fun c hc => by
        have := h.frame_arcs frames.length (by simp) c (List.mem_append_left _ (by
          rw [getD_append_frame_self]; exact hc))
        rwa [List.take_left' rfl] at this
      nodes_nodup := (List.nodup_append.mp hnd).1
      stack_nodup := h.stack_nodup.sublist (List.dropLast_sublist _)
      stack_flow := fun c hc => h.stack_flow c (List.mem_of_mem_dropLast hc)
      visited_iff := fun v => ?_
      nodes_not_stored := fun v hv => by
        show update d.stored x true v = false
        rw [update_noteq (fun e : v = x => hxn (e ▸ hv))]; exact h.nodes_not_stored v (hmem v hv)
      stored_iff := fun v => by
        show update d.stored x true v = true ↔ _
        rw [hupd, h.stored_iff, List.mem_append, List.mem_singleton]; tauto
      order_nodup := by rw [← List.concat_eq_append]; exact h.order_nodup.concat hxo
      sink_not_mem := by simp [h.sink_not_mem, Ne.symm hxk]
      order_closed := fun pre y post ho c hc hct hcf => ?_
      branch_closed := fun v hv c hc hct hcf => ?_
      rest_arcs := fun c hc => absurd hc (List.not_mem_nil _)
      rest_nodup := List.nodup_nil
      residual_nonneg := h.residual_nonneg
      flow_le := h.flow_le
      excess_eq := h.excess_eq
      pushes := h.pushes }
  · show d.visited v = true ↔ update d.stored x true v = true ∨ _
    rw [h.visited_iff, hupd, hbn, List.mem_append, List.mem_singleton]; tauto
  · rcases List.eq_nil_or_concat post with rfl | ⟨post, z, rfl⟩
    · obtain ⟨rfl, hy⟩ := List.append_inj' ho rfl
      obtain rfl : x = y := by simpa using hy
      exact (h.stored_iff _).mp (hout c hc hct hcf)
    · rw [List.concat_eq_append, ← List.cons_append, ← List.append_assoc] at ho
      exact h.order_closed pre y post (List.append_inj' ho rfl).1 c hc hct hcf
  · rcases h.branch_closed v (hmem v hv) c hc hct hcf with hs' | hs' | ⟨-, hc'⟩
    · rw [hs, List.mem_append, List.mem_singleton] at hs'
      rcases hs' with hs' | rfl
      · exact .inl (by show c ∈ d.arcStack.dropLast; rw [hdrop]; exact hs')
      · exact .inr (.inl ((hupd _).mpr (.inl rfl)))
    · exact .inr (.inl ((hupd _).mpr (.inr hs')))
    · exact absurd hc' (List.not_mem_nil _)

/-- Expanding the head of the top arc: it joins the branch, and its outgoing
arcs are to be scanned. -/
theorem expand {tl : List ArcIndex} {a : ArcIndex} (h : Search g source sink s₀ d frames (tl ++ [a]) [])
    (hv : d.visited (g.head a) = false) :
    Search g source sink s₀
      { d with
        visited := update d.visited (g.head a) true
        indexBranch := d.indexBranch ++ [d.arcStack.length - 1] }
      (frames ++ [(tl, a)]) [] (g.outgoingArcs (g.head a)) := by
  set y := g.head a
  have hyn : y ∉ branchNodes g source frames := h.not_mem_branchNodes_of_visited_eq_false hv
  have hbn : branchNodes g source (frames ++ [(tl, a)]) = branchNodes g source frames ++ [y] := by
    rw [branchNodes_append]; rfl
  have hupd : ∀ v, update d.visited y true v = true ↔ v = y ∨ d.visited v = true := fun v => by
    by_cases e : v = y
    · subst e; simp
    · simp [update_noteq e, e]
  refine
    { h with
      stack_eq := by show d.arcStack = _; rw [h.stack_eq, stackOf_snoc]
      branch_eq := by
        show d.indexBranch ++ [d.arcStack.length - 1] = _
        rw [branchIndices_snoc, h.branch_eq, h.stack_eq, length_stackOf, length_stackOf tl]
        simp
      frame_arcs := fun i hi c hc => ?_
      top_arcs := fun c hc => absurd hc (List.not_mem_nil _)
      nodes_nodup := by
        rw [hbn, ← List.concat_eq_append]; exact h.nodes_nodup.concat hyn
      visited_iff := fun v => by
        show update d.visited y true v = true ↔ _
        rw [hupd, h.visited_iff, hbn, List.mem_append, List.mem_singleton]; tauto
      nodes_not_stored := fun v hv' => by
        rw [hbn, List.mem_append, List.mem_singleton] at hv'
        rcases hv' with hv' | rfl
        · exact h.nodes_not_stored v hv'
        · exact h.stored_eq_false_of_visited_eq_false hv
      branch_closed := fun v hv' c hc hct hcf => ?_
      rest_arcs := fun c hc => ?_
      rest_nodup := g.outgoing_nodup _ }
  · rw [List.length_append, List.length_singleton] at hi
    rcases Nat.lt_or_ge i frames.length with hi' | hi'
    · rw [getD_append_frame hi'] at hc
      rw [List.take_append_of_le_length hi'.le]
      exact h.frame_arcs i hi' c hc
    · obtain rfl : i = frames.length := by omega
      rw [getD_append_frame_self] at hc
      rw [List.take_left' rfl]
      exact h.top_arcs c hc
  · rw [hbn, List.mem_append, List.mem_singleton] at hv'
    rcases hv' with hv' | rfl
    · rcases h.branch_closed v hv' c hc hct hcf with hs | hs | ⟨-, hc'⟩
      · exact .inl hs
      · exact .inr (.inl hs)
      · exact absurd hc' (List.not_mem_nil _)
    · exact .inr (.inr ⟨by rw [lastNode_snoc], (g.mem_outgoing_iff_isArcDirect _ _).mpr ⟨hc, hct⟩⟩)
  · obtain ⟨hc1, hc2⟩ := (g.mem_outgoing_iff_isArcDirect _ _).mp hc
    refine ⟨hc1, by rw [hc2, lastNode_snoc], fun hm => hyn ?_⟩
    obtain ⟨j, hj, hl⟩ := h.leaves_of_mem_stack hm
    rw [← hc2, hl.2.1, mem_branchNodes]
    exact ⟨j, hj, rfl⟩

end Search

/-! ## The scan of a node's arcs -/

section Scan

variable {g : Graph} {source sink : Nat} {s₀ : State} {frames : List DfsFrame}

/-- The scan of the arcs `rest` of the current node passes every `DCHECK` of the
cancellations on the way and leaves the invariant with nothing left to scan.
It empties an arc when it cancels a cycle, and otherwise only pushes arcs. -/
theorem dfsScan_spec : ∀ (rest : List ArcIndex) (d : Dfs) (top : List ArcIndex),
    Search g source sink s₀ d frames top rest →
    ∃ d' frames' top', dfsScan g (lastNode g source frames) rest d = some d' ∧
      Search g source sink s₀ d' frames' top' [] ∧
      (positiveArcs g d'.state < positiveArcs g d.state ∨
        positiveArcs g d'.state = positiveArcs g d.state ∧ d'.visited = d.visited)
  | [], d, top, h => ⟨d, frames, top, rfl, h, .inr ⟨rfl, rfl⟩⟩
  | b :: rest, d, top, h => by
    obtain ⟨hb, hbt, hbs⟩ := h.rest_arcs b (List.mem_cons_self _ _)
    rw [dfsScan]
    by_cases hcond : 0 < d.state.flow g b ∧ d.stored (g.head b) = false
    · rw [if_pos hcond]
      by_cases hv : d.visited (g.head b) = false
      · -- an arc towards an unvisited node
        rw [if_pos hv]
        exact dfsScan_spec rest _ _ (h.push hcond.1 hv)
      · -- an arc closing a cycle on the branch
        rw [if_neg hv]
        have hbn : g.head b ∈ branchNodes g source frames :=
          ((h.visited_iff _).mp (by simpa using hv)).resolve_left (by simp [hcond.2])
        obtain ⟨k, hk, hbk⟩ := mem_branchNodes.mp hbn
        obtain ⟨r, d₁, hc⟩ : ∃ r d₁, cancelCycle g (lastNode g source frames) b d = some (r, d₁) :=
          ⟨_, _, h.cancelCycle_eq hb hbt hk hbk.symm⟩
        have hflow : positiveArcs g d₁.state < positiveArcs g d.state := by
          obtain ⟨c, hc1, hc2, hc3⟩ := h.cancel_saturates hb hbt hk hbk.symm hc hcond.1
          exact positiveArcs_lt (fun a ha => h.cancel_flow_le hb hbt hk hbk.symm hc ha) hc1 hc2 hc3
        simp only [hc]
        by_cases hfsi : r.2 < d₁.indexBranch.length
        · rw [if_pos hfsi]
          exact ⟨_, _, _, rfl, h.cancel_cut hb hbt hk hbk.symm hbs hc hfsi, .inl hflow⟩
        · rw [if_neg hfsi]
          obtain ⟨d', fr', top', h1, h2, h3⟩ :=
            dfsScan_spec rest d₁ top (h.cancel_keep hb hbt hk hbk.symm hbs hc hfsi)
          refine ⟨d', fr', top', h1, h2, .inl ?_⟩
          rcases h3 with h3 | ⟨h3, -⟩ <;> omega
    · rw [if_neg hcond]
      exact dfsScan_spec rest d top (h.skip hcond)

end Scan

/-! ## The loop -/

section Loop

variable {g : Graph} {source sink : Nat} {s₀ : State}

/-- One iteration of the loop from a state the invariant holds in: every
`DCHECK` holds, the invariant holds again, and the search advances. -/
theorem dfsStep_spec {d : Dfs} {frames : List DfsFrame} {top : List ArcIndex}
    (h : Search g source sink s₀ d frames top []) {a : ArcIndex} (ha : d.arcStack.getLast? = some a) :
    ∃ d' frames' top', dfsStep g d a = some d' ∧ Search g source sink s₀ d' frames' top' [] ∧
      Advances g d' d := by
  have hne : d.arcStack ≠ [] := fun e => by simp [e] at ha
  rcases List.eq_nil_or_concat top with rfl | ⟨tl, a', rfl⟩
  · -- nothing pending: the top of the stack is the last branch arc
    rcases List.eq_nil_or_concat frames with rfl | ⟨fr, ⟨seg, br⟩, rfl⟩
    · exact absurd h.stack_eq hne
    · rw [List.concat_eq_append] at h
      have hs : d.arcStack = stackOf fr seg ++ [br] := by
        rw [h.stack_eq, stackOf_snoc, stackOf_append_top]
      obtain rfl : br = a := by simpa [hs] using ha
      have hx : g.head br ∈ branchNodes g source (fr ++ [(seg, br)]) := by
        rw [← lastNode_snoc fr (seg, br)]; exact lastNode_mem _
      have hvis := (h.visited_iff _).mpr (.inr hx)
      have hst := h.nodes_not_stored _ hx
      have hib : d.indexBranch ≠ [] := by rw [h.branch_eq]; simp [← List.length_pos]
      exact ⟨_, fr, seg, by simp [dfsStep, hvis, hst, hib], h.store,
        advances_of_dropLast hne rfl rfl rfl⟩
  · rw [List.concat_eq_append] at h
    have hs : d.arcStack = stackOf frames tl ++ [a'] := by rw [h.stack_eq, stackOf_append_top]
    obtain rfl : a' = a := by simpa [hs] using ha
    by_cases hv : d.visited (g.head a') = true
    · -- a pending arc towards a stored node
      have hst : d.stored (g.head a') = true :=
        ((h.visited_iff _).mp hv).resolve_right (h.top_arcs a' (by simp)).2.2
      exact ⟨_, frames, tl, by simp [dfsStep, hv, hst], h.pop hv,
        advances_of_dropLast hne rfl rfl rfl⟩
    · -- a pending arc towards an unvisited node: expand it
      have hv' : d.visited (g.head a') = false := by simpa using hv
      have hst := h.stored_eq_false_of_visited_eq_false hv'
      have hdc : d.indexBranch.getLast?.all (· < d.arcStack.length - 1) = true := by
        rw [h.branch_eq, h.stack_eq]; exact getLast?_branchIndices_lt (by simp)
      have hlt : g.head a' < g.numNodes := by
        obtain ⟨_, _, hl⟩ := h.leaves_of_mem_stack (a := a') (by rw [hs]; simp)
        exact g.head_lt (g.isArcValid_of_isArcDirect hl.1)
      obtain ⟨d', fr', top', h1, h2, h3⟩ := dfsScan_spec _ _ _ (h.expand hv')
      rw [lastNode_snoc] at h1
      refine ⟨d', fr', top', by simpa [dfsStep, hv', hst, hdc] using h1, h2, ?_⟩
      rcases h3 with h3 | ⟨h3, h4⟩
      · exact advances_of_lt h3
      · refine advances_of_eq_lt h3 ?_
        have := unvisitedNodes_lt (g := g) { d with
          visited := update d.visited (g.head a') true
          indexBranch := d.indexBranch ++ [d.arcStack.length - 1] } hlt hv' rfl
        unfold unvisitedNodes at this ⊢
        rwa [h4]

/-- Every run of the loop from a state the invariant holds in ends with an empty
stack, the invariant holding. -/
theorem dfsLoop_search : ∀ (fuel : Nat) {d d' : Dfs} {frames : List DfsFrame} {top : List ArcIndex},
    Search g source sink s₀ d frames top [] → dfsLoop g fuel d = some d' →
      Search g source sink s₀ d' [] [] []
  | 0, _, _, _, _, _, hl => by simp [dfsLoop] at hl
  | fuel + 1, d, d', frames, top, h, hl => by
    rw [dfsLoop] at hl
    cases ha : d.arcStack.getLast? with
    | none =>
      simp only [ha, Option.some.injEq] at hl
      subst hl
      obtain ⟨rfl, rfl⟩ := stackOf_eq_nil.mp (h.stack_eq ▸ List.getLast?_eq_none_iff.mp ha)
      exact h
    | some a =>
      obtain ⟨d₁, fr, tp, h1, h2, -⟩ := dfsStep_spec h ha
      simp only [ha, h1] at hl
      exact dfsLoop_search fuel h2 hl

/-- The loop ends: from a state the invariant holds in, enough fuel runs it through. -/
theorem dfsLoop_terminates {d : Dfs} {frames : List DfsFrame} {top : List ArcIndex}
    (h : Search g source sink s₀ d frames top []) : ∃ fuel d', dfsLoop g fuel d = some d' := by
  induction d using (advances_wf g).induction generalizing frames top with
  | _ d ih =>
    cases ha : d.arcStack.getLast? with
    | none => exact ⟨1, d, by simp [dfsLoop, ha]⟩
    | some a =>
      obtain ⟨d₁, fr, tp, h1, h2, h3⟩ := dfsStep_spec h ha
      obtain ⟨fuel, d', hl⟩ := ih d₁ h3 h2
      exact ⟨fuel + 1, d', by simp [dfsLoop, ha, h1, hl]⟩

end Loop

/-! ## The start of the search -/

section Start

variable {g : Graph} {source sink : Nat} {s : State}

/-- The invariant holds at the start of the search, from a state whose
residual capacities are non-negative and in which no loop at the source
carries flow. -/
theorem search_dfsStart (hst : source ≠ sink)
    (hres : ∀ a, g.IsArcValid a → 0 ≤ s.residualArcCapacity a)
    (hloop : ∀ a, g.isArcDirect a = true → g.tail a = source → g.head a = source → s.flow g a ≤ 0) :
    Search g source sink s (dfsStart g source sink s) []
      ((g.outgoingArcs source).filter fun a => 0 < s.flow g a) [] := by
  have hstored : ∀ v, update (fun _ => false) sink true v = true ↔ v = sink := fun v => by
    by_cases e : v = sink
    · subst e; simp
    · simp [update_noteq e, e]
  refine
    { stack_eq := rfl
      branch_eq := rfl
      frame_arcs := fun i hi => absurd hi (Nat.not_lt_zero _)
      top_arcs := fun a ha => ?_
      nodes_nodup := List.nodup_singleton _
      stack_nodup := (g.outgoing_nodup source).filter _
      stack_flow := fun a ha => by simpa using (List.mem_filter.mp ha).2
      visited_iff := fun v => ?_
      nodes_not_stored := fun v hv => by
        rw [branchNodes_nil, List.mem_singleton] at hv
        rw [hv]
        show update (fun _ => false) sink true source = false
        rw [update_noteq hst]
      stored_iff := fun v => by
        show update (fun _ => false) sink true v = true ↔ v = sink ∨ v ∈ ([] : List Nat)
        simpa using hstored v
      order_nodup := List.nodup_nil
      sink_not_mem := List.not_mem_nil _
      order_closed := fun pre x post ho => absurd ho (by show ([] : List Nat) ≠ _; simp)
      branch_closed := fun v hv c hc hct hcf => ?_
      rest_arcs := fun a ha => absurd ha (List.not_mem_nil _)
      rest_nodup := List.nodup_nil
      residual_nonneg := hres
      flow_le := fun _ _ => le_rfl
      excess_eq := rfl
      pushes := .refl _ }
  · obtain ⟨ha, hpos⟩ := List.mem_filter.mp ha
    obtain ⟨had, hat⟩ := (g.mem_outgoing_iff_isArcDirect _ _).mp ha
    refine ⟨had, hat, fun hm => ?_⟩
    have := hloop a had hat (List.mem_singleton.mp hm)
    simp only [decide_eq_true_eq] at hpos
    omega
  · show update (update (fun _ => false) sink true) source true v = true ↔
      update (fun _ => false) sink true v = true ∨ v ∈ [source]
    by_cases e : v = source
    · subst e; simp
    · simp [update_noteq e, e]
  · rw [branchNodes_nil, List.mem_singleton] at hv
    subst hv
    exact .inl (List.mem_filter.mpr ⟨(g.mem_outgoing_iff_isArcDirect _ _).mpr ⟨hc, hct⟩, by simpa using hcf⟩)

end Start

end OrTools.MaxFlow

import OrTools.Graph.MaxFlow.SearchLoop

/-!
# What `PushFlowExcessBackToSource()` achieves

From a state of the solver at the end of its first phase (non-negative residual
capacities, non-negative excess away from the source, conservation, no flow out
of the sink), the second phase runs through with every `DCHECK` holding and
leaves a flow: every node but the source and the sink ends with no excess, the
sink keeps its excess, and no residual capacity goes negative.

After the search, the nodes it never reached receive no flow from the others,
so their excesses already vanish (`State.Conserves.closed`).  The nodes it
stored are then emptied in `reverse_topological_order`: a node's flow arcs lead
to the sink or to nodes stored before it, so returning the excess of a node
along its incoming arcs only raises the excess of the source and of nodes still
to come, and it cannot get stuck, since a node whose incoming arcs carry no
flow has no positive net inflow.
-/

set_option autoImplicit false

namespace OrTools.MaxFlow

open Function

/-! ## Returning the excess of one node -/

section ReturnArcs

variable (g : Graph)

/-- What the loop over the incoming `arcs` of `node` does, from `t` to `t'`. -/
structure Returned (node : Nat) (arcs : List ArcIndex) (t t' : State) : Prop where
  residual_nonneg : ∀ a, g.IsArcValid a → 0 ≤ t'.residualArcCapacity a
  flow_le : ∀ b, g.isArcDirect b = true → t'.flow g b ≤ t.flow g b
  excess_nonneg : 0 ≤ t'.nodeExcess node
  excess_le : ∀ v, v ≠ node → t.nodeExcess v ≤ t'.nodeExcess v
  /-- Only the tails of arcs carrying flow receive excess. -/
  excess_eq : ∀ v, v ≠ node → (∀ a ∈ arcs, g.tail a = v → t.flow g a ≤ 0) →
    t'.nodeExcess v = t.nodeExcess v
  /-- The loop stops with the excess returned, or with every arc from another
  node emptied. -/
  done : t'.nodeExcess node = 0 ∨ ∀ a ∈ arcs, g.tail a ≠ node → t'.flow g a ≤ 0
  pushes : Pushes g t t'

variable {g}

/-- One push back along the incoming arc `a`, of the excess of `node` or of
the whole flow of `a`, whichever is less. -/
theorem returned_push {node : Nat} {a : ArcIndex} (ha : g.isArcDirect a = true) (hh : g.head a = node)
    {t : State} (hres : ∀ b, g.IsArcValid b → 0 ≤ t.residualArcCapacity b)
    (hex : 0 ≤ t.nodeExcess node) :
    let t₁ := t.pushFlow g (min (t.nodeExcess node) (t.residualArcCapacity a.opposite)) node a.opposite
    Returned g node [a] t t₁ := by
  intro t₁
  set f := min (t.nodeExcess node) (t.residualArcCapacity a.opposite)
  have hva := g.isArcValid_of_isArcDirect ha
  have hf0 : 0 ≤ f := le_min hex (hres _ ((g.isArcValid_opposite a).mpr hva))
  have hopp : ∀ b, g.isArcDirect b = true → b.opposite ≠ a := fun b hb e => by
    obtain ⟨i, -, rfl⟩ := (g.isArcDirect_iff b).mp hb
    obtain ⟨j, -, rfl⟩ := (g.isArcDirect_iff a).mp ha
    simp [ArcIndex.opposite] at e
  have hexc : ∀ v, t₁.nodeExcess v =
      t.nodeExcess v - (if v = node then f else 0) + (if v = g.tail a then f else 0) := fun v => by
    rw [State.pushFlow_excess, g.head_opposite]
  refine
    { residual_nonneg := fun b hb => ?_
      flow_le := fun b hb => ?_
      excess_nonneg := ?_
      excess_le := fun v hv => ?_
      excess_eq := fun v hv hv' => ?_
      done := ?_
      pushes := ?_ }
  · rw [State.pushFlow_residual]
    have := hres b hb
    have : f ≤ t.residualArcCapacity a.opposite := min_le_right _ _
    split_ifs with h1 h2
    · subst h1; omega
    · subst h2; rw [ArcIndex.opposite_opposite]; have := hres a hva; omega
    · omega
  · rw [flow_of_isArcDirect g hb, flow_of_isArcDirect g hb, State.pushFlow_residual,
      ArcIndex.opposite_opposite]
    split_ifs with h1 h2
    · rw [h1]; omega
    · exact absurd h2 (hopp b hb)
    · exact le_rfl
  · rw [hexc]
    have : f ≤ t.nodeExcess node := min_le_left _ _
    split_ifs <;> omega
  · rw [hexc, if_neg hv]; split_ifs <;> omega
  · have : g.tail a ≠ v ∨ t.flow g a ≤ 0 := by
      by_cases e : g.tail a = v
      · exact .inr (hv' a (List.mem_singleton_self _) e)
      · exact .inl e
    rw [hexc, if_neg hv]
    rcases this with e | e
    · rw [if_neg (Ne.symm e)]; omega
    · rw [flow_of_isArcDirect g ha] at e
      have : f ≤ 0 := (min_le_right _ _).trans e
      split_ifs <;> omega
  · by_cases hfe : f = t.nodeExcess node
    · by_cases ht : g.tail a = node
      · exact .inr fun b hb hbt => absurd (List.mem_singleton.mp hb ▸ ht) hbt
      · left; rw [hexc, if_pos rfl, if_neg (Ne.symm ht)]; omega
    · right
      intro b hb _
      rw [List.mem_singleton.mp hb, flow_of_isArcDirect g ha, State.pushFlow_residual_self]
      have : f = t.residualArcCapacity a.opposite := by
        rcases min_choice (t.nodeExcess node) (t.residualArcCapacity a.opposite) with e | e
        · exact absurd e hfe
        · exact e
      omega
  · have := Pushes.pushFlow (s := t) f ((g.isArcValid_opposite a).mpr hva)
    rwa [g.tail_opposite, hh] at this

namespace Returned

variable {node : Nat} {t t₁ t₂ : State}

theorem refl (arcs : List ArcIndex) (hres : ∀ a, g.IsArcValid a → 0 ≤ t.residualArcCapacity a)
    (hex : 0 ≤ t.nodeExcess node) (hd : ∀ a ∈ arcs, g.tail a ≠ node → t.flow g a ≤ 0) :
    Returned g node arcs t t where
  residual_nonneg := hres
  flow_le _ _ := le_rfl
  excess_nonneg := hex
  excess_le _ _ := le_rfl
  excess_eq _ _ _ := rfl
  done := .inr hd
  pushes := .refl _

theorem trans {arcs₁ arcs₂ : List ArcIndex} (h₁ : Returned g node arcs₁ t t₁)
    (h₂ : Returned g node arcs₂ t₁ t₂) (hdir : ∀ a ∈ arcs₁ ++ arcs₂, g.isArcDirect a = true)
    (hd : ∀ a ∈ arcs₁, g.tail a ≠ node → t₁.flow g a ≤ 0) :
    Returned g node (arcs₁ ++ arcs₂) t t₂ where
  residual_nonneg := h₂.residual_nonneg
  flow_le b hb := (h₂.flow_le b hb).trans (h₁.flow_le b hb)
  excess_nonneg := h₂.excess_nonneg
  excess_le v hv := (h₁.excess_le v hv).trans (h₂.excess_le v hv)
  excess_eq v hv hyp := by
    rw [h₂.excess_eq v hv fun a ha hat => (h₁.flow_le a (hdir a (List.mem_append_right _ ha))).trans
      (hyp a (List.mem_append_right _ ha) hat)]
    exact h₁.excess_eq v hv fun a ha hat => hyp a (List.mem_append_left _ ha) hat
  done := h₂.done.imp_right fun hr a ha hat => by
    rcases List.mem_append.mp ha with ha | ha
    · exact (h₂.flow_le a (hdir a (List.mem_append_left _ ha))).trans (hd a ha hat)
    · exact hr a ha hat
  pushes := h₁.pushes.trans h₂.pushes

/-- The loop stops as soon as the excess is returned. -/
theorem stop {a : ArcIndex} {arcs : List ArcIndex} (h : Returned g node [a] t t₁)
    (h0 : t₁.nodeExcess node = 0) : Returned g node (a :: arcs) t t₁ :=
  { h with
    excess_eq := fun v hv hyp => h.excess_eq v hv fun b hb => hyp b (by simp [List.mem_singleton.mp hb])
    done := .inl h0 }

end Returned

/-- The loop over the incoming arcs of `node`. -/
theorem returnArcs_returned (node : Nat) : ∀ (arcs : List ArcIndex) (t : State),
    (∀ a ∈ arcs, g.isArcDirect a = true ∧ g.head a = node) →
    (∀ a, g.IsArcValid a → 0 ≤ t.residualArcCapacity a) → 0 ≤ t.nodeExcess node →
    Returned g node arcs t (returnArcs g node arcs t)
  | [], t, _, hres, hex => .refl [] hres hex fun _ h => absurd h (List.not_mem_nil _)
  | a :: arcs, t, harcs, hres, hex => by
    obtain ⟨ha, hh⟩ := harcs a (List.mem_cons_self _ _)
    have hrest := fun b hb => harcs b (List.mem_cons_of_mem a hb)
    have hdir : ∀ b ∈ [a] ++ arcs, g.isArcDirect b = true := fun b hb => (harcs b hb).1
    have h₁ := returned_push ha hh hres hex
    simp only [returnArcs]
    split_ifs with hpos hz
    · exact h₁.stop hz
    · exact h₁.trans (returnArcs_returned node arcs _ hrest h₁.residual_nonneg h₁.excess_nonneg) hdir
        fun b hb hbt => (h₁.done.resolve_left hz) b hb hbt
    · refine (Returned.refl [a] hres hex fun b hb _ => ?_).trans
        (returnArcs_returned node arcs t hrest hres hex) hdir fun b hb hbt => ?_ <;>
      · rw [List.mem_singleton.mp hb, flow_of_isArcDirect g ha]; omega

end ReturnArcs

/-! ## The loop over `reverse_topological_order` -/

section ReturnExcess

variable (g : Graph) (source : Nat)

/-- The state before the loop over the nodes `todo`: the flow into each of them
comes from the source or from nodes after it. -/
structure Returnable (todo : List Nat) (t : State) : Prop where
  nodup : todo.Nodup
  source_not_mem : source ∉ todo
  residual_nonneg : ∀ a, g.IsArcValid a → 0 ≤ t.residualArcCapacity a
  conserves : t.Conserves g
  excess_nonneg : ∀ v ∈ todo, 0 ≤ t.nodeExcess v
  feeds : ∀ pre x post, todo = pre ++ x :: post → ∀ a, g.isArcDirect a = true → g.head a = x →
    0 < t.flow g a → g.tail a = source ∨ g.tail a ∈ post

/-- What the loop over the nodes `todo` does, from `t` to `t'`. -/
structure Emptied (todo : List Nat) (t t' : State) : Prop where
  residual_nonneg : ∀ a, g.IsArcValid a → 0 ≤ t'.residualArcCapacity a
  excess_zero : ∀ v ∈ todo, t'.nodeExcess v = 0
  excess_eq : ∀ v, v ∉ todo → v ≠ source → t'.nodeExcess v = t.nodeExcess v
  flow_le : ∀ b, g.isArcDirect b = true → t'.flow g b ≤ t.flow g b
  pushes : Pushes g t t'

variable {g source}

theorem returnExcess_cons (x : Nat) (todo : List Nat) (t : State) :
    returnExcess g (x :: todo) t =
      (if t.nodeExcess x = 0 then some t
        else if (returnArcs g x (g.incomingArcs x) t).nodeExcess x = 0 then
          some (returnArcs g x (g.incomingArcs x) t)
        else none) >>= returnExcess g todo := rfl

/-- The nodes after the first keep the invariant, in any state with less flow
and more excess. -/
theorem Returnable.tail {x : Nat} {todo : List Nat} {t t' : State} (h : Returnable g source (x :: todo) t)
    (hflow : ∀ b, g.isArcDirect b = true → t'.flow g b ≤ t.flow g b)
    (hres : ∀ a, g.IsArcValid a → 0 ≤ t'.residualArcCapacity a) (hcons : t'.Conserves g)
    (hex : ∀ v ∈ todo, t.nodeExcess v ≤ t'.nodeExcess v) : Returnable g source todo t' where
  nodup := (List.nodup_cons.mp h.nodup).2
  source_not_mem := fun hm => h.source_not_mem (List.mem_cons_of_mem _ hm)
  residual_nonneg := hres
  conserves := hcons
  excess_nonneg v hv := (h.excess_nonneg v (List.mem_cons_of_mem _ hv)).trans (hex v hv)
  feeds pre y post e a ha hh hf := h.feeds (x :: pre) y post (by rw [e]; rfl) a ha hh
    (hf.trans_le (hflow a ha))

/-- The first node returns its whole excess: otherwise every arc into it would be
empty, and its excess, its net inflow, not positive. -/
theorem Returnable.returned {x : Nat} {todo : List Nat} {t : State} (h : Returnable g source (x :: todo) t) :
    Returned g x (g.incomingArcs x) t (returnArcs g x (g.incomingArcs x) t) ∧
      (returnArcs g x (g.incomingArcs x) t).nodeExcess x = 0 := by
  set t₁ := returnArcs g x (g.incomingArcs x) t
  have hR : Returned g x (g.incomingArcs x) t t₁ := returnArcs_returned x _ t
    (fun a ha => by
      obtain ⟨i, hi, rfl, hh⟩ := (g.mem_incoming_iff x a).mp ha
      exact ⟨(g.isArcDirect_iff _).mpr ⟨i, hi, rfl⟩, hh⟩)
    h.residual_nonneg (h.excess_nonneg x (List.mem_cons_self _ _))
  refine ⟨hR, hR.done.elim id fun hd => ?_⟩
  have hx : x ∉ todo := (List.nodup_cons.mp h.nodup).1
  have hxs : x ≠ source := fun e => h.source_not_mem (e ▸ List.mem_cons_self _ _)
  have hcons : t₁.Conserves g := hR.pushes.moves.conserves h.conserves
  have hin : t₁.netInflow g x ≤ 0 := by
    refine State.netInflow_nonpos t₁ (fun i hi => ?_) fun i hi hh => ?_
    · rw [State.flow_direct hi]; exact hR.residual_nonneg _ hi
    · have had : g.isArcDirect (.direct i) = true := (g.isArcDirect_iff _).mpr ⟨i, hi, rfl⟩
      by_cases ht : g.tail (.direct i) = x
      · refine (hR.flow_le _ had).trans (not_lt.mp fun hpos => ?_)
        rcases h.feeds [] x todo rfl _ had hh hpos with e | e
        · exact hxs (ht ▸ e)
        · exact hx (ht ▸ e)
      · exact hd _ ((g.mem_incoming_iff x _).mpr ⟨i, hi, rfl, hh⟩) ht
  have := hR.excess_nonneg
  rw [hcons x] at this ⊢
  omega

/-- The loop over `reverse_topological_order` passes every `DCHECK_EQ(0,
node_excess_[node])` and empties every node it goes through, raising only the
excess of the source. -/
theorem returnExcess_emptied : ∀ (todo : List Nat) (t : State), Returnable g source todo t →
    ∃ t', returnExcess g todo t = some t' ∧ Emptied g source todo t t'
  | [], t, h => ⟨t, rfl, h.residual_nonneg, fun _ hv => absurd hv (List.not_mem_nil _),
      fun _ _ _ => rfl, fun _ _ => le_rfl, .refl _⟩
  | x :: todo, t, h => by
    have hx : x ∉ todo := (List.nodup_cons.mp h.nodup).1
    have hxs : x ≠ source := fun e => h.source_not_mem (e ▸ List.mem_cons_self _ _)
    by_cases hz : t.nodeExcess x = 0
    · obtain ⟨t', h1, h2⟩ := returnExcess_emptied todo t
        (h.tail (fun _ _ => le_rfl) h.residual_nonneg h.conserves fun _ _ => le_rfl)
      refine ⟨t', by rw [returnExcess_cons, if_pos hz]; exact h1, h2.residual_nonneg,
        fun v hv => ?_, fun v hv hvs => h2.excess_eq v (fun hm => hv (List.mem_cons_of_mem _ hm)) hvs,
        h2.flow_le, h2.pushes⟩
      rcases List.mem_cons.mp hv with rfl | hv
      · rw [h2.excess_eq v hx hxs, hz]
      · exact h2.excess_zero v hv
    · obtain ⟨hR, hz₁⟩ := h.returned
      obtain ⟨t', h1, h2⟩ := returnExcess_emptied todo _
        (h.tail hR.flow_le hR.residual_nonneg (hR.pushes.moves.conserves h.conserves)
          fun v hv => hR.excess_le v fun e => hx (e ▸ hv))
      refine ⟨t', by rw [returnExcess_cons, if_neg hz, if_pos hz₁]; exact h1, h2.residual_nonneg,
        fun v hv => ?_, fun v hv hvs => ?_, fun b hb => (h2.flow_le b hb).trans (hR.flow_le b hb),
        hR.pushes.trans h2.pushes⟩
      · rcases List.mem_cons.mp hv with rfl | hv
        · rw [h2.excess_eq v hx hxs, hz₁]
        · exact h2.excess_zero v hv
      · have hvx : v ≠ x := fun e => hv (e ▸ List.mem_cons_self _ _)
        have hvt : v ∉ todo := fun hm => hv (List.mem_cons_of_mem _ hm)
        rw [h2.excess_eq v hvt hvs]
        refine hR.excess_eq v hvx fun a ha hat => not_lt.mp fun hpos => ?_
        obtain ⟨i, hi, rfl, hh⟩ := (g.mem_incoming_iff x a).mp ha
        rcases h.feeds [] x todo rfl _ ((g.isArcDirect_iff _).mpr ⟨i, hi, rfl⟩) hh hpos with e | e
        · exact hvs (hat ▸ e)
        · exact hvt (hat ▸ e)

end ReturnExcess

/-! ## After the search -/

section AfterSearch

variable (g : Graph) in
/-- The state in which `RefineWithGlobalUpdate()` calls
`PushFlowExcessBackToSource()`: residual capacities non-negative, excess
non-negative away from the source and conserved, no flow out of the sink, and
none around a loop at the source (whose height keeps `SaturateOutgoingArcsFromSource()`
off it). -/
structure ReturnReady (source sink : Nat) (s : State) : Prop where
  source_ne_sink : source ≠ sink
  source_lt : source < g.numNodes
  sink_lt : sink < g.numNodes
  residual_nonneg : ∀ a, g.IsArcValid a → 0 ≤ s.residualArcCapacity a
  excess_nonneg : ∀ v, v ≠ source → 0 ≤ s.nodeExcess v
  conserves : s.Conserves g
  sink_flow : ∀ a, g.isArcDirect a = true → g.tail a = sink → s.flow g a ≤ 0
  source_loop : ∀ a, g.isArcDirect a = true → g.tail a = source → g.head a = source → s.flow g a ≤ 0

variable {g : Graph} {source sink : Nat} {s : State} {d : Dfs}

namespace Search

theorem source_not_mem_order (h : Search g source sink s d [] [] []) :
    source ∉ d.reverseTopologicalOrder := fun hm => by
  have := h.nodes_not_stored source (by simp)
  simp [(h.stored_iff source).mpr (.inr hm)] at this

/-- At the end of the search, the arcs carrying flow out of the source or out
of a stored node lead to stored nodes. -/
theorem stored_head (hr : ReturnReady g source sink s) (h : Search g source sink s d [] [] [])
    {b : ArcIndex} (hb : g.isArcDirect b = true) (hpos : 0 < d.state.flow g b)
    (ht : g.tail b = source ∨ d.stored (g.tail b) = true) : d.stored (g.head b) = true := by
  rcases ht with ht | ht
  · rcases h.branch_closed source (by simp) b hb ht hpos with hs | hs | ⟨-, hs⟩
    · rw [h.stack_eq] at hs; exact absurd hs (List.not_mem_nil _)
    · exact hs
    · exact absurd hs (List.not_mem_nil _)
  · rcases (h.stored_iff _).mp ht with ht | ht
    · have := (h.flow_le b hb).trans (hr.sink_flow b hb ht); omega
    · obtain ⟨pre, post, e⟩ := List.append_of_mem ht
      rcases h.order_closed pre _ post e b hb rfl hpos with hh | hh
      · exact (h.stored_iff _).mpr (.inl hh)
      · exact (h.stored_iff _).mpr (.inr (e ▸ List.mem_append_left _ hh))

/-- The nodes the search never reached have no excess, and send no flow to the
others. -/
theorem unreached (hr : ReturnReady g source sink s) (h : Search g source sink s d [] [] []) :
    (∀ v < g.numNodes, (v ≠ source ∧ d.stored v = false) → d.state.nodeExcess v = 0) ∧
      (∀ i < g.numArcs, (g.tailOf i ≠ source ∧ d.stored (g.tailOf i) = false) →
        ¬ (g.headOf i ≠ source ∧ d.stored (g.headOf i) = false) → d.state.flow g (.direct i) = 0) := by
  have hreached : ∀ v, ¬ (v ≠ source ∧ d.stored v = false) → v = source ∨ d.stored v = true :=
    fun v hv => by by_cases e : v = source <;> simp_all
  refine (h.pushes.moves.conserves hr.conserves).closed (fun v => v ≠ source ∧ d.stored v = false)
    (fun i hi => ?_) (fun i hi hU hnU => not_lt.mp fun hpos => ?_) fun v _ hU => ?_
  · rw [State.flow_direct hi]; exact h.residual_nonneg _ hi
  · have := h.stored_head hr ((g.isArcDirect_iff _).mpr ⟨i, hi, rfl⟩) hpos (hreached _ hnU)
    rw [Graph.head_direct] at this
    simp [this] at hU
  · rw [h.excess_eq]; exact hr.excess_nonneg v hU.1

/-- The loop over `reverse_topological_order` starts from a state it can empty. -/
theorem returnable (hr : ReturnReady g source sink s) (h : Search g source sink s d [] [] []) :
    Returnable g source d.reverseTopologicalOrder d.state where
  nodup := h.order_nodup
  source_not_mem := h.source_not_mem_order
  residual_nonneg := h.residual_nonneg
  conserves := h.pushes.moves.conserves hr.conserves
  excess_nonneg v hv := by
    rw [h.excess_eq]; exact hr.excess_nonneg v fun e => h.source_not_mem_order (e ▸ hv)
  feeds pre x post e a ha hh hpos := by
    have hxO : x ∈ d.reverseTopologicalOrder := e ▸ List.mem_append_right _ (List.mem_cons_self _ _)
    have hxk : x ≠ sink := fun e' => h.sink_not_mem (e' ▸ hxO)
    have hxpre : x ∉ pre := fun hm => by
      have hnd := h.order_nodup
      rw [e] at hnd
      exact List.disjoint_of_nodup_append hnd hm (List.mem_cons_self _ _)
    by_cases hps : g.tail a = source
    · exact .inl hps
    have hpst : d.stored (g.tail a) = true := by
      by_contra hns
      obtain ⟨i, hi, rfl⟩ := (g.isArcDirect_iff a).mp ha
      have := (h.unreached hr).2 i hi ⟨hps, by simpa using hns⟩
        fun hU => by simp [show g.headOf i = x from hh, (h.stored_iff x).mpr (.inr hxO)] at hU
      omega
    rcases (h.stored_iff _).mp hpst with hp | hp
    · have := (h.flow_le a ha).trans (hr.sink_flow a ha hp); omega
    rw [e] at hp
    rcases List.mem_append.mp hp with hp | hp
    · obtain ⟨A, B, rfl⟩ := List.append_of_mem hp
      rcases h.order_closed A _ (B ++ x :: post) (by rw [e]; simp) a ha rfl hpos with hx | hx
      · exact absurd (hh ▸ hx) hxk
      · exact absurd (List.mem_append_left _ (hh ▸ hx)) hxpre
    · rcases List.mem_cons.mp hp with hp | hp
      · rcases h.order_closed pre x post e a ha hp hpos with hx | hx
        · exact absurd (hh ▸ hx) hxk
        · exact absurd (hh ▸ hx) hxpre
      · exact .inr hp

/-- From the end of the search, the return loop runs through and leaves a flow. -/
theorem returnExcess_flow (hr : ReturnReady g source sink s) (h : Search g source sink s d [] [] []) :
    ∃ t, returnExcess g d.reverseTopologicalOrder d.state = some t ∧
      (∀ v, v ≠ source → v ≠ sink → t.nodeExcess v = 0) ∧ t.nodeExcess sink = s.nodeExcess sink ∧
      (∀ a, g.IsArcValid a → 0 ≤ t.residualArcCapacity a) ∧ Pushes g s t ∧
      (∀ b, g.isArcDirect b = true → t.flow g b ≤ s.flow g b) ∧
      -t.nodeExcess source = t.nodeExcess sink := by
  obtain ⟨t, ht, he⟩ := returnExcess_emptied _ _ (h.returnable hr)
  have hsk : sink ∉ d.reverseTopologicalOrder := h.sink_not_mem
  have hzero : ∀ v, v ≠ source → v ≠ sink → t.nodeExcess v = 0 := fun v hvs hvk => by
    by_cases hv : v ∈ d.reverseTopologicalOrder
    · exact he.excess_zero v hv
    rw [he.excess_eq v hv hvs]
    rcases Nat.lt_or_ge v g.numNodes with hlt | hge
    · refine (h.unreached hr).1 v hlt ⟨hvs, ?_⟩
      cases hst : d.stored v
      · rfl
      · rcases (h.stored_iff v).mp hst with e | e
        · exact absurd e hvk
        · exact absurd e hv
    · rw [(h.pushes.moves.conserves hr.conserves) v, State.netInflow_of_ge _ hge]
  have hpush : Pushes g s t := h.pushes.trans he.pushes
  have hsum : ∑ v ∈ Finset.range g.numNodes, t.nodeExcess v = t.nodeExcess source + t.nodeExcess sink :=
    Finset.sum_eq_add_of_mem _ _ (Finset.mem_range.mpr hr.source_lt) (Finset.mem_range.mpr hr.sink_lt)
      hr.source_ne_sink fun v _ hv => hzero v hv.1 hv.2
  have htot : ∑ v ∈ Finset.range g.numNodes, t.nodeExcess v = 0 := by
    rw [Finset.sum_congr rfl fun v _ => hpush.moves.conserves hr.conserves v, State.sum_netInflow]
  refine ⟨t, ht, hzero, ?_, he.residual_nonneg, hpush,
    fun b hb => (he.flow_le b hb).trans (h.flow_le b hb), by omega⟩
  rw [he.excess_eq sink hsk (Ne.symm hr.source_ne_sink), h.excess_eq]

end Search

end AfterSearch

/-! ## `PushFlowExcessBackToSource()` -/

section Phase

variable {g : Graph} {source sink : Nat} {s : State}

/-- From the state `RefineWithGlobalUpdate()` calls it in, enough fuel runs the
second phase through. -/
theorem pushFlowExcessBackToSource_some (h : ReturnReady g source sink s) :
    ∃ fuel s', pushFlowExcessBackToSource g source sink fuel s = some s' := by
  have hstart := search_dfsStart h.source_ne_sink h.residual_nonneg h.source_loop
  obtain ⟨fuel, d, hl⟩ := dfsLoop_terminates hstart
  have hd := dfsLoop_search fuel hstart hl
  obtain ⟨t, ht, -, -, -, -, -, hbal⟩ := hd.returnExcess_flow h
  refine ⟨fuel, t, ?_⟩
  simp only [pushFlowExcessBackToSource, hl, bind, Option.some_bind, hd.branch_eq]
  simp [branchIndices, ht, hbal]

/-- Every run of the second phase from such a state. -/
theorem pushFlowExcessBackToSource_spec (h : ReturnReady g source sink s) {fuel : Nat} {s' : State}
    (hp : pushFlowExcessBackToSource g source sink fuel s = some s') :
    (∀ v, v ≠ source → v ≠ sink → s'.nodeExcess v = 0) ∧ s'.nodeExcess sink = s.nodeExcess sink ∧
      (∀ a, g.IsArcValid a → 0 ≤ s'.residualArcCapacity a) ∧ Pushes g s s' ∧
      (∀ b, g.isArcDirect b = true → s'.flow g b ≤ s.flow g b) ∧
      -s'.nodeExcess source = s'.nodeExcess sink := by
  simp only [pushFlowExcessBackToSource, bind, Option.bind_eq_some] at hp
  obtain ⟨d, hl, hp⟩ := hp
  have hd := dfsLoop_search fuel (search_dfsStart h.source_ne_sink h.residual_nonneg h.source_loop) hl
  obtain ⟨t, ht, hres⟩ := hd.returnExcess_flow h
  rw [if_pos (by rw [hd.branch_eq]; rfl), ht] at hp
  simp only [Option.some_bind, if_pos hres.2.2.2.2.2, Option.some.injEq] at hp
  exact hp ▸ hres

/-- From the state `RefineWithGlobalUpdate()` calls it in, the second phase runs
through with every `DCHECK` holding, and every run of it leaves no excess away
from the source and the sink, the excess of the sink as it was, non-negative
residual capacities and every capacity as it was. -/
theorem pushFlowExcessBackToSource_correct (h : ReturnReady g source sink s) :
    (∃ fuel s', pushFlowExcessBackToSource g source sink fuel s = some s') ∧
    ∀ fuel s', pushFlowExcessBackToSource g source sink fuel s = some s' →
      (∀ v, v ≠ source → v ≠ sink → s'.nodeExcess v = 0) ∧ s'.nodeExcess sink = s.nodeExcess sink ∧
      (∀ a, g.IsArcValid a → 0 ≤ s'.residualArcCapacity a) ∧
      (∀ a, s'.residualArcCapacity a + s'.residualArcCapacity a.opposite =
        s.residualArcCapacity a + s.residualArcCapacity a.opposite) ∧
      -s'.nodeExcess source = s'.nodeExcess sink := by
  refine ⟨pushFlowExcessBackToSource_some h, fun fuel s' hp => ?_⟩
  obtain ⟨hz, hk, hres, hpush, -, hbal⟩ := pushFlowExcessBackToSource_spec h hp
  exact ⟨hz, hk, hres, hpush.moves.pairSum, hbal⟩

/-- The path `0 → 1 → 2`. -/
def threePath : Graph := Graph.ofArcs 3 [(0, 1), (1, 2)] (by decide)

/-- Capacity 2 on each arc of `threePath`, 2 pushed out of the source and 1 on
to the sink: node 1 keeps an excess of 1. -/
def threePathPreflow : State :=
  { State.init with
    residualArcCapacity := fun a =>
      if a = .reverse 0 then 2 else if a = .direct 1 ∨ a = .reverse 1 then 1 else 0
    nodeExcess := fun v => if v = 0 then -2 else if v = 1 ∨ v = 2 then 1 else 0 }

theorem pushFlowExcessBackToSource_correct_on_path :
    ReturnReady threePath 0 2 threePathPreflow ∧
      ∃ fuel s', pushFlowExcessBackToSource threePath 0 2 fuel threePathPreflow = some s' ∧
        s'.nodeExcess 1 = 0 := by
  have hready : ReturnReady threePath 0 2 threePathPreflow := by
    refine ⟨by decide, by decide, by decide, fun a _ => ?_, fun v _ => ?_, fun v => ?_,
      fun a ha ht => ?_, fun a ha _ hh => ?_⟩
    · simp only [threePathPreflow]; split_ifs <;> decide
    · simp only [threePathPreflow]; split_ifs <;> omega
    · obtain _ | _ | _ | v := v
      · decide
      · decide
      · decide
      · rw [State.netInflow_of_ge _ (by show 3 ≤ v + 1 + 1 + 1; omega)]
        simp [threePathPreflow]
    · obtain ⟨_ | _ | i, hi, rfl⟩ := (threePath.isArcDirect_iff a).mp ha
      · revert ht; decide
      · revert ht; decide
      · exact absurd hi (by show ¬ i + 1 + 1 < 2; omega)
    · obtain ⟨_ | _ | i, hi, rfl⟩ := (threePath.isArcDirect_iff a).mp ha
      · revert hh; decide
      · revert hh; decide
      · exact absurd hi (by show ¬ i + 1 + 1 < 2; omega)
  obtain ⟨⟨fuel, s', hs⟩, hall⟩ := pushFlowExcessBackToSource_correct hready
  exact ⟨hready, fuel, s', hs, (hall fuel s' hs).1 1 (by decide) (by decide)⟩

end Phase

end OrTools.MaxFlow

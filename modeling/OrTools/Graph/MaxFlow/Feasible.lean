import OrTools.Graph.MaxFlow.ExcessReturnSpec
import OrTools.Graph.MaxFlow.History

/-!
# Every `Solve()` leaves a flow

The invariant `Preflow` holds from `InitializePreflow()` to the end of
`Solve()`: residual capacities stay non-negative, excesses stay non-negative
away from the source and equal to the net inflows, no flow leaves the sink or
goes around a loop at the source, the source and the sink keep their heights,
and no more than `kMaxFlowQuantity` leaves the source.

Every push of the first phase keeps it: `SaturateOutgoingArcsFromSource()`
pushes from the source to lower nodes within `kMaxFlowQuantity`, the excess
stealing of `GlobalUpdate()` and the pushes of `Discharge(node)` move at most
the excess of a node other than the source and the sink.  So each call of
`PushFlowExcessBackToSource()` starts in the state its correctness needs and
leaves excess only at the source and the sink; the loop of
`RefineWithGlobalUpdate()` stops right after such a call, or before the first
push, and `Solve()` returns a flow.
-/

set_option autoImplicit false

namespace OrTools.MaxFlow

open Function Finset

variable (g : Graph)

/-- The invariant of the solver from `InitializePreflow()` on. -/
structure Preflow (source sink : Nat) (s : State) : Prop where
  residual_nonneg : ∀ a, g.IsArcValid a → 0 ≤ s.residualArcCapacity a
  excess_nonneg : ∀ v, v ≠ source → 0 ≤ s.nodeExcess v
  conserves : s.Conserves g
  sink_flow : ∀ a, g.isArcDirect a = true → g.tail a = sink → s.flow g a ≤ 0
  source_loop : ∀ a, g.isArcDirect a = true → g.tail a = source → g.head a = source → s.flow g a ≤ 0
  source_height : s.nodePotential source = g.numNodes
  sink_height : s.nodePotential sink = 0
  outflow_le : -s.nodeExcess source ≤ kMaxFlowQuantity

/-- The conservation `CheckResult()` asserts at the end: no excess but at the
source and the sink. -/
def Balanced (source sink : Nat) (s : State) : Prop :=
  ∀ v, v ≠ source → v ≠ sink → s.nodeExcess v = 0

variable {g}

/-- A push of a non-negative amount raises the flow of no direct arc but the
one pushed on. -/
theorem flow_pushFlow_le {f : Int} (hf : 0 ≤ f) (t : Nat) {a b : ArcIndex} (s : State)
    (hb : g.isArcDirect b = true) (hab : b ≠ a) : (s.pushFlow g f t a).flow g b ≤ s.flow g b := by
  rw [flow_of_isArcDirect g hb, flow_of_isArcDirect g hb, State.pushFlow_residual]
  split_ifs with h1 h2
  · rw [h1]; omega
  · exact absurd (ArcIndex.opposite_injective h2) hab
  · exact le_rfl

namespace Preflow

variable {source sink : Nat} {s t : State}

/-- The invariant only reads residual capacities, excesses and the heights of
the source and the sink. -/
theorem of_eq (h : Preflow g source sink s) (hres : t.residualArcCapacity = s.residualArcCapacity)
    (hex : t.nodeExcess = s.nodeExcess) (hsrc : t.nodePotential source = s.nodePotential source)
    (hsnk : t.nodePotential sink = s.nodePotential sink) : Preflow g source sink t where
  residual_nonneg a ha := hres ▸ h.residual_nonneg a ha
  excess_nonneg v hv := hex ▸ h.excess_nonneg v hv
  conserves := h.conserves.of_eq hres hex
  sink_flow a ha ht := by simpa [State.flow, hres] using h.sink_flow a ha ht
  source_loop a ha ht hh := by simpa [State.flow, hres] using h.source_loop a ha ht hh
  source_height := hsrc.trans h.source_height
  sink_height := hsnk.trans h.sink_height
  outflow_le := hex ▸ h.outflow_le

/-- A push along a valid arc from its tail, of at most its residual capacity:
from a node other than the source of at most its excess, never from the sink,
and from the source only to another node and within `kMaxFlowQuantity`. -/
theorem pushFlow (h : Preflow g source sink s) {a : ArcIndex} (ha : g.IsArcValid a) {f : Int}
    (hf : 0 ≤ f) (hfr : f ≤ s.residualArcCapacity a)
    (hfe : g.tail a ≠ source → f ≤ s.nodeExcess (g.tail a)) (hk : g.tail a ≠ sink)
    (hsrc : g.tail a = source → g.head a ≠ source ∧ -s.nodeExcess source + f ≤ kMaxFlowQuantity) :
    Preflow g source sink (s.pushFlow g f (g.tail a) a) where
  residual_nonneg b hb := by
    have := h.residual_nonneg b hb
    rw [State.pushFlow_residual]
    split_ifs with h1 h2
    · subst h1; omega
    · subst h2; omega
    · exact this
  excess_nonneg v hv := by
    have := h.excess_nonneg v hv
    have hle : v = g.tail a → f ≤ s.nodeExcess v := fun e => by subst e; exact hfe hv
    rw [State.pushFlow_excess]
    split_ifs <;> omega
  conserves := h.conserves.pushFlow f ha
  sink_flow b hb hbt :=
    (flow_pushFlow_le hf _ s hb (by rintro rfl; exact hk hbt)).trans (h.sink_flow b hb hbt)
  source_loop b hb hbt hbh :=
    (flow_pushFlow_le hf _ s hb (by rintro rfl; exact (hsrc hbt).1 hbh)).trans
      (h.source_loop b hb hbt hbh)
  source_height := h.source_height
  sink_height := h.sink_height
  outflow_le := by
    have := h.outflow_le
    have hout : source = g.tail a → -s.nodeExcess source + f ≤ kMaxFlowQuantity :=
      fun e => (hsrc e.symm).2
    rw [State.pushFlow_excess]
    split_ifs <;> omega

/-- No more reaches the sink than leaves the source: the excesses add up to
nothing over the nodes, and only the source's is negative. -/
theorem sink_le (h : Preflow g source sink s) (hs : source < g.numNodes)
    (hk : sink < g.numNodes) (hne : source ≠ sink) :
    s.nodeExcess sink ≤ -s.nodeExcess source := by
  have htot : ∑ v ∈ range g.numNodes, s.nodeExcess v = 0 := by
    rw [sum_congr rfl fun v _ => h.conserves v, State.sum_netInflow]
  have hpair : s.nodeExcess source + s.nodeExcess sink ≤ ∑ v ∈ range g.numNodes, s.nodeExcess v := by
    rw [← sum_pair hne]
    refine sum_le_sum_of_subset_of_nonneg (by simp [insert_subset_iff, hs, hk]) fun v _ hv => ?_
    exact h.excess_nonneg v fun e => hv (by simp [e])
  omega

/-- With no excess but at the source and the sink, the sink holds what left
the source. -/
theorem sink_eq (h : Preflow g source sink s) (hb : Balanced source sink s)
    (hs : source < g.numNodes) (hk : sink < g.numNodes) (hne : source ≠ sink) :
    s.nodeExcess sink = -s.nodeExcess source := by
  have htot : ∑ v ∈ range g.numNodes, s.nodeExcess v = 0 := by
    rw [sum_congr rfl fun v _ => h.conserves v, State.sum_netInflow]
  rw [sum_eq_add_of_mem _ _ (mem_range.mpr hs) (mem_range.mpr hk) hne
    fun v _ hv => hb v hv.1 hv.2] at htot
  omega

/-- The state `PushFlowExcessBackToSource()` needs. -/
theorem returnReady (h : Preflow g source sink s) (hs : source < g.numNodes)
    (hk : sink < g.numNodes) (hne : source ≠ sink) : ReturnReady g source sink s :=
  ⟨hne, hs, hk, h.residual_nonneg, h.excess_nonneg, h.conserves, h.sink_flow, h.source_loop⟩

end Preflow

section Phases

variable {source sink : Nat}

/-! ## `SaturateOutgoingArcsFromSource()` -/

/-- The arc loop of `SaturateOutgoingArcsFromSource()` over arcs out of the
source keeps the invariant. -/
theorem preflow_saturateArcs (hne : source ≠ sink) : ∀ (arcs : List ArcIndex) (pushed : Bool)
    {s : State}, (∀ a ∈ arcs, a ∈ g.outgoingArcs source) → Preflow g source sink s →
    Preflow g source sink (saturateArcs g source arcs pushed s).2
  | [], _, _, _, h => h
  | a :: arcs, pushed, s, harcs, h => by
    obtain ⟨hd, ht⟩ := (g.mem_outgoing_iff_isArcDirect source a).mp (harcs a (List.mem_cons_self _ _))
    have hrest := fun b hb => harcs b (List.mem_cons_of_mem a hb)
    have hpush : ∀ f, 0 ≤ f → f ≤ s.residualArcCapacity a →
        -s.nodeExcess source + f ≤ kMaxFlowQuantity → s.nodePotential (g.head a) < g.numNodes →
        Preflow g source sink (s.pushFlow g f source a) := fun f hf hfr hout hlt => by
      have := h.pushFlow (g.isArcValid_of_isArcDirect hd) hf hfr (fun e => absurd ht e) (ht ▸ hne)
        fun _ => ⟨fun e => by rw [e, h.source_height] at hlt; omega, hout⟩
      rwa [ht] at this
    have hout := h.outflow_le
    have hres := h.residual_nonneg a (g.isArcValid_of_isArcDirect hd)
    simp only [saturateArcs]
    split_ifs with hskip hcap hzero
    · exact preflow_saturateArcs hne arcs pushed hrest h
    · exact h
    · exact hpush _ (by omega) hcap.le (by omega) (by omega)
    · exact preflow_saturateArcs hne arcs true hrest (hpush _ hres le_rfl (by omega) (by omega))

/-- The arc loop reports no push only when it made none. -/
theorem saturateArcs_eq_of_false (source : Nat) : ∀ (arcs : List ArcIndex) (pushed : Bool)
    (s : State), (saturateArcs g source arcs pushed s).1 = false →
      pushed = false ∧ (saturateArcs g source arcs pushed s).2 = s
  | [], _, _, h => ⟨h, rfl⟩
  | a :: arcs, pushed, s, h => by
    simp only [saturateArcs] at h ⊢
    split_ifs at h ⊢
    · exact saturateArcs_eq_of_false source arcs pushed s h
    · cases (saturateArcs_eq_of_false source arcs true _ h).1

theorem preflow_saturateOutgoingArcsFromSource (hne : source ≠ sink) {s : State}
    (h : Preflow g source sink s) :
    Preflow g source sink (saturateOutgoingArcsFromSource g source sink s).2 := by
  simp only [saturateOutgoingArcsFromSource]
  split_ifs
  · exact h
  · exact h
  · exact preflow_saturateArcs hne _ false (fun _ => id) h

theorem saturateOutgoingArcsFromSource_eq_of_false {s : State}
    (h : (saturateOutgoingArcsFromSource g source sink s).1 = false) :
    (saturateOutgoingArcsFromSource g source sink s).2 = s := by
  simp only [saturateOutgoingArcsFromSource] at h ⊢
  split_ifs at h ⊢
  · rfl
  · rfl
  · exact (saturateArcs_eq_of_false source _ false s h).2

/-! ## `GlobalUpdate()` -/

/-- A search state of `GlobalUpdate()` on a preflow, with the source and the
sink marked, so that neither is relabelled nor robbed of its excess. -/
structure Bfs.Marked (g : Graph) (source sink : Nat) (b : Bfs) : Prop where
  preflow : Preflow g source sink b.state
  source_marked : b.nodeInBfsQueue source = true
  sink_marked : b.nodeInBfsQueue sink = true

namespace Bfs.Marked

variable {b : Bfs}

theorem enqueue (h : b.Marked g source sink) {u : Nat} (hu : b.nodeInBfsQueue u = false)
    (d : Nat) : (b.enqueue d u).Marked g source sink where
  preflow := by
    have hs : source ≠ u := by rintro rfl; simp [h.source_marked] at hu
    have hk : sink ≠ u := by rintro rfl; simp [h.sink_marked] at hu
    exact h.preflow.of_eq rfl rfl (update_noteq hs _ _) (update_noteq hk _ _)
  source_marked := by simp [update_apply, h.source_marked]
  sink_marked := by simp [update_apply, h.sink_marked]

/-- One arc of the search: excess stealing from an unmarked node, then its
marking. -/
theorem globalUpdateArc (h : b.Marked g source sink) {arc : ArcIndex} (ha : g.IsArcValid arc)
    (d : Nat) : (OrTools.MaxFlow.globalUpdateArc g d b arc).Marked g source sink := by
  have hsteal : b.nodeInBfsQueue (g.head arc) = false →
      0 < b.state.residualArcCapacity arc.opposite → 0 < b.state.nodeExcess (g.head arc) →
      Preflow g source sink (b.state.pushFlow g (min (b.state.nodeExcess (g.head arc))
        (b.state.residualArcCapacity arc.opposite)) (g.head arc) arc.opposite) := fun hq hr hex => by
    have hs : g.head arc ≠ source := by rintro e; rw [e, h.source_marked] at hq; cases hq
    have hk : g.head arc ≠ sink := by rintro e; rw [e, h.sink_marked] at hq; cases hq
    have hp := h.preflow.pushFlow ((g.isArcValid_opposite arc).mpr ha) (le_min hex.le hr.le)
      (min_le_right _ _) (fun _ => by rw [g.tail_opposite]; exact min_le_left _ _)
      (by rwa [g.tail_opposite]) (fun e => absurd (by rwa [g.tail_opposite] at e) hs)
    rwa [g.tail_opposite] at hp
  simp only [OrTools.MaxFlow.globalUpdateArc]
  split_ifs with hq hr hex
  · exact h
  · exact ⟨hsteal (by simpa using hq) hr hex, h.source_marked, h.sink_marked⟩
  · exact enqueue (b := { b with state := _ })
      ⟨hsteal (by simpa using hq) hr hex, h.source_marked, h.sink_marked⟩ (by simpa using hq) d
  · exact h.enqueue (by simpa using hq) d
  · exact h

theorem foldl (d : Nat) : ∀ (arcs : List ArcIndex) {b : Bfs}, (∀ a ∈ arcs, g.IsArcValid a) →
    b.Marked g source sink → (arcs.foldl (OrTools.MaxFlow.globalUpdateArc g d) b).Marked g source sink
  | [], _, _, h => h
  | a :: arcs, _, harcs, h =>
    foldl d arcs (fun b hb => harcs b (List.mem_cons_of_mem a hb))
      (h.globalUpdateArc (harcs a (List.mem_cons_self _ _)) d)

theorem loop : ∀ (fuel : Nat) {b : Bfs}, b.Marked g source sink →
    (globalUpdateLoop g fuel b).Marked g source sink
  | 0, _, h => h
  | fuel + 1, _, h => by
    rw [globalUpdateLoop]
    split_ifs
    · exact h
    · exact loop fuel (foldl _ _ (fun a ha => ((g.mem_adjacent_iff _ a).mp ha).1) ⟨h.preflow,
        h.source_marked, h.sink_marked⟩)

end Bfs.Marked

/-- `GlobalUpdate()` keeps the invariant. -/
theorem preflow_globalUpdate {s : State} (h : Preflow g source sink s) :
    Preflow g source sink (globalUpdate g source sink s) := by
  have hb : (globalUpdateSearch g source sink s).Marked g source sink :=
    Bfs.Marked.loop _ ⟨h, by simp, by simp [update_apply]⟩
  refine hb.preflow.of_eq (globalUpdate_residual g source sink s)
    (globalUpdate_nodeExcess g source sink s) ?_ ?_ <;>
    simp [globalUpdate_nodePotential, hb.source_marked, hb.sink_marked]

/-! ## `Discharge(node)` -/

/-- The arc scan of `Discharge(node)` for a node other than the source and the
sink keeps the invariant. -/
theorem preflow_dischargeScan {v : Nat} (hv : v ≠ source) (hvt : v ≠ sink) :
    ∀ (arcs : List ArcIndex) {s : State}, (∀ a ∈ arcs, g.IsArcValid a ∧ g.tail a = v) →
      Preflow g source sink s → Preflow g source sink (dischargeScan g v arcs s).state
  | [], _, _, h => h
  | a :: arcs, s, harcs, h => by
    obtain ⟨ha, hta⟩ := harcs a (List.mem_cons_self _ _)
    have hrest := fun b hb => harcs b (List.mem_cons_of_mem a hb)
    have hstep : ∀ s₁ : State, s₁.residualArcCapacity = s.residualArcCapacity →
        s₁.nodeExcess = s.nodeExcess → s₁.nodePotential = s.nodePotential →
        Preflow g source sink
          (s₁.pushFlow g (min (s₁.nodeExcess v) (s₁.residualArcCapacity a)) v a) :=
      fun s₁ hr he hp => by
        have h₁ := h.of_eq hr he (by rw [hp]) (by rw [hp])
        have := h₁.pushFlow ha (le_min (h₁.excess_nonneg v hv) (h₁.residual_nonneg a ha))
          (min_le_right _ _) (fun _ => by rw [hta]; exact min_le_left _ _) (hta ▸ hvt)
          fun e => absurd (hta.symm.trans e) hv
        rwa [hta] at this
    simp only [dischargeScan]
    split_ifs <;> first
      | exact (hstep _ rfl rfl rfl).of_eq rfl rfl rfl rfl
      | exact preflow_dischargeScan hv hvt arcs hrest (hstep _ rfl rfl rfl)
      | exact preflow_dischargeScan hv hvt arcs hrest h

/-- `Discharge(node)` of a node other than the source and the sink keeps the
invariant whenever it returns. -/
theorem preflow_discharge {v : Nat} (hv : v ≠ source) (hvt : v ≠ sink) :
    ∀ (fuel : Nat) {s s' : State}, Preflow g source sink s → discharge g v fuel s = some s' →
      Preflow g source sink s'
  | 0, _, _, _, hd => by simp [discharge] at hd
  | fuel + 1, s, s', h, hd => by
    rw [discharge] at hd
    have hscan := preflow_dischargeScan hv hvt
      (g.outgoingOrOppositeIncomingArcsFrom v (s.firstAdmissibleArc v))
      (fun a ha => (g.mem_adjacent_iff v a).mp (g.mem_adjacentFrom ha)) h
    generalize dischargeScan g v (g.outgoingOrOppositeIncomingArcsFrom v (s.firstAdmissibleArc v))
      s = e at hd hscan
    cases e with
    | returned s₁ => cases hd; exact hscan
    | exhausted s₁ =>
      have h₂ : Preflow g source sink (relabel g v s₁) :=
        Preflow.of_eq hscan rfl rfl (update_noteq (Ne.symm hv) _ _) (update_noteq (Ne.symm hvt) _ _)
      simp only at hd
      split_ifs at hd
      · cases hd; exact h₂
      · exact preflow_discharge hv hvt fuel h₂ hd

/-! ## The rounds of the first phase -/

/-- The queue loop of a round keeps the invariant while the source and the
sink are skipped. -/
theorem preflow_processActiveNodes : ∀ (fuel : Nat) (skip : Nat → Nat) (numSkipped : Nat)
    {s : State} {r : State × Nat}, 1 < skip source → 1 < skip sink → Preflow g source sink s →
      processActiveNodes g source sink fuel skip numSkipped s = some r → Preflow g source sink r.1
  | 0, _, _, _, _, _, _, _, hp => by simp [processActiveNodes] at hp
  | fuel + 1, skip, numSkipped, s, r, hs, hk, h, hp => by
    rw [processActiveNodes] at hp
    split at hp
    · cases hp; exact h
    · rename_i node q _
      have h₁ : Preflow g source sink { s with activeNodeByHeight := q } := h.of_eq rfl rfl rfl rfl
      simp only at hp
      by_cases hskip : 1 < skip node
      · rw [if_pos hskip] at hp
        exact preflow_processActiveNodes fuel skip _ hs hk h₁ hp
      rw [if_neg hskip] at hp
      split at hp
      · cases hp
      · rename_i s' hd
        have h₂ := preflow_discharge (fun e => hskip (by rw [e]; exact hs))
          (fun e => hskip (by rw [e]; exact hk)) fuel h₁ hd
        have hgrow : ∀ w, skip w ≤ update skip node (skip node + 1) w := fun w => by
          rw [update_apply]
          split_ifs with e
          · rw [e]; omega
          · exact le_rfl
        split_ifs at hp
        · exact preflow_processActiveNodes fuel _ numSkipped (hs.trans_le (hgrow source))
            (hk.trans_le (hgrow sink)) h₂ hp
        · exact preflow_processActiveNodes fuel skip numSkipped hs hk h₂ hp

/-- The rounds `do { GlobalUpdate(); … } while (num_skipped > 0)` keep the
invariant. -/
theorem preflow_refineRounds : ∀ (fuel : Nat) {s s' : State}, Preflow g source sink s →
    refineRounds g source sink fuel s = some s' → Preflow g source sink s'
  | 0, _, _, _, hr => by simp [refineRounds] at hr
  | fuel + 1, s, s', h, hr => by
    rw [refineRounds] at hr
    split at hr
    · cases hr
    · rename_i s₁ n hp
      have h₁ := preflow_processActiveNodes fuel _ 0 (by simp [skipActiveNodeStart])
        (by simp [skipActiveNodeStart, update_apply]) (preflow_globalUpdate h) hp
      split_ifs at hr
      · exact preflow_refineRounds fuel h₁ hr
      · cases hr; exact h₁

/-! ## `PushFlowExcessBackToSource()` and the outer loop -/

/-- The second phase returns a state with the invariant and no excess but at
the source and the sink. -/
theorem preflow_pushFlowExcessBackToSource {s s' : State} (h : Preflow g source sink s)
    (hs : source < g.numNodes) (hk : sink < g.numNodes) (hne : source ≠ sink) {fuel : Nat}
    (hp : pushFlowExcessBackToSource g source sink fuel s = some s') :
    Preflow g source sink s' ∧ Balanced source sink s' := by
  obtain ⟨hzero, hsink, hres, hpush, hflow, hbal⟩ :=
    pushFlowExcessBackToSource_spec (h.returnReady hs hk hne) hp
  have hframe := hpush.frame
  have hle := h.sink_le hs hk hne
  have hout := h.outflow_le
  refine ⟨⟨hres, fun v hv => ?_, hpush.moves.conserves h.conserves,
    fun a ha ht => (hflow a ha).trans (h.sink_flow a ha ht),
    fun a ha ht hh => (hflow a ha).trans (h.source_loop a ha ht hh),
    by rw [← hframe]; exact h.source_height, by rw [← hframe]; exact h.sink_height,
    by omega⟩, hzero⟩
  by_cases hvk : v = sink
  · subst hvk; rw [hsink]; exact h.excess_nonneg _ hv
  · rw [hzero v hv hvk]

/-- `RefineWithGlobalUpdate()` keeps the invariant and the balance. -/
theorem preflow_refineWithGlobalUpdate (hs : source < g.numNodes) (hk : sink < g.numNodes)
    (hne : source ≠ sink) : ∀ (fuel : Nat) {s s' : State}, Preflow g source sink s →
      Balanced source sink s → refineWithGlobalUpdate g source sink fuel s = some s' →
      Preflow g source sink s' ∧ Balanced source sink s'
  | 0, _, _, _, _, hr => by simp [refineWithGlobalUpdate] at hr
  | fuel + 1, s, s', h, hb, hr => by
    rw [refineWithGlobalUpdate] at hr
    split_ifs at hr with hpushed
    · split at hr
      · cases hr
      rename_i s₁ hs₁
      split at hr
      · cases hr
      rename_i s₂ hs₂
      obtain ⟨h₂, hb₂⟩ := preflow_pushFlowExcessBackToSource
        (preflow_refineRounds fuel (preflow_saturateOutgoingArcsFromSource hne h) hs₁) hs hk hne hs₂
      exact preflow_refineWithGlobalUpdate hs hk hne fuel h₂ hb₂ hr
    · cases hr
      rw [saturateOutgoingArcsFromSource_eq_of_false (by simpa using hpushed)]
      exact ⟨h, hb⟩

end Phases

/-! ## `Solve()` -/

section Solve

variable {source sink : Nat} {capacity : Nat → Int} {s : State}

/-- `InitializePreflow()` leaves no flow on any direct arc. -/
theorem flow_initializePreflow (s : State) (source : Nat) (status : Status) {a : ArcIndex}
    (ha : g.isArcDirect a = true) :
    (State.initializePreflow g source { s with status := status }).flow g a = 0 := by
  obtain ⟨i, hi, rfl⟩ := (g.isArcDirect_iff a).mp ha
  rw [flow_of_isArcDirect g ha, State.initializePreflow_eq]
  simp [ArcIndex.opposite, ArcIndex.isDirect, Graph.IsArcValid, ArcIndex.index, hi]

/-- From a settled state with non-negative capacities, `InitializePreflow()`
establishes the invariant with no excess anywhere. -/
theorem preflow_initializePreflow (h : Settled g capacity s) (hcap : ∀ i < g.numArcs, 0 ≤ capacity i)
    (hne : source ≠ sink) (status : Status) :
    Preflow g source sink (State.initializePreflow g source { s with status := status }) ∧
      ∀ v, (State.initializePreflow g source { s with status := status }).nodeExcess v = 0 := by
  have hflow := fun a (ha : g.isArcDirect a = true) => flow_initializePreflow s source status ha
  have hex : ∀ v, (State.initializePreflow g source { s with status := status }).nodeExcess v = 0 :=
    fun v => by rw [State.initializePreflow_eq]
  refine ⟨⟨fun a ha => ?_, fun v _ => (hex v).symm.le, fun v => ?_,
    fun a ha _ => (hflow a ha).le, fun a ha _ _ => (hflow a ha).le, ?_, ?_, ?_⟩, hex⟩
  · rw [State.initializePreflow_eq]
    cases a with
    | direct i =>
      have hc : ({ s with status := status } : State).capacity g (.direct i) = capacity i :=
        h.capacity_eq i ha
      simpa [ha, ArcIndex.isDirect, hc] using hcap i ha
    | reverse i => simp [ha, ArcIndex.isDirect]
  · rw [hex, State.netInflow, sum_eq_zero fun i hi => ?_]
    have := hflow (.direct i) ((g.isArcDirect_iff _).mpr ⟨i, mem_range.mp hi, rfl⟩)
    simp [State.netInflowTerm, this]
  · rw [State.initializePreflow_eq]; simp
  · rw [State.initializePreflow_eq]; simp [update_noteq (Ne.symm hne)]
  · rw [hex]; decide

/-- Every `Solve()` from a settled state with non-negative capacities returns a
state with the invariant, no excess but at the source and the sink, and the
excess of the sink equal to what left the source. -/
theorem preflow_solve (h : Settled g capacity s) (hcap : ∀ i < g.numArcs, 0 ≤ capacity i)
    (hne : source ≠ sink) {fuel : Nat} {s' : State} (hs : solve g source sink fuel s = some s') :
    Preflow g source sink s' ∧ Balanced source sink s' ∧
      s'.nodeExcess sink = -s'.nodeExcess source := by
  obtain ⟨h₀, hex₀⟩ := preflow_initializePreflow h hcap hne .notSolved
  simp only [solve] at hs
  split_ifs at hs with hn
  · cases hs
    exact ⟨h₀.of_eq rfl rfl rfl rfl, fun v _ _ => hex₀ v, by simp [hex₀]⟩
  simp only [not_or, not_le] at hn
  split at hs
  · cases hs
  rename_i s₁ hs₁
  obtain ⟨h₁, hb₁⟩ := preflow_refineWithGlobalUpdate hn.2 hn.1 hne fuel h₀ (fun v _ _ => hex₀ v) hs₁
  have h₂ : Preflow g source sink { s₁ with status := .optimal } := h₁.of_eq rfl rfl rfl rfl
  have hb₂ : Balanced source sink { s₁ with status := .optimal } := hb₁
  split_ifs at hs <;> cases hs
  · exact ⟨h₂.of_eq rfl rfl rfl rfl, hb₂, h₂.sink_eq hb₂ hn.2 hn.1 hne⟩
  · exact ⟨h₂, hb₂, h₂.sink_eq hb₂ hn.2 hn.1 hne⟩

end Solve

/-- The capacities a history sets are non-negative when each call sets a
non-negative one. -/
theorem foldl_capacityAfter_nonneg : ∀ (calls : List Call) {capacity : Nat → Int},
    (∀ i, 0 ≤ capacity i) → (∀ arc c, Call.setArcCapacity arc c ∈ calls → 0 ≤ c) →
    ∀ i, 0 ≤ calls.foldl Call.capacityAfter capacity i
  | [], _, h, _, i => h i
  | .setArcCapacity j c :: calls, _, h, hc, i =>
    foldl_capacityAfter_nonneg calls
      (fun k => by
        rw [Call.capacityAfter, update_apply]
        split_ifs
        · exact hc j c (List.mem_cons_self _ _)
        · exact h k)
      (fun arc c' hm => hc arc c' (List.mem_cons_of_mem _ hm)) i
  | .solve :: calls, _, h, hc, i =>
    foldl_capacityAfter_nonneg calls h (fun arc c' hm => hc arc c' (List.mem_cons_of_mem _ hm)) i

/-- **Every `Solve()` leaves a feasible flow.**  After any history of
`SetArcCapacity()` calls on direct arcs with non-negative capacities and
`Solve()` calls, a `Solve()` with `source != sink` returns a state in which
every direct arc and its opposite have non-negative residual capacity, every
capacity is the one last set, every excess is the net inflow at its node, no
node but the source and the sink has excess, and the sink holds what left the
source, between 0 and `kMaxFlowQuantity`. -/
theorem solve_feasible (source sink fuel fuel' : Nat) (calls : List Call)
    (hcalls : ∀ c ∈ calls, c.Valid g) (hcap : ∀ arc c, Call.setArcCapacity arc c ∈ calls → 0 ≤ c)
    (hne : source ≠ sink) {s s' : State} (hs : replay g source sink fuel calls State.init = some s)
    (h : solve g source sink fuel' s = some s') :
    (∀ i < g.numArcs, 0 ≤ s'.residualArcCapacity (.direct i) ∧
      0 ≤ s'.residualArcCapacity (.reverse i) ∧ s'.capacity g (.direct i) = lastCapacity calls i) ∧
    s'.Conserves g ∧ (∀ v, v ≠ source → v ≠ sink → s'.nodeExcess v = 0) ∧
    s'.nodeExcess sink = -s'.nodeExcess source ∧ 0 ≤ s'.nodeExcess sink ∧
    s'.nodeExcess sink ≤ kMaxFlowQuantity := by
  have hset := Settled.init.replay calls hcalls hs
  obtain ⟨hp, hb, heq⟩ :=
    preflow_solve hset (fun i _ => foldl_capacityAfter_nonneg calls (fun _ => le_rfl) hcap i) hne h
  have hset' := hset.solve h
  have hout := hp.outflow_le
  exact ⟨fun i hi => ⟨hp.residual_nonneg _ hi, hp.residual_nonneg _ hi, hset'.capacity_eq i hi⟩,
    hp.conserves, hb, heq, hp.excess_nonneg _ (Ne.symm hne), by omega⟩

/-- Capacity 5 on the arc `0 → 1`, then a `Solve()` from 0 to 1. -/
theorem solve_feasible_on_edge :
    let g : Graph := Graph.ofArcs 2 [(0, 1)] (by decide)
    let calls := [Call.setArcCapacity 0 5]
    ∃ s s', replay g 0 1 4 calls State.init = some s ∧ solve g 0 1 4 s = some s' ∧
      s'.nodeExcess 1 = -s'.nodeExcess 0 ∧ s'.capacity g (.direct 0) = 5 := by
  intro g calls
  have h₁ : replay g 0 1 4 calls State.init = some (State.init.setArcCapacity g (.direct 0) 5) :=
    rfl
  have h₂ : (solve g 0 1 4 (State.init.setArcCapacity g (.direct 0) 5)).isSome = true := by decide
  obtain ⟨hres, -, -, heq, -⟩ := solve_feasible 0 1 4 4 calls (by decide) (by simp [calls])
    (by decide) h₁ (Option.some_get h₂).symm
  exact ⟨_, _, h₁, (Option.some_get h₂).symm, heq, (hres 0 (by decide)).2.2.trans (by decide)⟩

end OrTools.MaxFlow

import OrTools.Graph.MaxFlow.Feasible
import OrTools.Graph.MaxFlow.Paths
import OrTools.Graph.MaxFlow.DischargeSpec

/-!
# What the first phase leaves

At the end of the rounds of `RefineWithGlobalUpdate()` every node other than
the source and the sink that still has excess sits at height `num_nodes` or
above, the labelling of `GlobalUpdate()` holds, and no flow has entered the
source.

Within a round the invariant `Round` holds between two pops of the queue: the
queue holds the sink or active nodes below `num_nodes`, each once, and every
active node is queued, at height `num_nodes` or above, or has been skipped (and
then `num_skipped` is positive).  While `Discharge(node)` runs, `Discharging`
holds: the node is out of the queue and below `num_nodes`, and the others are
accounted for as before.  Its pushes go one level down, so never to the
source, and each head that receives flow is queued when it had none.
-/

set_option autoImplicit false

namespace OrTools.MaxFlow

open Function

variable (g : Graph)

/-- No flow enters the source. -/
def NoInflow (source : Nat) (s : State) : Prop :=
  ∀ a, g.isArcDirect a = true → g.head a = source → s.flow g a ≤ 0

variable {g}

namespace NoInflow

variable {source : Nat} {s t : State}

theorem of_residual_eq (h : NoInflow g source s)
    (hres : t.residualArcCapacity = s.residualArcCapacity) : NoInflow g source t :=
  fun a ha hh => by simpa [State.flow, hres] using h a ha hh

/-- A push of a non-negative amount on an arc that does not enter the source. -/
theorem pushFlow (h : NoInflow g source s) {f : Int} (hf : 0 ≤ f) (t : Nat) {a : ArcIndex}
    (hh : g.head a ≠ source) : NoInflow g source (s.pushFlow g f t a) :=
  fun b hb hbh => (flow_pushFlow_le hf t s hb (by rintro rfl; exact hh hbh)).trans (h b hb hbh)

/-- The residual arcs out of the source are direct. -/
theorem residual_reverse (h : NoInflow g source s) {a : ArcIndex} (ha : g.IsArcValid a)
    (ht : g.tail a = source) (hr : 0 < s.residualArcCapacity a) : g.isArcDirect a = true := by
  cases a with
  | direct i => exact (g.isArcDirect_iff _).mpr ⟨i, ha, rfl⟩
  | reverse i =>
    have hd : g.isArcDirect (.direct i) = true := (g.isArcDirect_iff _).mpr ⟨i, ha, rfl⟩
    have := h (.direct i) hd (by simpa [Graph.tail, Graph.head, ArcIndex.tailIn,
      ArcIndex.headIn] using ht)
    rw [flow_of_isArcDirect g hd] at this
    exact absurd hr (not_lt.mpr this)

end NoInflow

/-! ## The queue of active nodes -/

section Queue

variable (g)

/-- The node `v` has an entry in the queue of `s`. -/
def Queued (s : State) (v : Nat) : Prop := ∃ p, (v, p) ∈ s.activeNodeByHeight.entries

/-- The entries of the queue: the sink, or active nodes below `num_nodes`. -/
def QueueSound (source sink : Nat) (s : State) : Prop :=
  ∀ v p, (v, p) ∈ s.activeNodeByHeight.entries →
    v = sink ∨ (v ≠ source ∧ 0 < s.nodeExcess v ∧ s.nodePotential v < g.numNodes)

/-- No node but the sink is queued twice. -/
def QueueNodup (sink : Nat) (s : State) : Prop :=
  ((s.activeNodeByHeight.entries.map Prod.fst).filter (· ≠ sink)).Nodup

variable {g}

theorem queueNodup_of_perm {sink : Nat} {s t : State}
    (hp : t.activeNodeByHeight.entries.Perm s.activeNodeByHeight.entries)
    (h : QueueNodup sink s) : QueueNodup sink t :=
  ((hp.map Prod.fst).filter _).nodup_iff.mpr h

end Queue

variable (g)

/-- The invariant of the queue loop of a round between two pops. -/
structure Round (source sink numSkipped : Nat) (s : State) : Prop where
  preflow : Preflow g source sink s
  labeling : LabelingOn g s (· ≠ source)
  no_inflow : NoInflow g source s
  sound : QueueSound g source sink s
  nodup : QueueNodup sink s
  tracked : ∀ v, v ≠ source → v ≠ sink → 0 < s.nodeExcess v →
    Queued s v ∨ g.numNodes ≤ s.nodePotential v ∨ 0 < numSkipped

/-- The invariant while `Discharge(node)` runs on `node`. -/
structure Discharging (source sink node numSkipped : Nat) (s : State) : Prop where
  preflow : Preflow g source sink s
  labeling : LabelingOn g s (· ≠ source)
  no_inflow : NoInflow g source s
  sound : QueueSound g source sink s
  nodup : QueueNodup sink s
  ne_source : node ≠ source
  ne_sink : node ≠ sink
  not_queued : ¬ Queued s node
  tracked : ∀ v, v ≠ source → v ≠ sink → v ≠ node → 0 < s.nodeExcess v →
    Queued s v ∨ g.numNodes ≤ s.nodePotential v ∨ 0 < numSkipped

variable {g} {source sink : Nat}

theorem Preflow.labeled {s : State} (h : Preflow g source sink s)
    (hl : LabelingOn g s (· ≠ source)) : Labeled g source sink s :=
  ⟨h.residual_nonneg, h.excess_nonneg, h.conserves, h.source_height, h.sink_height, hl⟩

namespace Discharging

variable {node numSkipped : Nat} {s t : State}

/-- The invariant reads residual capacities, excesses, heights and the queue. -/
theorem of_eq (h : Discharging g source sink node numSkipped s)
    (hres : t.residualArcCapacity = s.residualArcCapacity) (hex : t.nodeExcess = s.nodeExcess)
    (hpot : t.nodePotential = s.nodePotential) (hq : t.activeNodeByHeight = s.activeNodeByHeight) :
    Discharging g source sink node numSkipped t where
  preflow := h.preflow.of_eq hres hex (by rw [hpot]) (by rw [hpot])
  labeling a ha hr := by rw [hpot]; exact h.labeling a ha (hres ▸ hr)
  no_inflow := h.no_inflow.of_residual_eq hres
  sound v p hv := by rw [hex, hpot]; exact h.sound v p (hq ▸ hv)
  nodup := by unfold QueueNodup; rw [hq]; exact h.nodup
  ne_source := h.ne_source
  ne_sink := h.ne_sink
  not_queued := by unfold Queued; rw [hq]; exact h.not_queued
  tracked v hvs hvk hv hex' := by
    unfold Queued; rw [hq, hpot]; exact h.tracked v hvs hvk hv (hex ▸ hex')

/-- Once the node has no excess or has reached `num_nodes`, the round goes on. -/
theorem finish (h : Discharging g source sink node numSkipped s)
    (hdone : s.nodeExcess node = 0 ∨ g.numNodes ≤ s.nodePotential node) :
    Round g source sink numSkipped s where
  preflow := h.preflow
  labeling := h.labeling
  no_inflow := h.no_inflow
  sound := h.sound
  nodup := h.nodup
  tracked v hvs hvk hex := by
    by_cases hv : v = node
    · subst hv
      rcases hdone with h0 | hle
      · omega
      · exact .inr (.inl hle)
    · exact h.tracked v hvs hvk hv hex

end Discharging

namespace Round

variable {numSkipped : Nat} {s : State} {node : Nat}
  {q : PriorityQueueWithRestrictedPush Nat}

/-- Popping a node other than the source and the sink starts its discharge: it
is active and below `num_nodes`. -/
theorem pop (h : Round g source sink numSkipped s) (hp : s.activeNodeByHeight.pop = some (node, q))
    (hs : node ≠ source) (hk : node ≠ sink) :
    Discharging g source sink node numSkipped { s with activeNodeByHeight := q } ∧
      0 < s.nodeExcess node ∧ s.nodePotential node < g.numNodes := by
  obtain ⟨p, hperm⟩ := PriorityQueueWithRestrictedPush.pop_entries hp
  have hmem : ∀ x, x ∈ q.entries → x ∈ s.activeNodeByHeight.entries :=
    fun x hx => hperm.symm.subset (List.mem_cons_of_mem _ hx)
  have hnd : (((node, p) :: q.entries).map Prod.fst |>.filter (· ≠ sink)).Nodup :=
    ((hperm.map Prod.fst).filter _).nodup_iff.mp h.nodup
  rw [List.map_cons, List.filter_cons_of_pos (by simpa using hk)] at hnd
  rcases h.sound node p (hperm.symm.subset (List.mem_cons_self _ _)) with hk' | ⟨-, hex, hlt⟩
  · exact absurd hk' hk
  refine ⟨⟨h.preflow.of_eq rfl rfl rfl rfl, h.labeling, h.no_inflow,
    fun v p hv => h.sound v p (hmem _ hv), ?_, hs, hk, ?_, fun v hvs hvk hv hex' => ?_⟩, hex, hlt⟩
  · exact (List.nodup_cons.mp hnd).2
  · rintro ⟨p', hp'⟩
    exact (List.nodup_cons.mp hnd).1 (List.mem_filter.mpr ⟨List.mem_map.mpr ⟨_, hp', rfl⟩,
      by simpa using hk⟩)
  · rcases h.tracked v hvs hvk hex' with ⟨p', hp'⟩ | hrest
    · have : (v, p') ∈ (node, p) :: q.entries := hperm.subset hp'
      rcases List.mem_cons.mp this with e | hq
      · exact absurd (Prod.mk.inj e).1 hv
      · exact .inl ⟨p', hq⟩
    · exact .inr hrest

/-- Popping a node that is skipped: it is counted unless it is the source or
the sink. -/
theorem pop_skip (h : Round g source sink numSkipped s)
    (hp : s.activeNodeByHeight.pop = some (node, q)) :
    Round g source sink (if node ≠ sink ∧ node ≠ source then numSkipped + 1 else numSkipped)
      { s with activeNodeByHeight := q } := by
  obtain ⟨p, hperm⟩ := PriorityQueueWithRestrictedPush.pop_entries hp
  have hmem : ∀ x, x ∈ q.entries → x ∈ s.activeNodeByHeight.entries :=
    fun x hx => hperm.symm.subset (List.mem_cons_of_mem _ hx)
  refine ⟨h.preflow.of_eq rfl rfl rfl rfl, h.labeling, h.no_inflow,
    fun v p hv => h.sound v p (hmem _ hv), ?_, fun v hvs hvk hex => ?_⟩
  · have hnd := ((hperm.map Prod.fst).filter _).nodup_iff.mp h.nodup
    simp only [List.map_cons, List.filter_cons] at hnd
    split_ifs at hnd
    · exact (List.nodup_cons.mp hnd).2
    · exact hnd
  · by_cases hv : v = node
    · subst hv; exact .inr (.inr (by rw [if_pos ⟨hvk, hvs⟩]; omega))
    rcases h.tracked v hvs hvk hex with ⟨p', hp'⟩ | hle | hpos
    · rcases List.mem_cons.mp (hperm.subset hp') with e | hq
      · exact absurd (Prod.mk.inj e).1 hv
      · exact .inl ⟨p', hq⟩
    · exact .inr (.inl hle)
    · exact .inr (.inr (by split_ifs <;> omega))

end Round

/-! ## `Discharge(node)` -/

namespace Discharging

variable {node numSkipped : Nat} {s : State}

/-- The entries after the optional `PushActiveNode(head)` of the arc scan. -/
theorem mem_entries_enqueue {u : Nat} {s₁ : State}
    (hs₁ : s₁ = if s.nodeExcess u = 0 then s.pushActiveNode u else s) (x : Nat × Int) :
    x ∈ s₁.activeNodeByHeight.entries ↔
      (s.nodeExcess u = 0 ∧ x = (u, (s.nodePotential u : Int))) ∨ x ∈ s.activeNodeByHeight.entries := by
  subst hs₁
  split_ifs with h0
  · simp [State.pushActiveNode, PriorityQueueWithRestrictedPush.mem_entries_push, h0]
  · simp [h0]

/-- One push of the arc scan along an admissible arc: the head, which is one
level down, so neither the source nor the node, is queued first when it has no
excess, then receives `min(excess, residual) > 0`. -/
theorem push (h : Discharging g source sink node numSkipped s) {a : ArcIndex}
    (ha : g.IsArcValid a) (hta : g.tail a = node) (hadm : s.IsAdmissible g node a)
    (hex : 0 < s.nodeExcess node) (hlt : s.nodePotential node < g.numNodes) {s₁ : State}
    (hs₁ : s₁ = if s.nodeExcess (g.head a) = 0 then s.pushActiveNode (g.head a) else s) :
    Discharging g source sink node numSkipped
      (s₁.pushFlow g (min (s₁.nodeExcess node) (s₁.residualArcCapacity a)) node a) := by
  have hres₁ : s₁.residualArcCapacity = s.residualArcCapacity := by rw [hs₁]; split <;> rfl
  have hex₁ : s₁.nodeExcess = s.nodeExcess := by rw [hs₁]; split <;> rfl
  have hpot₁ : s₁.nodePotential = s.nodePotential := by rw [hs₁]; split <;> rfl
  have hmem := mem_entries_enqueue hs₁
  have hadm₁ : s₁.IsAdmissible g node a := by unfold State.IsAdmissible; rw [hres₁, hpot₁]; exact hadm
  obtain ⟨hr, hheight⟩ := hadm
  have hf : 0 < min (s₁.nodeExcess node) (s₁.residualArcCapacity a) :=
    lt_min (by rw [hex₁]; exact hex) (by rw [hres₁]; exact hr)
  have hhn : g.head a ≠ node := fun e => by rw [e] at hheight; omega
  have hhs : g.head a ≠ source := fun e => by
    rw [e, h.preflow.source_height] at hheight; omega
  have hhlt : s.nodePotential (g.head a) < g.numNodes := by omega
  have hexs : ∀ w, w ≠ node → s.nodeExcess w ≤
      (s₁.pushFlow g (min (s₁.nodeExcess node) (s₁.residualArcCapacity a)) node a).nodeExcess w :=
    fun w hw => by rw [State.pushFlow_excess, hex₁, if_neg hw]; split_ifs <;> omega
  have hexh : 0 < (s₁.pushFlow g (min (s₁.nodeExcess node) (s₁.residualArcCapacity a)) node
      a).nodeExcess (g.head a) := by
    rw [State.pushFlow_excess, hex₁, if_neg hhn, if_pos rfl]
    have := h.preflow.excess_nonneg _ hhs
    omega
  have hp₁ : Preflow g source sink s₁ := h.preflow.of_eq hres₁ hex₁ (by rw [hpot₁]) (by rw [hpot₁])
  have hl₁ : LabelingOn g s₁ (· ≠ source) := fun b hb hrb ht hh => by
    rw [hpot₁]; exact h.labeling b hb (hres₁ ▸ hrb) ht hh
  refine ⟨?_, ((hp₁.labeled hl₁).push h.ne_source ha hta hadm₁).labeling, (h.no_inflow.of_residual_eq hres₁).pushFlow hf.le node hhs, ?_, ?_,
    h.ne_source, h.ne_sink, ?_, ?_⟩
  · have := hp₁.pushFlow ha hf.le (min_le_right _ _) (fun _ => by rw [hta]; exact min_le_left _ _)
      (by rw [hta]; exact h.ne_sink) fun e => absurd (hta.symm.trans e) h.ne_source
    rwa [hta] at this
  · intro w p hw
    simp only [State.pushFlow_activeNodeByHeight, State.pushFlow_nodePotential, hpot₁] at hw ⊢
    rcases (hmem _).mp hw with ⟨-, e⟩ | hw
    · obtain rfl := (Prod.mk.inj e).1
      exact .inr ⟨hhs, hexh, hhlt⟩
    · rcases h.sound w p hw with hk | ⟨hws, hwe, hwl⟩
      · exact .inl hk
      · have hwn : w ≠ node := fun e => h.not_queued ⟨p, e ▸ hw⟩
        exact .inr ⟨hws, hwe.trans_le (hexs w hwn), hwl⟩
  · unfold QueueNodup
    simp only [State.pushFlow_activeNodeByHeight]
    rw [hs₁]
    split_ifs with h0
    · simp only [State.pushActiveNode]
      refine (((PriorityQueueWithRestrictedPush.entries_push_perm _ _ _).map Prod.fst).filter
        _).nodup_iff.mpr ?_
      rw [List.map_cons, List.filter_cons]
      split_ifs with hk
      · refine List.nodup_cons.mpr ⟨fun hm => ?_, h.nodup⟩
        obtain ⟨⟨w, p⟩, hw, hwe⟩ := List.mem_map.mp (List.mem_filter.mp hm).1
        simp only at hwe
        subst hwe
        rcases h.sound _ p hw with e | ⟨-, hwe, -⟩
        · exact absurd e (by simpa using hk)
        · simp only at h0; omega
      · exact h.nodup
    · exact h.nodup
  · rintro ⟨p, hp⟩
    simp only [State.pushFlow_activeNodeByHeight] at hp
    rcases (hmem _).mp hp with ⟨-, e⟩ | hp
    · exact hhn (Prod.mk.inj e).1.symm
    · exact h.not_queued ⟨p, hp⟩
  · intro w hws hwk hwn hwe
    simp only [Queued, State.pushFlow_activeNodeByHeight, State.pushFlow_nodePotential, hpot₁, hmem]
    by_cases hwh : w = g.head a
    · subst hwh
      by_cases h0 : s.nodeExcess (g.head a) = 0
      · exact .inl ⟨_, .inl ⟨h0, rfl⟩⟩
      rcases h.tracked _ hws hwk hwn (lt_of_le_of_ne (h.preflow.excess_nonneg _ hws) (Ne.symm h0))
        with ⟨p, hp⟩ | hle | hpos
      · exact .inl ⟨p, .inr hp⟩
      · omega
      · exact .inr (.inr hpos)
    · have : (s₁.pushFlow g (min (s₁.nodeExcess node) (s₁.residualArcCapacity a)) node
          a).nodeExcess w = s.nodeExcess w := by
        rw [State.pushFlow_excess, hex₁, if_neg hwn, if_neg hwh]; omega
      rcases h.tracked w hws hwk hwn (this ▸ hwe) with ⟨p, hp⟩ | hle | hpos
      · exact .inl ⟨p, .inr hp⟩
      · exact .inr (.inl hle)
      · exact .inr (.inr hpos)

/-- `Relabel(node)` of the node being discharged, below `num_nodes`. -/
theorem relabel (h : Discharging g source sink node numSkipped s)
    (hlt : s.nodePotential node < g.numNodes) (hn : g.numNodes ≤ kMaxNodeHeight + 1) :
    Discharging g source sink node numSkipped (MaxFlow.relabel g node s) := by
  have hpot : ∀ w, w ≠ node → (MaxFlow.relabel g node s).nodePotential w = s.nodePotential w :=
    fun w hw => update_noteq hw _ _
  have hq : ¬ Queued (MaxFlow.relabel g node s) node := h.not_queued
  refine ⟨h.preflow.of_eq rfl rfl (hpot _ h.ne_source.symm) (hpot _ h.ne_sink.symm),
    (((h.preflow.labeled h.labeling).relabel h.ne_source h.ne_sink hlt hn).1).labeling,
    h.no_inflow, fun w p hw => ?_, h.nodup, h.ne_source, h.ne_sink, hq,
    fun w hws hwk hwn hwe => ?_⟩
  · have hwn : w ≠ node := fun e => hq ⟨p, e ▸ hw⟩
    rw [hpot w hwn]; exact h.sound w p hw
  · rw [hpot w hwn]; exact h.tracked w hws hwk hwn hwe

/-- The arc scan of `Discharge(node)` from a node below `num_nodes` with excess
keeps the invariant and the heights; it returns with no excess left at the
node, or runs out of arcs with the excess still positive. -/
theorem dischargeScan_discharging {node numSkipped : Nat} : ∀ (arcs : List ArcIndex) {s : State},
    (∀ a ∈ arcs, g.IsArcValid a ∧ g.tail a = node) →
    Discharging g source sink node numSkipped s → 0 < s.nodeExcess node →
    s.nodePotential node < g.numNodes →
    Discharging g source sink node numSkipped (MaxFlow.dischargeScan g node arcs s).state ∧
      (MaxFlow.dischargeScan g node arcs s).state.nodePotential = s.nodePotential ∧
      ((MaxFlow.dischargeScan g node arcs s).isExhausted = false →
        (MaxFlow.dischargeScan g node arcs s).state.nodeExcess node = 0) ∧
      ((MaxFlow.dischargeScan g node arcs s).isExhausted = true →
        0 < (MaxFlow.dischargeScan g node arcs s).state.nodeExcess node)
  | [], s, _, h, hex, _ => ⟨h, rfl, by simp [ScanEnd.isExhausted, MaxFlow.dischargeScan], fun _ => hex⟩
  | a :: arcs, s, harcs, h, hex, hlt => by
    obtain ⟨ha, hta⟩ := harcs a (List.mem_cons_self _ _)
    have hrest := fun b hb => harcs b (List.mem_cons_of_mem a hb)
    by_cases hadm : s.IsAdmissible g node a
    · simp only [MaxFlow.dischargeScan, if_pos hadm]
      generalize hs₁ : (if s.nodeExcess (g.head a) = 0 then s.pushActiveNode (g.head a) else s) = s₁
      have hpot₁ : s₁.nodePotential = s.nodePotential := by rw [← hs₁]; split <;> rfl
      have h₂ := h.push ha hta hadm hex hlt hs₁.symm
      split_ifs with hret
      · exact ⟨h₂.of_eq rfl rfl rfl rfl, hpot₁, fun _ => hret, by simp [ScanEnd.isExhausted]⟩
      · obtain ⟨h₃, hpot₃, hret₃, hexh₃⟩ := dischargeScan_discharging arcs hrest h₂
          (lt_of_le_of_ne (h₂.preflow.excess_nonneg node h.ne_source) (Ne.symm hret))
          (by rw [State.pushFlow_nodePotential, hpot₁]; exact hlt)
        exact ⟨h₃, hpot₃.trans hpot₁, hret₃, hexh₃⟩
    · simp only [MaxFlow.dischargeScan, if_neg hadm]
      exact dischargeScan_discharging arcs hrest h hex hlt

/-- `Discharge(node)` of a popped node with excess, below `num_nodes`, returns
to the round: the node ends with no excess, or at `num_nodes` or above. -/
theorem discharge_round {node numSkipped : Nat} (hn : g.numNodes ≤ kMaxNodeHeight + 1) :
    ∀ (fuel : Nat) {s s' : State}, Discharging g source sink node numSkipped s →
      0 < s.nodeExcess node → s.nodePotential node < g.numNodes →
      discharge g node fuel s = some s' → Round g source sink numSkipped s'
  | 0, _, _, _, _, _, hd => by simp [discharge] at hd
  | fuel + 1, s, s', h, hex, hlt, hd => by
    rw [discharge] at hd
    have hscan := dischargeScan_discharging
      (g.outgoingOrOppositeIncomingArcsFrom node (s.firstAdmissibleArc node))
      (fun a ha => (g.mem_adjacent_iff node a).mp (g.mem_adjacentFrom ha)) h hex hlt
    generalize MaxFlow.dischargeScan g node
      (g.outgoingOrOppositeIncomingArcsFrom node (s.firstAdmissibleArc node)) s = e at hd hscan
    cases e with
    | returned s₁ => cases hd; exact hscan.1.finish (.inl (hscan.2.2.1 rfl))
    | exhausted s₁ =>
      obtain ⟨h₁, hpot₁, -, hex₁⟩ := hscan
      have hlt₁ : s₁.nodePotential node < g.numNodes := by
        rw [show s₁.nodePotential = s.nodePotential from hpot₁]; exact hlt
      have h₂ := h₁.relabel hlt₁ hn
      simp only at hd
      split_ifs at hd with hstop
      · cases hd; exact h₂.finish (.inr hstop)
      · exact discharge_round hn fuel h₂ (hex₁ rfl) (not_le.mp hstop) hd

end Discharging

/-- The queue loop of a round keeps the invariant, counting the skipped nodes,
and ends with an empty queue. -/
theorem processActiveNodes_round (hn : g.numNodes ≤ kMaxNodeHeight + 1) :
    ∀ (fuel : Nat) (skip : Nat → Nat) (numSkipped : Nat) {s : State} {r : State × Nat},
      1 < skip source → 1 < skip sink → Round g source sink numSkipped s →
      processActiveNodes g source sink fuel skip numSkipped s = some r →
      Round g source sink r.2 r.1 ∧ r.1.activeNodeByHeight.entries = []
  | 0, _, _, _, _, _, _, _, hp => by simp [processActiveNodes] at hp
  | fuel + 1, skip, numSkipped, s, r, hs, hk, h, hp => by
    rw [processActiveNodes] at hp
    split at hp
    · rename_i hnone
      cases hp
      exact ⟨h, (PriorityQueueWithRestrictedPush.isEmpty_iff _).mp
        ((PriorityQueueWithRestrictedPush.pop_eq_none_iff _).mp hnone)⟩
    · rename_i node q hpop
      simp only at hp
      by_cases hskip : 1 < skip node
      · rw [if_pos hskip] at hp
        exact processActiveNodes_round hn fuel skip _ hs hk (h.pop_skip hpop) hp
      rw [if_neg hskip] at hp
      obtain ⟨h₁, hex₁, hlt₁⟩ := h.pop hpop (fun e => hskip (by rw [e]; exact hs))
        (fun e => hskip (by rw [e]; exact hk))
      split at hp
      · cases hp
      · rename_i s' hd
        have h₂ := Discharging.discharge_round hn fuel h₁ hex₁ hlt₁ hd
        have hgrow : ∀ w, skip w ≤ update skip node (skip node + 1) w := fun w => by
          rw [update_apply]
          split_ifs with e
          · rw [e]; omega
          · exact le_rfl
        split_ifs at hp
        · exact processActiveNodes_round hn fuel _ numSkipped (hs.trans_le (hgrow source))
            (hk.trans_le (hgrow sink)) h₂ hp
        · exact processActiveNodes_round hn fuel skip numSkipped hs hk h₂ hp

end OrTools.MaxFlow

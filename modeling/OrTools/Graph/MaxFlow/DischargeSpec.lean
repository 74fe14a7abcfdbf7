import OrTools.Graph.MaxFlow.GlobalUpdateSpec
import OrTools.Graph.MaxFlow.Discharge
import Mathlib.Algebra.Order.BigOperators.Group.Finset
import Mathlib.Algebra.Order.Group.Int

/-!
# `Discharge(node)` keeps the invariant of the first phase

A push along an admissible arc can only create the residual arc back, which
goes one level up; `Relabel` sets the height to one above the lowest residual
head, which never lowers it while the node is below `num_nodes` (the source
sits at `num_nodes`, one above any such node).  So `Discharge` keeps the
invariant `Labeled` that `GlobalUpdate()` establishes.

The relabel is relaxed: it stops at the first arc admissible at the current
height.  Then the height is unchanged but the arc is recorded as
`first_admissible_arc_[node]`, where the next scan starts and pushes.

A node with positive excess received flow on some arc, whose reverse is then
residual: `Relabel` always has an arc to choose from.
-/

set_option autoImplicit false

namespace OrTools.MaxFlow

open Function

variable {g : Graph} {source sink : Nat}

namespace Labeled

variable {s s' : State}

/-- The invariant only reads residual capacities, excesses and heights. -/
theorem of_eq (h : Labeled g source sink s) (hres : s'.residualArcCapacity = s.residualArcCapacity)
    (hex : s'.nodeExcess = s.nodeExcess) (hpot : s'.nodePotential = s.nodePotential) :
    Labeled g source sink s' where
  residual_nonneg a ha := hres ▸ h.residual_nonneg a ha
  excess_nonneg v hv := hex ▸ h.excess_nonneg v hv
  conserves := h.conserves.of_eq hres hex
  source_height := hpot ▸ h.source_height
  sink_height := hpot ▸ h.sink_height
  labeling a ha hr ht hh := by
    rw [hpot]; exact h.labeling a ha (hres ▸ hr) ht hh

/-- `FastPushFlow(min(excess, residual), node, arc)` along an admissible arc. -/
theorem push (h : Labeled g source sink s) {v : Nat} (hv : v ≠ source) {arc : ArcIndex}
    (harc : g.IsArcValid arc) (ht : g.tail arc = v) (hadm : s.IsAdmissible g v arc) :
    Labeled g source sink
      (s.pushFlow g (min (s.nodeExcess v) (s.residualArcCapacity arc)) v arc) := by
  have hd0 : 0 ≤ min (s.nodeExcess v) (s.residualArcCapacity arc) :=
    le_min (h.excess_nonneg v hv) hadm.1.le
  have hd1 := min_le_left (s.nodeExcess v) (s.residualArcCapacity arc)
  have hd2 := min_le_right (s.nodeExcess v) (s.residualArcCapacity arc)
  refine ⟨fun b hb => ?_, fun w hw => ?_, ht ▸ h.conserves.pushFlow _ harc, h.source_height,
    h.sink_height, fun b hb hr htb hhb => ?_⟩
  · have := h.residual_nonneg b hb
    have := h.residual_nonneg _ ((g.isArcValid_opposite arc).mpr harc)
    rw [State.pushFlow_residual]
    split_ifs with h1 h2
    · subst h1; omega
    · subst h2; omega
    · exact h.residual_nonneg b hb
  · have := h.excess_nonneg w hw
    rw [State.pushFlow_excess]
    by_cases hwv : w = v
    · subst hwv; split_ifs <;> omega
    · rw [if_neg hwv]; split_ifs <;> omega
  · show s.nodePotential (g.tail b) ≤ s.nodePotential (g.head b) + 1
    by_cases hbo : b = arc.opposite
    · subst hbo
      have := hadm.2
      simp only [Graph.tail_opposite, Graph.head_opposite, ht]
      omega
    · exact h.labeling b hb (lt_of_lt_of_le hr (State.pushFlow_residual_le hd0 v s hbo)) htb hhb

end Labeled

/-! ## `Relabel` -/

/-- What the arc loop of `Relabel` returns: a height no larger than where it
started; either it broke at an arc one level below `height`, or it is at most
the height of every residual head; and if it moved, it is the height of the
head of the residual arc it returns (otherwise the arc is unchanged). -/
theorem relabelScan_spec (s : State) (height : Nat) :
    ∀ (arcs : List ArcIndex) (m : Nat) (arc : Option ArcIndex),
      (relabelScan g s height arcs m arc).1 ≤ m ∧
      ((relabelScan g s height arcs m arc).1 + 1 = height ∨
        ∀ a ∈ arcs, 0 < s.residualArcCapacity a →
          (relabelScan g s height arcs m arc).1 ≤ s.nodePotential (g.head a)) ∧
      ((relabelScan g s height arcs m arc).1 < m → ∃ a ∈ arcs,
        (relabelScan g s height arcs m arc).2 = some a ∧ 0 < s.residualArcCapacity a ∧
          s.nodePotential (g.head a) = (relabelScan g s height arcs m arc).1) ∧
      (m ≤ (relabelScan g s height arcs m arc).1 → (relabelScan g s height arcs m arc).2 = arc)
  | [], m, arc => ⟨le_refl m, .inr (by simp), fun h => absurd h (lt_irrefl m), fun _ => rfl⟩
  | a :: arcs, m, arc => by
    simp only [relabelScan]
    split_ifs with hr hlt hbrk
    · exact ⟨hlt.le, .inl hbrk, fun _ => ⟨a, List.mem_cons_self _ _, rfl, hr, rfl⟩,
        fun h => absurd h (not_le.mpr hlt)⟩
    · obtain ⟨h1, h2, h3, h4⟩ := relabelScan_spec s height arcs _ (some a)
      refine ⟨h1.trans hlt.le, h2.imp_right fun h2 b hb hrb => ?_, fun hm => ?_,
        fun hm => absurd (h1.trans_lt hlt) (not_lt.mpr hm)⟩
      · rcases List.mem_cons.mp hb with rfl | hb
        · exact h1
        · exact h2 b hb hrb
      · rcases h1.lt_or_eq with h1 | h1
        · obtain ⟨b, hb, hb'⟩ := h3 h1
          exact ⟨b, List.mem_cons_of_mem _ hb, hb'⟩
        · exact ⟨a, List.mem_cons_self _ _, h4 h1.ge, hr, h1.symm⟩
    · obtain ⟨h1, h2, h3, h4⟩ := relabelScan_spec s height arcs m arc
      refine ⟨h1, h2.imp_right fun h2 b hb hrb => ?_, fun hm => ?_, h4⟩
      · rcases List.mem_cons.mp hb with rfl | hb
        · exact h1.trans (not_lt.mp hlt)
        · exact h2 b hb hrb
      · obtain ⟨b, hb, hb'⟩ := h3 hm
        exact ⟨b, List.mem_cons_of_mem _ hb, hb'⟩
    · obtain ⟨h1, h2, h3, h4⟩ := relabelScan_spec s height arcs m arc
      refine ⟨h1, h2.imp_right fun h2 b hb hrb => ?_, fun hm => ?_, h4⟩
      · rcases List.mem_cons.mp hb with rfl | hb
        · exact absurd hrb hr
        · exact h2 b hb hrb
      · obtain ⟨b, hb, hb'⟩ := h3 hm
        exact ⟨b, List.mem_cons_of_mem _ hb, hb'⟩

namespace Labeled

variable {s : State} {v : Nat}

/-- `Relabel(node)` of a node below `num_nodes` keeps the invariant and does not
lower the node. -/
theorem relabel (h : Labeled g source sink s) (hv : v ≠ source)
    (hvt : v ≠ sink) (hlt : s.nodePotential v < g.numNodes)
    (hn : g.numNodes ≤ kMaxNodeHeight + 1) :
    Labeled g source sink (MaxFlow.relabel g v s) ∧
      s.nodePotential v ≤ (MaxFlow.relabel g v s).nodePotential v := by
  obtain ⟨hle, hdisj, hsome, -⟩ := relabelScan_spec s (s.nodePotential v)
    (g.outgoingOrOppositeIncomingArcs v) kMaxNodeHeight none
  set r := relabelScan g s (s.nodePotential v) (g.outgoingOrOppositeIncomingArcs v)
    kMaxNodeHeight none
  have hge : s.nodePotential v ≤ r.1 + 1 := by
    rcases lt_or_le r.1 kMaxNodeHeight with hk | hk
    · obtain ⟨a, ha, -, hra, hh⟩ := hsome hk
      obtain ⟨hav, hat⟩ := (g.mem_adjacent_iff v a).mp ha
      by_cases hs : g.head a = source
      · rw [← hh, hs, h.source_height]; omega
      · have := h.labeling a hav hra (by rw [hat]; exact hv) hs
        rw [hat] at this; omega
    · omega
  have hpot : (MaxFlow.relabel g v s).nodePotential = update s.nodePotential v (r.1 + 1) := rfl
  refine ⟨⟨h.residual_nonneg, h.excess_nonneg, h.conserves, ?_, ?_, fun a ha hra ht hh => ?_⟩, ?_⟩
  · rw [hpot, update_noteq hv.symm]; exact h.source_height
  · rw [hpot, update_noteq hvt.symm]; exact h.sink_height
  · have hra' : 0 < s.residualArcCapacity a := hra
    have hlab := h.labeling a ha hra' ht hh
    rw [hpot]
    by_cases hta : g.tail a = v <;> by_cases hha : g.head a = v
    · rw [hta, hha]; omega
    · rw [hta, update_same, update_noteq hha]
      rcases hdisj with hb | hall
      · rw [hta] at hlab; omega
      · have := hall a ((g.mem_adjacent_iff v a).mpr ⟨ha, hta⟩) hra'; omega
    · rw [update_noteq hta, hha, update_same]
      rw [hha] at hlab; omega
    · rw [update_noteq hta, update_noteq hha]; exact hlab
  · rw [hpot, update_same]; exact hge

/-- A node with positive excess received flow on some arc, whose reverse is a
residual arc out of the node: `Relabel` has an arc to choose. -/
theorem exists_residual (h : Labeled g source sink s) (hex : 0 < s.nodeExcess v) :
    ∃ a ∈ g.outgoingOrOppositeIncomingArcs v, 0 < s.residualArcCapacity a := by
  have hsum : ∑ _i ∈ Finset.range g.numArcs, (0 : Int) <
      ∑ i ∈ Finset.range g.numArcs, s.netInflowTerm g v i := by
    rw [Finset.sum_const_zero, ← State.netInflow, ← h.conserves v]; exact hex
  obtain ⟨i, hi, hpos⟩ := Finset.exists_lt_of_sum_lt hsum
  have hi := Finset.mem_range.mp hi
  rw [State.netInflowTerm, State.flow_direct hi] at hpos
  by_cases h1 : g.headOf i = v
  · by_cases h2 : g.tailOf i = v
    · simp [h1, h2] at hpos
    · simp only [h1, h2, if_true, if_false, sub_zero] at hpos
      exact ⟨.reverse i, (g.mem_adjacent_iff v _).mpr ⟨hi, h1⟩, hpos⟩
  · have := h.residual_nonneg (.reverse i) hi
    simp only [h1, if_false, zero_sub] at hpos
    split_ifs at hpos <;> omega

end Labeled

/-! ## `Discharge` -/

/-- The arc scan of `Discharge(node)` keeps the invariant and the heights, and
when it runs out of arcs the node still has positive excess. -/
theorem dischargeScan_labeled {v : Nat} (hv : v ≠ source) :
    ∀ (arcs : List ArcIndex) {s : State}, (∀ a ∈ arcs, g.IsArcValid a ∧ g.tail a = v) →
      Labeled g source sink s → 0 < s.nodeExcess v →
      Labeled g source sink (dischargeScan g v arcs s).state ∧
        (dischargeScan g v arcs s).state.nodePotential = s.nodePotential ∧
        ((dischargeScan g v arcs s).isExhausted = true →
          0 < (dischargeScan g v arcs s).state.nodeExcess v)
  | [], s, _, h, hex => ⟨h, rfl, fun _ => hex⟩
  | a :: arcs, s, harcs, h, hex => by
    have ha := harcs a (List.mem_cons_self _ _)
    have hrest := fun b hb => harcs b (List.mem_cons_of_mem a hb)
    by_cases hadm : s.IsAdmissible g v a
    · simp only [dischargeScan, if_pos hadm]
      have hs1 : ∀ t, t = (if s.nodeExcess (g.head a) = 0 then s.pushActiveNode (g.head a) else s) →
          t.residualArcCapacity = s.residualArcCapacity ∧ t.nodeExcess = s.nodeExcess ∧
            t.nodePotential = s.nodePotential := by
        rintro t rfl; split <;> exact ⟨rfl, rfl, rfl⟩
      generalize hdef : (if s.nodeExcess (g.head a) = 0 then s.pushActiveNode (g.head a) else s)
        = s1 at hs1 ⊢
      obtain ⟨hres1, hex1, hpot1⟩ := hs1 s1 rfl
      have hadm1 : s1.IsAdmissible g v a := by
        unfold State.IsAdmissible; rw [hres1, hpot1]; exact hadm
      have h2 := (h.of_eq hres1 hex1 hpot1).push hv ha.1 ha.2 hadm1
      split_ifs with hret
      · exact ⟨h2.of_eq rfl rfl rfl, hpot1, fun h => by simp [ScanEnd.isExhausted] at h⟩
      · have hex2 := lt_of_le_of_ne (h2.excess_nonneg v hv) (Ne.symm hret)
        obtain ⟨h3, h4, h5⟩ := dischargeScan_labeled hv arcs hrest h2 hex2
        exact ⟨h3, h4.trans hpot1, h5⟩
    · simp only [dischargeScan, if_neg hadm]
      exact dischargeScan_labeled hv arcs hrest h hex

/-- `Discharge(node)` of a node other than the source and the sink, with
positive excess and below `num_nodes`, keeps the invariant whenever it returns. -/
theorem discharge_labeled {v : Nat} (hv : v ≠ source) (hvt : v ≠ sink)
    (hn : g.numNodes ≤ kMaxNodeHeight + 1) :
    ∀ (fuel : Nat) {s s' : State}, Labeled g source sink s → 0 < s.nodeExcess v →
      s.nodePotential v < g.numNodes → discharge g v fuel s = some s' → Labeled g source sink s'
  | 0, _, _, _, _, _, hd => by simp [discharge] at hd
  | fuel + 1, s, s', h, hex, hlt, hd => by
    rw [discharge] at hd
    have hscan := dischargeScan_labeled hv
      (g.outgoingOrOppositeIncomingArcsFrom v (s.firstAdmissibleArc v))
      (fun a ha => (g.mem_adjacent_iff v a).mp (g.mem_adjacentFrom ha)) h hex
    generalize dischargeScan g v (g.outgoingOrOppositeIncomingArcsFrom v (s.firstAdmissibleArc v))
      s = e at hd hscan
    cases e with
    | returned s1 => cases hd; exact hscan.1
    | exhausted s1 =>
      obtain ⟨h1, hpot1, hex1⟩ := hscan
      have h1 : Labeled g source sink s1 := h1
      have hpot1 : s1.nodePotential = s.nodePotential := hpot1
      obtain ⟨h2, -⟩ := h1.relabel hv hvt (by rw [hpot1]; exact hlt) hn
      simp only at hd
      split_ifs at hd with hstop
      · cases hd; exact h2
      · exact discharge_labeled hv hvt hn fuel h2 (hex1 rfl) (not_le.mp hstop) hd

/-! ## The first phase -/

/-- **The labelling of the first phase.**  `GlobalUpdate()` turns every preflow
whose excesses are the net inflows, with the source at `num_nodes` and the sink
at 0, into a `Labeled` state; `Discharge(v)` of a node other than the source and
the sink, with positive excess and below `num_nodes`, keeps it; and whenever the
arc scan of `Discharge` runs out of arcs, so that `Relabel(v)` follows, `v`
still has positive excess and an incident arc with positive residual capacity. -/
theorem firstPhase_labeled (hn : g.numNodes ≤ kMaxNodeHeight + 1) (hsink : sink < g.numNodes)
    (hne : source ≠ sink) :
    (∀ s : State, (∀ a, g.IsArcValid a → 0 ≤ s.residualArcCapacity a) →
      (∀ v, v ≠ source → 0 ≤ s.nodeExcess v) → s.Conserves g →
      s.nodePotential source = g.numNodes → s.nodePotential sink = 0 →
      Labeled g source sink (globalUpdate g source sink s)) ∧
    (∀ (v fuel : Nat) (s s' : State), v ≠ source → v ≠ sink →
      Labeled g source sink s → 0 < s.nodeExcess v → s.nodePotential v < g.numNodes →
      discharge g v fuel s = some s' → Labeled g source sink s') ∧
    (∀ (v : Nat) (arcs : List ArcIndex) (s : State), v ≠ source →
      (∀ a ∈ arcs, a ∈ g.outgoingOrOppositeIncomingArcs v) → Labeled g source sink s →
      0 < s.nodeExcess v → (dischargeScan g v arcs s).isExhausted = true →
      0 < (dischargeScan g v arcs s).state.nodeExcess v ∧
        ∃ a ∈ g.outgoingOrOppositeIncomingArcs v,
          0 < (dischargeScan g v arcs s).state.residualArcCapacity a) := by
  refine ⟨fun s hres hex hcons hsrc hpot =>
      (globalUpdate_labeled hsink hne hres hex hcons hsrc hpot).2,
    fun v fuel s s' hv hvt h hex hlt hd => discharge_labeled hv hvt hn fuel h hex hlt hd,
    fun v arcs s hv harcs h hex hexh => ?_⟩
  obtain ⟨h1, -, h3⟩ := dischargeScan_labeled hv arcs
    (fun a ha => (g.mem_adjacent_iff v a).mp (harcs a ha)) h hex
  exact ⟨h3 hexh, h1.exists_residual (h3 hexh)⟩

end OrTools.MaxFlow

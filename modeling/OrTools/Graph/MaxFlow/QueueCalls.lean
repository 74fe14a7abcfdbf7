import OrTools.Graph.MaxFlow.Rounds
import OrTools.Graph.PriorityQueueSpec

/-!
# The calls on `active_node_by_height_`

`PriorityQueueWithRestrictedPush` answers its pops as its model does only when
every push is at a priority at least the highest present minus one.  The first
phase pushes at two places: the last loop of `GlobalUpdate()`, which queues the
reached nodes with excess in BFS order, so by nondecreasing height, into an
empty queue; and the arc scan of `Discharge(node)`, which queues a head one
level below the node, while no entry is above the node, the highest one popped.

Each function of the first phase has a companion, by the same recursion, that
lists the calls `PushActiveNode(node)` and `GetAndRemoveFirstActiveNode()` it
makes, each with the state it is made in.  Between calls the queue holds nodes
with excess below `num_nodes`, at their current heights, each once: a node
pushed has no excess yet, so it is not queued, and heights change only for the
node being discharged, which is not queued, or in `GlobalUpdate()`, which starts
from an empty queue.
-/

set_option autoImplicit false

namespace OrTools.MaxFlow

open Function
open PriorityQueueWithRestrictedPush (Holds)
open PriorityQueueWithRestrictedPush.Model (CanPush)

/-- A call on `active_node_by_height_`: `PushActiveNode(node)` or
`GetAndRemoveFirstActiveNode()`. -/
inductive QueueCall where
  | push (node : Nat)
  | pop
  deriving DecidableEq, Repr

variable (g : Graph)

/-! ## The calls of each function -/

/-- The calls of the arc loop of `Discharge(node)`. -/
def dischargeScanCalls (node : Nat) : List ArcIndex → State → List (State × QueueCall)
  | [], _ => []
  | arc :: arcs, s =>
    if s.IsAdmissible g node arc then
      let head := g.head arc
      let calls := if s.nodeExcess head = 0 then [(s, QueueCall.push head)] else []
      let s := if s.nodeExcess head = 0 then s.pushActiveNode head else s
      let delta := min (s.nodeExcess node) (s.residualArcCapacity arc)
      let s := s.pushFlow g delta node arc
      if s.nodeExcess node = 0 then calls else calls ++ dischargeScanCalls node arcs s
    else dischargeScanCalls node arcs s

/-- The calls of `Discharge(node)`. -/
def dischargeCalls (node : Nat) : Nat → State → List (State × QueueCall)
  | 0, _ => []
  | fuel + 1, s =>
    let arcs := g.outgoingOrOppositeIncomingArcsFrom node (s.firstAdmissibleArc node)
    dischargeScanCalls g node arcs s ++
      match dischargeScan g node arcs s with
      | .returned _ => []
      | .exhausted s =>
        let s := relabel g node s
        if g.numNodes ≤ s.nodePotential node then [] else dischargeCalls node fuel s

/-- The calls of the last loop of `GlobalUpdate()`, over the nodes left to visit. -/
def seedCalls : List Nat → State → List (State × QueueCall)
  | [], _ => []
  | node :: nodes, s =>
    if 0 < s.nodeExcess node then (s, .push node) :: seedCalls nodes (s.pushActiveNode node)
    else seedCalls nodes s

/-- The calls of `GlobalUpdate()`. -/
def globalUpdateCalls (source sink : Nat) (s : State) : List (State × QueueCall) :=
  let b := globalUpdateSearch g source sink s
  let s := { b.state with
    nodePotential := fun v =>
      if v < g.numNodes ∧ b.nodeInBfsQueue v = false then 2 * g.numNodes - 1
      else b.state.nodePotential v }
  seedCalls (b.bfsQueue.drop 1) s

/-- The calls of the queue loop of a round. -/
def processActiveNodesCalls (source sink : Nat) :
    Nat → (Nat → Nat) → Nat → State → List (State × QueueCall)
  | 0, _, _, _ => []
  | fuel + 1, skip, numSkipped, s =>
    match s.activeNodeByHeight.pop with
    | none => []
    | some (node, q) =>
      (s, .pop) ::
        let s := { s with activeNodeByHeight := q }
        if 1 < skip node then
          processActiveNodesCalls source sink fuel skip
            (if node ≠ sink ∧ node ≠ source then numSkipped + 1 else numSkipped) s
        else
          dischargeCalls g node fuel s ++
            match discharge g node fuel s with
            | none => []
            | some s' =>
              let skip := if s.nodePotential node + 1 < s'.nodePotential node then
                  update skip node (skip node + 1) else skip
              processActiveNodesCalls source sink fuel skip numSkipped s'

/-- The calls of the rounds `do { GlobalUpdate(); … } while (num_skipped > 0)`. -/
def refineRoundsCalls (source sink : Nat) : Nat → State → List (State × QueueCall)
  | 0, _ => []
  | fuel + 1, s =>
    globalUpdateCalls g source sink s ++
      processActiveNodesCalls g source sink fuel (skipActiveNodeStart source sink) 0
        (globalUpdate g source sink s) ++
      match processActiveNodes g source sink fuel (skipActiveNodeStart source sink) 0
          (globalUpdate g source sink s) with
      | none => []
      | some (s, numSkipped) => if 0 < numSkipped then refineRoundsCalls source sink fuel s else []

/-- The calls of `RefineWithGlobalUpdate()`. -/
def refineWithGlobalUpdateCalls (source sink : Nat) : Nat → State → List (State × QueueCall)
  | 0, _ => []
  | fuel + 1, s =>
    let r := saturateOutgoingArcsFromSource g source sink s
    if r.1 then
      refineRoundsCalls g source sink fuel r.2 ++
        match refineRounds g source sink fuel r.2 with
        | none => []
        | some s =>
          match pushFlowExcessBackToSource g source sink fuel s with
          | none => []
          | some s => refineWithGlobalUpdateCalls source sink fuel s
    else []

/-! ## What each call needs -/

/-- Every queued node sits at its current height, and no node is queued twice. -/
structure QueueAtHeights (s : State) : Prop where
  priority_eq : ∀ v p, (v, p) ∈ s.activeNodeByHeight.entries → p = s.nodePotential v
  nodup : (s.activeNodeByHeight.entries.map Prod.fst).Nodup

/-- What a call needs in the state it is made in: the queue at heights, each node
once; a pushed node not queued yet and at a height the restriction on `Push()`
allows; a popped node queued and of maximal height among the queued ones. -/
def QueueCallOk : State × QueueCall → Prop
  | (s, .push v) => QueueAtHeights s ∧ ¬ Queued s v ∧
      CanPush s.activeNodeByHeight.entries (s.nodePotential v) = true
  | (s, .pop) => QueueAtHeights s ∧ ∃ v q, s.activeNodeByHeight.pop = some (v, q) ∧
      Queued s v ∧ ∀ w, Queued s w → s.nodePotential w ≤ s.nodePotential v

/-- The queue between calls: at heights and each node once, related to the
model of the queue, and holding nodes with excess below `num_nodes`. -/
structure ActiveQueue (s : State) extends QueueAtHeights s : Prop where
  holds : ∃ l, Holds s.activeNodeByHeight l
  excess_pos : ∀ v p, (v, p) ∈ s.activeNodeByHeight.entries → 0 < s.nodeExcess v
  height_lt : ∀ v p, (v, p) ∈ s.activeNodeByHeight.entries → s.nodePotential v < g.numNodes

/-- The queue while `Discharge(node)` runs: the node is out of it and no entry
is above its height. -/
structure DischargeQueue (node : Nat) (s : State) extends ActiveQueue g s : Prop where
  not_queued : ¬ Queued s node
  le_height : ∀ y ∈ s.activeNodeByHeight.entries, y.2 ≤ s.nodePotential node

variable {g}

namespace ActiveQueue

variable {s t : State}

theorem of_empty (h : s.activeNodeByHeight = .empty) : ActiveQueue g s where
  priority_eq := by simp [h]
  nodup := by simp [h]
  holds := ⟨[], by rw [h]; exact PriorityQueueWithRestrictedPush.holds_empty⟩
  excess_pos := by simp [h]
  height_lt := by simp [h]

/-- The invariant reads the queue, and the heights and excesses of queued nodes. -/
theorem frame (h : ActiveQueue g s) (hq : t.activeNodeByHeight = s.activeNodeByHeight)
    (hpot : ∀ v, Queued s v → t.nodePotential v = s.nodePotential v)
    (hex : ∀ v, Queued s v → s.nodeExcess v ≤ t.nodeExcess v) : ActiveQueue g t where
  priority_eq v p hv := by
    rw [hq] at hv; rw [hpot v ⟨p, hv⟩]; exact h.priority_eq v p hv
  nodup := by rw [hq]; exact h.nodup
  holds := by rw [hq]; exact h.holds
  excess_pos v p hv := by
    rw [hq] at hv; exact (h.excess_pos v p hv).trans_le (hex v ⟨p, hv⟩)
  height_lt v p hv := by
    rw [hq] at hv; rw [hpot v ⟨p, hv⟩]; exact h.height_lt v p hv

/-- `PushActiveNode(v)` of a node not queued, with excess, below `num_nodes`,
at a height the restriction allows. -/
theorem push (h : ActiveQueue g s) {v : Nat} (hv : ¬ Queued s v)
    (hcan : CanPush s.activeNodeByHeight.entries (s.nodePotential v) = true)
    (hex : 0 < s.nodeExcess v) (hlt : s.nodePotential v < g.numNodes) :
    ActiveQueue g (s.pushActiveNode v) := by
  have hmem := PriorityQueueWithRestrictedPush.mem_entries_push v (s.nodePotential v)
    s.activeNodeByHeight
  obtain ⟨l, hl⟩ := h.holds
  have hcanl : CanPush l (s.nodePotential v) = true := by
    simp only [CanPush, List.all_eq_true] at hcan ⊢
    exact fun y hy => hcan y (hl.mem_entries_iff.mpr hy)
  simp only [State.pushActiveNode]
  refine ⟨⟨fun w p hw => ?_, ?_⟩, ⟨_, hl.push hcanl⟩, fun w p hw => ?_, fun w p hw => ?_⟩
  · rcases (hmem _).mp hw with e | hw
    · obtain ⟨rfl, rfl⟩ := Prod.mk.inj e; rfl
    · exact h.priority_eq w p hw
  · refine ((PriorityQueueWithRestrictedPush.entries_push_perm _ _ _).map Prod.fst).nodup_iff.mpr
      (List.nodup_cons.mpr ⟨fun hm => ?_, h.nodup⟩)
    obtain ⟨⟨w, p⟩, hw, rfl⟩ := List.mem_map.mp hm
    exact hv ⟨p, hw⟩
  · rcases (hmem _).mp hw with e | hw
    · obtain ⟨rfl, rfl⟩ := Prod.mk.inj e; exact hex
    · exact h.excess_pos w p hw
  · rcases (hmem _).mp hw with e | hw
    · obtain ⟨rfl, rfl⟩ := Prod.mk.inj e; exact hlt
    · exact h.height_lt w p hw

/-- `GetAndRemoveFirstActiveNode()` on a non-empty queue: the call is right, and
the popped node, which has excess and is below `num_nodes`, leaves a queue with
no entry above its height. -/
theorem pop (h : ActiveQueue g s) {v : Nat} {q : PriorityQueueWithRestrictedPush Nat}
    (hp : s.activeNodeByHeight.pop = some (v, q)) :
    QueueCallOk (s, .pop) ∧ DischargeQueue g v { s with activeNodeByHeight := q } ∧
      0 < s.nodeExcess v ∧ s.nodePotential v < g.numNodes := by
  obtain ⟨l, hl⟩ := h.holds
  obtain ⟨p, hvp, htop, l', hl'⟩ := hl.pop_top hp
  obtain ⟨p', hperm⟩ := PriorityQueueWithRestrictedPush.pop_entries hp
  have hsub : ∀ x ∈ q.entries, x ∈ s.activeNodeByHeight.entries :=
    fun x hx => hperm.symm.subset (List.mem_cons_of_mem _ hx)
  have hnd : (v :: q.entries.map Prod.fst).Nodup := (hperm.map Prod.fst).nodup_iff.mp h.nodup
  have hpv := h.priority_eq v p hvp
  refine ⟨⟨h.toQueueAtHeights, v, q, hp, ⟨p, hvp⟩, fun w ⟨pw, hw⟩ => ?_⟩,
    ⟨⟨⟨fun w pw hw => h.priority_eq w pw (hsub _ hw), (List.nodup_cons.mp hnd).2⟩, ⟨l', hl'⟩,
      fun w pw hw => h.excess_pos w pw (hsub _ hw), fun w pw hw => h.height_lt w pw (hsub _ hw)⟩,
      fun ⟨pw, hw⟩ => (List.nodup_cons.mp hnd).1 (List.mem_map_of_mem Prod.fst hw),
      fun y hy => hpv ▸ htop y (hsub y hy)⟩, h.excess_pos v p hvp, h.height_lt v p hvp⟩
  have := htop _ hw
  rw [h.priority_eq w pw hw, hpv] at this
  exact Int.ofNat_le.mp this

end ActiveQueue

namespace DischargeQueue

variable {source sink node : Nat} {s t : State}

/-- The invariant reads the queue, the heights and the excesses. -/
theorem of_eq (h : DischargeQueue g node s) (hq : t.activeNodeByHeight = s.activeNodeByHeight)
    (hpot : t.nodePotential = s.nodePotential) (hex : t.nodeExcess = s.nodeExcess) :
    DischargeQueue g node t where
  toActiveQueue := h.toActiveQueue.frame hq (fun _ _ => by rw [hpot]) fun _ _ => by rw [hex]
  not_queued := by unfold Queued; rw [hq]; exact h.not_queued
  le_height := by rw [hq, hpot]; exact h.le_height

/-- A push of a non-negative amount out of the node: no queued node loses
excess. -/
theorem pushFlow (h : DischargeQueue g node s) {f : Int} (hf : 0 ≤ f) (a : ArcIndex) :
    DischargeQueue g node (s.pushFlow g f node a) where
  toActiveQueue := h.toActiveQueue.frame rfl (fun _ _ => rfl) fun w hw => by
    rw [State.pushFlow_excess, if_neg fun (e : w = node) => h.not_queued (e ▸ hw)]
    split_ifs <;> omega
  not_queued := h.not_queued
  le_height := h.le_height

/-- `PushActiveNode(u)` of another node, at most as high as the node. -/
theorem pushActiveNode (h : DischargeQueue g node s) {u : Nat} (hu : ¬ Queued s u)
    (hcan : CanPush s.activeNodeByHeight.entries (s.nodePotential u) = true)
    (hex : 0 < s.nodeExcess u) (hlt : s.nodePotential u < g.numNodes)
    (hle : s.nodePotential u ≤ s.nodePotential node) (hne : u ≠ node) :
    DischargeQueue g node (s.pushActiveNode u) := by
  have hmem := PriorityQueueWithRestrictedPush.mem_entries_push u (s.nodePotential u)
    s.activeNodeByHeight
  refine ⟨h.toActiveQueue.push hu hcan hex hlt, fun ⟨p, hp⟩ => ?_, fun y hy => ?_⟩
  · rcases (hmem _).mp hp with e | hp
    · exact hne (Prod.mk.inj e).1.symm
    · exact h.not_queued ⟨p, hp⟩
  · rcases (hmem y).mp hy with rfl | hy
    · exact Int.ofNat_le.mpr hle
    · exact h.le_height y hy

/-- One step of the arc scan along an admissible arc: the head, one level below
the node, is queued when it has no excess, by a call that is right, and then
receives a positive amount. -/
theorem scanPush (h : DischargeQueue g node s) (hl : Labeled g source sink s)
    {a : ArcIndex} (hadm : s.IsAdmissible g node a) (hex : 0 < s.nodeExcess node)
    (hlt : s.nodePotential node < g.numNodes) {s₁ : State}
    (hs₁ : s₁ = if s.nodeExcess (g.head a) = 0 then s.pushActiveNode (g.head a) else s) :
    (∀ c ∈ (if s.nodeExcess (g.head a) = 0 then [(s, QueueCall.push (g.head a))] else []),
      QueueCallOk c) ∧
    DischargeQueue g node
      (s₁.pushFlow g (min (s₁.nodeExcess node) (s₁.residualArcCapacity a)) node a) := by
  obtain ⟨hr, hheight⟩ := hadm
  have hf : 0 < min (s.nodeExcess node) (s.residualArcCapacity a) := lt_min hex hr
  have hhn : g.head a ≠ node := fun e => by rw [e] at hheight; omega
  have hhs : g.head a ≠ source := fun e => by rw [e, hl.source_height] at hheight; omega
  subst hs₁
  by_cases h0 : s.nodeExcess (g.head a) = 0
  · simp only [h0, if_true, List.mem_singleton, forall_eq]
    have hq : ¬ Queued s (g.head a) := fun ⟨p, hp⟩ => by
      have := h.excess_pos _ p hp; omega
    have hcan : CanPush s.activeNodeByHeight.entries (s.nodePotential (g.head a)) = true := by
      simp only [CanPush, List.all_eq_true, decide_eq_true_eq]
      intro y hy; have := h.le_height y hy; omega
    refine ⟨⟨h.toQueueAtHeights, hq, hcan⟩, ?_⟩
    show DischargeQueue g node
      ((s.pushFlow g (min (s.nodeExcess node) (s.residualArcCapacity a)) node a).pushActiveNode
        (g.head a))
    refine (h.pushFlow hf.le a).pushActiveNode hq hcan ?_
      (by simp only [State.pushFlow_nodePotential]; omega)
      (by simp only [State.pushFlow_nodePotential]; omega) hhn
    rw [State.pushFlow_excess, if_neg hhn, if_pos rfl, h0]; omega
  · simp only [h0, if_false, List.not_mem_nil, false_imp_iff, imp_true_iff, true_and]
    exact h.pushFlow hf.le a

/-- `Relabel(node)` of the node below `num_nodes` does not lower it. -/
theorem relabel (h : DischargeQueue g node s) (hl : Labeled g source sink s) (hv : node ≠ source)
    (hvt : node ≠ sink) (hlt : s.nodePotential node < g.numNodes)
    (hn : g.numNodes ≤ kMaxNodeHeight + 1) : DischargeQueue g node (MaxFlow.relabel g node s) where
  toActiveQueue := h.toActiveQueue.frame rfl
    (fun w hw => update_noteq (fun (e : w = node) => h.not_queued (e ▸ hw)) _ _) fun _ _ => le_rfl
  not_queued := h.not_queued
  le_height y hy := (h.le_height y hy).trans (by exact_mod_cast (hl.relabel hv hvt hlt hn).2)

end DischargeQueue

/-! ## The calls of the first phase -/

section Calls

variable {source sink : Nat}

/-- Every call of the arc scan of `Discharge(node)` is right, and the scan keeps
the invariant. -/
theorem dischargeScanCalls_ok {node : Nat} (hv : node ≠ source) :
    ∀ (arcs : List ArcIndex) {s : State}, (∀ a ∈ arcs, g.IsArcValid a ∧ g.tail a = node) →
      Labeled g source sink s → DischargeQueue g node s → 0 < s.nodeExcess node →
      s.nodePotential node < g.numNodes →
      (∀ c ∈ dischargeScanCalls g node arcs s, QueueCallOk c) ∧
        DischargeQueue g node (dischargeScan g node arcs s).state
  | [], _, _, _, h, _, _ => ⟨by simp [dischargeScanCalls], h⟩
  | a :: arcs, s, harcs, hl, h, hex, hlt => by
    obtain ⟨ha, hta⟩ := harcs a (List.mem_cons_self _ _)
    have hrest := fun b hb => harcs b (List.mem_cons_of_mem a hb)
    by_cases hadm : s.IsAdmissible g node a
    · simp only [dischargeScanCalls, dischargeScan, if_pos hadm]
      generalize hs₁ : (if s.nodeExcess (g.head a) = 0 then s.pushActiveNode (g.head a) else s)
        = s₁
      obtain ⟨hc, h₂⟩ := h.scanPush hl hadm hex hlt hs₁.symm
      have hres₁ : s₁.residualArcCapacity = s.residualArcCapacity := by rw [← hs₁]; split <;> rfl
      have hex₁ : s₁.nodeExcess = s.nodeExcess := by rw [← hs₁]; split <;> rfl
      have hpot₁ : s₁.nodePotential = s.nodePotential := by rw [← hs₁]; split <;> rfl
      have hadm₁ : s₁.IsAdmissible g node a := by
        unfold State.IsAdmissible; rw [hres₁, hpot₁]; exact hadm
      have hl₂ := (hl.of_eq hres₁ hex₁ hpot₁).push hv ha hta hadm₁
      by_cases hret : (s₁.pushFlow g (min (s₁.nodeExcess node) (s₁.residualArcCapacity a)) node
        a).nodeExcess node = 0
      · rw [if_pos hret, if_pos hret]
        exact ⟨hc, h₂.of_eq rfl rfl rfl⟩
      · rw [if_neg hret, if_neg hret]
        obtain ⟨hc', h₃⟩ := dischargeScanCalls_ok hv arcs hrest hl₂ h₂
          (lt_of_le_of_ne (hl₂.excess_nonneg node hv) (Ne.symm hret))
          (by rw [State.pushFlow_nodePotential, hpot₁]; exact hlt)
        exact ⟨fun c hc'' => (List.mem_append.mp hc'').elim (hc c) (hc' c), h₃⟩
    · simp only [dischargeScanCalls, dischargeScan, if_neg hadm]
      exact dischargeScanCalls_ok hv arcs hrest hl h hex hlt

/-- Every call of `Discharge(node)` is right, and the queue it returns satisfies
the invariant between calls. -/
theorem dischargeCalls_ok {node : Nat} (hv : node ≠ source) (hvt : node ≠ sink)
    (hn : g.numNodes ≤ kMaxNodeHeight + 1) :
    ∀ (fuel : Nat) {s : State}, Labeled g source sink s → DischargeQueue g node s →
      0 < s.nodeExcess node → s.nodePotential node < g.numNodes →
      (∀ c ∈ dischargeCalls g node fuel s, QueueCallOk c) ∧
        ∀ s', discharge g node fuel s = some s' → ActiveQueue g s'
  | 0, _, _, _, _, _ => ⟨by simp [dischargeCalls], by simp [discharge]⟩
  | fuel + 1, s, hl, h, hex, hlt => by
    have harcs : ∀ a ∈ g.outgoingOrOppositeIncomingArcsFrom node (s.firstAdmissibleArc node),
        g.IsArcValid a ∧ g.tail a = node :=
      fun a ha => (g.mem_adjacent_iff node a).mp (g.mem_adjacentFrom ha)
    obtain ⟨hc, h₁⟩ := dischargeScanCalls_ok hv _ harcs hl h hex hlt
    obtain ⟨hl₁, hpot₁, hex₁⟩ := dischargeScan_labeled hv _ harcs hl hex
    simp only [dischargeCalls, discharge]
    generalize dischargeScan g node
      (g.outgoingOrOppositeIncomingArcsFrom node (s.firstAdmissibleArc node)) s = e
      at h₁ hl₁ hpot₁ hex₁
    cases e with
    | returned s₁ =>
      exact ⟨by simpa using hc, fun s' hs' => by cases hs'; exact h₁.toActiveQueue⟩
    | exhausted s₁ =>
      have hlt₁ : s₁.nodePotential node < g.numNodes := by
        rw [show s₁.nodePotential = s.nodePotential from hpot₁]; exact hlt
      have h₂ := DischargeQueue.relabel h₁ hl₁ hv hvt hlt₁ hn
      have hl₂ := (Labeled.relabel hl₁ hv hvt hlt₁ hn).1
      simp only
      split_ifs with hstop
      · exact ⟨by simpa using hc, fun s' hs' => by cases hs'; exact h₂.toActiveQueue⟩
      · obtain ⟨hc', hd⟩ := dischargeCalls_ok hv hvt hn fuel hl₂ h₂ (hex₁ rfl) (not_le.mp hstop)
        exact ⟨fun c hc'' => (List.mem_append.mp hc'').elim (hc c) (hc' c), hd⟩

/-- Every call of the queue loop of a round is right while the source and the
sink are skipped. -/
theorem processActiveNodesCalls_ok (hn : g.numNodes ≤ kMaxNodeHeight + 1) :
    ∀ (fuel : Nat) (skip : Nat → Nat) (numSkipped : Nat) {s : State}, 1 < skip source →
      1 < skip sink → Labeled g source sink s → ActiveQueue g s →
      ∀ c ∈ processActiveNodesCalls g source sink fuel skip numSkipped s, QueueCallOk c
  | 0, _, _, _, _, _, _, _ => by simp [processActiveNodesCalls]
  | fuel + 1, skip, numSkipped, s, hs, hk, hl, h => by
    rw [processActiveNodesCalls]
    split
    · simp
    rename_i node q hpop
    obtain ⟨hc, h₁, hex₁, hlt₁⟩ := h.pop hpop
    have hl₁ : Labeled g source sink { s with activeNodeByHeight := q } := hl.of_eq rfl rfl rfl
    simp only [List.forall_mem_cons]
    refine ⟨hc, ?_⟩
    by_cases hskip : 1 < skip node
    · rw [if_pos hskip]
      exact processActiveNodesCalls_ok hn fuel skip _ hs hk hl₁ h₁.toActiveQueue
    rw [if_neg hskip]
    have hvs : node ≠ source := fun e => hskip (by rw [e]; exact hs)
    have hvk : node ≠ sink := fun e => hskip (by rw [e]; exact hk)
    obtain ⟨hc', hd⟩ := dischargeCalls_ok hvs hvk hn fuel hl₁ h₁ hex₁ hlt₁
    refine List.forall_mem_append.mpr ⟨hc', ?_⟩
    split
    · simp
    rename_i s' hs'
    have hl' := discharge_labeled hvs hvk hn fuel hl₁ hex₁ hlt₁ hs'
    split_ifs
    · exact processActiveNodesCalls_ok hn fuel _ numSkipped
        (hs.trans_le (le_update_skip skip node source)) (hk.trans_le (le_update_skip skip node sink))
        hl' (hd s' hs')
    · exact processActiveNodesCalls_ok hn fuel skip numSkipped hs hk hl' (hd s' hs')

/-- Every push of the last loop of `GlobalUpdate()` is right, when the nodes
left are distinct, by nondecreasing height, below `num_nodes`, and no entry is
one of them or above any of them. -/
theorem seedCalls_ok : ∀ (L : List Nat) {t : State}, ActiveQueue g t → L.Nodup →
    L.Pairwise (fun u v => t.nodePotential u ≤ t.nodePotential v) →
    (∀ v ∈ L, t.nodePotential v < g.numNodes) →
    (∀ y ∈ t.activeNodeByHeight.entries, y.1 ∉ L ∧ ∀ v ∈ L, y.2 ≤ t.nodePotential v) →
    (∀ c ∈ seedCalls L t, QueueCallOk c) ∧
      ActiveQueue g (L.foldl (fun s node => if 0 < s.nodeExcess node then s.pushActiveNode node
        else s) t)
  | [], _, h, _, _, _, _ => ⟨by simp [seedCalls], h⟩
  | v :: L, t, h, hnd, hsort, hlt, hout => by
    obtain ⟨hvL, hnd⟩ := List.nodup_cons.mp hnd
    obtain ⟨hvle, hsort⟩ := List.pairwise_cons.mp hsort
    have hltL := fun w hw => hlt w (List.mem_cons_of_mem v hw)
    have houtL : ∀ y ∈ t.activeNodeByHeight.entries, y.1 ∉ L ∧ ∀ w ∈ L, y.2 ≤ t.nodePotential w :=
      fun y hy => ⟨fun hw => (hout y hy).1 (List.mem_cons_of_mem v hw),
        fun w hw => (hout y hy).2 w (List.mem_cons_of_mem v hw)⟩
    by_cases hex : 0 < t.nodeExcess v
    · have hq : ¬ Queued t v := fun ⟨p, hp⟩ => (hout _ hp).1 (List.mem_cons_self _ _)
      have hcan : CanPush t.activeNodeByHeight.entries (t.nodePotential v) = true := by
        simp only [CanPush, List.all_eq_true, decide_eq_true_eq]
        intro y hy; have := (hout y hy).2 v (List.mem_cons_self _ _); omega
      simp only [seedCalls, List.foldl_cons, if_pos hex, List.forall_mem_cons]
      refine (fun ⟨h₁, h₂⟩ => ⟨⟨⟨h.toQueueAtHeights, hq, hcan⟩, h₁⟩, h₂⟩)
        (seedCalls_ok L (h.push hq hcan hex (hlt v (List.mem_cons_self _ _))) hnd hsort hltL
          fun y hy => ?_)
      rcases (PriorityQueueWithRestrictedPush.mem_entries_push v (t.nodePotential v)
        t.activeNodeByHeight y).mp hy with rfl | hy
      · exact ⟨hvL, fun w hw => Int.ofNat_le.mpr (hvle w hw)⟩
      · exact houtL y hy
    · simp only [seedCalls, List.foldl_cons, if_neg hex]
      exact seedCalls_ok L h hnd hsort hltL houtL

/-- Every push of `GlobalUpdate()` from a preflow with an empty queue is right,
and it leaves the invariant between calls. -/
theorem globalUpdateCalls_ok {s : State} (hsink : sink < g.numNodes) (hne : source ≠ sink)
    (h : Preflow g source sink s) (hq : s.activeNodeByHeight = .empty) :
    (∀ c ∈ globalUpdateCalls g source sink s, QueueCallOk c) ∧
      ActiveQueue g (globalUpdate g source sink s) := by
  have hb := globalUpdateSearch_inv hsink hne h.residual_nonneg h.excess_nonneg h.sink_height
  simp only [globalUpdateCalls, globalUpdate]
  generalize globalUpdateSearch g source sink s = b at hb
  have hkeep : ∀ v ∈ b.bfsQueue.drop 1, (if v < g.numNodes ∧ b.nodeInBfsQueue v = false then
      2 * g.numNodes - 1 else b.state.nodePotential v) = b.state.nodePotential v := fun v hv => by
    simp [(hb.core.mark v).mpr (.inl (List.mem_of_mem_drop hv))]
  refine seedCalls_ok _ (ActiveQueue.of_empty (hb.frame.active.trans hq))
    (hb.core.nodup.sublist (List.drop_sublist 1 _))
    (((hb.core.sorted.sublist (List.drop_sublist 1 _))).imp_of_mem fun hx hy hxy => ?_)
    (fun v hv => ?_) (fun y hy => ?_)
  · dsimp only
    rwa [hkeep _ hx, hkeep _ hy]
  · dsimp only
    rw [hkeep v hv]
    have := hb.core.height_lt v (List.mem_of_mem_drop hv)
    have := hb.core.length_le
    omega
  · simp [hb.frame.active, hq] at hy

/-- Every call of the rounds from a preflow with an empty queue is right. -/
theorem refineRoundsCalls_ok (hk : sink < g.numNodes) (hne : source ≠ sink)
    (hn : g.numNodes ≤ kMaxNodeHeight + 1) :
    ∀ (fuel : Nat) {s : State}, Preflow g source sink s → s.activeNodeByHeight = .empty →
      ∀ c ∈ refineRoundsCalls g source sink fuel s, QueueCallOk c
  | 0, _, _, _ => by simp [refineRoundsCalls]
  | fuel + 1, s, h, hq => by
    obtain ⟨hc, h₁⟩ := globalUpdateCalls_ok hk hne h hq
    have hl₁ := (globalUpdate_labeled hk hne h.residual_nonneg h.excess_nonneg h.conserves
      h.source_height h.sink_height).2
    have hs : 1 < skipActiveNodeStart source sink source := by simp
    have hk' : 1 < skipActiveNodeStart source sink sink := by simp
    rw [refineRoundsCalls]
    refine List.forall_mem_append.mpr ⟨List.forall_mem_append.mpr
      ⟨hc, processActiveNodesCalls_ok hn fuel _ 0 hs hk' hl₁ h₁⟩, ?_⟩
    split
    · simp
    rename_i s₁ numSkipped hp
    split_ifs
    · exact refineRoundsCalls_ok hk hne hn fuel
        (preflow_processActiveNodes fuel _ 0 hs hk' (preflow_globalUpdate h) hp)
        ((PriorityQueueWithRestrictedPush.isEmpty_iff_eq_empty _).mp
          (processActiveNodes_moves source sink fuel _ _ hp).2)
    · simp

/-- **The calls on the queue of active nodes.**  In every run of
`RefineWithGlobalUpdate()` from a preflow with an empty queue, every
`PushActiveNode(node)` is of a node not queued, at a height at least the
highest priority present minus one, as `PriorityQueueWithRestrictedPush`
requires; every queued node is queued once at its current height; and every
`GetAndRemoveFirstActiveNode()` answers a queued node of maximal height. -/
theorem refineWithGlobalUpdate_queueCalls (hs : source < g.numNodes) (hk : sink < g.numNodes)
    (hne : source ≠ sink) (hn : g.numNodes ≤ kMaxNodeHeight + 1) :
    ∀ (fuel : Nat) {s : State}, Preflow g source sink s → s.activeNodeByHeight = .empty →
      ∀ c ∈ refineWithGlobalUpdateCalls g source sink fuel s, QueueCallOk c
  | 0, _, _, _ => by simp [refineWithGlobalUpdateCalls]
  | fuel + 1, s, h, hq => by
    rw [refineWithGlobalUpdateCalls]
    have hq₀ := (saturateOutgoingArcsFromSource_moves (g := g) source sink s).2
    have h₀ := preflow_saturateOutgoingArcsFromSource hne h
    split_ifs
    · refine List.forall_mem_append.mpr
        ⟨refineRoundsCalls_ok hk hne hn fuel h₀ (hq₀.trans hq), ?_⟩
      split
      · simp
      rename_i s₁ hs₁
      split
      · simp
      rename_i s₂ hs₂
      have hq₁ := (PriorityQueueWithRestrictedPush.isEmpty_iff_eq_empty _).mp
        (refineRounds_moves source sink fuel hs₁).2
      exact refineWithGlobalUpdate_queueCalls hs hk hne hn fuel
        (preflow_pushFlowExcessBackToSource (preflow_refineRounds fuel h₀ hs₁) hs hk hne hs₂).1
        (by rw [← (pushFlowExcessBackToSource_pushes source sink fuel hs₂).frame]; exact hq₁)
    · simp

/-- The hypotheses of `refineWithGlobalUpdate_queueCalls` hold on the path
`0 → 1 → 2 → 3` with capacities 5, 3 and 5, source 0 and sink 3, from the
preflow `InitializePreflow()` builds. -/
theorem refineWithGlobalUpdate_queueCalls_on_path :
    let g := Graph.ofArcs 4 [(0, 1), (1, 2), (2, 3)] (by decide)
    let s := State.initializePreflow g 0
      { freshWith g (fun i => if i = 1 then 3 else 5) with status := .notSolved }
    0 < g.numNodes ∧ 3 < g.numNodes ∧ (0 : Nat) ≠ 3 ∧ g.numNodes ≤ kMaxNodeHeight + 1 ∧
      Preflow g 0 3 s ∧ s.activeNodeByHeight = .empty ∧
      ∀ c ∈ refineWithGlobalUpdateCalls g 0 3 10 s, QueueCallOk c := by
  intro g s
  have hp : Preflow g 0 3 s := (preflow_initializePreflow (Settled.freshWith _)
    (fun i _ => by split <;> decide) (by decide) .notSolved).1
  have hq : s.activeNodeByHeight = .empty := rfl
  exact ⟨by decide, by decide, by decide, by decide, hp, hq,
    refineWithGlobalUpdate_queueCalls (by decide) (by decide) (by decide) (by decide) 10 hp hq⟩

/-- There, `GlobalUpdate()` steals 3 units of the excess of node 1 for node 2 and
queues node 2; its discharge queues the sink. -/
example : (refineWithGlobalUpdateCalls (Graph.ofArcs 4 [(0, 1), (1, 2), (2, 3)] (by decide)) 0 3 10
    (State.initializePreflow (Graph.ofArcs 4 [(0, 1), (1, 2), (2, 3)] (by decide)) 0
      { freshWith (Graph.ofArcs 4 [(0, 1), (1, 2), (2, 3)] (by decide))
          (fun i => if i = 1 then 3 else 5) with status := .notSolved })).map Prod.snd =
    [.push 2, .pop, .push 3, .pop] := by decide

end Calls

end OrTools.MaxFlow

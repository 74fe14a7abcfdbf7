import OrTools.Graph.MaxFlow.Solve
import OrTools.Graph.MaxFlow.Residual
import Mathlib.Data.List.Perm.Subperm
import Mathlib.Data.Finset.Card
import Mathlib.Logic.Relation

/-!
# The two searches of the residual graph

`ComputeReachableNodes<reverse>(start)`, behind `GetSourceSideMinCut()` and
`GetSinkSideMinCut()`, is a breadth-first search: `bfs_queue_` only grows at
its back, a node is marked when it is queued, and every node before
`queue_index` has had all its arcs scanned.  When `queue_index` reaches the end
of the queue the queued nodes are closed under the arcs the search follows, so
they are exactly the nodes reachable from `start`.

`AugmentingPathExists()` is a depth-first search on the stack `to_process`: a
node is marked when it is pushed, and a marked node off the stack has all its
residual successors marked.  When the stack is empty the marked nodes are
exactly the nodes reachable from the source.

Both loops are given `num_nodes` iterations.  That is enough: each iteration
takes one node off the queue or the stack, and no node is put on twice.
-/

set_option autoImplicit false

namespace OrTools.MaxFlow

open Function Relation

variable (g : Graph)

/-- An arc the search of `ComputeReachableNodes<reverse>()` follows from `u` to
`v`: a valid arc from `u` to `v` whose residual capacity (that of its opposite
when `reverse`) is not zero. -/
def ReachStep (reverse : Bool) (s : State) (u v : Nat) : Prop :=
  ∃ a, g.IsArcValid a ∧ g.tail a = u ∧ g.head a = v ∧
    s.residualArcCapacity (if reverse then a.opposite else a) ≠ 0

variable {g}

/-- With `reverse`, the search follows the arcs of non-zero residual capacity
backwards. -/
theorem reachStep_reverse (s : State) : ReachStep g true s = swap (ReachStep g false s) := by
  funext u v
  apply propext
  constructor
  · rintro ⟨a, ha, rfl, rfl, hr⟩
    exact ⟨a.opposite, (g.isArcValid_opposite a).mpr ha, g.tail_opposite a, g.head_opposite a, hr⟩
  · rintro ⟨a, ha, rfl, rfl, hr⟩
    exact ⟨a.opposite, (g.isArcValid_opposite a).mpr ha, g.tail_opposite a, g.head_opposite a,
      by simpa using hr⟩

/-! ## `ComputeReachableNodes<reverse>()` -/

section Reach

variable {reverse : Bool} {s : State} {start : Nat}

/-- What the search keeps true of `(bfs_queue_, node_in_bfs_queue_)` at every
arc: the queue starts at `start`, holds each node once, is what is marked, and
holds only nodes of the graph reachable from `start`. -/
structure ReachCore (g : Graph) (reverse : Bool) (s : State) (start : Nat)
    (b : List Nat × (Nat → Bool)) : Prop where
  head_eq : b.1.head? = some start
  nodup : b.1.Nodup
  mark : ∀ v, b.2 v = true ↔ v ∈ b.1
  lt : ∀ v ∈ b.1, v < g.numNodes
  sound : ∀ v ∈ b.1, ReflTransGen (ReachStep g reverse s) start v

/-- The invariant of the loop at `queue_index = i`: the nodes before `i` have
all their successors queued. -/
structure ReachInv (g : Graph) (reverse : Bool) (s : State) (start : Nat) (i : Nat)
    (b : List Nat × (Nat → Bool)) extends ReachCore g reverse s start b : Prop where
  index_le : i ≤ b.1.length
  closed : ∀ u ∈ b.1.take i, ∀ v, ReachStep g reverse s u v → v ∈ b.1

theorem ReachCore.length_le {b : List Nat × (Nat → Bool)} (h : ReachCore g reverse s start b) :
    b.1.length ≤ g.numNodes := by
  simpa using (h.nodup.subperm fun v hv => List.mem_range.mpr (h.lt v hv)).length_le

/-- One arc of the scan of a queued node `u`: the queue grows at its back, by
the head of the arc when the search follows it. -/
theorem ReachCore.arc {b : List Nat × (Nat → Bool)} (h : ReachCore g reverse s start b)
    {u : Nat} (hu : u ∈ b.1) {arc : ArcIndex} (ha : g.IsArcValid arc) (ht : g.tail arc = u) :
    ReachCore g reverse s start (reachableArc g reverse s b arc) ∧
      (∃ ext, (reachableArc g reverse s b arc).1 = b.1 ++ ext) ∧
      (s.residualArcCapacity (if reverse then arc.opposite else arc) ≠ 0 →
        g.head arc ∈ (reachableArc g reverse s b arc).1) := by
  unfold reachableArc
  by_cases hm : b.2 (g.head arc) = true
  · simp only [hm, if_true]
    exact ⟨h, ⟨[], by simp⟩, fun _ => (h.mark _).mp hm⟩
  by_cases hz : s.residualArcCapacity (if reverse then arc.opposite else arc) = 0
  · simp only [hm, hz, if_true, Bool.false_eq_true, if_false]
    exact ⟨h, ⟨[], by simp⟩, fun h' => absurd rfl h'⟩
  simp only [hm, hz, Bool.false_eq_true, if_false]
  have hnot : g.head arc ∉ b.1 := fun hv => hm ((h.mark _).mpr hv)
  refine ⟨⟨?_, ?_, fun v => ?_, fun v hv => ?_, fun v hv => ?_⟩, ⟨_, rfl⟩, fun _ => by simp⟩
  · simp [List.head?_append, h.head_eq]
  · exact h.nodup.append (List.nodup_singleton _) (List.disjoint_singleton.mpr hnot)
  · by_cases hv : v = g.head arc
    · subst hv; simp
    · simp [update_noteq hv, h.mark v, hv]
  · rcases List.mem_append.mp hv with hv | hv
    · exact h.lt v hv
    · rw [List.mem_singleton.mp hv]; exact g.head_lt ha
  · rcases List.mem_append.mp hv with hv | hv
    · exact h.sound v hv
    · rw [List.mem_singleton.mp hv]
      exact (h.sound u hu).tail ⟨arc, ha, ht, rfl, hz⟩

/-- The scan of all the arcs of a queued node `u` queues the head of every arc
the search follows. -/
theorem ReachCore.foldl {u : Nat} :
    ∀ (arcs : List ArcIndex) {b : List Nat × (Nat → Bool)}, ReachCore g reverse s start b →
      u ∈ b.1 → (∀ a ∈ arcs, g.IsArcValid a ∧ g.tail a = u) →
      ReachCore g reverse s start (arcs.foldl (reachableArc g reverse s) b) ∧
        (∃ ext, (arcs.foldl (reachableArc g reverse s) b).1 = b.1 ++ ext) ∧
        ∀ a ∈ arcs, s.residualArcCapacity (if reverse then a.opposite else a) ≠ 0 →
          g.head a ∈ (arcs.foldl (reachableArc g reverse s) b).1
  | [], b, h, _, _ => ⟨h, ⟨[], by simp⟩, fun _ ha => absurd ha (List.not_mem_nil _)⟩
  | arc :: arcs, b, h, hu, hv => by
    obtain ⟨h₁, ⟨e₁, he₁⟩, hhead⟩ := h.arc hu (hv arc (List.mem_cons_self _ _)).1
      (hv arc (List.mem_cons_self _ _)).2
    obtain ⟨h₂, ⟨e₂, he₂⟩, hrest⟩ := foldl arcs h₁ (by rw [he₁]; exact List.mem_append_left _ hu)
      fun a ha => hv a (List.mem_cons_of_mem _ ha)
    refine ⟨h₂, ⟨e₁ ++ e₂, by rw [List.foldl_cons, he₂, he₁, List.append_assoc]⟩, fun a ha hr => ?_⟩
    rcases List.mem_cons.mp ha with rfl | ha
    · rw [List.foldl_cons, he₂]; exact List.mem_append_left _ (hhead hr)
    · exact hrest a ha hr

/-- One iteration of the loop: the node at `queue_index` is scanned. -/
theorem ReachInv.step {i : Nat} {b : List Nat × (Nat → Bool)} (h : ReachInv g reverse s start i b)
    (hi : i ≠ b.1.length) :
    ReachInv g reverse s start (i + 1)
      ((g.outgoingOrOppositeIncomingArcs (b.1.getD i 0)).foldl (reachableArc g reverse s) b) := by
  have hlt : i < b.1.length := lt_of_le_of_ne h.index_le hi
  have hmem : b.1.getD i 0 ∈ b.1 := by
    rw [List.getD_eq_getElem _ _ hlt]; exact List.getElem_mem hlt
  obtain ⟨hc, ⟨ext, he⟩, hscan⟩ := h.toReachCore.foldl _ hmem
    fun a ha => (g.mem_adjacent_iff _ a).mp ha
  refine ⟨hc, by rw [he, List.length_append]; omega, fun u hu v huv => ?_⟩
  rw [he, List.take_append_of_le_length (by omega), List.take_succ, List.getElem?_eq_getElem hlt,
    Option.toList_some, List.mem_append, List.mem_singleton] at hu
  rcases hu with hu | rfl
  · rw [he]; exact List.mem_append_left _ (h.closed u hu v huv)
  · obtain ⟨a, ha, hta, rfl, hr⟩ := huv
    rw [← List.getD_eq_getElem _ 0 hlt] at hta
    exact hscan a ((g.mem_adjacent_iff _ a).mpr ⟨ha, hta⟩) hr

/-- With every queued node scanned, the queue is closed under the search's
arcs. -/
theorem ReachInv.done {i : Nat} {b : List Nat × (Nat → Bool)} (h : ReachInv g reverse s start i b)
    (hi : i = b.1.length) :
    ReachCore g reverse s start b ∧ ∀ u ∈ b.1, ∀ v, ReachStep g reverse s u v → v ∈ b.1 := by
  have hc := h.closed
  rw [hi, List.take_length] at hc
  exact ⟨h.toReachCore, hc⟩

/-- `num_nodes - i` more iterations are enough: the loop ends with every queued
node scanned. -/
theorem reachableLoop_closed :
    ∀ (fuel i : Nat) {b : List Nat × (Nat → Bool)}, ReachInv g reverse s start i b →
      g.numNodes ≤ i + fuel →
      ReachCore g reverse s start (reachableLoop g reverse s fuel i b) ∧
        ∀ u ∈ (reachableLoop g reverse s fuel i b).1, ∀ v, ReachStep g reverse s u v →
          v ∈ (reachableLoop g reverse s fuel i b).1
  | 0, i, b, h, hf => h.done (by have := h.length_le; have := h.index_le; omega)
  | fuel + 1, i, b, h, hf => by
    unfold reachableLoop
    split_ifs with hi
    · exact h.done hi
    · exact reachableLoop_closed fuel (i + 1) (h.step hi) (by omega)

/-- A set of queued nodes closed under the search's arcs holds every node
reachable from `start`. -/
theorem ReachCore.complete {b : List Nat × (Nat → Bool)} (h : ReachCore g reverse s start b)
    (hclosed : ∀ u ∈ b.1, ∀ v, ReachStep g reverse s u v → v ∈ b.1) {v : Nat}
    (hv : ReflTransGen (ReachStep g reverse s) start v) : v ∈ b.1 := by
  induction hv with
  | refl => exact List.mem_of_mem_head? h.head_eq
  | tail _ huv ih => exact hclosed _ ih _ huv

theorem reachInv_init (hstart : start < g.numNodes) :
    ReachInv g reverse s start 0 ([start], update (fun _ => false) start true) where
  head_eq := rfl
  nodup := List.nodup_singleton _
  mark v := by
    by_cases hv : v = start
    · subst hv; simp
    · simp [hv]
  lt v hv := by rw [List.mem_singleton.mp hv]; exact hstart
  sound v hv := by rw [List.mem_singleton.mp hv]
  index_le := Nat.zero_le _
  closed u hu := absurd hu (List.not_mem_nil _)

/-- The search from a node of the graph ends with the invariant and every
queued node scanned. -/
theorem computeReachableNodes_closed (reverse : Bool) (s : State) (hstart : start < g.numNodes) :
    ∃ b, computeReachableNodes g reverse start s = b.1 ∧ ReachCore g reverse s start b ∧
      ∀ u ∈ b.1, ∀ v, ReachStep g reverse s u v → v ∈ b.1 := by
  unfold computeReachableNodes
  rw [if_neg (not_le.mpr hstart)]
  exact ⟨_, rfl, reachableLoop_closed g.numNodes 0 (reachInv_init hstart) (by omega)⟩

theorem mem_computeReachableNodes_iff (hstart : start < g.numNodes) {v : Nat} :
    v ∈ computeReachableNodes g reverse start s ↔ ReflTransGen (ReachStep g reverse s) start v := by
  obtain ⟨b, hb, h, hc⟩ := computeReachableNodes_closed reverse s hstart
  rw [hb]
  exact ⟨h.sound v, h.complete hc⟩

/-- **`ComputeReachableNodes<reverse>(start)`**, behind `GetSourceSideMinCut()`
and `GetSinkSideMinCut()`, from a node of the graph returns `start` first, then
each node the search can reach from it exactly once: the nodes joined to
`start` by arcs of non-zero residual capacity, or, when `reverse`, by arcs
whose opposite has non-zero residual capacity. -/
theorem computeReachableNodes_spec (reverse : Bool) (s : State) (hstart : start < g.numNodes) :
    (computeReachableNodes g reverse start s).head? = some start ∧
      (computeReachableNodes g reverse start s).Nodup ∧
      ∀ v, v ∈ computeReachableNodes g reverse start s ↔ ReflTransGen (ReachStep g reverse s) start v := by
  obtain ⟨b, hb, h, hc⟩ := computeReachableNodes_closed reverse s hstart
  rw [hb]
  exact ⟨h.head_eq, h.nodup, fun v => ⟨h.sound v, h.complete hc⟩⟩

/-- On the path `0 → 1 → 2` with capacities 5 and 2, the search from node 0
follows both arcs. -/
theorem computeReachableNodes_spec_on_path :
    let g : Graph := Graph.ofArcs 3 [(0, 1), (1, 2)] (by decide)
    let s := (State.init.setArcCapacity g (.direct 0) 5).setArcCapacity g (.direct 1) 2
    0 < g.numNodes ∧
      ((computeReachableNodes g false 0 s).head? = some 0 ∧ (computeReachableNodes g false 0 s).Nodup ∧
        ∀ v, v ∈ computeReachableNodes g false 0 s ↔ ReflTransGen (ReachStep g false s) 0 v) :=
  ⟨by decide, computeReachableNodes_spec false _ (by decide)⟩

example : computeReachableNodes (Graph.ofArcs 3 [(0, 1), (1, 2)] (by decide)) false 0
    ((State.init.setArcCapacity (Graph.ofArcs 3 [(0, 1), (1, 2)] (by decide)) (.direct 0) 5).setArcCapacity
      (Graph.ofArcs 3 [(0, 1), (1, 2)] (by decide)) (.direct 1) 2) = [0, 1, 2] := by decide

end Reach

/-! ## `AugmentingPathExists()` -/

section Augmenting

variable {s : State} {source : Nat}

variable (g) in
/-- The nodes of the graph `is_reached` leaves unmarked. -/
def unreached (r : Nat → Bool) : Finset Nat := (Finset.range g.numNodes).filter fun v => r v = false

/-- Marking an unmarked node of the graph leaves one node fewer unmarked. -/
theorem card_unreached_update {r : Nat → Bool} {v : Nat} (hv : v < g.numNodes) (hr : r v = false) :
    (unreached g (update r v true)).card + 1 = (unreached g r).card := by
  have : unreached g (update r v true) = (unreached g r).erase v := by
    ext w
    by_cases hw : w = v
    · subst hw; simp [unreached]
    · simp [unreached, update_noteq hw, hw]
  rw [this, Finset.card_erase_add_one]
  simp [unreached, hv, hr]

/-- What the search keeps true of `(to_process, is_reached)` at every arc: the
source is marked, the stack holds marked nodes once each, and every marked node
is a node of the graph reachable from the source. -/
structure PathCore (g : Graph) (s : State) (source : Nat) (b : List Nat × (Nat → Bool)) : Prop where
  source_mark : b.2 source = true
  stack_mark : ∀ v ∈ b.1, b.2 v = true
  nodup : b.1.Nodup
  lt : ∀ v, b.2 v = true → v < g.numNodes
  sound : ∀ v, b.2 v = true → Reaches g s (fun _ => True) source v

/-- A marked node off the stack, other than `except`, has its residual
successors marked. -/
def PathClosed (g : Graph) (s : State) (except : Option Nat) (b : List Nat × (Nat → Bool)) : Prop :=
  ∀ u, b.2 u = true → u ∉ b.1 → some u ≠ except → ∀ a, g.IsArcValid a → g.tail a = u →
    0 < s.residualArcCapacity a → b.2 (g.head a) = true

/-- How a scan changes `(to_process, is_reached)`: the nodes it marks are the
ones it pushes, each pushed node was unmarked, and each push trades one
unmarked node of the graph for one more entry on the stack. -/
structure PathGrows (g : Graph) (b b' : List Nat × (Nat → Bool)) : Prop where
  stack : ∃ pushed, b'.1 = pushed ++ b.1 ∧ (∀ v ∈ pushed, b.2 v = false) ∧
    ∀ v, b'.2 v = true → b.2 v = true ∨ v ∈ pushed
  mono : ∀ v, b.2 v = true → b'.2 v = true
  card : b'.1.length + (unreached g b'.2).card = b.1.length + (unreached g b.2).card

theorem PathGrows.refl (b : List Nat × (Nat → Bool)) : PathGrows g b b :=
  ⟨⟨[], by simp, by simp, fun _ h => .inl h⟩, fun _ h => h, rfl⟩

theorem PathGrows.trans {b₁ b₂ b₃ : List Nat × (Nat → Bool)} (h₁ : PathGrows g b₁ b₂)
    (h₂ : PathGrows g b₂ b₃) : PathGrows g b₁ b₃ := by
  obtain ⟨p₁, he₁, hp₁, hn₁⟩ := h₁.stack
  obtain ⟨p₂, he₂, hp₂, hn₂⟩ := h₂.stack
  refine ⟨⟨p₂ ++ p₁, by rw [he₂, he₁, List.append_assoc], fun v hv => ?_, fun v hv => ?_⟩,
    fun v hv => h₂.mono v (h₁.mono v hv), h₂.card.trans h₁.card⟩
  · rcases List.mem_append.mp hv with hv | hv
    · cases hb : b₁.2 v
      · rfl
      · have := hp₂ v hv; rw [h₁.mono v hb] at this; cases this
    · exact hp₁ v hv
  · rcases hn₂ v hv with hv | hv
    · exact (hn₁ v hv).imp id (List.mem_append_right _)
    · exact .inr (List.mem_append_left _ hv)

/-- One arc of the scan of the popped node `u`: its head is pushed and marked
when the arc is residual and the head is new. -/
theorem PathCore.arc {b : List Nat × (Nat → Bool)} (h : PathCore g s source b) {u : Nat}
    (hu : b.2 u = true) {arc : ArcIndex} (ha : g.IsArcValid arc) (ht : g.tail arc = u) :
    PathCore g s source (augmentingPathArc g s b arc) ∧ PathGrows g b (augmentingPathArc g s b arc) ∧
      (0 < s.residualArcCapacity arc → (augmentingPathArc g s b arc).2 (g.head arc) = true) := by
  dsimp only [augmentingPathArc]
  by_cases hr : 0 < s.residualArcCapacity arc
  swap
  · rw [if_neg hr]
    exact ⟨h, .refl b, fun h' => absurd h' hr⟩
  rw [if_pos hr]
  by_cases hm : b.2 (g.head arc) = true
  · rw [if_pos hm]
    exact ⟨h, .refl b, fun _ => hm⟩
  rw [if_neg hm]
  have hm' : b.2 (g.head arc) = false := by simpa using hm
  have hmono : ∀ v, b.2 v = true → update b.2 (g.head arc) true v = true := fun v hv => by
    by_cases hv' : v = g.head arc
    · subst hv'; simp
    · rw [update_noteq hv']; exact hv
  refine ⟨⟨hmono _ h.source_mark, fun v hv => ?_, ?_, fun v hv => ?_, fun v hv => ?_⟩,
    ⟨⟨[g.head arc], rfl, by simpa using hm', fun v hv => ?_⟩, hmono, ?_⟩, fun _ => by simp⟩
  · rcases List.mem_cons.mp hv with rfl | hv
    · simp
    · exact hmono _ (h.stack_mark v hv)
  · exact List.nodup_cons.mpr ⟨fun hv => hm (h.stack_mark _ hv), h.nodup⟩
  · by_cases hv' : v = g.head arc
    · rw [hv']; exact g.head_lt ha
    · simp only [update_noteq hv'] at hv; exact h.lt v hv
  · by_cases hv' : v = g.head arc
    · obtain ⟨k, p⟩ := h.sound u hu
      have q : Walk g s (fun _ => True) u (g.head arc) (0 + 1) :=
        (Walk.cons ha hr trivial (Walk.nil trivial)).of_eq_start ht.symm
      rw [hv']
      exact ⟨k + (0 + 1), p.append q⟩
    · simp only [update_noteq hv'] at hv; exact h.sound v hv
  · by_cases hv' : v = g.head arc
    · exact .inr (List.mem_singleton.mpr hv')
    · simp only [update_noteq hv'] at hv; exact .inl hv
  · have := card_unreached_update (g.head_lt ha) hm'
    simp only [List.length_cons]
    omega

/-- The scan of all the arcs of the popped node `u` marks the head of every
residual arc of `u`. -/
theorem PathCore.foldl {u : Nat} :
    ∀ (arcs : List ArcIndex) {b : List Nat × (Nat → Bool)}, PathCore g s source b → b.2 u = true →
      (∀ a ∈ arcs, g.IsArcValid a ∧ g.tail a = u) →
      PathCore g s source (arcs.foldl (augmentingPathArc g s) b) ∧
        PathGrows g b (arcs.foldl (augmentingPathArc g s) b) ∧
        ∀ a ∈ arcs, 0 < s.residualArcCapacity a →
          (arcs.foldl (augmentingPathArc g s) b).2 (g.head a) = true
  | [], b, h, _, _ => ⟨h, .refl b, fun _ ha => absurd ha (List.not_mem_nil _)⟩
  | arc :: arcs, b, h, hu, hv => by
    obtain ⟨h₁, hg₁, hhead⟩ :=
      h.arc hu (hv arc (List.mem_cons_self _ _)).1 (hv arc (List.mem_cons_self _ _)).2
    obtain ⟨h₂, hg₂, hrest⟩ :=
      foldl arcs h₁ (hg₁.mono _ hu) fun a ha => hv a (List.mem_cons_of_mem _ ha)
    refine ⟨h₂, hg₁.trans hg₂, fun a ha hr => ?_⟩
    rcases List.mem_cons.mp ha with rfl | ha
    · exact hg₂.mono _ (hhead hr)
    · exact hrest a ha hr

/-- The loop ends, within `num_nodes` iterations, with an empty stack: every
marked node then has its residual successors marked. -/
theorem augmentingPathLoop_closed :
    ∀ (fuel : Nat) {b : List Nat × (Nat → Bool)}, PathCore g s source b → PathClosed g s none b →
      b.1.length + (unreached g b.2).card ≤ fuel →
      PathCore g s source ([], augmentingPathLoop g s fuel b) ∧
        PathClosed g s none ([], augmentingPathLoop g s fuel b)
  | 0, (stack, r), h, hc, hf => by
    obtain rfl : stack = [] := List.eq_nil_of_length_eq_zero (by simp only at hf; omega)
    exact ⟨h, hc⟩
  | fuel + 1, ([], r), h, hc, _ => ⟨h, hc⟩
  | fuel + 1, (node :: rest, r), h, hc, hf => by
    have hnode := h.stack_mark node (List.mem_cons_self _ _)
    have h₀ : PathCore g s source (rest, r) :=
      ⟨h.source_mark, fun v hv => h.stack_mark v (List.mem_cons_of_mem _ hv),
        (List.nodup_cons.mp h.nodup).2, h.lt, h.sound⟩
    obtain ⟨h₁, hg, hscan⟩ :=
      h₀.foldl (g.outgoingOrOppositeIncomingArcs node) hnode fun a ha => (g.mem_adjacent_iff _ a).mp ha
    obtain ⟨pushed, he, -, hnew⟩ := hg.stack
    refine augmentingPathLoop_closed fuel h₁ (fun u hu hnot _ a ha hta hr => ?_) (by
      have := hg.card; simp only [List.length_cons] at hf this ⊢; omega)
    rw [he, List.mem_append, not_or] at hnot
    by_cases hun : u = node
    · subst hun
      exact hscan a ((g.mem_adjacent_iff _ a).mpr ⟨ha, hta⟩) hr
    · have hu' : r u = true := (hnew u hu).resolve_right hnot.1
      exact hg.mono _ (hc u hu' (by simpa [hun] using hnot.2) (by simp) a ha hta hr)

/-- The only node `is_reached` starts with is the source. -/
theorem eq_of_update_eq_true {v : Nat} (hv : update (fun _ => false) source true v = true) : v = source := by
  by_contra hvs
  simp [update_noteq hvs] at hv

/-- **`AugmentingPathExists()`** returns whether the sink is reachable from the
source through arcs of positive residual capacity. -/
theorem augmentingPathExists_iff (s : State) (hsource : source < g.numNodes) (sink : Nat) :
    augmentingPathExists g source sink s = true ↔ Reaches g s (fun _ => True) source sink := by
  have hinit : PathCore g s source ([source], update (fun _ => false) source true) :=
    ⟨by simp, fun v hv => by obtain rfl := List.mem_singleton.mp hv; simp, List.nodup_singleton _,
      fun v hv => eq_of_update_eq_true hv ▸ hsource, fun v hv => eq_of_update_eq_true hv ▸ ⟨0, .nil trivial⟩⟩
  have hfuel : [source].length + (unreached g (update (fun _ => false) source true)).card ≤
      g.numNodes := by
    have := card_unreached_update (r := fun _ => false) hsource rfl
    have hle : (unreached g fun _ => false).card ≤ g.numNodes := by
      simpa using Finset.card_filter_le (Finset.range g.numNodes) _
    simp only [List.length_singleton]
    omega
  obtain ⟨h, hc⟩ := augmentingPathLoop_closed g.numNodes hinit
    (fun u hu hnot _ => absurd (List.mem_singleton.mpr (eq_of_update_eq_true hu)) hnot) hfuel
  refine ⟨h.sound sink, fun ⟨k, p⟩ => ?_⟩
  unfold augmentingPathExists
  have : ∀ {u v k}, Walk g s (fun _ => True) u v k → augmentingPathLoop g s g.numNodes
      ([source], update (fun _ => false) source true) u = true →
      augmentingPathLoop g s g.numNodes ([source], update (fun _ => false) source true) v = true := by
    intro u v k p
    induction p with
    | nil _ => exact id
    | cons ha hr _ _ ih => exact fun hu => ih (hc _ hu (List.not_mem_nil _) (by simp) _ ha rfl hr)
  exact this p h.source_mark

/-- `AugmentingPathExists()` reads the residual capacities only. -/
theorem augmentingPathExists_congr {s' : State} (h : s'.residualArcCapacity = s.residualArcCapacity)
    (source sink : Nat) : augmentingPathExists g source sink s' = augmentingPathExists g source sink s := by
  have harc : augmentingPathArc g s' = augmentingPathArc g s := by
    funext b a; simp only [augmentingPathArc, h]
  have hloop : ∀ fuel b, augmentingPathLoop g s' fuel b = augmentingPathLoop g s fuel b := by
    intro fuel
    induction fuel with
    | zero => intro b; rfl
    | succ fuel ih => rintro ⟨_ | _, r⟩ <;> simp only [augmentingPathLoop, harc, ih]
  simp only [augmentingPathExists, hloop]

end Augmenting

end OrTools.MaxFlow

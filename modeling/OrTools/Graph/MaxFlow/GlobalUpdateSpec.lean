import OrTools.Graph.MaxFlow.Residual
import OrTools.Graph.MaxFlow.GlobalUpdate
import Mathlib.Data.List.GetD

/-!
# What `GlobalUpdate()` computes

The search of `GlobalUpdate()` modifies the residual graph while it runs: a
steal saturates or shrinks the arc `head → node` it pushes along and grows the
reverse arc.  Both only touch arcs whose tail is still unmarked, so the two
facts a breadth-first search relies on survive:

* every queued node keeps a residual walk to the sink, through queued nodes, as
  long as its height (`Bfs.Core.tree`);
* once a node is processed, every residual arc into it comes from a marked node
  at most one level higher (`Bfs.ClosedAt`).

At the end every node is processed, so the queued nodes are exactly those that
reach the sink without the source, at their distance.
-/

set_option autoImplicit false

namespace OrTools.MaxFlow

open Function

variable {g : Graph} {source sink : Nat}

namespace Bfs

/-- The node whose arcs the search is scanning: `bfs_queue_[queue_index - 1]`,
and the sink before the search starts. -/
def current (sink : Nat) (b : Bfs) : Nat := b.bfsQueue.getD (b.queueIndex - 1) sink

/-- Every residual arc into `w` comes from a marked node, at most one level
above `w` unless it is the source. -/
def ClosedAt (g : Graph) (source : Nat) (b : Bfs) (w : Nat) : Prop :=
  ∀ a, g.IsArcValid a → g.head a = w → 0 < b.state.residualArcCapacity a →
    b.nodeInBfsQueue (g.tail a) = true ∧
      (g.tail a ≠ source → b.state.nodePotential (g.tail a) ≤ b.state.nodePotential w + 1)

/-- An arc of the scanned node `y` has been dealt with: if its opposite arc is
residual, the head is marked and at most one level above `y`. -/
def Scanned (g : Graph) (source : Nat) (b : Bfs) (y : Nat) (arc : ArcIndex) : Prop :=
  g.IsArcValid arc → 0 < b.state.residualArcCapacity arc.opposite →
    b.nodeInBfsQueue (g.head arc) = true ∧
      (g.head arc ≠ source → b.state.nodePotential (g.head arc) ≤ b.state.nodePotential y + 1)

/-- The invariant of the search that does not mention processed nodes. -/
structure Core (g : Graph) (source sink : Nat) (b : Bfs) : Prop where
  head_eq : b.bfsQueue.head? = some sink
  nodup : b.bfsQueue.Nodup
  lt : ∀ v ∈ b.bfsQueue, v < g.numNodes
  mark : ∀ v, b.nodeInBfsQueue v = true ↔ v ∈ b.bfsQueue ∨ v = source
  source_not_mem : source ∉ b.bfsQueue
  index_le : b.queueIndex ≤ b.bfsQueue.length
  sorted : b.bfsQueue.Pairwise fun x y => b.state.nodePotential x ≤ b.state.nodePotential y
  sink_height : b.state.nodePotential sink = 0
  bound : ∀ v ∈ b.bfsQueue,
    b.state.nodePotential v ≤ b.state.nodePotential (b.current sink) + 1
  height_lt : ∀ v ∈ b.bfsQueue, b.state.nodePotential v < b.bfsQueue.length
  tree : ∀ v ∈ b.bfsQueue,
    Walk g b.state (· ∈ b.bfsQueue) v sink (b.state.nodePotential v)
  residual_nonneg : ∀ a, g.IsArcValid a → 0 ≤ b.state.residualArcCapacity a
  excess_nonneg : ∀ v, v ≠ source → 0 ≤ b.state.nodeExcess v

theorem Core.unmarked {b : Bfs} (h : Core g source sink b) {u : Nat}
    (hu : b.nodeInBfsQueue u = false) : u ∉ b.bfsQueue ∧ u ≠ source := by
  have := (h.mark u).not.mp (by simp [hu])
  exact ⟨fun h' => this (Or.inl h'), fun h' => this (Or.inr h')⟩

theorem Core.sink_mem {b : Bfs} (h : Core g source sink b) : sink ∈ b.bfsQueue :=
  List.mem_of_mem_head? h.head_eq

theorem Core.ne_nil {b : Bfs} (h : Core g source sink b) : b.bfsQueue ≠ [] := by
  intro h'; simpa [h'] using h.head_eq

theorem Core.current_mem {b : Bfs} (h : Core g source sink b) : b.current sink ∈ b.bfsQueue := by
  unfold current
  rcases Nat.lt_or_ge (b.queueIndex - 1) b.bfsQueue.length with hi | hi
  · rw [List.getD_eq_getElem _ _ hi]; exact List.getElem_mem hi
  · rw [List.getD_eq_default _ _ hi]; exact h.sink_mem

/-! ## The two moves of the search -/

/-- The steal of `GlobalUpdate()`: push `f` from the unmarked head of `arc` back
to the scanned node. -/
def steal (g : Graph) (f : Int) (arc : ArcIndex) (b : Bfs) : Bfs :=
  { b with state := b.state.pushFlow g f (g.head arc) arc.opposite }

theorem steal_residual_ge {b : Bfs} {f : Int} (hf : 0 ≤ f) {arc a : ArcIndex}
    (ha : g.tail a ≠ g.head arc) :
    b.state.residualArcCapacity a ≤ (b.steal g f arc).state.residualArcCapacity a :=
  State.pushFlow_residual_ge hf _ _ fun h => ha (by rw [h, Graph.tail_opposite])

theorem steal_residual_le {b : Bfs} {f : Int} (hf : 0 ≤ f) {arc a : ArcIndex}
    (ha : g.head a ≠ g.head arc) :
    (b.steal g f arc).state.residualArcCapacity a ≤ b.state.residualArcCapacity a :=
  State.pushFlow_residual_le hf _ _ fun h => ha (by rw [h, ArcIndex.opposite_opposite])

theorem Core.steal {b : Bfs} (h : Core g source sink b) {arc : ArcIndex} (harc : g.IsArcValid arc)
    (hy : g.tail arc ∈ b.bfsQueue) (hu : b.nodeInBfsQueue (g.head arc) = false) {f : Int}
    (hf : 0 ≤ f) (hfr : f ≤ b.state.residualArcCapacity arc.opposite)
    (hfe : f ≤ b.state.nodeExcess (g.head arc)) : Core g source sink (b.steal g f arc) := by
  have hu' := h.unmarked hu
  have hne : g.tail arc ≠ g.head arc := fun e => hu'.1 (e ▸ hy)
  refine { h with
    sorted := by simpa [Bfs.steal] using h.sorted
    sink_height := h.sink_height
    bound := by simpa [Bfs.steal, Bfs.current] using h.bound
    tree := fun v hv => ?_
    residual_nonneg := fun a ha => ?_
    excess_nonneg := fun v hv => ?_ }
  · simpa [Bfs.steal] using (h.tree v hv).mono (fun _ h => h) fun a _ ht hr =>
      lt_of_lt_of_le hr (steal_residual_ge hf fun e => hu'.1 (e ▸ ht))
  · show 0 ≤ (b.state.pushFlow g f (g.head arc) arc.opposite).residualArcCapacity a
    rw [State.pushFlow_residual, ArcIndex.opposite_opposite]
    have := h.residual_nonneg _ harc
    split_ifs
    · omega
    · omega
    · exact h.residual_nonneg a ha
  · show 0 ≤ (b.state.pushFlow g f (g.head arc) arc.opposite).nodeExcess v
    rw [State.pushFlow_excess, Graph.head_opposite]
    have := h.excess_nonneg v hv
    by_cases hvh : v = g.head arc
    · rw [if_pos hvh]; split_ifs <;> subst_vars <;> omega
    · rw [if_neg hvh]; split_ifs <;> omega

theorem ClosedAt.steal {b : Bfs} {w : Nat} (h : b.ClosedAt g source w) {f : Int} (hf : 0 ≤ f)
    {arc : ArcIndex} (hw : w ≠ g.head arc) : (b.steal g f arc).ClosedAt g source w := by
  intro a ha hhead hr
  have := h a ha hhead (lt_of_lt_of_le hr (steal_residual_le hf (hhead ▸ hw)))
  simpa [Bfs.steal] using this

theorem Scanned.steal {b : Bfs} {y : Nat} {a' : ArcIndex} (h : b.Scanned g source y a')
    (hy : g.tail a' = y) {f : Int} (hf : 0 ≤ f) {arc : ArcIndex} (hne : y ≠ g.head arc) :
    (b.steal g f arc).Scanned g source y a' := by
  intro ha hr
  have := h ha (lt_of_lt_of_le hr (steal_residual_le hf (by simpa [hy] using hne)))
  simpa [Bfs.steal] using this

theorem Core.enqueue {b : Bfs} (h : Core g source sink b) {a : ArcIndex} (ha : g.IsArcValid a)
    (hr : 0 < b.state.residualArcCapacity a) (hy : g.head a = b.current sink)
    (hu : b.nodeInBfsQueue (g.tail a) = false) :
    Core g source sink
      (b.enqueue (b.state.nodePotential (b.current sink) + 1) (g.tail a)) ∧
    (b.enqueue (b.state.nodePotential (b.current sink) + 1) (g.tail a)).current sink =
      b.current sink := by
  set u := g.tail a
  set y := b.current sink
  have hu' := h.unmarked hu
  have hyQ : y ∈ b.bfsQueue := h.current_mem
  have hcur : (b.enqueue (b.state.nodePotential y + 1) u).current sink = y := by
    simp only [current, enqueue_bfsQueue, enqueue_queueIndex]
    have : b.queueIndex - 1 < b.bfsQueue.length := by
      have := h.index_le; have := List.length_pos.mpr h.ne_nil; omega
    rw [List.getD_append _ _ _ _ this]
    rfl
  have hpot : ∀ v ∈ b.bfsQueue, update b.state.nodePotential u (b.state.nodePotential y + 1) v =
      b.state.nodePotential v := fun v hv => update_noteq (fun (e : v = u) => hu'.1 (e ▸ hv)) _ _
  refine ⟨⟨?_, ?_, ?_, ?_, ?_, ?_, ?_, ?_, ?_, ?_, ?_, h.residual_nonneg, h.excess_nonneg⟩, hcur⟩
  · simp [List.head?_append, h.head_eq]
  · exact List.nodup_append.mpr ⟨h.nodup, List.nodup_singleton u,
      List.disjoint_singleton.mpr hu'.1⟩
  · intro v hv
    rcases List.mem_append.mp hv with hv | hv
    · exact h.lt v hv
    · rw [List.mem_singleton.mp hv]; exact g.tail_lt ha
  · intro v
    by_cases hv : v = u
    · subst hv; simp
    · simp [update_noteq hv, h.mark v, hv]
  · simp only [enqueue_bfsQueue, List.mem_append, List.mem_singleton, not_or]
    exact ⟨h.source_not_mem, Ne.symm hu'.2⟩
  · simp only [enqueue_bfsQueue, enqueue_queueIndex, List.length_append,
      List.length_singleton]
    have := h.index_le; omega
  · simp only [enqueue_bfsQueue, enqueue_nodePotential]
    refine List.pairwise_append.mpr ⟨?_, List.pairwise_singleton _ _, ?_⟩
    · refine List.Pairwise.imp_of_mem ?_ h.sorted
      intro x z hx hz hxz
      rwa [hpot x hx, hpot z hz]
    · intro x hx z hz
      rw [List.mem_singleton.mp hz, hpot x hx, update_same]
      exact h.bound x hx
  · simpa [hpot sink h.sink_mem] using h.sink_height
  · intro v hv
    rw [hcur]
    simp only [enqueue_bfsQueue, enqueue_nodePotential] at hv ⊢
    rw [hpot y hyQ]
    rcases List.mem_append.mp hv with hv | hv
    · rw [hpot v hv]; exact h.bound v hv
    · rw [List.mem_singleton.mp hv, update_same]
  · intro v hv
    have := h.height_lt y hyQ
    simp only [enqueue_bfsQueue, enqueue_nodePotential, List.length_append,
      List.length_singleton] at hv ⊢
    rcases List.mem_append.mp hv with hv | hv
    · rw [hpot v hv]; exact Nat.lt_succ_of_lt (h.height_lt v hv)
    · rw [List.mem_singleton.mp hv, update_same]; omega
  · intro v hv
    simp only [enqueue_bfsQueue, enqueue_nodePotential] at hv ⊢
    have hmono : ∀ {x k : Nat}, Walk g b.state (· ∈ b.bfsQueue) x sink k →
        Walk g (b.enqueue (b.state.nodePotential y + 1) u).state
          (· ∈ b.bfsQueue ++ [u]) x sink k :=
      fun w => by
        refine Walk.mono ?_ ?_ w
        · exact fun x hx => List.mem_append_left _ hx
        · exact fun _ _ _ hr => hr
    rcases List.mem_append.mp hv with hv | hv
    · rw [hpot v hv]; exact hmono (h.tree v hv)
    · rw [List.mem_singleton.mp hv, update_same]
      exact Walk.cons ha hr (List.mem_append_right _ (List.mem_singleton_self u))
        ((hmono (h.tree y hyQ)).of_eq_start hy)

theorem ClosedAt.enqueue {b : Bfs} {w d u : Nat} (h : b.ClosedAt g source w)
    (hu : b.nodeInBfsQueue u = false) (hw : w ≠ u) :
    (b.enqueue d u).ClosedAt g source w := by
  intro a ha hhead hr
  obtain ⟨hm, hle⟩ := h a ha hhead hr
  have htu : g.tail a ≠ u := fun e => by rw [e] at hm; simp [hm] at hu
  refine ⟨by simp [update_noteq htu, hm], fun hs => ?_⟩
  simpa [update_noteq htu, update_noteq hw] using hle hs

theorem Scanned.enqueue {b : Bfs} {y d u : Nat} {a' : ArcIndex} (h : b.Scanned g source y a')
    (hu : b.nodeInBfsQueue u = false) (hy : y ≠ u) :
    (b.enqueue d u).Scanned g source y a' := by
  intro ha hr
  obtain ⟨hm, hle⟩ := h ha hr
  have htu : g.head a' ≠ u := fun e => by rw [e] at hm; simp [hm] at hu
  refine ⟨by simp [update_noteq htu, hm], fun hs => ?_⟩
  simpa [update_noteq htu, update_noteq hy] using hle hs

/-! ## What the search keeps -/

/-- What the search keeps from the state `s` it starts from: it only moves flow
(`Moves`), and leaves the height of the source and the active-node queue. -/
structure Frame (g : Graph) (source : Nat) (s t : State) : Prop where
  moves : Moves g s t
  source_height : t.nodePotential source = s.nodePotential source
  active : t.activeNodeByHeight = s.activeNodeByHeight

variable {s : State} {b : Bfs}

theorem Frame.steal (h : Frame g source s b.state) (f : Int) {arc : ArcIndex}
    (harc : g.IsArcValid arc) : Frame g source s (b.steal g f arc).state where
  moves := h.moves.trans (by
    have := Moves.pushFlow (s := b.state) f ((g.isArcValid_opposite arc).mpr harc)
    rwa [g.tail_opposite] at this)
  source_height := h.source_height
  active := h.active

theorem Frame.enqueue (h : Frame g source s b.state) {d u : Nat} (hu : u ≠ source) :
    Frame g source s (b.enqueue d u).state where
  moves := h.moves.trans (Moves.of_eq rfl rfl)
  source_height := by simpa [update_noteq hu.symm] using h.source_height
  active := h.active

/-- The invariant at the head of the search loop: every node before
`queue_index` is processed. -/
structure Inv (g : Graph) (source sink : Nat) (s : State) (b : Bfs) : Prop where
  core : Core g source sink b
  frame : Frame g source s b.state
  closed : ∀ j < b.queueIndex, b.ClosedAt g source (b.bfsQueue.getD j sink)

/-! ## The arc loop -/

/-- The invariant of the arc loop of the scanned node `y = bfs_queue_[i]`:
`done` holds the arcs already dealt with, `d` is `candidate_distance`. -/
structure FoldInv (g : Graph) (source sink : Nat) (s : State) (y i d : Nat)
    (done : List ArcIndex) (b : Bfs) : Prop where
  core : Core g source sink b
  frame : Frame g source s b.state
  current_eq : b.current sink = y
  index_eq : b.queueIndex = i + 1
  d_eq : d = b.state.nodePotential y + 1
  closed : ∀ j < i, b.ClosedAt g source (b.bfsQueue.getD j sink)
  scanned : ∀ a ∈ done, g.tail a = y ∧ b.Scanned g source y a

variable {y i d : Nat} {done : List ArcIndex}

theorem FoldInv.y_mem (h : FoldInv g source sink s y i d done b) : y ∈ b.bfsQueue :=
  h.current_eq ▸ h.core.current_mem

theorem FoldInv.lt_length (h : FoldInv g source sink s y i d done b) {j : Nat} (hj : j < i) :
    j < b.bfsQueue.length := by
  have := h.core.index_le; rw [h.index_eq] at this; omega

theorem FoldInv.getD_mem (h : FoldInv g source sink s y i d done b) {j : Nat} (hj : j < i) :
    b.bfsQueue.getD j sink ∈ b.bfsQueue := by
  rw [List.getD_eq_getElem _ _ (h.lt_length hj)]; exact List.getElem_mem _

/-- An arc dealt with without changing the search. -/
theorem FoldInv.cons (h : FoldInv g source sink s y i d done b) {arc : ArcIndex}
    (hy : g.tail arc = y) (hs : b.Scanned g source y arc) :
    FoldInv g source sink s y i d (arc :: done) b := by
  refine { h with scanned := ?_ }
  simp only [List.mem_cons]
  rintro a (rfl | ha)
  exacts [⟨hy, hs⟩, h.scanned a ha]

theorem FoldInv.steal (h : FoldInv g source sink s y i d done b) {arc : ArcIndex}
    (harc : g.IsArcValid arc) (hy : g.tail arc = y) (hu : b.nodeInBfsQueue (g.head arc) = false)
    {f : Int} (hf : 0 ≤ f) (hfr : f ≤ b.state.residualArcCapacity arc.opposite)
    (hfe : f ≤ b.state.nodeExcess (g.head arc)) :
    FoldInv g source sink s y i d done (b.steal g f arc) := by
  have hu' := h.core.unmarked hu
  have hyu : y ≠ g.head arc := fun e => hu'.1 (e ▸ h.y_mem)
  exact ⟨h.core.steal harc (hy ▸ h.y_mem) hu hf hfr hfe, h.frame.steal f harc, h.current_eq,
    h.index_eq, h.d_eq, fun j hj => (h.closed j hj).steal hf fun e => hu'.1 (e ▸ h.getD_mem hj),
    fun a ha => ⟨(h.scanned a ha).1, (h.scanned a ha).2.steal (h.scanned a ha).1 hf hyu⟩⟩

theorem FoldInv.enqueue (h : FoldInv g source sink s y i d done b) {arc : ArcIndex}
    (harc : g.IsArcValid arc) (hy : g.tail arc = y) (hu : b.nodeInBfsQueue (g.head arc) = false)
    (hr : 0 < b.state.residualArcCapacity arc.opposite) :
    FoldInv g source sink s y i d (arc :: done) (b.enqueue d (g.head arc)) := by
  have hu' := h.core.unmarked hu
  have hyu : y ≠ g.head arc := fun e => hu'.1 (e ▸ h.y_mem)
  have hd : d = b.state.nodePotential (b.current sink) + 1 := h.current_eq ▸ h.d_eq
  obtain ⟨hcore, hcur⟩ := h.core.enqueue ((g.isArcValid_opposite arc).mpr harc) hr
    (by rw [g.head_opposite, hy, h.current_eq]) (by rwa [g.tail_opposite])
  rw [g.tail_opposite, ← hd] at hcore hcur
  refine ⟨hcore, h.frame.enqueue hu'.2, hcur.trans h.current_eq, h.index_eq,
    by simp [update_noteq hyu, h.d_eq], fun j hj => ?_, ?_⟩
  · rw [enqueue_bfsQueue, List.getD_append _ _ _ _ (h.lt_length hj)]
    exact (h.closed j hj).enqueue hu fun e => hu'.1 (e ▸ h.getD_mem hj)
  · simp only [List.mem_cons]
    rintro a (rfl | ha)
    · exact ⟨hy, fun _ _ => ⟨by simp, fun _ => by simp [update_noteq hyu, h.d_eq]⟩⟩
    · exact ⟨(h.scanned a ha).1, (h.scanned a ha).2.enqueue hu hyu⟩

/-- One turn of the arc loop of `GlobalUpdate()`, in each of its five outcomes. -/
theorem FoldInv.arc (h : FoldInv g source sink s y i d done b) {arc : ArcIndex}
    (harc : g.IsArcValid arc) (hy : g.tail arc = y) :
    FoldInv g source sink s y i d (arc :: done) (globalUpdateArc g d b arc) := by
  dsimp only [globalUpdateArc]
  split_ifs with hm hr he hsat
  · -- the head is already reached
    refine h.cons hy fun _ _ => ⟨hm, fun hs => ?_⟩
    rw [← h.current_eq]
    exact h.core.bound _ (((h.core.mark _).mp hm).resolve_right hs)
  · -- the steal saturates the arc: the head is not reached from here
    have hu : b.nodeInBfsQueue (g.head arc) = false := by simpa using hm
    exact (h.steal harc hy hu (le_min he.le hr.le) (min_le_right _ _) (min_le_left _ _)).cons hy
      fun _ hr' => absurd hsat hr'.ne'
  · -- the steal leaves the arc residual
    have hu : b.nodeInBfsQueue (g.head arc) = false := by simpa using hm
    have h' := h.steal harc hy hu (le_min he.le hr.le) (min_le_right _ _) (min_le_left _ _)
    exact h'.enqueue harc hy hu (lt_of_le_of_ne (h'.core.residual_nonneg _
      ((g.isArcValid_opposite arc).mpr harc)) (Ne.symm hsat))
  · -- nothing to steal
    exact h.enqueue harc hy (by simpa using hm) hr
  · -- the opposite arc is not residual
    exact h.cons hy fun _ hr' => absurd hr' hr

theorem FoldInv.foldl (h : FoldInv g source sink s y i d done b) {arcs : List ArcIndex}
    (harcs : ∀ a ∈ arcs, g.IsArcValid a ∧ g.tail a = y) :
    FoldInv g source sink s y i d (arcs.reverse ++ done) (arcs.foldl (globalUpdateArc g d) b) := by
  induction arcs generalizing done b with
  | nil => exact h
  | cons a arcs ih =>
    have ha := harcs a (List.mem_cons_self a arcs)
    simpa using ih (h.arc ha.1 ha.2) fun a' h' => harcs a' (List.mem_cons_of_mem a h')

/-- Once every arc of `y` is dealt with, `y` is processed. -/
theorem FoldInv.toInv (h : FoldInv g source sink s y i d (g.outgoingOrOppositeIncomingArcs y).reverse b) :
    Inv g source sink s b := by
  refine ⟨h.core, h.frame, fun j hj => ?_⟩
  rcases Nat.lt_or_ge j i with hj' | hj'
  · exact h.closed j hj'
  have hyj : b.bfsQueue.getD j sink = y := by
    rw [← h.current_eq, current, h.index_eq]; congr 1; rw [h.index_eq] at hj; omega
  rw [hyj]
  intro a ha hhead hr
  have hmem : a.opposite ∈ (g.outgoingOrOppositeIncomingArcs y).reverse := by
    simpa [g.mem_adjacent_iff y, hhead] using ha
  simpa using (h.scanned _ hmem).2 ((g.isArcValid_opposite a).mpr ha) (by simpa using hr)

/-! ## The search loop -/

theorem Core.height_getD_le (h : Core g source sink b) {j k : Nat} (hjk : j ≤ k)
    (hk : k < b.bfsQueue.length) :
    b.state.nodePotential (b.bfsQueue.getD j sink) ≤
      b.state.nodePotential (b.bfsQueue.getD k sink) := by
  rw [List.getD_eq_getElem _ _ (by omega), List.getD_eq_getElem _ _ hk]
  rcases hjk.lt_or_eq with hlt | rfl
  · exact List.pairwise_iff_getElem.mp h.sorted j k (by omega) hk hlt
  · exact le_refl _

theorem Core.length_le (h : Core g source sink b) : b.bfsQueue.length ≤ g.numNodes := by
  simpa using (h.nodup.subperm fun v hv => List.mem_range.mpr (h.lt v hv)).length_le

/-- One turn of the search loop: the node at `queue_index` gets processed. -/
theorem Inv.body (h : Inv g source sink s b) (hi : b.queueIndex < b.bfsQueue.length) :
    FoldInv g source sink s (b.bfsQueue.getD b.queueIndex 0) b.queueIndex
      (b.state.nodePotential (b.bfsQueue.getD b.queueIndex 0) + 1)
      (g.outgoingOrOppositeIncomingArcs (b.bfsQueue.getD b.queueIndex 0)).reverse
      ((g.outgoingOrOppositeIncomingArcs (b.bfsQueue.getD b.queueIndex 0)).foldl
        (globalUpdateArc g (b.state.nodePotential (b.bfsQueue.getD b.queueIndex 0) + 1))
        { b with queueIndex := b.queueIndex + 1 }) := by
  have hy : b.bfsQueue.getD b.queueIndex 0 = b.bfsQueue.getD b.queueIndex sink := by
    rw [List.getD_eq_getElem _ _ hi, List.getD_eq_getElem _ _ hi]
  have hyQ : b.bfsQueue.getD b.queueIndex 0 ∈ b.bfsQueue := by
    rw [List.getD_eq_getElem _ _ hi]; exact List.getElem_mem hi
  have hcur : b.state.nodePotential (b.current sink) ≤
      b.state.nodePotential (b.bfsQueue.getD b.queueIndex sink) :=
    h.core.height_getD_le (Nat.sub_le _ _) hi
  have h0 : FoldInv g source sink s (b.bfsQueue.getD b.queueIndex 0) b.queueIndex
      (b.state.nodePotential (b.bfsQueue.getD b.queueIndex 0) + 1) []
      { b with queueIndex := b.queueIndex + 1 } :=
    ⟨{ h.core with
        index_le := hi
        bound := fun v hv => by
          simp only [current, Nat.add_sub_cancel]
          exact (h.core.bound v hv).trans (Nat.add_le_add_right hcur 1) },
      h.frame, by rw [current, Nat.add_sub_cancel, hy], rfl, rfl, h.closed, by simp⟩
  have := h0.foldl fun a ha => (g.mem_adjacent_iff _ a).mp ha
  rwa [List.append_nil] at this

theorem Inv.loop (h : Inv g source sink s b) (fuel : Nat) :
    Inv g source sink s (globalUpdateLoop g fuel b) := by
  induction fuel generalizing b with
  | zero => exact h
  | succ fuel ih =>
    rw [globalUpdateLoop]
    split_ifs with hdone
    · exact h
    · have hi := lt_of_le_of_ne h.core.index_le hdone
      exact ih (h.body hi).toInv

/-- The `num_nodes` iterations given to the search loop are enough: every queued
node is a distinct node, so the queue never outgrows them. -/
theorem Inv.loop_done (h : Inv g source sink s b) (fuel : Nat)
    (hfuel : g.numNodes ≤ fuel + b.queueIndex) :
    (globalUpdateLoop g fuel b).queueIndex = (globalUpdateLoop g fuel b).bfsQueue.length := by
  induction fuel generalizing b with
  | zero =>
    have := h.core.index_le; have := h.core.length_le
    rw [globalUpdateLoop]; omega
  | succ fuel ih =>
    rw [globalUpdateLoop]
    split_ifs with hdone
    · exact hdone
    · have hi := lt_of_le_of_ne h.core.index_le hdone
      have hb := h.body hi
      exact ih hb.toInv (by rw [hb.index_eq]; omega)

/-- The state the search starts from: the sink queued, the sink and the source
marked. -/
theorem Inv.init (hsink : sink < g.numNodes) (hne : source ≠ sink)
    (hres : ∀ a, g.IsArcValid a → 0 ≤ s.residualArcCapacity a)
    (hex : ∀ v, v ≠ source → 0 ≤ s.nodeExcess v) (hpot : s.nodePotential sink = 0) :
    Inv g source sink s ⟨s, [sink], 0, update (update (fun _ => false) sink true) source true⟩ := by
  refine ⟨⟨rfl, List.nodup_singleton _, by simpa using hsink, fun v => ?_, by simpa using hne,
    by simp, List.pairwise_singleton _ _, hpot, by simp [current], by simp [hpot], ?_, hres, hex⟩,
    ⟨.refl _, rfl, rfl⟩, by simp⟩
  · by_cases hv : v = source
    · subst hv; simp
    · simp [update_noteq hv, update_apply, hv]
  · simp only [List.mem_singleton, forall_eq, hpot]
    exact .nil rfl

/-- At the end of the search every queued node is processed. -/
theorem Inv.closedAt_of_mem (h : Inv g source sink s b)
    (hdone : b.queueIndex = b.bfsQueue.length) {w : Nat} (hw : w ∈ b.bfsQueue) :
    b.ClosedAt g source w := by
  obtain ⟨j, hj, rfl⟩ := List.getElem_of_mem hw
  have := h.closed j (hdone ▸ hj)
  rwa [List.getD_eq_getElem _ _ hj] at this

/-- At the end of the search, a residual arc into a queued node comes from a
queued node or from the source. -/
theorem Inv.tail_mem (h : Inv g source sink s b) (hdone : b.queueIndex = b.bfsQueue.length)
    {a : ArcIndex} (ha : g.IsArcValid a) (hr : 0 < b.state.residualArcCapacity a)
    (ht : g.tail a ≠ source) (hh : g.head a ∈ b.bfsQueue) : g.tail a ∈ b.bfsQueue :=
  ((h.core.mark _).mp ((h.closedAt_of_mem hdone hh) a ha rfl hr).1).resolve_right ht

end Bfs

/-! ## The search from the sink -/

section Search

variable {s : State} (hsink : sink < g.numNodes) (hne : source ≠ sink)
  (hres : ∀ a, g.IsArcValid a → 0 ≤ s.residualArcCapacity a)
  (hex : ∀ v, v ≠ source → 0 ≤ s.nodeExcess v) (hpot : s.nodePotential sink = 0)
include hsink hne hres hex hpot

theorem globalUpdateSearch_inv : Bfs.Inv g source sink s (globalUpdateSearch g source sink s) :=
  (Bfs.Inv.init hsink hne hres hex hpot).loop _

theorem globalUpdateSearch_done :
    (globalUpdateSearch g source sink s).queueIndex =
      (globalUpdateSearch g source sink s).bfsQueue.length :=
  (Bfs.Inv.init hsink hne hres hex hpot).loop_done _ (by simp)

/-- The search queues exactly the nodes that reach the sink through residual
arcs avoiding the source. -/
theorem mem_globalUpdateSearch_iff {v : Nat} :
    v ∈ (globalUpdateSearch g source sink s).bfsQueue ↔
      Reaches g (globalUpdateSearch g source sink s).state (· ≠ source) v sink := by
  have h := globalUpdateSearch_inv hsink hne hres hex hpot
  have hdone := globalUpdateSearch_done hsink hne hres hex hpot
  set b := globalUpdateSearch g source sink s
  have hsrc : ∀ x ∈ b.bfsQueue, x ≠ source := fun x hx e => h.core.source_not_mem (e ▸ hx)
  refine ⟨fun hvQ => ⟨_, (h.core.tree v hvQ).mono hsrc fun _ _ _ hr => hr⟩, fun ⟨k, p⟩ => ?_⟩
  exact (p.restrict (R := (· ∈ b.bfsQueue)) (fun _ ha hr ht hh => h.tail_mem hdone ha hr ht hh)
    h.core.sink_mem).ok_start.2

/-- A queued node's height is the length of a shortest residual walk to the sink
avoiding the source. -/
theorem isLeast_globalUpdateSearch {v : Nat} (hv : v ∈ (globalUpdateSearch g source sink s).bfsQueue) :
    IsLeast {k | Walk g (globalUpdateSearch g source sink s).state (· ≠ source) v sink k}
      ((globalUpdateSearch g source sink s).state.nodePotential v) := by
  have h := globalUpdateSearch_inv hsink hne hres hex hpot
  have hdone := globalUpdateSearch_done hsink hne hres hex hpot
  set b := globalUpdateSearch g source sink s
  have hsrc : ∀ x ∈ b.bfsQueue, x ≠ source := fun x hx e => h.core.source_not_mem (e ▸ hx)
  refine ⟨(h.core.tree v hv).mono hsrc fun _ _ _ hr => hr, fun k p => ?_⟩
  have hlab : LabelingOn g b.state (fun x => x ≠ source ∧ x ∈ b.bfsQueue) :=
    fun a ha hr ht hh => ((h.closedAt_of_mem hdone hh.2) a ha rfl hr).2 ht.1
  have := (p.restrict (fun _ ha hr ht hh => h.tail_mem hdone ha hr ht hh)
    h.core.sink_mem).height_le hlab
  rw [h.core.sink_height] at this
  omega

end Search

/-! ## `GlobalUpdate()` -/

/-- The last loop of `GlobalUpdate()` only fills the queue, in list order. -/
theorem foldl_pushActiveNode (L : List Nat) (t : State) :
    L.foldl (fun s node => if 0 < s.nodeExcess node then s.pushActiveNode node else s) t =
      { t with
        activeNodeByHeight := (L.filter fun v => 0 < t.nodeExcess v).foldl
          (fun q v => q.push v (t.nodePotential v)) t.activeNodeByHeight } := by
  induction L generalizing t with
  | nil => rfl
  | cons v L ih =>
    rw [List.foldl_cons, ih]
    by_cases hv : 0 < t.nodeExcess v <;> simp [hv, List.filter_cons, State.pushActiveNode]

/-- `GlobalUpdate()` is the search followed by the relabelling of the unreached
nodes and the queueing of the reached ones with positive excess. -/
theorem globalUpdate_eq (s : State) : globalUpdate g source sink s =
    let b := globalUpdateSearch g source sink s
    let pot := fun v => if v < g.numNodes ∧ b.nodeInBfsQueue v = false then 2 * g.numNodes - 1
      else b.state.nodePotential v
    { b.state with
      nodePotential := pot
      activeNodeByHeight := ((b.bfsQueue.drop 1).filter fun v => 0 < b.state.nodeExcess v).foldl
        (fun q v => q.push v (pot v)) b.state.activeNodeByHeight } :=
  foldl_pushActiveNode _ _

section Fields

variable (g source sink) (s : State)

theorem globalUpdate_residual : (globalUpdate g source sink s).residualArcCapacity =
    (globalUpdateSearch g source sink s).state.residualArcCapacity := by
  rw [globalUpdate_eq]

theorem globalUpdate_nodeExcess : (globalUpdate g source sink s).nodeExcess =
    (globalUpdateSearch g source sink s).state.nodeExcess := by
  rw [globalUpdate_eq]

theorem globalUpdate_nodePotential (v : Nat) : (globalUpdate g source sink s).nodePotential v =
    if v < g.numNodes ∧ (globalUpdateSearch g source sink s).nodeInBfsQueue v = false then
      2 * g.numNodes - 1
    else (globalUpdateSearch g source sink s).state.nodePotential v := by
  rw [globalUpdate_eq]

theorem globalUpdate_activeNodeByHeight : (globalUpdate g source sink s).activeNodeByHeight =
    (((globalUpdateSearch g source sink s).bfsQueue.drop 1).filter
      fun v => 0 < (globalUpdateSearch g source sink s).state.nodeExcess v).foldl
      (fun q v => q.push v ((globalUpdate g source sink s).nodePotential v))
      (globalUpdateSearch g source sink s).state.activeNodeByHeight := by
  rw [globalUpdate_eq]

end Fields

/-- **`GlobalUpdate()` computes exact distances.**  From a preflow with the sink
at height 0 and no active node queued: a node reaching the sink through residual
arcs that avoid the source gets the length of a shortest such walk as height;
every other node but the source gets `2 * num_nodes - 1`; the source keeps its
height; stealing changes neither the total excess nor any pair sum; and the
queue receives exactly the reached nodes with positive excess, by nondecreasing
height. -/
theorem globalUpdate_correct {s : State} (hsink : sink < g.numNodes) (hne : source ≠ sink)
    (hres : ∀ a, g.IsArcValid a → 0 ≤ s.residualArcCapacity a)
    (hex : ∀ v, v ≠ source → 0 ≤ s.nodeExcess v) (hpot : s.nodePotential sink = 0)
    (hq : s.activeNodeByHeight = .empty) :
    (∀ v, Reaches g (globalUpdate g source sink s) (· ≠ source) v sink →
      IsLeast {k | Walk g (globalUpdate g source sink s) (· ≠ source) v sink k}
        ((globalUpdate g source sink s).nodePotential v)) ∧
    (∀ v < g.numNodes, v ≠ source →
      ¬ Reaches g (globalUpdate g source sink s) (· ≠ source) v sink →
      (globalUpdate g source sink s).nodePotential v = 2 * g.numNodes - 1) ∧
    (globalUpdate g source sink s).nodePotential source = s.nodePotential source ∧
    ∑ v ∈ Finset.range g.numNodes, (globalUpdate g source sink s).nodeExcess v =
      ∑ v ∈ Finset.range g.numNodes, s.nodeExcess v ∧
    (∀ a, (globalUpdate g source sink s).residualArcCapacity a +
        (globalUpdate g source sink s).residualArcCapacity a.opposite =
      s.residualArcCapacity a + s.residualArcCapacity a.opposite) ∧
    ∃ L : List Nat, L.Nodup ∧
      L.Sorted (fun u v => (globalUpdate g source sink s).nodePotential u ≤
        (globalUpdate g source sink s).nodePotential v) ∧
      (∀ v, v ∈ L ↔ v ≠ sink ∧ Reaches g (globalUpdate g source sink s) (· ≠ source) v sink ∧
        0 < (globalUpdate g source sink s).nodeExcess v) ∧
      (globalUpdate g source sink s).activeNodeByHeight =
        L.foldl (fun q v => q.push v ((globalUpdate g source sink s).nodePotential v)) .empty := by
  have h := globalUpdateSearch_inv hsink hne hres hex hpot
  have hmem := fun v => mem_globalUpdateSearch_iff (v := v) hsink hne hres hex hpot
  have hleast := fun v => isLeast_globalUpdateSearch (v := v) hsink hne hres hex hpot
  have hW : ∀ v k, Walk g (globalUpdate g source sink s) (· ≠ source) v sink k ↔
      Walk g (globalUpdateSearch g source sink s).state (· ≠ source) v sink k :=
    fun _ _ => Walk.congr_residual (globalUpdate_residual g source sink s)
  have hres' := globalUpdate_residual g source sink s
  have hex' := globalUpdate_nodeExcess g source sink s
  have hpot' := globalUpdate_nodePotential g source sink s
  have hact' := globalUpdate_activeNodeByHeight g source sink s
  generalize globalUpdate g source sink s = t at *
  generalize globalUpdateSearch g source sink s = b at *
  have hR : ∀ v, Reaches g t (· ≠ source) v sink ↔ v ∈ b.bfsQueue :=
    fun v => (exists_congr (hW v)).trans (hmem v).symm
  have hkeep : ∀ v, v ∈ b.bfsQueue ∨ v = source → t.nodePotential v = b.state.nodePotential v :=
    fun v hv => by simp [hpot', (h.core.mark v).mpr hv]
  obtain ⟨rest, hQ⟩ : ∃ rest, b.bfsQueue = sink :: rest := by
    have := h.core.head_eq
    cases hb : b.bfsQueue with
    | nil => simp [hb] at this
    | cons x rest => simp only [hb, List.head?_cons, Option.some.injEq] at this; exact ⟨rest, by rw [this]⟩
  have hdrop : ∀ v, v ∈ b.bfsQueue.drop 1 ↔ v ≠ sink ∧ v ∈ b.bfsQueue := fun v => by
    have := h.core.nodup; rw [hQ] at this ⊢
    constructor
    · intro hv; exact ⟨fun e => (List.nodup_cons.mp this).1 (e ▸ hv), List.mem_cons_of_mem _ hv⟩
    · rintro ⟨hv, hv'⟩; exact (List.mem_cons.mp hv').resolve_left hv
  have hsub : ∀ v ∈ (b.bfsQueue.drop 1).filter (fun v => 0 < b.state.nodeExcess v),
      v ∈ b.bfsQueue := fun v hv => List.mem_of_mem_drop (List.mem_of_mem_filter hv)
  refine ⟨fun v hv => ?_, fun v hv hvs hnR => ?_, (hkeep _ (.inr rfl)).trans h.frame.source_height,
    hex' ▸ h.frame.moves.totalExcess, hres' ▸ h.frame.moves.pairSum,
    (b.bfsQueue.drop 1).filter fun v => 0 < b.state.nodeExcess v,
    (h.core.nodup.sublist (List.drop_sublist 1 _)).filter _, ?_, fun v => ?_, ?_⟩
  · have hvQ := (hR v).mp hv
    rw [hkeep v (.inl hvQ)]
    simpa [hW] using hleast v hvQ
  · have : b.nodeInBfsQueue v = false := Bool.eq_false_iff.mpr fun hm =>
      hnR ((hR v).mpr (((h.core.mark v).mp hm).resolve_right hvs))
    simp [hpot', hv, this]
  · refine ((h.core.sorted.sublist (List.drop_sublist 1 _)).sublist
      (List.filter_sublist _)).imp_of_mem fun hx hy hxy => ?_
    rwa [hkeep _ (.inl (hsub _ hx)), hkeep _ (.inl (hsub _ hy))]
  · rw [List.mem_filter, hdrop, hR, hex', decide_eq_true_iff, and_assoc]
  · rw [hact', h.frame.active, hq]

/-- The hypotheses of `globalUpdate_correct` hold on the path `0 → 1 → 2 → 3`
with capacities 5, 3 and 5, source 0 and sink 3, after `InitializePreflow()` and
the push of `SaturateOutgoingArcsFromSource()` along the source's arc.  There the
search reaches node 2, steals 3 of node 1's excess of 5 through the arc `1 → 2`,
which leaves node 1 cut off from the sink at height `2 * num_nodes - 1`. -/
theorem globalUpdate_correct_on_path :
    let g : Graph := Graph.ofArcs 4 [(0, 1), (1, 2), (2, 3)] (by decide)
    let s := (State.initializePreflow g 0
      { (List.range 3).foldl (fun s i => s.setArcCapacity g (.direct i) ([5, 3, 5].getD i 0))
          State.init with status := .notSolved }).pushFlow g 5 0 (.direct 0)
    3 < g.numNodes ∧ (0 : Nat) ≠ 3 ∧ (∀ a, g.IsArcValid a → 0 ≤ s.residualArcCapacity a) ∧
      (∀ v, v ≠ 0 → 0 ≤ s.nodeExcess v) ∧ s.nodePotential 3 = 0 ∧ s.activeNodeByHeight = .empty ∧
      ((∀ v, Reaches g (globalUpdate g 0 3 s) (· ≠ 0) v 3 →
          IsLeast {k | Walk g (globalUpdate g 0 3 s) (· ≠ 0) v 3 k} ((globalUpdate g 0 3 s).nodePotential v)) ∧
        (∀ v < g.numNodes, v ≠ 0 → ¬ Reaches g (globalUpdate g 0 3 s) (· ≠ 0) v 3 →
          (globalUpdate g 0 3 s).nodePotential v = 2 * g.numNodes - 1) ∧
        (globalUpdate g 0 3 s).nodePotential 0 = s.nodePotential 0 ∧
        ∑ v ∈ Finset.range g.numNodes, (globalUpdate g 0 3 s).nodeExcess v =
          ∑ v ∈ Finset.range g.numNodes, s.nodeExcess v ∧
        (∀ a, (globalUpdate g 0 3 s).residualArcCapacity a +
            (globalUpdate g 0 3 s).residualArcCapacity a.opposite =
          s.residualArcCapacity a + s.residualArcCapacity a.opposite) ∧
        ∃ L : List Nat, L.Nodup ∧
          L.Sorted (fun u v => (globalUpdate g 0 3 s).nodePotential u ≤ (globalUpdate g 0 3 s).nodePotential v) ∧
          (∀ v, v ∈ L ↔ v ≠ 3 ∧ Reaches g (globalUpdate g 0 3 s) (· ≠ 0) v 3 ∧
            0 < (globalUpdate g 0 3 s).nodeExcess v) ∧
          (globalUpdate g 0 3 s).activeNodeByHeight =
            L.foldl (fun q v => q.push v ((globalUpdate g 0 3 s).nodePotential v)) .empty) := by
  intro g s
  have hres : ∀ a, g.IsArcValid a → 0 ≤ s.residualArcCapacity a := by
    have h : ∀ i < 3, 0 ≤ s.residualArcCapacity (.direct i) ∧ 0 ≤ s.residualArcCapacity (.reverse i) := by
      decide
    rintro (i | i) hi
    exacts [(h i hi).1, (h i hi).2]
  have hex : ∀ v, v ≠ 0 → 0 ≤ s.nodeExcess v := fun v _ => by
    simp only [s, State.pushFlow, State.initializePreflow_eq, Function.update_apply]
    split_ifs <;> decide
  have hpot : s.nodePotential 3 = 0 := rfl
  have hq : s.activeNodeByHeight = .empty := rfl
  exact ⟨by decide, by decide, hres, hex, hpot, hq,
    globalUpdate_correct (by decide) (by decide) hres hex hpot hq⟩

/-- After `GlobalUpdate()` every node has height at most `2 * num_nodes - 1`,
and the state satisfies the invariant of the first phase. -/
theorem globalUpdate_labeled {s : State} (hsink : sink < g.numNodes) (hne : source ≠ sink)
    (hres : ∀ a, g.IsArcValid a → 0 ≤ s.residualArcCapacity a)
    (hex : ∀ v, v ≠ source → 0 ≤ s.nodeExcess v) (hcons : s.Conserves g)
    (hsrc : s.nodePotential source = g.numNodes) (hpot : s.nodePotential sink = 0) :
    (∀ v < g.numNodes, (globalUpdate g source sink s).nodePotential v ≤ 2 * g.numNodes - 1) ∧
      Labeled g source sink (globalUpdate g source sink s) := by
  have h := globalUpdateSearch_inv hsink hne hres hex hpot
  have hdone := globalUpdateSearch_done hsink hne hres hex hpot
  have hres' := globalUpdate_residual g source sink s
  have hex' := globalUpdate_nodeExcess g source sink s
  have hpot' := globalUpdate_nodePotential g source sink s
  generalize globalUpdate g source sink s = t at *
  generalize globalUpdateSearch g source sink s = b at *
  have hkeep : ∀ v, v ∈ b.bfsQueue ∨ v = source → t.nodePotential v = b.state.nodePotential v :=
    fun v hv => by simp [hpot', (h.core.mark v).mpr hv]
  have hfar : ∀ v < g.numNodes, v ∉ b.bfsQueue → v ≠ source →
      t.nodePotential v = 2 * g.numNodes - 1 := fun v hv hvQ hvs => by
    have : b.nodeInBfsQueue v = false :=
      Bool.eq_false_iff.mpr fun hm => hvQ (((h.core.mark v).mp hm).resolve_right hvs)
    simp [hpot', hv, this]
  have hle : ∀ v < g.numNodes, t.nodePotential v ≤ 2 * g.numNodes - 1 := fun v hv => by
    by_cases hvQ : v ∈ b.bfsQueue
    · rw [hkeep v (.inl hvQ)]
      have := h.core.height_lt v hvQ; have := h.core.length_le; omega
    by_cases hvs : v = source
    · subst hvs; rw [hkeep v (.inr rfl), h.frame.source_height, hsrc]; omega
    · rw [hfar v hv hvQ hvs]
  refine ⟨hle, hres' ▸ h.core.residual_nonneg, hex' ▸ h.core.excess_nonneg,
    (h.frame.moves.conserves hcons).of_eq hres' hex',
    (hkeep _ (.inr rfl)).trans (h.frame.source_height.trans hsrc),
    (hkeep _ (.inl h.core.sink_mem)).trans h.core.sink_height, ?_⟩
  intro a ha hr ht hh
  rw [hres'] at hr
  by_cases hhQ : g.head a ∈ b.bfsQueue
  · have htQ := h.tail_mem hdone ha hr ht hhQ
    rw [hkeep _ (.inl htQ), hkeep _ (.inl hhQ)]
    exact ((h.closedAt_of_mem hdone hhQ) a ha rfl hr).2 ht
  · rw [hfar _ (g.head_lt ha) hhQ hh]
    have := hle _ (g.tail_lt ha); omega

end OrTools.MaxFlow

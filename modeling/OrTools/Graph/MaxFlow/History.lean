import OrTools.Graph.MaxFlow.Moves

/-!
# An instance over a history of calls

A `GenericMaxFlow` instance is driven by `SetArcCapacity(arc, capacity)` and
`Solve()` calls in any order.  `Solve()` reads the state it starts from only
through `InitializePreflow()`, which keeps the capacity of every arc, the
residual capacities of the arcs outside the graph and the queue.  Between calls
the state holds the capacities last set, no residual capacity outside the graph
and an empty queue (`Settled`); so it agrees on all that `Solve()` reads with a
fresh instance on which only the current capacities were set, and the two solve
alike.
-/

set_option autoImplicit false

namespace OrTools.MaxFlow

open Function

/-- A call on a `GenericMaxFlow` instance. -/
inductive Call where
  /-- `SetArcCapacity(arc, new_capacity)` on the direct arc `arc`. -/
  | setArcCapacity (arc : Nat) (newCapacity : Int)
  /-- `Solve()`. -/
  | solve
  deriving DecidableEq, Repr

variable (g : Graph)

/-- The precondition `DCHECK(IsArcDirect(arc))` of `SetArcCapacity()`. -/
def Call.Valid : Call → Prop
  | .setArcCapacity arc _ => g.isArcDirect (.direct arc) = true
  | .solve => True

instance (c : Call) : Decidable (c.Valid g) :=
  match c with
  | .setArcCapacity _ _ => inferInstanceAs (Decidable (_ = _))
  | .solve => instDecidableTrue

@[simp] theorem Call.valid_setArcCapacity {arc : Nat} {newCapacity : Int} :
    (Call.setArcCapacity arc newCapacity).Valid g ↔ arc < g.numArcs := by
  simp [Call.Valid, Graph.isArcDirect, Graph.IsArcValid, ArcIndex.index, ArcIndex.isDirect]

/-- The capacities last set, after one more call. -/
def Call.capacityAfter (capacity : Nat → Int) : Call → Nat → Int
  | .setArcCapacity arc newCapacity => update capacity arc newCapacity
  | .solve => capacity

/-- The capacity each direct arc was last set to by a history, `0` when it never was. -/
def lastCapacity (calls : List Call) : Nat → Int :=
  calls.foldl Call.capacityAfter fun _ => 0

/-- The state of an instance after a history of calls; `none` when a `Solve()`
ran out of fuel. -/
def replay (source sink fuel : Nat) : List Call → State → Option State
  | [], s => some s
  | .setArcCapacity arc newCapacity :: calls, s =>
    replay source sink fuel calls (s.setArcCapacity g (.direct arc) newCapacity)
  | .solve :: calls, s =>
    match solve g source sink fuel s with
    | none => none
    | some s => replay source sink fuel calls s

/-- A freshly constructed instance on which only `capacity` was set, arc by arc. -/
def freshWith (capacity : Nat → Int) : State :=
  (List.range g.numArcs).foldl (fun s i => s.setArcCapacity g (.direct i) (capacity i)) State.init

/-! ## The state between calls -/

/-- What the state of an instance holds between calls. -/
structure Settled (capacity : Nat → Int) (s : State) : Prop where
  capacity_eq : ∀ i < g.numArcs, s.capacity g (.direct i) = capacity i
  residual_invalid : ∀ a, ¬ g.IsArcValid a → s.residualArcCapacity a = 0
  queue_empty : s.activeNodeByHeight = .empty

variable {g}

namespace Settled

variable {capacity : Nat → Int} {s : State}

theorem init : Settled g (fun _ => 0) State.init where
  capacity_eq _ _ := by simp [State.capacity, State.init]
  residual_invalid _ _ := rfl
  queue_empty := rfl

theorem congr {capacity' : Nat → Int} (h : Settled g capacity s)
    (hc : ∀ i < g.numArcs, capacity i = capacity' i) : Settled g capacity' s :=
  { h with capacity_eq := fun i hi => (h.capacity_eq i hi).trans (hc i hi) }

theorem setArcCapacity (h : Settled g capacity s) {i : Nat} (hi : i < g.numArcs) (c : Int) :
    Settled g (update capacity i c) (s.setArcCapacity g (.direct i) c) where
  capacity_eq j hj := by
    rw [State.setArcCapacity_capacity hi, update_apply]
    split_ifs
    · rfl
    · exact h.capacity_eq j hj
  residual_invalid a ha := by
    have : a.index ≠ i := fun e => ha (show a.index < g.numArcs by omega)
    rw [State.setArcCapacity_residual_of_index_ne c s this, h.residual_invalid a ha]
  queue_empty := by rw [State.setArcCapacity_activeNodeByHeight, h.queue_empty]

/-- On settled states with the same capacities, `InitializePreflow()` builds
the same preflow. -/
theorem initializePreflow_eq {s' : State} (h : Settled g capacity s) (h' : Settled g capacity s')
    (source : Nat) (status : Status) :
    State.initializePreflow g source { s with status := status } =
      State.initializePreflow g source { s' with status := status } := by
  rw [State.initializePreflow_eq, State.initializePreflow_eq]
  congr 1
  · funext a
    by_cases ha : g.IsArcValid a
    · cases a with
      | direct i =>
        simp only [ha, ArcIndex.isDirect, if_true]
        exact (h.capacity_eq i ha).trans (h'.capacity_eq i ha).symm
      | reverse i => simp [ha, ArcIndex.isDirect]
    · simp [ha, h.residual_invalid a ha, h'.residual_invalid a ha]
  · exact h.queue_empty.trans h'.queue_empty.symm

theorem solve_eq {s' : State} (h : Settled g capacity s) (h' : Settled g capacity s')
    (source sink fuel : Nat) : solve g source sink fuel s = solve g source sink fuel s' := by
  simp only [solve, h.initializePreflow_eq h' source]

theorem solve (h : Settled g capacity s) {source sink fuel : Nat} {s' : State}
    (hs : OrTools.MaxFlow.solve g source sink fuel s = some s') : Settled g capacity s' := by
  obtain ⟨hm, hq⟩ := solve_moves source sink fuel hs
  refine ⟨fun i hi => ?_, fun a ha => ?_, ?_⟩
  · rw [hm.capacity, State.initializePreflow_capacity _ _ hi]
    exact h.capacity_eq i hi
  · rw [hm.residual_of_not_valid ha, State.initializePreflow_eq]
    simp [ha, h.residual_invalid a ha]
  · exact hq.elim (·.trans h.queue_empty) id

theorem replay {source sink fuel : Nat} : ∀ (calls : List Call) {capacity : Nat → Int} {s s' : State},
    (∀ c ∈ calls, c.Valid g) → Settled g capacity s →
      OrTools.MaxFlow.replay g source sink fuel calls s = some s' →
      Settled g (calls.foldl Call.capacityAfter capacity) s'
  | [], _, _, _, _, h, hr => by cases hr; exact h
  | .setArcCapacity i c :: calls, _, _, _, hv, h, hr => by
    have hi : i < g.numArcs := (Call.valid_setArcCapacity g).mp (hv _ (List.mem_cons_self _ _))
    exact replay calls (fun c hc => hv c (List.mem_cons_of_mem _ hc)) (h.setArcCapacity hi c) hr
  | .solve :: calls, _, s, _, hv, h, hr => by
    simp only [OrTools.MaxFlow.replay] at hr
    split at hr
    · cases hr
    · exact replay calls (fun c hc => hv c (List.mem_cons_of_mem _ hc)) (h.solve ‹_›) hr

theorem freshWith (capacity : Nat → Int) : Settled g capacity (freshWith g capacity) := by
  have key : ∀ (l : List Nat) {c : Nat → Int} {s : State}, (∀ i ∈ l, i < g.numArcs) →
      Settled g c s → Settled g (fun j => if j ∈ l then capacity j else c j)
        (l.foldl (fun s i => s.setArcCapacity g (.direct i) (capacity i)) s) := by
    intro l
    induction l with
    | nil => intro c s _ h; simpa using h
    | cons i l ih =>
      intro c s hl h
      refine (ih (fun j hj => hl j (List.mem_cons_of_mem _ hj))
        (h.setArcCapacity (hl i (List.mem_cons_self _ _)) (capacity i))).congr fun j _ => ?_
      by_cases hj : j = i <;> simp [hj, update_apply]
  exact (key (List.range g.numArcs) (fun i hi => List.mem_range.mp hi) init).congr
    fun i hi => by simp [hi]

end Settled

/-- The capacities a history sets for arcs outside the graph stay `0`. -/
theorem foldl_capacityAfter_of_ge : ∀ (calls : List Call) (capacity : Nat → Int),
    (∀ c ∈ calls, c.Valid g) → ∀ i, g.numArcs ≤ i → calls.foldl Call.capacityAfter capacity i = capacity i
  | [], _, _, _, _ => rfl
  | .setArcCapacity j c :: calls, capacity, hv, i, hi => by
    have hj : j < g.numArcs := (Call.valid_setArcCapacity g).mp (hv _ (List.mem_cons_self _ _))
    rw [List.foldl_cons, foldl_capacityAfter_of_ge calls _ (fun c hc => hv c (List.mem_cons_of_mem _ hc)) i hi]
    simp [Call.capacityAfter, update_apply, show i ≠ j by omega]
  | .solve :: calls, capacity, hv, i, hi =>
    foldl_capacityAfter_of_ge calls capacity (fun c hc => hv c (List.mem_cons_of_mem _ hc)) i hi

/-- Over any history of `SetArcCapacity()` calls on direct arcs and `Solve()`
calls, every capacity is the one last set (`0` if never set), the next
`Solve()` returns what it returns on a fresh instance on which only those
capacities were set, and a `Solve()` right after a `Solve()` returns the state
it is given. -/
theorem replay_settled (source sink fuel : Nat) (calls : List Call)
    (hcalls : ∀ c ∈ calls, c.Valid g) {s : State}
    (h : replay g source sink fuel calls State.init = some s) :
    (∀ arc, s.capacity g (.direct arc) = lastCapacity calls arc) ∧
    (∀ fuel', solve g source sink fuel' s = solve g source sink fuel' (freshWith g (lastCapacity calls))) ∧
    (∀ fuel' s', solve g source sink fuel' s = some s' → solve g source sink fuel' s' = some s') := by
  have hs := Settled.init.replay calls hcalls h
  refine ⟨fun arc => ?_, fun fuel' => hs.solve_eq (Settled.freshWith _) source sink fuel',
    fun fuel' s' h' => ?_⟩
  · by_cases harc : arc < g.numArcs
    · exact hs.capacity_eq arc harc
    · rw [lastCapacity, foldl_capacityAfter_of_ge calls _ hcalls arc (by omega)]
      simp [State.capacity, Graph.isArcDirect, Graph.IsArcValid, ArcIndex.index, harc]
  · rw [(hs.solve h').solve_eq hs, h']

/-- Capacity 5 on the arc `0 → 1`, a `Solve()`, capacity lowered to 3, a
second `Solve()`. -/
theorem replay_settled_on_edit :
    let g : Graph := Graph.ofArcs 2 [(0, 1)] (by decide)
    let calls := [Call.setArcCapacity 0 5, .solve, .setArcCapacity 0 3, .solve]
    ∃ s, replay g 0 1 4 calls State.init = some s ∧ s.capacity g (.direct 0) = 3 ∧
      ∀ fuel, solve g 0 1 fuel s = solve g 0 1 fuel (freshWith g (lastCapacity calls)) := by
  intro g calls
  have hsome : (replay g 0 1 4 calls State.init).isSome = true := by decide
  obtain ⟨h1, h2, -⟩ := replay_settled 0 1 4 calls (by decide) (Option.some_get hsome).symm
  exact ⟨_, (Option.some_get hsome).symm, (h1 0).trans (by decide), h2⟩

end OrTools.MaxFlow

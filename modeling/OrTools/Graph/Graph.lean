import Mathlib.Data.List.Infix
import Mathlib.Data.List.GetD
import Mathlib.Data.List.Nodup

/-!
# The graph container consumed by `GenericMaxFlow`

`GenericMaxFlow<Graph>` is a template over the reverse-arc graphs of `graph.h`
(and `StarGraph`).  It only uses the interface of `generic_max_flow.h`:
`num_nodes()`, `num_arcs()`, `Head`, `Tail`, `Opposite`, `IsArcValid`,
`IsArcDirect` and the three iterators `OutgoingArcIterator`,
`IncomingArcIterator` and `OutgoingOrOppositeIncomingArcIterator` (the last one
also started at a given arc).  A `Graph` is that interface together with the
contract every implementation honours: each iterator enumerates exactly the arcs
it names, and starting at an arc yields a suffix that begins with that arc.  The
order in which an iterator lists the arcs is left free, so every theorem stated
over `Graph` holds for every graph type and every arc order.
-/

set_option autoImplicit false

namespace OrTools

/-- An `ArcIndex` of a reverse-arc graph.  The source numbers the direct arcs
`0 ≤ a < num_arcs` and the reverse arc of `a` as `~a = -a - 1`; the two
constructors name the two halves of that signed range. -/
inductive ArcIndex where
  /-- The direct arc `i`. -/
  | direct (i : Nat)
  /-- The reverse arc `~i` of the direct arc `i`. -/
  | reverse (i : Nat)
  deriving DecidableEq, Repr, Inhabited

namespace ArcIndex

/-- The direct arc an arc index belongs to. -/
def index : ArcIndex → Nat
  | direct i => i
  | reverse i => i

/-- `Opposite(arc)`, that is `~arc`. -/
def opposite : ArcIndex → ArcIndex
  | direct i => reverse i
  | reverse i => direct i

/-- `arc >= 0`. -/
def isDirect : ArcIndex → Bool
  | direct _ => true
  | reverse _ => false

/-- `Head(arc)` from the heads and tails of the direct arcs. -/
def headIn (tailOf headOf : Nat → Nat) : ArcIndex → Nat
  | direct i => headOf i
  | reverse i => tailOf i

/-- `Tail(arc)` from the heads and tails of the direct arcs. -/
def tailIn (tailOf headOf : Nat → Nat) : ArcIndex → Nat
  | direct i => tailOf i
  | reverse i => headOf i

@[simp] theorem opposite_opposite (a : ArcIndex) : a.opposite.opposite = a := by
  cases a <;> rfl

@[simp] theorem opposite_ne (a : ArcIndex) : a.opposite ≠ a := by
  cases a <;> simp [opposite]

@[simp] theorem ne_opposite (a : ArcIndex) : a ≠ a.opposite := fun h => opposite_ne a h.symm

@[simp] theorem index_opposite (a : ArcIndex) : a.opposite.index = a.index := by
  cases a <;> rfl

@[simp] theorem headIn_opposite (t h : Nat → Nat) (a : ArcIndex) :
    a.opposite.headIn t h = a.tailIn t h := by
  cases a <;> rfl

@[simp] theorem tailIn_opposite (t h : Nat → Nat) (a : ArcIndex) :
    a.opposite.tailIn t h = a.headIn t h := by
  cases a <;> rfl

theorem opposite_injective {a b : ArcIndex} (h : a.opposite = b.opposite) : a = b := by
  simpa using congrArg opposite h

end ArcIndex

/-- The graph interface `GenericMaxFlow` reads, with its contract.
`outgoingOrOppositeIncomingArcsFrom v a` is the iterator started at the arc `a`
(`none` is `kNilArc`): a suffix of the full enumeration that begins with `a`
whenever `a` is one of the enumerated arcs.  Every arc an iterator lists is a
valid arc of its node, so the iterators of a node outside the graph list
nothing. -/
structure Graph where
  /-- `num_nodes()`. -/
  numNodes : Nat
  /-- `num_arcs()`: the direct arcs are `0, …, num_arcs - 1`. -/
  numArcs : Nat
  /-- `Tail` of each direct arc. -/
  tailOf : Nat → Nat
  /-- `Head` of each direct arc. -/
  headOf : Nat → Nat
  /-- `OutgoingArcIterator`. -/
  outgoingArcs : Nat → List ArcIndex
  /-- `IncomingArcIterator`. -/
  incomingArcs : Nat → List ArcIndex
  /-- `OutgoingOrOppositeIncomingArcIterator`. -/
  outgoingOrOppositeIncomingArcs : Nat → List ArcIndex
  /-- `OutgoingOrOppositeIncomingArcIterator(graph, node, arc)`. -/
  outgoingOrOppositeIncomingArcsFrom : Nat → Option ArcIndex → List ArcIndex
  tailOf_lt : ∀ i < numArcs, tailOf i < numNodes
  headOf_lt : ∀ i < numArcs, headOf i < numNodes
  outgoing_sound : ∀ v, ∀ a ∈ outgoingArcs v,
    a.isDirect ∧ a.index < numArcs ∧ tailOf a.index = v
  outgoing_complete : ∀ i < numArcs, ArcIndex.direct i ∈ outgoingArcs (tailOf i)
  /-- The outgoing arcs of a node are listed once each. -/
  outgoing_nodup : ∀ v, (outgoingArcs v).Nodup
  incoming_sound : ∀ v, ∀ a ∈ incomingArcs v,
    a.isDirect ∧ a.index < numArcs ∧ headOf a.index = v
  incoming_complete : ∀ i < numArcs, ArcIndex.direct i ∈ incomingArcs (headOf i)
  adjacent_sound : ∀ v, ∀ a ∈ outgoingOrOppositeIncomingArcs v,
    a.index < numArcs ∧ a.tailIn tailOf headOf = v
  adjacent_complete : ∀ i < numArcs,
    ArcIndex.direct i ∈ outgoingOrOppositeIncomingArcs (tailOf i) ∧
      ArcIndex.reverse i ∈ outgoingOrOppositeIncomingArcs (headOf i)
  adjacentFrom_suffix : ∀ v a,
    outgoingOrOppositeIncomingArcsFrom v a <:+ outgoingOrOppositeIncomingArcs v
  adjacentFrom_head : ∀ v a, a ∈ outgoingOrOppositeIncomingArcs v →
    ∃ rest, outgoingOrOppositeIncomingArcsFrom v (some a) = a :: rest

namespace Graph

variable (g : Graph)

/-- `Head(arc)`. -/
def head (a : ArcIndex) : Nat := a.headIn g.tailOf g.headOf

/-- `Tail(arc)`. -/
def tail (a : ArcIndex) : Nat := a.tailIn g.tailOf g.headOf

/-- `IsArcValid(arc)`: `-num_arcs ≤ arc < num_arcs`. -/
def IsArcValid (a : ArcIndex) : Prop := a.index < g.numArcs

instance (a : ArcIndex) : Decidable (g.IsArcValid a) :=
  inferInstanceAs (Decidable (_ < _))

/-- `IsArcDirect(arc)`: `IsArcValid(arc) && arc >= 0`. -/
def isArcDirect (a : ArcIndex) : Bool := decide (g.IsArcValid a) && a.isDirect

@[simp] theorem head_direct (i : Nat) : g.head (.direct i) = g.headOf i := rfl

@[simp] theorem tail_direct (i : Nat) : g.tail (.direct i) = g.tailOf i := rfl

@[simp] theorem head_opposite (a : ArcIndex) : g.head a.opposite = g.tail a := by
  simp [head, tail]

@[simp] theorem tail_opposite (a : ArcIndex) : g.tail a.opposite = g.head a := by
  simp [tail, head]

@[simp] theorem isArcValid_opposite (a : ArcIndex) : g.IsArcValid a.opposite ↔ g.IsArcValid a := by
  simp [IsArcValid]

theorem head_lt {a : ArcIndex} (h : g.IsArcValid a) : g.head a < g.numNodes := by
  cases a <;> simp only [head, ArcIndex.headIn] <;>
    first | exact g.headOf_lt _ h | exact g.tailOf_lt _ h

theorem tail_lt {a : ArcIndex} (h : g.IsArcValid a) : g.tail a < g.numNodes := by
  simpa using g.head_lt (a := a.opposite) (by simpa using h)

theorem mem_adjacent_iff (v : Nat) (a : ArcIndex) :
    a ∈ g.outgoingOrOppositeIncomingArcs v ↔ g.IsArcValid a ∧ g.tail a = v := by
  refine ⟨g.adjacent_sound v a, ?_⟩
  rintro ⟨ha, rfl⟩
  cases a with
  | direct i => exact (g.adjacent_complete i ha).1
  | reverse i => exact (g.adjacent_complete i ha).2

theorem mem_outgoing_iff (v : Nat) (a : ArcIndex) :
    a ∈ g.outgoingArcs v ↔ ∃ i < g.numArcs, a = .direct i ∧ g.tailOf i = v := by
  constructor
  · intro h
    obtain ⟨hd, hi, ht⟩ := g.outgoing_sound v a h
    cases a with
    | direct i => exact ⟨i, hi, rfl, ht⟩
    | reverse i => simp [ArcIndex.isDirect] at hd
  · rintro ⟨i, hi, rfl, rfl⟩
    exact g.outgoing_complete i hi

theorem mem_incoming_iff (v : Nat) (a : ArcIndex) :
    a ∈ g.incomingArcs v ↔ ∃ i < g.numArcs, a = .direct i ∧ g.headOf i = v := by
  constructor
  · intro h
    obtain ⟨hd, hi, ht⟩ := g.incoming_sound v a h
    cases a with
    | direct i => exact ⟨i, hi, rfl, ht⟩
    | reverse i => simp [ArcIndex.isDirect] at hd
  · rintro ⟨i, hi, rfl, rfl⟩
    exact g.incoming_complete i hi

theorem isArcDirect_iff (a : ArcIndex) : g.isArcDirect a = true ↔ ∃ i < g.numArcs, a = .direct i := by
  cases a <;> simp [isArcDirect, IsArcValid, ArcIndex.isDirect, ArcIndex.index]

theorem isArcValid_of_isArcDirect {a : ArcIndex} (h : g.isArcDirect a = true) : g.IsArcValid a := by
  obtain ⟨i, hi, rfl⟩ := (g.isArcDirect_iff a).mp h
  exact hi

/-- The outgoing arcs of a node are the direct arcs it is the tail of. -/
theorem mem_outgoing_iff_isArcDirect (v : Nat) (a : ArcIndex) :
    a ∈ g.outgoingArcs v ↔ g.isArcDirect a = true ∧ g.tail a = v := by
  rw [mem_outgoing_iff, isArcDirect_iff]
  constructor
  · rintro ⟨i, hi, rfl, rfl⟩; exact ⟨⟨i, hi, rfl⟩, rfl⟩
  · rintro ⟨⟨i, hi, rfl⟩, rfl⟩; exact ⟨i, hi, rfl, rfl⟩

theorem valid_of_mem_outgoing {v : Nat} {a : ArcIndex} (h : a ∈ g.outgoingArcs v) :
    g.IsArcValid a ∧ g.tail a = v := by
  obtain ⟨i, hi, rfl, ht⟩ := (g.mem_outgoing_iff v a).mp h
  exact ⟨hi, ht⟩

theorem valid_of_mem_incoming {v : Nat} {a : ArcIndex} (h : a ∈ g.incomingArcs v) :
    g.IsArcValid a ∧ g.head a = v := by
  obtain ⟨i, hi, rfl, ht⟩ := (g.mem_incoming_iff v a).mp h
  exact ⟨hi, ht⟩

theorem mem_adjacentFrom {v : Nat} {a : Option ArcIndex} {b : ArcIndex}
    (h : b ∈ g.outgoingOrOppositeIncomingArcsFrom v a) :
    b ∈ g.outgoingOrOppositeIncomingArcs v :=
  (g.adjacentFrom_suffix v a).subset h

end Graph

/-- The iterator started at an arc, as the linked-list graphs implement it: the
suffix of the enumeration from that arc, and nothing from `kNilArc`.  Concrete
graphs below use it for `outgoingOrOppositeIncomingArcsFrom`. -/
def fromArc (l : List ArcIndex) : Option ArcIndex → List ArcIndex
  | none => []
  | some a => l.dropWhile (· ≠ a)

theorem fromArc_suffix (l : List ArcIndex) (a : Option ArcIndex) : fromArc l a <:+ l := by
  cases a with
  | none => exact List.nil_suffix
  | some a => exact List.dropWhile_suffix _

theorem fromArc_head (l : List ArcIndex) (a : ArcIndex) (h : a ∈ l) :
    ∃ rest, fromArc l (some a) = a :: rest := by
  induction l with
  | nil => simp at h
  | cons b l ih =>
    by_cases hb : b = a
    · subst hb
      exact ⟨l, by simp [fromArc, List.dropWhile_cons]⟩
    · have h' : a ∈ l := by
        rcases List.mem_cons.mp h with h | h
        · exact absurd h.symm hb
        · exact h
      obtain ⟨rest, hr⟩ := ih h'
      exact ⟨rest, by simpa [fromArc, List.dropWhile_cons, hb] using hr⟩

/-! ## Graphs given by their arc list -/

namespace Graph

variable (n : Nat) (arcs : List (Nat × Nat))

/-- The direct arcs of `arcs` whose chosen end is `v`, in the order they were added. -/
def arcsAt (toNode : Nat × Nat → Nat) (v : Nat) : List Nat :=
  (List.range arcs.length).filter fun i => toNode (arcs.getD i (0, 0)) = v

theorem mem_arcsAt {toNode : Nat × Nat → Nat} {v i : Nat} :
    i ∈ arcsAt arcs toNode v ↔ i < arcs.length ∧ toNode (arcs.getD i (0, 0)) = v := by
  simp [arcsAt]

/-- The graph on `n` nodes whose direct arc `i` is `arcs[i]`, added with
`AddArc(tail, head)` in list order; each iterator lists the arcs of a node in
the order they were added, outgoing arcs before opposite incoming ones. -/
def ofArcs (h : ∀ p ∈ arcs, p.1 < n ∧ p.2 < n) : Graph where
  numNodes := n
  numArcs := arcs.length
  tailOf i := (arcs.getD i (0, 0)).1
  headOf i := (arcs.getD i (0, 0)).2
  outgoingArcs v := (arcsAt arcs Prod.fst v).map .direct
  incomingArcs v := (arcsAt arcs Prod.snd v).map .direct
  outgoingOrOppositeIncomingArcs v :=
    (arcsAt arcs Prod.fst v).map .direct ++ (arcsAt arcs Prod.snd v).map .reverse
  outgoingOrOppositeIncomingArcsFrom v a := fromArc
    ((arcsAt arcs Prod.fst v).map .direct ++ (arcsAt arcs Prod.snd v).map .reverse) a
  tailOf_lt i hi := by
    show (arcs.getD i (0, 0)).1 < n
    rw [List.getD_eq_getElem _ _ hi]; exact (h _ (List.getElem_mem hi)).1
  headOf_lt i hi := by
    show (arcs.getD i (0, 0)).2 < n
    rw [List.getD_eq_getElem _ _ hi]; exact (h _ (List.getElem_mem hi)).2
  outgoing_sound v a ha := by
    obtain ⟨i, hi, rfl⟩ := List.mem_map.mp ha
    simpa [ArcIndex.isDirect, ArcIndex.index] using (mem_arcsAt arcs).mp hi
  outgoing_complete i hi := List.mem_map_of_mem _ ((mem_arcsAt arcs).mpr ⟨hi, rfl⟩)
  outgoing_nodup v := ((List.nodup_range _).filter _).map fun _ _ => ArcIndex.direct.inj
  incoming_sound v a ha := by
    obtain ⟨i, hi, rfl⟩ := List.mem_map.mp ha
    simpa [ArcIndex.isDirect, ArcIndex.index] using (mem_arcsAt arcs).mp hi
  incoming_complete i hi := List.mem_map_of_mem _ ((mem_arcsAt arcs).mpr ⟨hi, rfl⟩)
  adjacent_sound v a ha := by
    rcases List.mem_append.mp ha with ha | ha <;> obtain ⟨i, hi, rfl⟩ := List.mem_map.mp ha <;>
      simpa [ArcIndex.index, ArcIndex.tailIn] using (mem_arcsAt arcs).mp hi
  adjacent_complete i hi :=
    ⟨List.mem_append_left _ (List.mem_map_of_mem _ ((mem_arcsAt arcs).mpr ⟨hi, rfl⟩)),
      List.mem_append_right _ (List.mem_map_of_mem _ ((mem_arcsAt arcs).mpr ⟨hi, rfl⟩))⟩
  adjacentFrom_suffix v a := fromArc_suffix _ a
  adjacentFrom_head v a ha := fromArc_head _ a ha

end Graph

end OrTools

import OrTools.Sat.PartialIntersectionsSpec

/-!
# The sweep keeps the intersection graph connected

The loop of `FindPartialRectangleIntersections()` goes through the ends, then
the begins, at each abscissa in turn; it is the same as handling the sorted
edges one at a time (`sweepLoop_eq_foldl`).  Along that run an invariant holds
over the edges already handled:

* every piece belongs to a rectangle the line crosses, and lies in its y-span;
* every recorded arc joins two rectangles that are not disjoint;
* every point of the y-span of a rectangle the line still crosses has an owner
  that ends no further left and that the arcs already connect to it;
* the arcs connect any two begun rectangles that are not disjoint.

The third clause is the point of `middle_index`: a piece always goes to the
rectangle that ends further right, so an end never takes away a point that a
rectangle still crossing the line needs.  At the end of the run every rectangle
has begun, so the arcs connect exactly what the non-disjoint pairs connect.
`FindPartialRectangleIntersectionsAlsoEmpty()` adds the pairs that involve a
rectangle without area by comparing them directly; the pairs it leaves out are
disjoint.
-/

set_option autoImplicit false

namespace OrTools.Sat

open Rectangle Relation

section Sweep

variable {rectangles : List Rectangle}

/-! ## One edge at a time -/

variable (rectangles) in
/-- What the loop does with one edge: an end erases the pieces of its
rectangle, a begin inserts its y-span. -/
def sweepStep (st : List Interval × List (Nat × Nat)) (e : RectangleHorizontalEdge) :
    List Interval × List (Nat × Nat) :=
  match e.type with
  | .kEnd => (removeRectangle rectangles e.index st.1, st.2)
  | .kBegin => insertRectangle rectangles e.index st.1 st.2

variable (rectangles) in
theorem endLoop_foldl (x : Int) : ∀ (edges : List RectangleHorizontalEdge) (S : List Interval)
    (A : List (Nat × Nat)),
    (endLoop rectangles x edges S).1.length ≤ edges.length ∧
      edges.foldl (sweepStep rectangles) (S, A) =
        (endLoop rectangles x edges S).1.foldl (sweepStep rectangles) ((endLoop rectangles x edges S).2, A)
  | [], _, _ => ⟨le_rfl, rfl⟩
  | e :: edges, S, A => by
    unfold endLoop
    split_ifs with h
    · obtain ⟨hl, hf⟩ := endLoop_foldl x edges (removeRectangle rectangles e.index S) A
      refine ⟨Nat.le_succ_of_le hl, ?_⟩
      rw [List.foldl_cons, ← hf, sweepStep, h.2]
    · exact ⟨le_rfl, rfl⟩

variable (rectangles) in
theorem beginLoop_foldl (x : Int) : ∀ (edges : List RectangleHorizontalEdge) (S : List Interval)
    (A : List (Nat × Nat)),
    (beginLoop rectangles x edges S A).1.length ≤ edges.length ∧
      edges.foldl (sweepStep rectangles) (S, A) =
        (beginLoop rectangles x edges S A).1.foldl (sweepStep rectangles)
          (beginLoop rectangles x edges S A).2
  | [], _, _ => ⟨le_rfl, rfl⟩
  | e :: edges, S, A => by
    unfold beginLoop
    split_ifs with h
    · obtain ⟨hl, hf⟩ := beginLoop_foldl x edges (insertRectangle rectangles e.index S A).1
        (insertRectangle rectangles e.index S A).2
      refine ⟨Nat.le_succ_of_le hl, ?_⟩
      rw [List.foldl_cons, ← hf, sweepStep, h.2]
    · exact ⟨le_rfl, rfl⟩

/-- With one turn per edge, the loop over the abscissas handles the edges one
at a time. -/
theorem sweepLoop_eq_foldl : ∀ (fuel : Nat) (edges : List RectangleHorizontalEdge)
    (S : List Interval) (A : List (Nat × Nat)), edges.length ≤ fuel →
    sweepLoop rectangles fuel edges S A = (edges.foldl (sweepStep rectangles) (S, A)).2
  | 0, [], _, _, _ => rfl
  | fuel + 1, [], _, _, _ => rfl
  | fuel + 1, e :: edges, S, A, h => by
    obtain ⟨hl₁, hf₁⟩ := endLoop_foldl rectangles e.xCoordinate (e :: edges) S A
    obtain ⟨hl₂, hf₂⟩ := beginLoop_foldl rectangles e.xCoordinate
      (endLoop rectangles e.xCoordinate (e :: edges) S).1 (endLoop rectangles e.xCoordinate (e :: edges) S).2 A
    -- The first edge is an end or a begin at its own abscissa, so one of the two loops takes it.
    have hlt : (beginLoop rectangles e.xCoordinate (endLoop rectangles e.xCoordinate (e :: edges) S).1
        (endLoop rectangles e.xCoordinate (e :: edges) S).2 A).1.length < (e :: edges).length := by
      cases ht : e.type
      · have := (endLoop_foldl rectangles e.xCoordinate edges
          (removeRectangle rectangles e.index S) A).1
        rw [endLoop, if_pos ⟨rfl, ht⟩] at hl₂ ⊢
        simp only [List.length_cons] at this ⊢
        omega
      · have hne : ¬ (e.xCoordinate = e.xCoordinate ∧ e.type = .kEnd) := by simp [ht]
        rw [endLoop, if_neg hne, beginLoop, if_pos ⟨rfl, ht⟩]
        have := (beginLoop_foldl rectangles e.xCoordinate edges
          (insertRectangle rectangles e.index S A).1 (insertRectangle rectangles e.index S A).2).1
        simp only [List.length_cons] at this ⊢
        omega
    rw [sweepLoop, sweepLoop_eq_foldl fuel _ _ _ (by simp only [List.length_cons] at h hlt; omega),
      ← hf₂, ← hf₁]

/-! ## The edges -/

variable (rectangles) in
/-- The begin of rectangle `i`, as `horizontalEdges` pushes it. -/
def beginEdge (i : Nat) : RectangleHorizontalEdge :=
  ⟨(rectangles.getD i getEmpty).xMin, i, .kBegin⟩

variable (rectangles) in
/-- The end of rectangle `i`, as `horizontalEdges` pushes it. -/
def endEdge (i : Nat) : RectangleHorizontalEdge :=
  ⟨(rectangles.getD i getEmpty).xMax, i, .kEnd⟩

theorem getD_eq_getElem {i : Nat} (hi : i < rectangles.length) :
    rectangles.getD i getEmpty = rectangles[i] := by
  rw [List.getD_eq_getElem?_getD, List.getElem?_eq_getElem hi, Option.getD_some]

/-- Each rectangle of the list has its begin and its end, and there is no other
edge. -/
theorem mem_horizontalEdges {e : RectangleHorizontalEdge} :
    e ∈ horizontalEdges rectangles ↔ e.index < rectangles.length ∧
      (e = beginEdge rectangles e.index ∨ e = endEdge rectangles e.index) := by
  simp only [horizontalEdges, List.mem_flatMap, List.mem_cons, List.mem_singleton,
    List.not_mem_nil, or_false, Prod.exists, List.mem_enum_iff_getElem?]
  constructor
  · rintro ⟨i, r, hr, rfl | rfl⟩ <;>
    · obtain ⟨hi, rfl⟩ := List.getElem?_eq_some_iff.mp hr
      simp [beginEdge, endEdge, getD_eq_getElem hi, hi]
  · rintro ⟨hi, h | h⟩ <;> refine ⟨e.index, rectangles[e.index], List.getElem?_eq_getElem hi, ?_⟩
    · exact .inl (h.trans (by simp only [beginEdge, getD_eq_getElem hi]))
    · exact .inr (h.trans (by simp only [endEdge, getD_eq_getElem hi]))

theorem beginEdge_mem {i : Nat} (hi : i < rectangles.length) :
    beginEdge rectangles i ∈ horizontalEdges rectangles :=
  mem_horizontalEdges.mpr ⟨hi, .inl rfl⟩

theorem endEdge_mem {i : Nat} (hi : i < rectangles.length) :
    endEdge rectangles i ∈ horizontalEdges rectangles :=
  mem_horizontalEdges.mpr ⟨hi, .inr rfl⟩

/-- No edge is pushed twice: the indices differ, and so do the two types. -/
theorem nodup_horizontalEdges : (horizontalEdges rectangles).Nodup := by
  have hfst : (rectangles.enum.map Prod.fst).Nodup := by
    rw [List.enum_map_fst]; exact List.nodup_range _
  refine List.nodup_flatMap.mpr ⟨fun _ _ => by simp, ?_⟩
  exact (List.pairwise_map.mp hfst).imp fun hne e he he' => by
    simp only [List.mem_cons, List.mem_singleton, List.not_mem_nil, or_false] at he he'
    rcases he with rfl | rfl <;> rcases he' with h | h <;> exact hne (congrArg (·.index) h)

theorem le_of_less_eq_false {a b : RectangleHorizontalEdge} (h : a.Less b = false) :
    b.xCoordinate ≤ a.xCoordinate := by
  simp only [RectangleHorizontalEdge.Less, Bool.or_eq_false_iff, decide_eq_false_iff_not] at h
  exact not_lt.mp h.1

/-- An end that comes after a begin lies strictly right of it. -/
theorem lt_of_less_eq_false {a b : RectangleHorizontalEdge} (h : a.Less b = false)
    (ha : a.type = .kEnd) (hb : b.type = .kBegin) : b.xCoordinate < a.xCoordinate := by
  simp only [RectangleHorizontalEdge.Less, ha, hb, EdgeType.toNat, Bool.or_eq_false_iff,
    decide_eq_false_iff_not, Bool.and_eq_false_iff] at h
  rcases h with ⟨h₁, h₂ | h₂⟩
  · omega
  · simp at h₂

/-! ## The invariant of the sweep -/

variable (rectangles) in
/-- The begin of rectangle `k` is among the edges handled. -/
def Begun (P : List RectangleHorizontalEdge) (k : Nat) : Prop := beginEdge rectangles k ∈ P

variable (rectangles) in
/-- The end of rectangle `k` is among the edges handled. -/
def Ended (P : List RectangleHorizontalEdge) (k : Nat) : Prop := endEdge rectangles k ∈ P

theorem linked_symm {A : List (Nat × Nat)} {i j : Nat} (h : ReflTransGen (Linked A) i j) :
    ReflTransGen (Linked A) j i :=
  ReflTransGen.symmetric (fun _ _ h => Or.symm h) h

theorem linked_of_mem_min_max {A : List (Nat × Nat)} {i j : Nat} (h : (min i j, max i j) ∈ A) :
    Linked A i j := by
  rcases le_total i j with hij | hij
  · exact .inl (by rwa [min_eq_left hij, max_eq_right hij] at h)
  · exact .inr (by rwa [min_eq_right hij, max_eq_left hij] at h)

theorem linked_map (f : Nat → Nat) {A : List (Nat × Nat)} {i j : Nat} (h : Linked A i j) :
    Linked (A.map fun a => (f a.1, f a.2)) (f i) (f j) :=
  h.imp (fun h => List.mem_map_of_mem _ h) fun h => List.mem_map_of_mem _ h

theorem linked_mono {A B : List (Nat × Nat)} (h : ∀ a ∈ A, a ∈ B) {i j : Nat}
    (hij : ReflTransGen (Linked A) i j) : ReflTransGen (Linked B) i j :=
  hij.mono fun _ _ h' => h'.imp (h _) (h _)

theorem isDisjoint_comm (r o : Rectangle) : r.IsDisjoint o = o.IsDisjoint r := by
  rw [Bool.eq_iff_iff]
  simp only [IsDisjoint, Bool.or_eq_true, decide_eq_true_eq]
  tauto

theorem intersecting_symm {i j : Nat} (h : Intersecting rectangles i j) :
    Intersecting rectangles j i :=
  ⟨h.2.1, h.1, by rw [isDisjoint_comm]; exact h.2.2⟩

variable (rectangles) in
/-- What holds once the edges `P` have been handled, with the set `S` and the
arcs `A`. -/
structure IntersectionInv (P : List RectangleHorizontalEdge) (S : List Interval) (A : List (Nat × Nat)) :
    Prop where
  pieces : Pieces S
  /-- A piece belongs to a rectangle the line crosses, inside its y-span. -/
  owner : ∀ y k, ownerIn S y = some k →
    Begun rectangles P k ∧ ¬ Ended rectangles P k ∧ (yInterval rectangles k).Covers y
  sound : ∀ a ∈ A, Intersecting rectangles a.1 a.2
  /-- A rectangle right of every end handled keeps each point of its y-span
  covered by a rectangle that ends no further left and is connected to it. -/
  cover : ∀ R, Begun rectangles P R →
    (∀ f ∈ P, f.type = .kEnd → f.xCoordinate < (rectangles.getD R getEmpty).xMax) →
    ∀ y, (yInterval rectangles R).Covers y → ∃ k, ownerIn S y = some k ∧
      ReflTransGen (Linked A) R k ∧ (rectangles.getD R getEmpty).xMax ≤ (rectangles.getD k getEmpty).xMax
  complete : ∀ i j, Begun rectangles P i → Begun rectangles P j → Intersecting rectangles i j →
    ReflTransGen (Linked A) i j

theorem intersectionInv_nil : IntersectionInv rectangles [] [] [] where
  pieces := ⟨fun _ h => (List.not_mem_nil _ h).elim, .nil⟩
  owner _ _ h := by simp at h
  sound _ h := (List.not_mem_nil _ h).elim
  cover _ h := (List.not_mem_nil _ h).elim
  complete _ _ h := (List.not_mem_nil _ h).elim

/-- The end of `E` keeps the invariant. -/
theorem IntersectionInv.end_step {P : List RectangleHorizontalEdge} {S : List Interval}
    {A : List (Nat × Nat)} (h : IntersectionInv rectangles P S A) (E : Nat) :
    IntersectionInv rectangles (P ++ [endEdge rectangles E]) (removeRectangle rectangles E S) A := by
  obtain ⟨hS', hown⟩ := removeRectangle_spec rectangles E h.pieces
    fun y hy => (h.owner y E hy).2.2
  have hbegun : ∀ k, Begun rectangles (P ++ [endEdge rectangles E]) k ↔ Begun rectangles P k :=
    fun k => by simp [Begun, beginEdge, endEdge]
  refine ⟨hS', fun y k hk => ?_, h.sound, fun R hR hx y hy => ?_,
    fun i j hi hj => h.complete i j ((hbegun i).mp hi) ((hbegun j).mp hj)⟩
  · rw [hown] at hk
    split_ifs at hk with hE
    obtain ⟨hb, he, hc⟩ := h.owner y k hk
    refine ⟨(hbegun k).mpr hb, fun he' => ?_, hc⟩
    rcases List.mem_append.mp he' with he' | he'
    · exact he he'
    · exact hE (by rw [hk, show k = E from congrArg (·.index) (List.mem_singleton.mp he')])
  · obtain ⟨k, hk, hc, hle⟩ := h.cover R ((hbegun R).mp hR)
      (fun f hf => hx f (List.mem_append_left _ hf)) y hy
    have hE := hx (endEdge rectangles E) (List.mem_append_right _ (List.mem_singleton_self _)) rfl
    refine ⟨k, ?_, hc, hle⟩
    rw [hown, if_neg fun e => ?_, hk]
    rw [hk] at e
    cases Option.some.inj e
    exact absurd hle (not_le.mpr hE)

theorem getD_mem_of_lt {i : Nat} (hi : i < rectangles.length) : rectangles.getD i getEmpty ∈ rectangles :=
  getD_eq_getElem hi ▸ List.getElem_mem hi

/-- The begin of `b` keeps the invariant, given where its edge stands among the
edges handled: after their begins, after their ends, and before the ends still
to come. -/
theorem IntersectionInv.begin_step {P : List RectangleHorizontalEdge} {S : List Interval}
    {A : List (Nat × Nat)} (h : IntersectionInv rectangles P S A) {b : Nat}
    (hpos : ∀ r ∈ rectangles, 0 < r.sizeX ∧ 0 < r.sizeY) (hb : b < rectangles.length)
    (hfresh : ¬ Begun rectangles P b) (hnew : ¬ Ended rectangles P b)
    (hbound : ∀ k, Begun rectangles P k → k < rectangles.length)
    (hxmin : ∀ k, Begun rectangles P k →
      (rectangles.getD k getEmpty).xMin ≤ (rectangles.getD b getEmpty).xMin)
    (hxmax : ∀ k, Begun rectangles P k → ¬ Ended rectangles P k →
      (rectangles.getD b getEmpty).xMin < (rectangles.getD k getEmpty).xMax)
    (hends : ∀ f ∈ P, f.type = .kEnd → f.xCoordinate ≤ (rectangles.getD b getEmpty).xMin) :
    IntersectionInv rectangles (P ++ [beginEdge rectangles b]) (insertRectangle rectangles b S A).1
      (insertRectangle rectangles b S A).2 := by
  have hsize : ∀ k, k < rectangles.length →
      0 < (rectangles.getD k getEmpty).sizeX ∧ 0 < (rectangles.getD k getEmpty).sizeY :=
    fun k hk => hpos _ (getD_mem_of_lt hk)
  have hfr : ∀ p ∈ S, p.index ≠ b := fun p hp hpb => hfresh (hpb ▸
    (h.owner p.start p.index (h.pieces.ownerIn_of_mem hp ⟨le_rfl, h.pieces.nonempty p hp⟩)).1)
  obtain ⟨hS', hown, harcs⟩ := insertRectangle_spec rectangles A h.pieces
    (by have := (hsize b hb).2; unfold sizeY at this; omega) hfr
  set A' := (insertRectangle rectangles b S A).2
  have hbegun : ∀ k, Begun rectangles (P ++ [beginEdge rectangles b]) k ↔
      Begun rectangles P k ∨ k = b := fun k =>
    ⟨fun h => (List.mem_append.mp h).elim .inl fun h => .inr (congrArg (·.index) (List.mem_singleton.mp h)),
      fun h => h.elim (List.mem_append_left _) fun e => e ▸ List.mem_append_right _ (List.mem_singleton_self _)⟩
  have hended : ∀ k, Ended rectangles (P ++ [beginEdge rectangles b]) k ↔ Ended rectangles P k :=
    fun k => by simp [Ended, endEdge, beginEdge]
  have harc : ∀ k, Meets (yInterval rectangles b) S k → Linked A' b k :=
    fun k hk => linked_of_mem_min_max ((harcs _).mpr (.inr ⟨k, hk, rfl⟩))
  have hmono : ∀ {i j}, ReflTransGen (Linked A) i j → ReflTransGen (Linked A') i j :=
    ReflTransGen.mono fun _ _ hij => hij.imp (fun h => (harcs _).mpr (.inl h)) fun h => (harcs _).mpr (.inl h)
  refine ⟨hS', fun y k hk => ?_, fun a ha => ?_, fun R hR hx y hy => ?_, ?_⟩
  · -- A new piece belongs to `b`, which has begun and not ended.
    rw [hown] at hk
    rcases mergedOwner_eq_some hk with ⟨hy, rfl⟩ | hk
    · exact ⟨(hbegun _).mpr (.inr rfl), fun he => hnew ((hended _).mp he), hy⟩
    · obtain ⟨h₁, h₂, h₃⟩ := h.owner y k hk
      exact ⟨(hbegun k).mpr (.inl h₁), fun he => h₂ ((hended k).mp he), h₃⟩
  · -- A new arc joins `b` to a rectangle the line crosses over a point of `b`'s y-span.
    rcases (harcs a).mp ha with ha | ⟨k, ⟨y, hy, hk⟩, rfl⟩
    · exact h.sound a ha
    obtain ⟨hkb, hke, hky⟩ := h.owner y k hk
    have hI : Intersecting rectangles b k := by
      refine ⟨hb, hbound k hkb, ?_⟩
      have := hxmin k hkb; have := hxmax k hkb hke; have := (hsize b hb).1
      simp only [yInterval, Interval.Covers] at hy hky
      simp only [IsDisjoint, sizeX, Bool.or_eq_false_iff, decide_eq_false_iff_not] at this ⊢
      omega
    rcases le_total b k with hbk | hbk
    · simpa [min_eq_left hbk, max_eq_right hbk] using hI
    · simpa [min_eq_right hbk, max_eq_left hbk] using intersecting_symm hI
  · -- Points of `b`'s y-span go to whichever of `b` and their owner ends further right.
    have hxP : ∀ f ∈ P, f.type = .kEnd → f.xCoordinate < (rectangles.getD R getEmpty).xMax :=
      fun f hf => hx f (List.mem_append_left _ hf)
    rw [hown]
    unfold mergedOwner
    rcases (hbegun R).mp hR with hR | hRb
    · obtain ⟨k, hk, hc, hle⟩ := h.cover R hR hxP y hy
      split_ifs with hyb
      · simp only [hk, Option.elim, middleIndex]
        split_ifs with hlt
        · exact ⟨k, rfl, hmono hc, hle⟩
        · exact ⟨b, rfl, (hmono hc).tail (harc k ⟨y, hyb, hk⟩).symm, by dsimp only [yInterval] at hlt; omega⟩
      · exact ⟨k, hk, hmono hc, hle⟩
    · subst hRb
      rw [if_pos hy]
      cases hk : ownerIn S y with
      | none => exact ⟨R, rfl, .refl, le_rfl⟩
      | some k =>
        simp only [Option.elim, middleIndex]
        split_ifs with hlt
        · exact ⟨k, rfl, .single (harc k ⟨y, hy, hk⟩), hlt.le⟩
        · exact ⟨R, rfl, .refl, le_rfl⟩
  · -- `b` reaches each begun rectangle it meets through the owner of a common point.
    have key : ∀ j, Begun rectangles P j → Intersecting rectangles b j → ReflTransGen (Linked A') b j := by
      intro j hj hI
      obtain ⟨-, hjn, hI'⟩ := hI
      have hsj := (hsize j hjn).2; have hsb := (hsize b hb).2
      simp only [IsDisjoint, sizeY, Bool.or_eq_false_iff, decide_eq_false_iff_not] at hI' hsj hsb
      obtain ⟨k, hk, hc, -⟩ := h.cover j hj (fun f hf hfe => lt_of_le_of_lt (hends f hf hfe) (by omega))
        (max (rectangles.getD b getEmpty).yMin (rectangles.getD j getEmpty).yMin)
        (by simp only [yInterval, Interval.Covers]; omega)
      exact (ReflTransGen.single (harc k ⟨_, by simp only [yInterval, Interval.Covers]; omega, hk⟩)).trans
        (linked_symm (hmono hc))
    intro i j hi hj hI
    rcases (hbegun i).mp hi with hi' | rfl <;> rcases (hbegun j).mp hj with hj' | rfl
    · exact hmono (h.complete i j hi' hj' hI)
    · exact linked_symm (key i hi' (intersecting_symm hI))
    · exact key j hj' hI
    · exact .refl

/-! ## The whole sweep -/

/-- The handling of the edges still to come, one at a time, keeps the invariant
up to the whole sorted list. -/
theorem intersectionInv_foldl (hpos : ∀ r ∈ rectangles, 0 < r.sizeX ∧ 0 < r.sizeY)
    {L : List RectangleHorizontalEdge} (hL : EdgesSorted (horizontalEdges rectangles) L) :
    ∀ (Q P : List RectangleHorizontalEdge) (S : List Interval) (A : List (Nat × Nat)),
      P ++ Q = L → IntersectionInv rectangles P S A →
      IntersectionInv rectangles L (Q.foldl (sweepStep rectangles) (S, A)).1
        (Q.foldl (sweepStep rectangles) (S, A)).2
  | [], P, S, A, hPQ, h => by rw [List.append_nil] at hPQ; exact hPQ ▸ h
  | e :: Q, P, S, A, hPQ, h => by
    have hmem : ∀ {f}, f ∈ L ↔ f ∈ horizontalEdges rectangles := hL.1.mem_iff
    have hpw : (P ++ e :: Q).Pairwise fun a b => b.Less a = false := hPQ ▸ hL.2
    have hafter : ∀ f ∈ P, e.Less f = false := fun f hf =>
      hpw.rel_of_mem_append hf (List.mem_cons_self _ _)
    have hPL : ∀ {f}, f ∈ P → f ∈ horizontalEdges rectangles := fun hf =>
      hmem.mp (hPQ ▸ List.mem_append_left _ hf)
    obtain ⟨he, hbe⟩ := mem_horizontalEdges.mp (hmem.mp (hPQ ▸ List.mem_append_right _
      (List.mem_cons_self _ _)))
    rw [List.foldl_cons]
    refine intersectionInv_foldl hpos hL Q (P ++ [e]) _ _ (by rw [List.append_assoc]; exact hPQ) ?_
    rcases hbe with hbe | hbe
    · -- A begin: its place in the sorted list gives the hypotheses of the step.
      generalize e.index = b at he hbe
      subst hbe
      have hnd : (P ++ beginEdge rectangles b :: Q).Nodup := hPQ ▸ hL.1.nodup_iff.mpr nodup_horizontalEdges
      have hbound : ∀ k, Begun rectangles P k → k < rectangles.length := fun k hk =>
        (mem_horizontalEdges.mp (hPL hk)).1
      refine h.begin_step hpos he (fun hb => (List.nodup_append.mp hnd).2.2 hb (List.mem_cons_self _ _))
        (fun hb => ?_) hbound (fun k hk => le_of_less_eq_false (hafter _ hk)) (fun k hk hke => ?_)
        (fun f hf _ => le_of_less_eq_false (hafter f hf))
      · have := le_of_less_eq_false (hafter _ hb)
        have := (hpos _ (getD_mem_of_lt he)).1
        simp only [beginEdge, endEdge, sizeX] at *
        omega
      · have hkL : endEdge rectangles k ∈ P ++ beginEdge rectangles b :: Q :=
          hPQ ▸ hmem.mpr (endEdge_mem (hbound k hk))
        rcases List.mem_append.mp hkL with hkP | hkQ
        · exact absurd hkP hke
        rcases List.mem_cons.mp hkQ with hkb | hkQ
        · cases congrArg (·.type) hkb
        exact lt_of_less_eq_false
          ((List.pairwise_cons.mp (List.pairwise_append.mp hpw).2.1).1 _ hkQ) rfl rfl
    · generalize e.index = E at he hbe
      subst hbe
      exact h.end_step E

variable (rectangles) in
/-- The pairs join non-disjoint rectangles and connect what the non-disjoint
pairs connect. -/
def ConnectsIntersecting (arcs : List (Nat × Nat)) : Prop :=
  (∀ a ∈ arcs, Intersecting rectangles a.1 a.2) ∧
    ∀ i j, ReflTransGen (Linked arcs) i j ↔ ReflTransGen (Intersecting rectangles) i j

/-- Sound arcs that link every non-disjoint pair connect exactly what those
pairs connect. -/
theorem connectsIntersecting_of {arcs : List (Nat × Nat)}
    (hsound : ∀ a ∈ arcs, Intersecting rectangles a.1 a.2)
    (hlink : ∀ i j, Intersecting rectangles i j → ReflTransGen (Linked arcs) i j) :
    ConnectsIntersecting rectangles arcs := by
  refine ⟨hsound, fun i j => ⟨fun h => h.mono fun a b hab => ?_, fun h => ?_⟩⟩
  · exact hab.elim (hsound _) fun h => intersecting_symm (hsound _ h)
  · rw [← reflTransGen_idem]
    exact h.mono hlink

/-- The spanning forest keeps the guarantee. -/
theorem ConnectsIntersecting.kruskal {kruskal : List (Nat × Nat) → List (Nat × Nat)}
    (hk : SpansArcs kruskal) {arcs : List (Nat × Nat)} (h : ConnectsIntersecting rectangles arcs) :
    ConnectsIntersecting rectangles (kruskal arcs) :=
  ⟨fun a ha => h.1 a ((hk arcs).1 a ha), fun i j => ((hk arcs).2 i j).trans (h.2 i j)⟩

/-- The sweep over the sorted edges of rectangles with area records arcs that
connect exactly what the non-disjoint pairs connect. -/
theorem sweepLoop_connects (hpos : ∀ r ∈ rectangles, 0 < r.sizeX ∧ 0 < r.sizeY)
    {L : List RectangleHorizontalEdge} (hL : EdgesSorted (horizontalEdges rectangles) L) :
    ConnectsIntersecting rectangles (sweepLoop rectangles L.length L [] []) := by
  rw [sweepLoop_eq_foldl _ _ _ _ le_rfl]
  have h := intersectionInv_foldl hpos hL L [] [] [] rfl intersectionInv_nil
  exact connectsIntersecting_of h.sound fun i j hij =>
    h.complete i j (hL.1.mem_iff.mpr (beginEdge_mem hij.1)) (hL.1.mem_iff.mpr (beginEdge_mem hij.2.1)) hij

theorem findPartialRectangleIntersections_connects
    {sortEdges : List RectangleHorizontalEdge → List RectangleHorizontalEdge}
    (hsort : ∀ edges, EdgesSorted edges (sortEdges edges))
    {kruskal : List (Nat × Nat) → List (Nat × Nat)} (hk : SpansArcs kruskal)
    (hpos : ∀ r ∈ rectangles, 0 < r.sizeX ∧ 0 < r.sizeY) :
    ConnectsIntersecting rectangles (findPartialRectangleIntersections sortEdges kruskal rectangles) :=
  (sweepLoop_connects hpos (hsort _)).kruskal hk

end Sweep

/-! ## Rectangles without area -/

section AlsoEmpty

variable {rectangles : List Rectangle}

/-- An entry of `rectangles.enum` is an index of the list with its rectangle. -/
theorem entry_of_mem_enum {p : Nat × Rectangle} (h : p ∈ rectangles.enum) :
    p.1 < rectangles.length ∧ rectangles.getD p.1 getEmpty = p.2 := by
  obtain ⟨hi, e⟩ := List.getElem?_eq_some_iff.mp (List.mem_enum_iff_getElem?.mp h)
  exact ⟨hi, by rw [getD_eq_getElem hi, e]⟩

theorem mem_enum_of_lt {i : Nat} (hi : i < rectangles.length) :
    (i, rectangles.getD i getEmpty) ∈ rectangles.enum :=
  List.mem_enum_iff_getElem?.mpr (by rw [getD_eq_getElem hi]; exact List.getElem?_eq_getElem hi)

theorem lt_of_mem_enum_take {m : Nat} {p : Nat × Rectangle} (h : p ∈ rectangles.enum.take m) :
    p.1 < m := by
  obtain ⟨k, hk, rfl⟩ := List.mem_iff_getElem.mp h
  rw [List.getElem_take, List.getElem_enum]
  rw [List.length_take] at hk
  exact lt_of_lt_of_le hk (min_le_left _ _)

/-- The loop from `first_index_no_area_it` on sorts each rectangle by which of
its sizes are positive. -/
theorem mem_splitByArea {l : List (Nat × Rectangle)} {p : Nat × Rectangle} :
    (p ∈ (splitByArea l).withArea ↔ p ∈ l ∧ 0 < p.2.sizeX ∧ 0 < p.2.sizeY) ∧
      (p ∈ (splitByArea l).horizontalLines ↔ p ∈ l ∧ 0 < p.2.sizeX ∧ ¬ 0 < p.2.sizeY) ∧
      (p ∈ (splitByArea l).verticalLines ↔ p ∈ l ∧ ¬ 0 < p.2.sizeX ∧ 0 < p.2.sizeY) ∧
      (p ∈ (splitByArea l).points ↔ p ∈ l ∧ ¬ 0 < p.2.sizeX ∧ ¬ 0 < p.2.sizeY) := by
  induction l with
  | nil => simp [splitByArea]
  | cons q l ih =>
    obtain ⟨h₁, h₂, h₃, h₄⟩ := ih
    unfold splitByArea
    by_cases hpq : p = q
    · subst hpq
      split_ifs <;> simp_all
    · split_ifs <;> simp_all

/-- Two rectangles without area meet only as a horizontal and a vertical line
that cross. -/
theorem crossing_of_noArea {r o : Rectangle} (hr : 0 ≤ r.sizeX ∧ 0 ≤ r.sizeY)
    (ho : 0 ≤ o.sizeX ∧ 0 ≤ o.sizeY) (hra : ¬ (0 < r.sizeX ∧ 0 < r.sizeY))
    (hoa : ¬ (0 < o.sizeX ∧ 0 < o.sizeY)) (h : r.IsDisjoint o = false) :
    (0 < r.sizeX ∧ ¬ 0 < r.sizeY ∧ ¬ 0 < o.sizeX ∧ 0 < o.sizeY) ∨
      (¬ 0 < r.sizeX ∧ 0 < r.sizeY ∧ 0 < o.sizeX ∧ ¬ 0 < o.sizeY) := by
  simp only [IsDisjoint, Bool.or_eq_false_iff, decide_eq_false_iff_not] at h
  simp only [sizeX, sizeY] at *
  omega

theorem mem_crossingArcs {r : Nat × Rectangle} {others : List (Nat × Rectangle)} {a : Nat × Nat} :
    a ∈ crossingArcs r others ↔ ∃ o ∈ others, r.2.IsDisjoint o.2 = false ∧ a = (r.1, o.1) := by
  simp only [crossingArcs, List.mem_filterMap]
  refine exists_congr fun o => and_congr_right fun _ => ?_
  split_ifs with h <;> simp [h, eq_comm]

theorem intersecting_of_mem_enum {r o : Nat × Rectangle} (hr : r ∈ rectangles.enum)
    (ho : o ∈ rectangles.enum) (h : r.2.IsDisjoint o.2 = false) :
    Intersecting rectangles r.1 o.1 := by
  obtain ⟨hr₁, hr₂⟩ := entry_of_mem_enum hr
  obtain ⟨ho₁, ho₂⟩ := entry_of_mem_enum ho
  exact ⟨hr₁, ho₁, by rw [hr₂, ho₂]; exact h⟩

theorem intersecting_of_mem_crossingArcs {r : Nat × Rectangle} {others : List (Nat × Rectangle)}
    (hr : r ∈ rectangles.enum) (ho : ∀ o ∈ others, o ∈ rectangles.enum) {a : Nat × Nat}
    (ha : a ∈ crossingArcs r others) : Intersecting rectangles a.1 a.2 := by
  obtain ⟨o, ho', hd, rfl⟩ := mem_crossingArcs.mp ha
  exact intersecting_of_mem_enum hr (ho o ho') hd

/-- Arcs between positions of `W`, read back as the indices of the entries
there: sound arcs stay sound, and two entries that meet stay connected. -/
theorem readBack_connects {W : List (Nat × Rectangle)} (hW : ∀ p ∈ W, p ∈ rectangles.enum)
    {arcs : List (Nat × Nat)} (h : ConnectsIntersecting (W.map (·.2)) arcs) :
    (∀ a ∈ arcs, Intersecting rectangles (W.getD a.1 (0, getEmpty)).1 (W.getD a.2 (0, getEmpty)).1) ∧
      ∀ p ∈ W, ∀ q ∈ W, p.2.IsDisjoint q.2 = false →
        ReflTransGen (Linked (arcs.map fun a => ((W.getD a.1 (0, getEmpty)).1,
          (W.getD a.2 (0, getEmpty)).1))) p.1 q.1 := by
  have hget : ∀ m (hm : m < W.length), W.getD m (0, getEmpty) = W[m] ∧
      (W.map (·.2)).getD m getEmpty = W[m].2 := fun m hm => by
    simp [List.getD_eq_getElem?_getD, List.getElem?_eq_getElem hm]
  refine ⟨fun a ha => ?_, fun p hp q hq hd => ?_⟩
  · obtain ⟨hm, hm', hd⟩ := h.1 a ha
    rw [List.length_map] at hm hm'
    rw [(hget _ hm).2, (hget _ hm').2] at hd
    rw [(hget _ hm).1, (hget _ hm').1]
    exact intersecting_of_mem_enum (hW _ (List.getElem_mem hm)) (hW _ (List.getElem_mem hm')) hd
  · obtain ⟨m, hm, rfl⟩ := List.mem_iff_getElem.mp hp
    obtain ⟨m', hm', rfl⟩ := List.mem_iff_getElem.mp hq
    have hI : Intersecting (W.map (·.2)) m m' := ⟨by simpa using hm, by simpa using hm',
      by rw [(hget m hm).2, (hget m' hm').2]; exact hd⟩
    have := ((h.2 m m').mpr (.single hI)).lift (fun m => (W.getD m (0, getEmpty)).1)
      fun _ _ hab => linked_map (fun m => (W.getD m (0, getEmpty)).1) hab
    dsimp only at this
    rwa [(hget m hm).1, (hget m' hm').1] at this

section Split

variable {first : Nat} (hfind : rectangles.findIdx? noArea = some first)
  (hsz : ∀ r ∈ rectangles, 0 ≤ r.sizeX ∧ 0 ≤ r.sizeY)
include hfind hsz

/-- The rectangles before `first_index_no_area_it` all have area. -/
theorem area_of_mem_enum_take {p : Nat × Rectangle} (hp : p ∈ rectangles.enum.take first) :
    0 < p.2.sizeX ∧ 0 < p.2.sizeY := by
  obtain ⟨hn, he⟩ := entry_of_mem_enum ((List.take_sublist _ _).subset hp)
  have hmin := (List.findIdx?_eq_some_iff_getElem.mp hfind).2.2 p.1 (lt_of_mem_enum_take hp)
  have := hsz _ (getD_mem_of_lt hn)
  rw [getD_eq_getElem hn] at he this
  rw [← he]
  simp only [noArea, sizeX, sizeY, Bool.or_eq_true, decide_eq_true_eq, not_or] at hmin this ⊢
  omega

/-- The sweep runs on the entries with area. -/
theorem mem_withArea_iff {p : Nat × Rectangle} :
    p ∈ rectangles.enum.take first ++ (splitByArea (rectangles.enum.drop first)).withArea ↔
      p ∈ rectangles.enum ∧ 0 < p.2.sizeX ∧ 0 < p.2.sizeY := by
  rw [List.mem_append, mem_splitByArea.1]
  constructor
  · rintro (h | h)
    · exact ⟨(List.take_sublist _ _).subset h, area_of_mem_enum_take hfind hsz h⟩
    · exact ⟨(List.drop_sublist _ _).subset h.1, h.2⟩
  · rintro ⟨h, ha⟩
    rw [← List.take_append_drop first rectangles.enum, List.mem_append] at h
    exact h.imp_right fun h => ⟨h, ha⟩

/-- An entry without area lies from `first_index_no_area_it` on. -/
theorem mem_enum_drop_of_noArea {p : Nat × Rectangle} (hp : p ∈ rectangles.enum)
    (ha : ¬ (0 < p.2.sizeX ∧ 0 < p.2.sizeY)) : p ∈ rectangles.enum.drop first := by
  rw [← List.take_append_drop first rectangles.enum, List.mem_append] at hp
  exact hp.resolve_left fun h => ha (area_of_mem_enum_take hfind hsz h)

/-- An entry without area is a vertical line, a horizontal line or a point. -/
theorem mem_lines_of_noArea {p : Nat × Rectangle} (hp : p ∈ rectangles.enum)
    (ha : ¬ (0 < p.2.sizeX ∧ 0 < p.2.sizeY)) :
    p ∈ (splitByArea (rectangles.enum.drop first)).verticalLines ∨
      p ∈ (splitByArea (rectangles.enum.drop first)).horizontalLines ∨
      p ∈ (splitByArea (rectangles.enum.drop first)).points := by
  simp only [mem_splitByArea.2.1, mem_splitByArea.2.2.1, mem_splitByArea.2.2.2,
    mem_enum_drop_of_noArea hfind hsz hp ha, true_and]
  omega

end Split

theorem less_total (a b : RectangleHorizontalEdge) : b.Less a = false ∨ a.Less b = false := by
  rcases a with ⟨x, i, _ | _⟩ <;> rcases b with ⟨x', i', _ | _⟩ <;>
    simp [RectangleHorizontalEdge.Less, EdgeType.toNat] <;> omega

theorem less_trans {a b c : RectangleHorizontalEdge} (h₁ : b.Less a = false) (h₂ : c.Less b = false) :
    c.Less a = false := by
  rcases a with ⟨x, i, _ | _⟩ <;> rcases b with ⟨x', i', _ | _⟩ <;> rcases c with ⟨x'', i'', _ | _⟩ <;>
    simp [RectangleHorizontalEdge.Less, EdgeType.toNat] at * <;> omega

/-- `std::sort` with the edge comparator, run as an insertion sort. -/
theorem edgesSorted_insertionSort (l : List RectangleHorizontalEdge) :
    EdgesSorted l (l.insertionSort fun a b => b.Less a = false) := by
  have : IsTotal RectangleHorizontalEdge fun a b => b.Less a = false := ⟨less_total⟩
  have : IsTrans RectangleHorizontalEdge fun a b => b.Less a = false := ⟨fun _ _ _ => less_trans⟩
  exact ⟨List.perm_insertionSort _ _, List.sorted_insertionSort _ _⟩

/-- Keeping every arc is a spanning forest in the sense asked of Kruskal. -/
theorem spansArcs_id : SpansArcs id := fun _ => ⟨fun _ h => h, fun _ _ => Iff.rfl⟩

/-- The sweep records the arc `0 – 1`; the vertical line `x = 1` meets the
first rectangle and only touches the side of the second. -/
example : findPartialRectangleIntersectionsAlsoEmpty (List.insertionSort fun a b => b.Less a = false) id
    [⟨0, 2, 0, 2⟩, ⟨1, 3, 1, 3⟩, ⟨1, 1, 0, 3⟩] = [(0, 1), (0, 2)] := by decide

end AlsoEmpty

end OrTools.Sat

import OrTools.Sat.PartialIntersections

/-!
# The set of pieces, point by point

`interval_set` is read through the owner of each point: `ownerIn l y` is the
rectangle whose piece holds `y`.  Between two operations the set is made of
`Pieces`: non-empty, sorted and disjoint, so a point has at most one piece.

The end of a rectangle erases exactly its pieces.  The begin of a rectangle `t`
whose y-span holds `y` gives `y` to the rectangle, of `t` and the former owner,
that ends further right (`middleIndex`), or to `t` when `y` had no owner; it
records an arc from `t` to every former owner of a point of its span, and to no
other rectangle.  The insertion loop is specified by the owner it leaves for
each point once what is left of `to_insert` has gone in: the owner the pieces
before the iterator give, or else the owner `to_insert` merged into the pieces
from the iterator on gives (`mergedOwner`).  One lemma says what a piece that
meets `to_insert` is cut into; both invariants of the loop follow from it.
-/

set_option autoImplicit false

namespace OrTools.Sat

open Rectangle

/-! ## Owners -/

/-- The piece holds the point `y`. -/
def Interval.Covers (p : Interval) (y : Int) : Prop := p.start ≤ y ∧ y < p.end

instance (p : Interval) (y : Int) : Decidable (p.Covers y) := inferInstanceAs (Decidable (_ ∧ _))

/-- The rectangle whose piece holds `y`, the first such piece of the list. -/
def ownerIn (l : List Interval) (y : Int) : Option Nat :=
  (l.find? fun p => decide (p.Covers y)).map (·.index)

@[simp] theorem ownerIn_nil (y : Int) : ownerIn [] y = none := rfl

theorem ownerIn_cons (p : Interval) (l : List Interval) (y : Int) :
    ownerIn (p :: l) y = if p.Covers y then some p.index else ownerIn l y := by
  by_cases h : p.Covers y <;> simp [ownerIn, List.find?_cons, h]

theorem ownerIn_append (l₁ l₂ : List Interval) (y : Int) :
    ownerIn (l₁ ++ l₂) y = (ownerIn l₁ y).or (ownerIn l₂ y) := by
  induction l₁ with
  | nil => rfl
  | cons p l ih => rw [List.cons_append, ownerIn_cons, ownerIn_cons, ih]; split <;> rfl

theorem ownerIn_eq_none {l : List Interval} {y : Int} :
    ownerIn l y = none ↔ ∀ p ∈ l, ¬ p.Covers y := by
  simp [ownerIn, List.find?_eq_none]

theorem exists_of_ownerIn_eq_some {l : List Interval} {y : Int} {k : Nat}
    (h : ownerIn l y = some k) : ∃ p ∈ l, p.Covers y ∧ p.index = k := by
  simp only [ownerIn, Option.map_eq_some'] at h
  obtain ⟨p, hp, rfl⟩ := h
  exact ⟨p, List.mem_of_find?_eq_some hp, by simpa using List.find?_some hp, rfl⟩

/-- No piece of the list starts at `y` or below. -/
theorem ownerIn_of_lt_start {l : List Interval} {y : Int} (h : ∀ p ∈ l, y < p.start) :
    ownerIn l y = none :=
  ownerIn_eq_none.mpr fun p hp hc => absurd hc.1 (not_le.mpr (h p hp))

/-- What `std::set<Interval>` holds between two operations: non-empty pieces,
sorted and disjoint. -/
structure Pieces (l : List Interval) : Prop where
  nonempty : ∀ p ∈ l, p.start < p.end
  sorted : l.Pairwise fun p q => p.end ≤ q.start

theorem Pieces.sublist {l l' : List Interval} (h : Pieces l) (hs : l'.Sublist l) : Pieces l' :=
  ⟨fun p hp => h.nonempty p (hs.subset hp), h.sorted.sublist hs⟩

theorem pieces_append {l₁ l₂ : List Interval} :
    Pieces (l₁ ++ l₂) ↔ Pieces l₁ ∧ Pieces l₂ ∧ ∀ p ∈ l₁, ∀ q ∈ l₂, p.end ≤ q.start := by
  constructor
  · intro h
    exact ⟨h.sublist (List.sublist_append_left _ _), h.sublist (List.sublist_append_right _ _),
      (List.pairwise_append.mp h.sorted).2.2⟩
  · rintro ⟨h₁, h₂, h⟩
    exact ⟨fun p hp => (List.mem_append.mp hp).elim (h₁.nonempty p) (h₂.nonempty p),
      List.pairwise_append.mpr ⟨h₁.sorted, h₂.sorted, h⟩⟩

theorem pieces_cons {p : Interval} {l : List Interval} :
    Pieces (p :: l) ↔ p.start < p.end ∧ (∀ q ∈ l, p.end ≤ q.start) ∧ Pieces l := by
  constructor
  · intro h
    exact ⟨h.nonempty p (List.mem_cons_self _ _), (List.pairwise_cons.mp h.sorted).1,
      h.sublist (List.sublist_cons_self _ _)⟩
  · rintro ⟨hp, hl, h⟩
    exact ⟨fun q hq => (List.mem_cons.mp hq).elim (fun e => e ▸ hp) (h.nonempty q),
      List.pairwise_cons.mpr ⟨hl, h.sorted⟩⟩

/-- In a set of pieces the piece holding a point gives its owner. -/
theorem Pieces.ownerIn_of_mem {l : List Interval} (h : Pieces l) {p : Interval} (hp : p ∈ l)
    {y : Int} (hy : p.Covers y) : ownerIn l y = some p.index := by
  induction l with
  | nil => cases hp
  | cons q l ih =>
    rw [ownerIn_cons]
    rcases List.mem_cons.mp hp with rfl | hp
    · rw [if_pos hy]
    · have hqp := (List.pairwise_cons.mp h.sorted).1 p hp
      have hq := h.nonempty q (List.mem_cons_self _ _)
      rw [if_neg fun hq' => by unfold Interval.Covers at hy hq'; omega]
      exact ih (h.sublist (List.sublist_cons_self _ _)) hp

/-! ## Inserting into the set and the arcs -/

theorem insertInterval_append {x : Interval} {l₁ : List Interval} (h : ∀ p ∈ l₁, p.start < x.start)
    (l₂ : List Interval) : insertInterval x (l₁ ++ l₂) = l₁ ++ insertInterval x l₂ := by
  induction l₁ with
  | nil => rfl
  | cons p l ih =>
    have hp := h p (List.mem_cons_self _ _)
    rw [List.cons_append, insertInterval, if_neg (by omega), if_neg (by omega),
      ih fun q hq => h q (List.mem_cons_of_mem _ hq), List.cons_append]

theorem insertInterval_of_lt {x : Interval} {l : List Interval}
    (h : ∀ q ∈ l.head?, x.start < q.start) : insertInterval x l = x :: l := by
  cases l with
  | nil => rfl
  | cons y ys => rw [insertInterval, if_pos (h y rfl)]

/-- A piece that starts after every piece goes last. -/
theorem insertInterval_of_start_lt {x : Interval} {l : List Interval}
    (h : ∀ p ∈ l, p.start < x.start) : insertInterval x l = l ++ [x] := by
  simpa using insertInterval_append h []

/-- A piece inserted before the iterator stays before it. -/
theorem insertAt_of_lt {x : Interval} {done rest : List Interval}
    (h : ∀ q ∈ rest.head?, x.start < q.start) : insertAt x done rest = (insertInterval x done, rest) := by
  cases rest with
  | nil => rfl
  | cons y ys => simp only [insertAt, if_pos (h y rfl)]

theorem mem_insertArc {arc a : Nat × Nat} {l : List (Nat × Nat)} :
    a ∈ insertArc arc l ↔ a = arc ∨ a ∈ l := by
  induction l with
  | nil => simp [insertArc]
  | cons b l ih =>
    unfold insertArc
    split_ifs with h₁ h₂
    · exact List.mem_cons
    · subst h₂; simp
    · rw [List.mem_cons, List.mem_cons, ih]
      exact or_left_comm

/-! ## An end -/

/-- The erasing loop removes the pieces of `E` when all of them start below
`yMax`. -/
theorem removePieces_spec (E : Nat) (yMax : Int) : ∀ {l : List Interval}, Pieces l →
    (∀ p ∈ l, p.index = E → p.start < yMax) →
    (removePieces E yMax l).Sublist l ∧
      ∀ y, ownerIn (removePieces E yMax l) y = if ownerIn l y = some E then none else ownerIn l y
  | [], _, _ => ⟨.slnil, fun _ => rfl⟩
  | current :: rest, h, hE => by
    have hrest := h.sublist (List.sublist_cons_self _ _)
    have hcur := h.nonempty current (List.mem_cons_self _ _)
    have hafter := (List.pairwise_cons.mp h.sorted).1
    obtain ⟨ihs, ih⟩ := removePieces_spec E yMax hrest fun p hp => hE p (List.mem_cons_of_mem _ hp)
    simp only [removePieces]
    split_ifs with hge hidx
    · refine ⟨.refl _, fun y => ?_⟩
      rw [if_neg fun hy => ?_]
      obtain ⟨p, hp, -, rfl⟩ := exists_of_ownerIn_eq_some hy
      have := hE p hp rfl
      rcases List.mem_cons.mp hp with rfl | hp
      · omega
      · have := hafter p hp; omega
    · refine ⟨(ihs.trans (List.sublist_cons_self _ _)), fun y => ?_⟩
      rw [ih y, ownerIn_cons]
      by_cases hy : current.Covers y
      · have : ownerIn rest y = none := ownerIn_of_lt_start fun p hp => by
          have := hafter p hp; unfold Interval.Covers at hy; omega
        simp [hy, hidx, this]
      · simp [hy]
    · refine ⟨ihs.cons₂ _, fun y => ?_⟩
      rw [ownerIn_cons, ownerIn_cons, ih y]
      by_cases hy : current.Covers y
      · simp [hy, hidx]
      · simp [hy]

/-- The end of `E`, whose pieces lie in its y-span, erases exactly them. -/
theorem removeRectangle_spec (rectangles : List Rectangle) (E : Nat) {S : List Interval}
    (hS : Pieces S) (hE : ∀ y, ownerIn S y = some E →
      (rectangles.getD E getEmpty).yMin ≤ y ∧ y < (rectangles.getD E getEmpty).yMax) :
    Pieces (removeRectangle rectangles E S) ∧
      ∀ y, ownerIn (removeRectangle rectangles E S) y =
        if ownerIn S y = some E then none else ownerIn S y := by
  set r := rectangles.getD E getEmpty
  set before := S.takeWhile fun i => i.start < r.yMin
  set after := S.dropWhile fun i => i.start < r.yMin
  have hsplit : before ++ after = S := List.takeWhile_append_dropWhile _ _
  have hmem : ∀ p ∈ S, p.index = E → r.yMin ≤ p.start ∧ p.start < r.yMax := fun p hp hpE =>
    hE p.start (hpE ▸ hS.ownerIn_of_mem hp ⟨le_rfl, hS.nonempty p hp⟩)
  have hpieces := pieces_append.mp (hsplit ▸ hS)
  obtain ⟨hsub, hown⟩ := removePieces_spec E r.yMax hpieces.2.1 fun p hp hpE =>
    (hmem p ((List.dropWhile_sublist _).subset hp) hpE).2
  have hbefore : ∀ p ∈ before, p.index ≠ E := fun p hp hpE => by
    have := List.mem_takeWhile_imp hp
    have := (hmem p ((List.takeWhile_sublist _).subset hp) hpE).1
    simp only [decide_eq_true_eq] at *; omega
  have hdef : removeRectangle rectangles E S = before ++ removePieces E r.yMax after := by
    simp only [removeRectangle, List.span_eq_take_drop]
  rw [hdef]
  refine ⟨pieces_append.mpr ⟨hpieces.1, hpieces.2.1.sublist hsub,
    fun p hp q hq => hpieces.2.2 p hp q (hsub.subset hq)⟩, fun y => ?_⟩
  conv_rhs => rw [← hsplit]
  rw [ownerIn_append, ownerIn_append, hown y]
  cases hb : ownerIn before y with
  | none => rfl
  | some k =>
    obtain ⟨p, hp, -, rfl⟩ := exists_of_ownerIn_eq_some hb
    simp [hbefore p hp]

/-! ## A begin -/

section Begin

variable (rectangles : List Rectangle)

/-- The owner of `y` once `toInsert` has gone into the pieces `l`: a point of
`toInsert` keeps or changes its owner by `middleIndex`, or gets `toInsert`'s when
it had none. -/
def mergedOwner (toInsert : Interval) (l : List Interval) (y : Int) : Option Nat :=
  if toInsert.Covers y then
    some ((ownerIn l y).elim toInsert.index (middleIndex rectangles toInsert.index))
  else ownerIn l y

variable {rectangles}

/-- Rectangle `k` owns a point of `toInsert` in the pieces `l`. -/
def Meets (toInsert : Interval) (l : List Interval) (k : Nat) : Prop :=
  ∃ y, toInsert.Covers y ∧ ownerIn l y = some k

/-- Pieces that end before `toInsert` starts are untouched by the merge. -/
theorem mergedOwner_append {T : Interval} {D : List Interval} (hD : ∀ p ∈ D, p.end ≤ T.start)
    (R : List Interval) (y : Int) :
    (ownerIn D y).or (mergedOwner rectangles T R y) = mergedOwner rectangles T (D ++ R) y := by
  unfold mergedOwner
  rw [ownerIn_append]
  split_ifs with hy
  · rw [ownerIn_eq_none.mpr fun p hp hc => absurd (hD p hp) (by unfold Interval.Covers at hy hc; omega)]
    rfl
  · rfl

theorem meets_append {T : Interval} {D : List Interval} (hD : ∀ p ∈ D, p.end ≤ T.start)
    (R : List Interval) (k : Nat) : Meets T (D ++ R) k ↔ Meets T R k := by
  refine exists_congr fun y => and_congr_right fun hy => ?_
  rw [ownerIn_append, ownerIn_eq_none.mpr fun p hp hc => absurd (hD p hp)
    (by unfold Interval.Covers at hy hc; omega)]
  rfl

/-- Before pieces that start after it ends, `toInsert` merges as one more
piece. -/
theorem mergedOwner_of_le_start {T : Interval} {R : List Interval}
    (hR : ∀ p ∈ R, T.end ≤ p.start) (y : Int) :
    mergedOwner rectangles T R y = ownerIn (T :: R) y := by
  unfold mergedOwner
  rw [ownerIn_cons]
  split_ifs with hy
  · rw [ownerIn_of_lt_start fun p hp => by have := hR p hp; unfold Interval.Covers at hy; omega]
    rfl
  · rfl

theorem not_meets_of_le_start {T : Interval} {R : List Interval}
    (hR : ∀ p ∈ R, T.end ≤ p.start) (k : Nat) : ¬ Meets T R k := by
  rintro ⟨y, hy, hk⟩
  rw [ownerIn_of_lt_start fun p hp => by have := hR p hp; unfold Interval.Covers at hy; omega] at hk
  cases hk

/-- An empty `toInsert` changes no owner. -/
theorem mergedOwner_of_not_lt {T : Interval} (h : ¬ T.start < T.end) (R : List Interval) (y : Int) :
    mergedOwner rectangles T R y = ownerIn R y :=
  if_neg fun hy => h (by unfold Interval.Covers at hy; omega)

theorem not_meets_of_not_lt {T : Interval} (h : ¬ T.start < T.end) (R : List Interval) (k : Nat) :
    ¬ Meets T R k :=
  fun ⟨_, hy, _⟩ => h (by unfold Interval.Covers at hy; omega)

/-- The points of the pieces that follow a piece `P` lie after it. -/
theorem ownerIn_of_lt_end {P : Interval} {R : List Interval} (hR : ∀ q ∈ R, P.end ≤ q.start)
    {y : Int} (hy : y < P.end) : ownerIn R y = none :=
  ownerIn_of_lt_start fun q hq => lt_of_lt_of_le hy (hR q hq)

theorem le_of_ownerIn_eq_some {P : Interval} {R : List Interval} (hR : ∀ q ∈ R, P.end ≤ q.start)
    {y : Int} {k : Nat} (h : ownerIn R y = some k) : P.end ≤ y :=
  not_lt.mp fun hy => by rw [ownerIn_of_lt_end hR hy] at h; cases h

/-- The pieces `X` a piece `P` meeting `toInsert` is cut into, followed by the
new `to_insert` from `c` to the further end, give the points of `P` and of
`toInsert` the owners the merge gives them. -/
theorem mergedOwner_overlap {P T : Interval} {R X : List Interval} {c : Int}
    (h₁ : T.start < P.end) (h₂ : P.start < T.end) (hR : ∀ q ∈ R, P.end ≤ q.start)
    (hX : ∀ y, ownerIn X y = if min P.start T.start ≤ y ∧ y < c then
      some (if y < max P.start T.start then firstIndex P T else middleIndex rectangles T.index P.index)
      else none)
    (hc : max P.start T.start ≤ c ∧ c ≤ min P.end T.end)
    (hlast : c < min P.end T.end → lastIndex P T = middleIndex rectangles T.index P.index) (y : Int) :
    (ownerIn X y).or (mergedOwner rectangles ⟨c, max P.end T.end, lastIndex P T⟩ R y) =
      mergedOwner rectangles T (P :: R) y := by
  have hP : T.end < P.end → lastIndex P T = P.index := fun h => if_pos h
  have hT : P.end ≤ T.end → lastIndex P T = T.index := fun h => if_neg (not_lt.mpr h)
  rw [hX]
  unfold mergedOwner
  rw [ownerIn_cons]
  by_cases hy : y < P.end
  · rw [ownerIn_of_lt_end hR hy]
    simp only [Interval.Covers, firstIndex]
    split_ifs <;> first | rfl | omega | exact congrArg some (hlast (by omega)) |
      exact congrArg some (hP (by omega))
  · simp only [Interval.Covers, if_neg (show ¬ (P.start ≤ y ∧ y < P.end) by omega)]
    split_ifs <;> first | rfl | omega | rw [hT (by omega)]; rfl

/-- A point the merge gives an owner goes to `toInsert` or keeps its owner. -/
theorem mergedOwner_eq_some {T : Interval} {l : List Interval} {y : Int} {k : Nat}
    (h : mergedOwner rectangles T l y = some k) : (T.Covers y ∧ k = T.index) ∨ ownerIn l y = some k := by
  unfold mergedOwner at h
  split_ifs at h with hy
  · cases hl : ownerIn l y with
    | none => rw [hl] at h; exact .inl ⟨hy, (Option.some.inj h).symm⟩
    | some k' =>
      rw [hl] at h
      simp only [Option.elim, middleIndex, Option.some.injEq] at h
      split_ifs at h
      · exact .inr (congrArg some h)
      · exact .inl ⟨hy, h.symm⟩
  · exact .inr h

/-- The rectangles that own a point of `toInsert` after a piece `P` that meets
it are `P`'s and those after it. -/
theorem meets_cons_overlap {P T : Interval} {R : List Interval} (h₁ : T.start < P.end)
    (h₂ : P.start < T.end) (hP : P.start < P.end) (hT : T.start < T.end)
    (hR : ∀ q ∈ R, P.end ≤ q.start) (k : Nat) :
    Meets T (P :: R) k ↔ k = P.index ∨ Meets T R k := by
  constructor
  · rintro ⟨y, hy, hk⟩
    rw [ownerIn_cons] at hk
    split_ifs at hk
    · exact .inl (Option.some.inj hk).symm
    · exact .inr ⟨y, hy, hk⟩
  · rintro (rfl | ⟨y, hy, hk⟩)
    · refine ⟨max P.start T.start, by unfold Interval.Covers; omega, ?_⟩
      rw [ownerIn_cons, if_pos (by unfold Interval.Covers; omega)]
    · have := le_of_ownerIn_eq_some hR hk
      exact ⟨y, hy, by rw [ownerIn_cons, if_neg (by unfold Interval.Covers; omega), hk]⟩

/-- After a cut, the new `to_insert` meets the pieces after `P` that the old
one met. -/
theorem meets_after_overlap {P T : Interval} {R : List Interval} {c : Int} {i : Nat}
    (hc : T.start ≤ c ∧ c ≤ P.end) (hR : ∀ q ∈ R, P.end ≤ q.start) (k : Nat) :
    Meets ⟨c, max P.end T.end, i⟩ R k ↔ Meets T R k := by
  refine exists_congr fun y => ⟨fun ⟨hy, hk⟩ => ⟨?_, hk⟩, fun ⟨hy, hk⟩ => ⟨?_, hk⟩⟩
  all_goals
    have := le_of_ownerIn_eq_some hR hk
    unfold Interval.Covers at hy ⊢
    dsimp only at hy ⊢
    omega

theorem sortPoints_eq {a b c d : Int} (hab : a < b) (hcd : c < d) (hcb : c < b) (had : a < d) :
    sortPoints a b c d = [min a c, max a c, min b d, max b d] := by
  have hbc : ¬ b ≤ c := not_le.mpr hcb
  simp only [sortPoints, List.insertionSort, List.orderedInsert, if_pos hcd.le, if_neg hbc]
  by_cases h₁ : a ≤ c <;> by_cases h₂ : b ≤ d <;>
    simp [h₁, h₂, hab.le, had.le, List.orderedInsert] <;> omega

theorem pieces_singleton {p : Interval} (h : p.start < p.end) : Pieces [p] :=
  ⟨by simpa using h, List.pairwise_singleton _ _⟩

theorem pieces_pair {p q : Interval} (hp : p.start < p.end) (hq : q.start < q.end)
    (h : p.end ≤ q.start) : Pieces [p, q] :=
  ⟨by simp [hp, hq], by simpa using h⟩

variable (rectangles) in
/-- One turn of the loop on a piece `P` that meets `toInsert`: the pieces `X`
it leaves before the iterator, the start `c` of the new `to_insert`, and the
arc it records.  The three shapes of the code (`P` and `toInsert` start
together; `P` starts first, with or without the merge of parts 2 and 3;
`toInsert` starts first) all fit this one statement. -/
theorem insertLoop_overlap (b fuel : Nat) {D R : List Interval} {P T : Interval}
    {A : List (Nat × Nat)}
    (hP : P.start < P.end) (hT : T.start < T.end) (h₁ : T.start < P.end) (h₂ : P.start < T.end)
    (hD : ∀ p ∈ D, p.start < T.start) (hR : ∀ q ∈ R, P.end ≤ q.start) :
    ∃ X c, insertLoop rectangles b (fuel + 1) D (P :: R) T A =
        insertLoop rectangles b fuel (D ++ X) R ⟨c, max P.end T.end, lastIndex P T⟩
          (if T.index = b then insertArc (min T.index P.index, max T.index P.index) A else A) ∧
      Pieces X ∧ (∀ x ∈ X, min P.start T.start ≤ x.start ∧ x.end ≤ c) ∧
      (∀ y, ownerIn X y = if min P.start T.start ≤ y ∧ y < c then
        some (if y < max P.start T.start then firstIndex P T else middleIndex rectangles T.index P.index)
        else none) ∧
      (max P.start T.start ≤ c ∧ c ≤ min P.end T.end) ∧
      (c < min P.end T.end → lastIndex P T = middleIndex rectangles T.index P.index) := by
  have hne : ¬ T.start = T.end := by omega
  have h₁' : ¬ P.end ≤ T.start := by omega
  have h₂' : ¬ P.start ≥ T.end := by omega
  have hhead : ∀ x : Interval, x.start < P.end → ∀ q ∈ R.head?, x.start < q.start :=
    fun x hx q hq => lt_of_lt_of_le hx (hR q (List.mem_of_mem_head? hq))
  simp only [insertLoop, if_neg hne, if_neg h₁', if_neg h₂', sortPoints_eq hP hT h₁ h₂,
    List.getD_cons_zero, List.getD_cons_succ]
  by_cases hs : P.start = T.start
  · -- `P` and `toInsert` start together: `P` becomes the middle part.
    rw [if_pos (by omega)]
    refine ⟨_, _, rfl, pieces_singleton (by dsimp only; omega), by simp, fun y => ?_,
      by omega, by omega⟩
    simp only [ownerIn_cons, ownerIn_nil, Interval.Covers, middleIndex]
    (repeat' split) <;> first | rfl | omega
  rw [if_neg (by omega)]
  by_cases hlt : P.start < T.start
  · -- `P` starts first: `P` becomes the first part.
    rw [if_pos (by omega)]
    by_cases hml : middleIndex rectangles T.index P.index = lastIndex P T
    · rw [if_pos hml]
      refine ⟨_, _, rfl, pieces_singleton (by dsimp only; omega), by simp; omega, fun y => ?_,
        by omega, fun _ => hml.symm⟩
      simp only [ownerIn_cons, ownerIn_nil, Interval.Covers, firstIndex, middleIndex]
      (repeat' split) <;> first | rfl | omega
    rw [if_neg hml, insertAt_of_lt (hhead _ (by dsimp only; omega)),
      insertInterval_of_start_lt (fun p hp => ?_), List.append_assoc, List.singleton_append]
    · refine ⟨_, _, rfl, pieces_pair (by dsimp only; omega) (by dsimp only; omega)
        (by dsimp only; omega), by simp; omega, fun y => ?_, by omega, by omega⟩
      simp only [ownerIn_cons, ownerIn_nil, Interval.Covers, firstIndex, middleIndex]
      (repeat' split) <;> first | rfl | omega
    rcases List.mem_append.mp hp with hp | hp
    · exact lt_of_lt_of_le (hD p hp) (by dsimp only; omega)
    · rw [List.mem_singleton.mp hp]; dsimp only; omega
  -- `toInsert` starts first: a first part goes in before `P`, the middle part.
  rw [if_neg (by omega), insertAt_of_lt (hhead _ (by dsimp only; omega)),
    insertInterval_append (fun p hp => lt_of_lt_of_le (hD p hp) (by dsimp only; omega)),
    insertInterval_of_lt fun q hq => by
      rw [List.head?_cons, Option.mem_some_iff] at hq; subst hq; dsimp only; omega]
  refine ⟨_, _, rfl, pieces_pair (by dsimp only; omega) (by dsimp only; omega)
    (by dsimp only; omega), by simp; omega, fun y => ?_, by omega, by omega⟩
  simp only [ownerIn_cons, ownerIn_nil, Interval.Covers, firstIndex, middleIndex]
  (repeat' split) <;> first | rfl | omega

/-- What holds at each turn of the loop: the set is made of pieces, those
before the iterator end before `to_insert` starts, and `to_insert` is not
reversed. -/
structure InsertInv (done rest : List Interval) (toInsert : Interval) : Prop where
  pieces : Pieces (done ++ rest)
  done_le : ∀ p ∈ done, p.end ≤ toInsert.start
  le : toInsert.start ≤ toInsert.end

theorem InsertInv.done_start_lt {D R : List Interval} {T : Interval} (h : InsertInv D R T) :
    ∀ p ∈ D, p.start < T.start := fun p hp =>
  lt_of_lt_of_le ((pieces_append.mp h.pieces).1.nonempty p hp) (h.done_le p hp)

theorem InsertInv.head {D R : List Interval} {P T : Interval} (h : InsertInv D (P :: R) T) :
    P.start < P.end ∧ ∀ q ∈ R, P.end ≤ q.start :=
  have hPR := pieces_cons.mp (pieces_append.mp h.pieces).2.1
  ⟨hPR.1, hPR.2.1⟩

theorem InsertInv.skip {D R : List Interval} {P T : Interval} (h : InsertInv D (P :: R) T)
    (hP : P.end ≤ T.start) : InsertInv (D ++ [P]) R T :=
  ⟨by simpa using h.pieces, fun p hp => (List.mem_append.mp hp).elim (h.done_le p)
    fun hp => List.mem_singleton.mp hp ▸ hP, h.le⟩

theorem InsertInv.overlap {D R X : List Interval} {P T : Interval} {c : Int} {i : Nat}
    (h : InsertInv D (P :: R) T) (hX : Pieces X)
    (hXb : ∀ x ∈ X, min P.start T.start ≤ x.start ∧ x.end ≤ c)
    (hc : max P.start T.start ≤ c ∧ c ≤ min P.end T.end) :
    InsertInv (D ++ X) R ⟨c, max P.end T.end, i⟩ := by
  obtain ⟨hD, hPR, hDP⟩ := pieces_append.mp h.pieces
  have hR := (List.pairwise_cons.mp hPR.sorted).1
  have hDle : ∀ p ∈ D, p.end ≤ min P.start T.start := fun p hp =>
    le_min (hDP p hp P (List.mem_cons_self _ _)) (h.done_le p hp)
  refine ⟨?_, fun p hp => ?_, by dsimp only; omega⟩
  · rw [List.append_assoc]
    refine pieces_append.mpr ⟨hD, pieces_append.mpr ⟨hX, hPR.sublist (List.sublist_cons_self _ _),
      fun x hx q hq => ?_⟩, fun p hp q hq => ?_⟩
    · have := hXb x hx; have := hR q hq; omega
    · rcases List.mem_append.mp hq with hq | hq
      · have := hDle p hp; have := hXb q hq; omega
      · exact hDP p hp q (List.mem_cons_of_mem _ hq)
  · rcases List.mem_append.mp hp with hp | hp
    · have := h.done_le p hp; dsimp only; omega
    · exact (hXb p hp).2

/-- The owners the loop leaves, once what is left of `to_insert` has gone in:
those of the pieces before the iterator, else those of the merge. -/
theorem insertLoop_owner (b : Nat) : ∀ (R D : List Interval) (T : Interval) (A : List (Nat × Nat)),
    InsertInv D R T →
      Pieces (insertRest (insertLoop rectangles b R.length D R T A).2.1
        (insertLoop rectangles b R.length D R T A).1) ∧
      ∀ y, ownerIn (insertRest (insertLoop rectangles b R.length D R T A).2.1
        (insertLoop rectangles b R.length D R T A).1) y =
        (ownerIn D y).or (mergedOwner rectangles T R y)
  | [], D, T, A, h => by
    have hD : Pieces D := by simpa using h.pieces
    simp only [List.length_nil, insertLoop, List.append_nil, insertRest]
    split_ifs with hT
    · rw [insertInterval_of_start_lt h.done_start_lt]
      exact ⟨pieces_append.mpr ⟨hD, pieces_singleton hT, fun p hp q hq =>
        List.mem_singleton.mp hq ▸ h.done_le p hp⟩, fun y => by
          rw [ownerIn_append, mergedOwner_of_le_start (R := []) (by simp)]⟩
    · exact ⟨hD, fun y => by rw [mergedOwner_of_not_lt hT, ownerIn_nil, Option.or_none]⟩
  | P :: R, D, T, A, h => by
    obtain ⟨hP, hR⟩ := h.head
    rw [List.length_cons]
    by_cases hT0 : T.start = T.end
    · simp only [insertLoop, if_pos hT0, insertRest, if_neg (show ¬ T.start < T.end by omega)]
      exact ⟨h.pieces, fun y => by rw [mergedOwner_of_not_lt (by omega), ownerIn_append]⟩
    by_cases hskip : P.end ≤ T.start
    · simp only [insertLoop, if_neg hT0, if_pos hskip]
      obtain ⟨hp, ho⟩ := insertLoop_owner b R (D ++ [P]) T A (h.skip hskip)
      refine ⟨hp, fun y => ?_⟩
      rw [ho, ownerIn_append, Option.or_assoc, mergedOwner_append (D := [P]) (by simpa using hskip)]
      rfl
    have hT : T.start < T.end := lt_of_le_of_ne h.le hT0
    by_cases hbrk : P.start ≥ T.end
    · -- `to_insert` ends before the piece at the iterator: it goes in just before.
      have hafter : ∀ q ∈ P :: R, T.end ≤ q.start := fun q hq =>
        (List.mem_cons.mp hq).elim (fun e => e ▸ hbrk) fun hq => by have := hR q hq; omega
      simp only [insertLoop, if_neg hT0, if_neg hskip, if_pos hbrk, insertRest, if_pos hT]
      rw [insertInterval_append h.done_start_lt, insertInterval_of_lt fun q hq => by
        rw [List.head?_cons, Option.mem_some_iff] at hq; subst hq; omega]
      obtain ⟨hD, hPR, hDP⟩ := pieces_append.mp h.pieces
      refine ⟨pieces_append.mpr ⟨hD, pieces_cons.mpr ⟨hT, hafter, hPR⟩, fun p hp q hq => ?_⟩,
        fun y => by rw [ownerIn_append, mergedOwner_of_le_start hafter]⟩
      rcases List.mem_cons.mp hq with rfl | hq
      · exact h.done_le p hp
      · exact hDP p hp q hq
    obtain ⟨X, c, heq, hX, hXb, hXo, hc, hlast⟩ := insertLoop_overlap rectangles b R.length
      (A := A) hP hT (by omega) (by omega) h.done_start_lt hR
    rw [heq]
    obtain ⟨hp, ho⟩ := insertLoop_owner b R (D ++ X) _ _ (h.overlap hX hXb hc)
    refine ⟨hp, fun y => ?_⟩
    rw [ho, ownerIn_append, Option.or_assoc,
      mergedOwner_overlap (by omega) (by omega) hR hXo hc hlast]

/-- The arcs the loop records: one to the owner of every point of `to_insert`
while `to_insert` is still the rectangle's own. -/
theorem insertLoop_arcs (b : Nat) : ∀ (R D : List Interval) (T : Interval) (A : List (Nat × Nat)),
    InsertInv D R T → (∀ p ∈ R, p.index ≠ b) → ∀ a,
      a ∈ (insertLoop rectangles b R.length D R T A).2.2 ↔
        a ∈ A ∨ T.index = b ∧ ∃ k, Meets T R k ∧ a = (min b k, max b k)
  | [], D, T, A, _, _, a => by
    simp [insertLoop, Meets]
  | P :: R, D, T, A, h, hb, a => by
    obtain ⟨hP, hR⟩ := h.head
    have hbR : ∀ p ∈ R, p.index ≠ b := fun p hp => hb p (List.mem_cons_of_mem _ hp)
    rw [List.length_cons]
    by_cases hT0 : T.start = T.end
    · simp [insertLoop, if_pos hT0, not_meets_of_not_lt (show ¬ T.start < T.end by omega)]
    by_cases hskip : P.end ≤ T.start
    · have := meets_append (T := T) (D := [P]) (by simpa using hskip) R
      simp only [List.singleton_append] at this
      simp only [insertLoop, if_neg hT0, if_pos hskip, this]
      exact insertLoop_arcs b R (D ++ [P]) T A (h.skip hskip) hbR a
    have hT : T.start < T.end := lt_of_le_of_ne h.le hT0
    by_cases hbrk : P.start ≥ T.end
    · have hafter : ∀ q ∈ P :: R, T.end ≤ q.start := fun q hq =>
        (List.mem_cons.mp hq).elim (fun e => e ▸ hbrk) fun hq => by have := hR q hq; omega
      simp [insertLoop, if_neg hT0, if_neg hskip, if_pos hbrk, not_meets_of_le_start hafter]
    obtain ⟨X, c, heq, hX, hXb, -, hc, -⟩ := insertLoop_overlap rectangles b R.length
      (A := A) hP hT (by omega) (by omega) h.done_start_lt hR
    rw [heq, insertLoop_arcs b R (D ++ X) _ _ (h.overlap hX hXb hc) hbR a]
    simp only [meets_cons_overlap (by omega) (by omega) hP hT hR,
      meets_after_overlap (show T.start ≤ c ∧ c ≤ P.end by omega) hR]
    by_cases hTb : T.index = b
    · -- The rectangle's own `to_insert` meets `P`: the arc to `P`'s owner.
      have hlast : ∀ k, Meets T R k → lastIndex P T = b := fun k ⟨y, hy, hk⟩ => by
        have := le_of_ownerIn_eq_some hR hk
        unfold Interval.Covers at hy
        rw [lastIndex, if_neg (by omega), hTb]
      rw [if_pos hTb, mem_insertArc, hTb]
      constructor
      · rintro ((rfl | h) | ⟨-, k, hk, rfl⟩)
        · exact .inr ⟨rfl, P.index, .inl rfl, rfl⟩
        · exact .inl h
        · exact .inr ⟨rfl, k, .inr hk, rfl⟩
      · rintro (h | ⟨-, k, rfl | hk, rfl⟩)
        · exact .inl (.inr h)
        · exact .inl (.inl rfl)
        · exact .inr ⟨hlast k hk, k, hk, rfl⟩
    · have hlast : lastIndex P T ≠ b := by
        unfold lastIndex
        split_ifs
        · exact hb P (List.mem_cons_self _ _)
        · exact hTb
      simp [hTb, hlast]

/-- `lower_bound`, then one step back: the pieces before the iterator end at or
before `key`. -/
theorem lowerBoundBefore_spec (key : Int) {S : List Interval} (hS : Pieces S) :
    (lowerBoundBefore key S).1 ++ (lowerBoundBefore key S).2 = S ∧
      ∀ p ∈ (lowerBoundBefore key S).1, p.end ≤ key := by
  have hsplit := List.takeWhile_append_dropWhile (fun i => decide (i.start < key)) S
  have hpieces := hS.sublist (List.takeWhile_sublist fun i => decide (i.start < key))
  cases h : (S.takeWhile fun i => decide (i.start < key)).getLast? with
  | none =>
    rw [List.getLast?_eq_none_iff] at h
    rw [h] at hsplit
    simp only [lowerBoundBefore, List.span_eq_take_drop, h]
    exact ⟨hsplit, by simp⟩
  | some last =>
    have hl := List.dropLast_append_getLast? last h
    have hkey := List.mem_takeWhile_imp (hl ▸ List.mem_append_right _ (List.mem_singleton_self last))
    rw [← hl] at hpieces
    simp only [lowerBoundBefore, List.span_eq_take_drop, h]
    refine ⟨by rw [← List.singleton_append, ← List.append_assoc, hl, hsplit], fun p hp => ?_⟩
    have := (pieces_append.mp hpieces).2.2 p hp last (List.mem_singleton_self _)
    simp only [decide_eq_true_eq] at hkey
    omega

/-- The piece `to_insert` a begin starts from: the y-span of the rectangle. -/
def yInterval (rectangles : List Rectangle) (i : Nat) : Interval :=
  ⟨(rectangles.getD i getEmpty).yMin, (rectangles.getD i getEmpty).yMax, i⟩

variable (rectangles) in
/-- The begin of rectangle `b`, which has no piece yet: the set stays made of
pieces, each point of `b`'s y-span gets the owner the merge gives it, and an
arc goes to each rectangle that owned such a point. -/
theorem insertRectangle_spec {b : Nat} {S : List Interval} (A : List (Nat × Nat)) (hS : Pieces S)
    (hb : (rectangles.getD b getEmpty).yMin ≤ (rectangles.getD b getEmpty).yMax)
    (hfresh : ∀ p ∈ S, p.index ≠ b) :
    Pieces (insertRectangle rectangles b S A).1 ∧
      (∀ y, ownerIn (insertRectangle rectangles b S A).1 y =
        mergedOwner rectangles (yInterval rectangles b) S y) ∧
      ∀ a, a ∈ (insertRectangle rectangles b S A).2 ↔
        a ∈ A ∨ ∃ k, Meets (yInterval rectangles b) S k ∧ a = (min b k, max b k) := by
  obtain ⟨happ, hle⟩ := lowerBoundBefore_spec (rectangles.getD b getEmpty).yMin hS
  set start := lowerBoundBefore (rectangles.getD b getEmpty).yMin S
  have hinv : InsertInv start.1 start.2 (yInterval rectangles b) := ⟨by rw [happ]; exact hS, hle, hb⟩
  have heq : insertRectangle rectangles b S A =
      (insertRest (insertLoop rectangles b start.2.length start.1 start.2 (yInterval rectangles b) A).2.1
        (insertLoop rectangles b start.2.length start.1 start.2 (yInterval rectangles b) A).1,
        (insertLoop rectangles b start.2.length start.1 start.2 (yInterval rectangles b) A).2.2) := rfl
  obtain ⟨hp, ho⟩ := insertLoop_owner b _ _ _ A hinv
  rw [heq]
  refine ⟨hp, fun y => by rw [ho, mergedOwner_append hle, happ], fun a => ?_⟩
  rw [insertLoop_arcs b _ _ _ A hinv (fun p hp => hfresh p (happ ▸ List.mem_append_right _ hp)) a,
    ← happ]
  simp only [meets_append (T := yInterval rectangles b) hle]
  simp [yInterval]

end Begin

end OrTools.Sat

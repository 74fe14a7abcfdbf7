import Mathlib.Data.List.GetD
import Mathlib.Data.List.Basic

/-!
# Pairwise restrictions between boxes

`AppendPairwiseRestriction(item1, item2, result)` reads the bounds of two boxes
on each axis and asks which of the four ways of being apart (box 1 left of,
right of, below or above box 2) the bounds leave room for.  With none, the boxes
must overlap: a `CONFLICT`.  With exactly one, that way is forced, and it is
appended when it would tighten a bound.  `AppendPairwiseRestrictions()` makes
the call for every pair of a list in order, or for every pair across two lists.

The results are about positions.  Every restriction appended holds of every
position of its two boxes within their bounds that puts them apart, and a
`CONFLICT` is appended for every pair of well-formed items that no such
position puts apart.
-/

set_option autoImplicit false

namespace OrTools.Sat

/-- Modelled from the spec: `ItemForPairwiseRestriction::Interval` of
`diffn_util.h`, which is not under src/: the bounds of a box on one axis. -/
structure ItemForPairwiseRestriction.Interval where
  startMin : Int
  startMax : Int
  endMin : Int
  endMax : Int
  deriving DecidableEq, Repr, Inhabited

/-- Modelled from the spec: `ItemForPairwiseRestriction` of `diffn_util.h`,
the index of a box and its bounds on each axis. -/
structure ItemForPairwiseRestriction where
  index : Nat
  x : ItemForPairwiseRestriction.Interval
  y : ItemForPairwiseRestriction.Interval
  deriving DecidableEq, Repr, Inhabited

/-- Modelled from the spec: `PairwiseRestriction::PairwiseRestrictionType`. -/
inductive PairwiseRestrictionType where
  | conflict
  | firstLeftOfSecond
  | firstRightOfSecond
  | firstBelowSecond
  | firstAboveSecond
  deriving DecidableEq, Repr

/-- Modelled from the spec: `PairwiseRestriction`, the indices of the two boxes
and what must hold between them. -/
structure PairwiseRestriction where
  firstIndex : Nat
  secondIndex : Nat
  type : PairwiseRestrictionType
  deriving DecidableEq, Repr

/-! ## The code -/

/-- `IsZeroOrPowerOfTwo(value)`, on the non-negative `state` it is called on. -/
def isZeroOrPowerOfTwo (value : Nat) : Bool := value &&& (value - 1) == 0

/-- `AppendPairwiseRestriction(item1, item2, result)`: bit 0 of `state` says
box 1 can be left of box 2, bit 1 right of it, bit 2 below it, bit 3 above it. -/
def appendPairwiseRestriction (item1 item2 : ItemForPairwiseRestriction)
    (result : List PairwiseRestriction) : List PairwiseRestriction :=
  let state :=
    (decide (item1.x.endMin ≤ item2.x.startMax)).toNat +
      2 * (decide (item2.x.endMin ≤ item1.x.startMax)).toNat +
      4 * (decide (item1.y.endMin ≤ item2.y.startMax)).toNat +
      8 * (decide (item2.y.endMin ≤ item1.y.startMax)).toNat
  if !isZeroOrPowerOfTwo state then result
  else
    match state with
    | 0 => result ++ [⟨item1.index, item2.index, .conflict⟩]
    | 1 =>
      if item1.x.endMin > item2.x.startMin ∨ item2.x.startMax < item1.x.endMax then
        result ++ [⟨item1.index, item2.index, .firstLeftOfSecond⟩]
      else result
    | 2 =>
      if item2.x.endMin > item1.x.startMin ∨ item1.x.startMax < item2.x.endMax then
        result ++ [⟨item1.index, item2.index, .firstRightOfSecond⟩]
      else result
    | 4 =>
      if item1.y.endMin > item2.y.startMin ∨ item2.y.startMax < item1.y.endMax then
        result ++ [⟨item1.index, item2.index, .firstBelowSecond⟩]
      else result
    | 8 =>
      if item2.y.endMin > item1.y.startMin ∨ item1.y.startMax < item2.y.endMax then
        result ++ [⟨item1.index, item2.index, .firstAboveSecond⟩]
      else result
    | _ => result

/-- `AppendPairwiseRestrictions(items, result)`: every pair of `items`, the
first before the second. -/
def appendPairwiseRestrictions (items : List ItemForPairwiseRestriction)
    (result : List PairwiseRestriction) : List PairwiseRestriction :=
  (List.range (items.length - 1)).foldl (fun result i1 =>
    (List.range' (i1 + 1) (items.length - (i1 + 1))).foldl (fun result i2 =>
      appendPairwiseRestriction (items.getD i1 default) (items.getD i2 default) result) result) result

/-- `AppendPairwiseRestrictions(items, other_items, result)`, the overload on
two lists: every item of `items` with every item of `other_items`. -/
def appendPairwiseRestrictionsBetween (items otherItems : List ItemForPairwiseRestriction)
    (result : List PairwiseRestriction) : List PairwiseRestriction :=
  (List.range items.length).foldl (fun result i1 =>
    (List.range otherItems.length).foldl (fun result i2 =>
      appendPairwiseRestriction (items.getD i1 default) (otherItems.getD i2 default) result) result) result

/-! ## Positions -/

/-- A position of a box: where it starts and where it ends on each axis. -/
structure Position where
  xStart : Int
  xEnd : Int
  yStart : Int
  yEnd : Int
  deriving DecidableEq, Repr

namespace ItemForPairwiseRestriction.Interval

/-- The bounds allow the box to start at `start` and end at `stop`. -/
def Admits (b : Interval) (start stop : Int) : Prop :=
  b.startMin ≤ start ∧ start ≤ b.startMax ∧ b.endMin ≤ stop ∧ stop ≤ b.endMax ∧ start ≤ stop

instance (b : Interval) (start stop : Int) : Decidable (b.Admits start stop) :=
  inferInstanceAs (Decidable (_ ∧ _ ∧ _ ∧ _ ∧ _))

/-- Bounds whose earliest and latest positions are both allowed. -/
def WellFormed (b : Interval) : Prop :=
  b.startMin ≤ b.startMax ∧ b.endMin ≤ b.endMax ∧ b.startMin ≤ b.endMin ∧ b.startMax ≤ b.endMax

instance (b : Interval) : Decidable b.WellFormed := inferInstanceAs (Decidable (_ ∧ _ ∧ _ ∧ _))

end ItemForPairwiseRestriction.Interval

namespace ItemForPairwiseRestriction

/-- The bounds of the item allow the position. -/
def Admits (item : ItemForPairwiseRestriction) (p : Position) : Prop :=
  item.x.Admits p.xStart p.xEnd ∧ item.y.Admits p.yStart p.yEnd

instance (item : ItemForPairwiseRestriction) (p : Position) : Decidable (item.Admits p) :=
  inferInstanceAs (Decidable (_ ∧ _))

/-- The bounds of the item are well formed on both axes. -/
def WellFormed (item : ItemForPairwiseRestriction) : Prop := item.x.WellFormed ∧ item.y.WellFormed

instance (item : ItemForPairwiseRestriction) : Decidable item.WellFormed :=
  inferInstanceAs (Decidable (_ ∧ _))

/-- The earliest position the bounds allow. -/
def lowest (item : ItemForPairwiseRestriction) : Position :=
  ⟨item.x.startMin, item.x.endMin, item.y.startMin, item.y.endMin⟩

/-- The latest position the bounds allow. -/
def highest (item : ItemForPairwiseRestriction) : Position :=
  ⟨item.x.startMax, item.x.endMax, item.y.startMax, item.y.endMax⟩

theorem admits_lowest {item : ItemForPairwiseRestriction} (h : item.WellFormed) : item.Admits item.lowest := by
  obtain ⟨⟨_, _, _, _⟩, ⟨_, _, _, _⟩⟩ := h
  simp only [Admits, Interval.Admits, lowest]
  omega

theorem admits_highest {item : ItemForPairwiseRestriction} (h : item.WellFormed) : item.Admits item.highest := by
  obtain ⟨⟨_, _, _, _⟩, ⟨_, _, _, _⟩⟩ := h
  simp only [Admits, Interval.Admits, highest]
  omega

end ItemForPairwiseRestriction

/-- On some axis, the box at `p` ends before the box at `q` starts or the other
way round. -/
def Position.Apart (p q : Position) : Prop :=
  p.xEnd ≤ q.xStart ∨ q.xEnd ≤ p.xStart ∨ p.yEnd ≤ q.yStart ∨ q.yEnd ≤ p.yStart

namespace PairwiseRestrictionType

open ItemForPairwiseRestriction

/-- What a restriction of the type says of the positions of its first and
second box. -/
def Holds : PairwiseRestrictionType → Position → Position → Prop
  | .conflict, _, _ => False
  | .firstLeftOfSecond, p, q => p.xEnd ≤ q.xStart
  | .firstRightOfSecond, p, q => q.xEnd ≤ p.xStart
  | .firstBelowSecond, p, q => p.yEnd ≤ q.yStart
  | .firstAboveSecond, p, q => q.yEnd ≤ p.yStart

/-- The bit of `state` for each way of being apart: the bounds leave the first
box room to be there. -/
def Allowed : PairwiseRestrictionType → ItemForPairwiseRestriction → ItemForPairwiseRestriction → Prop
  | .conflict, _, _ => False
  | .firstLeftOfSecond, item1, item2 => item1.x.endMin ≤ item2.x.startMax
  | .firstRightOfSecond, item1, item2 => item2.x.endMin ≤ item1.x.startMax
  | .firstBelowSecond, item1, item2 => item1.y.endMin ≤ item2.y.startMax
  | .firstAboveSecond, item1, item2 => item2.y.endMin ≤ item1.y.startMax

theorem forall_iff {P : PairwiseRestrictionType → Prop} :
    (∀ t, P t) ↔ P .conflict ∧ P .firstLeftOfSecond ∧ P .firstRightOfSecond ∧
      P .firstBelowSecond ∧ P .firstAboveSecond :=
  ⟨fun h => ⟨h _, h _, h _, h _, h _⟩, fun ⟨h₀, h₁, h₂, h₃, h₄⟩ t => by cases t <;> assumption⟩

variable {item1 item2 : ItemForPairwiseRestriction} {p1 p2 : Position}

/-- A way the boxes are apart at positions their bounds allow is one the bounds
leave room for. -/
theorem Holds.allowed {t : PairwiseRestrictionType} (h : t.Holds p1 p2) (h1 : item1.Admits p1)
    (h2 : item2.Admits p2) : t.Allowed item1 item2 := by
  obtain ⟨⟨_, _, _, _, _⟩, ⟨_, _, _, _, _⟩⟩ := h1
  obtain ⟨⟨_, _, _, _, _⟩, ⟨_, _, _, _, _⟩⟩ := h2
  cases t <;> simp only [Holds, Allowed] at h ⊢ <;> omega

/-- Each way the bounds of two well-formed items leave room for is taken by
their earliest and latest positions, one for each box. -/
theorem Allowed.exists_apart {t : PairwiseRestrictionType} (h : t.Allowed item1 item2)
    (hw1 : item1.WellFormed) (hw2 : item2.WellFormed) :
    ∃ p1 p2, item1.Admits p1 ∧ item2.Admits p2 ∧ p1.Apart p2 := by
  cases t with
  | conflict => exact h.elim
  | firstLeftOfSecond => exact ⟨_, _, admits_lowest hw1, admits_highest hw2, .inl h⟩
  | firstRightOfSecond => exact ⟨_, _, admits_highest hw1, admits_lowest hw2, .inr (.inl h)⟩
  | firstBelowSecond => exact ⟨_, _, admits_lowest hw1, admits_highest hw2, .inr (.inr (.inl h))⟩
  | firstAboveSecond => exact ⟨_, _, admits_highest hw1, admits_lowest hw2, .inr (.inr (.inr h))⟩

end PairwiseRestrictionType

open PairwiseRestrictionType ItemForPairwiseRestriction

/-- Two positions apart are so in one of the four ways. -/
theorem Position.Apart.exists_holds {p q : Position} (h : p.Apart q) : ∃ t : PairwiseRestrictionType, t.Holds p q := by
  rcases h with h | h | h | h
  exacts [⟨.firstLeftOfSecond, h⟩, ⟨.firstRightOfSecond, h⟩, ⟨.firstBelowSecond, h⟩,
    ⟨.firstAboveSecond, h⟩]

/-- The restriction holds between two items: it names them, and every position
of the two boxes within their bounds that puts them apart meets it. -/
def PairwiseRestriction.SoundFor (r : PairwiseRestriction) (item1 item2 : ItemForPairwiseRestriction) :
    Prop :=
  r.firstIndex = item1.index ∧ r.secondIndex = item2.index ∧
    ∀ p1 p2, item1.Admits p1 → item2.Admits p2 → p1.Apart p2 → r.type.Holds p1 p2

/-- No two positions within the bounds of the items put the boxes apart. -/
def MustOverlap (item1 item2 : ItemForPairwiseRestriction) : Prop :=
  ∀ p1 p2, item1.Admits p1 → item2.Admits p2 → ¬ p1.Apart p2

/-! ## One pair -/

/-- The states `IsZeroOrPowerOfTwo()` lets through. -/
theorem isZeroOrPowerOfTwo_eq : ∀ v < 16,
    isZeroOrPowerOfTwo v = (v == 0 || v == 1 || v == 2 || v == 4 || v == 8) := by
  decide

section Pair

variable (item1 item2 : ItemForPairwiseRestriction)

/-- One call appends to what is there. -/
theorem appendPairwiseRestriction_eq_append (result : List PairwiseRestriction) :
    appendPairwiseRestriction item1 item2 result = result ++ appendPairwiseRestriction item1 item2 [] := by
  dsimp only [appendPairwiseRestriction]
  split
  · simp
  · split <;> (try split) <;> simp

/-- What one call can append: a restriction naming the two items in order, of
the only type the bounds leave room for, or, for a `CONFLICT`, of a type none
is left for. -/
theorem mem_appendPairwiseRestriction {r : PairwiseRestriction}
    (h : r ∈ appendPairwiseRestriction item1 item2 []) :
    r.firstIndex = item1.index ∧ r.secondIndex = item2.index ∧
      ∀ t : PairwiseRestrictionType, t.Allowed item1 item2 → t = r.type := by
  dsimp only [appendPairwiseRestriction] at h
  by_cases h0 : item1.x.endMin ≤ item2.x.startMax <;> by_cases h1 : item2.x.endMin ≤ item1.x.startMax <;>
    by_cases h2 : item1.y.endMin ≤ item2.y.startMax <;> by_cases h3 : item2.y.endMin ≤ item1.y.startMax <;>
    simp (disch := decide) [h0, h1, h2, h3, isZeroOrPowerOfTwo_eq] at h <;>
    simp [h, forall_iff, Allowed, h0, h1, h2, h3]

/-- When the bounds leave room for none of the four ways, the call appends a
`CONFLICT`. -/
theorem conflict_mem_of_not_allowed (h : ∀ t : PairwiseRestrictionType, ¬ t.Allowed item1 item2) :
    ⟨item1.index, item2.index, .conflict⟩ ∈ appendPairwiseRestriction item1 item2 [] := by
  have h0 := h .firstLeftOfSecond
  have h1 := h .firstRightOfSecond
  have h2 := h .firstBelowSecond
  have h3 := h .firstAboveSecond
  simp only [Allowed] at h0 h1 h2 h3
  simp (disch := decide) [appendPairwiseRestriction, h0, h1, h2, h3, isZeroOrPowerOfTwo_eq]

variable {item1 item2}

/-- Every restriction one call appends holds between the two items. -/
theorem appendPairwiseRestriction_soundFor {r : PairwiseRestriction}
    (h : r ∈ appendPairwiseRestriction item1 item2 []) : r.SoundFor item1 item2 := by
  obtain ⟨hi, hj, hforced⟩ := mem_appendPairwiseRestriction item1 item2 h
  refine ⟨hi, hj, fun p1 p2 h1 h2 hap => ?_⟩
  obtain ⟨t, ht⟩ := hap.exists_holds
  exact hforced t (ht.allowed h1 h2) ▸ ht

/-- For two well-formed items that must overlap, one call appends a
`CONFLICT`. -/
theorem conflict_mem_appendPairwiseRestriction (hw1 : item1.WellFormed) (hw2 : item2.WellFormed)
    (hno : MustOverlap item1 item2) :
    ⟨item1.index, item2.index, .conflict⟩ ∈ appendPairwiseRestriction item1 item2 [] :=
  conflict_mem_of_not_allowed item1 item2 fun _ ht =>
    let ⟨p1, p2, h1, h2, hap⟩ := ht.exists_apart hw1 hw2
    hno p1 p2 h1 h2 hap

end Pair

/-! ## The loops -/

/-- A loop whose body appends to what is there appends the bodies' outputs in
order. -/
theorem foldl_eq_append_flatMap {α β : Type} (f : α → List β → List β)
    (hf : ∀ a r, f a r = r ++ f a []) :
    ∀ (l : List α) (r : List β), l.foldl (fun r a => f a r) r = r ++ l.flatMap fun a => f a []
  | [], r => by simp
  | a :: l, r => by
    rw [List.foldl_cons, foldl_eq_append_flatMap f hf l, hf a r, List.flatMap_cons, List.append_assoc]

/-- Two nested loops over calls of `AppendPairwiseRestriction()` append its
outputs over the pairs of indices, in order. -/
theorem foldl_foldl_appendPairwiseRestriction (outer : List Nat) (inner : Nat → List Nat)
    (item1 item2 : Nat → ItemForPairwiseRestriction) (result : List PairwiseRestriction) :
    outer.foldl (fun result i1 => (inner i1).foldl (fun result i2 =>
      appendPairwiseRestriction (item1 i1) (item2 i2) result) result) result =
      result ++ outer.flatMap fun i1 => (inner i1).flatMap fun i2 =>
        appendPairwiseRestriction (item1 i1) (item2 i2) [] := by
  have hinner (i1 : Nat) := foldl_eq_append_flatMap (fun i2 r => appendPairwiseRestriction (item1 i1) (item2 i2) r)
    (fun i2 r => appendPairwiseRestriction_eq_append _ _ r) (inner i1)
  simp only [hinner]
  exact foldl_eq_append_flatMap _ (fun _ r => by rw [List.nil_append]) outer result

theorem sublist_pair_of_lt {α : Type} {l : List α} {i j : Nat} (hij : i < j) (hj : j < l.length) :
    [l[i], l[j]].Sublist l :=
  List.pairwise_iff_getElem.mp (List.pairwise_iff_forall_sublist.mpr id) i j (by omega) hj hij

/-- **`AppendPairwiseRestrictions()` is sound and finds every conflict.**  Both
overloads only append to `result`.  Every restriction appended names two items,
the first before the second in `items` (for the overload on two lists, one of
`items` and one of `other_items`), and holds of every position of the two boxes
within their bounds that puts them apart.  And for every such pair of
well-formed items that no position puts apart, a `CONFLICT` naming them is
appended. -/
theorem appendPairwiseRestrictions_sound_complete (items otherItems : List ItemForPairwiseRestriction)
    (result : List PairwiseRestriction) :
    (∃ added, appendPairwiseRestrictions items result = result ++ added ∧
      (∀ r ∈ added, ∃ item1 item2, [item1, item2].Sublist items ∧ r.SoundFor item1 item2) ∧
      items.Pairwise fun item1 item2 => item1.WellFormed → item2.WellFormed → MustOverlap item1 item2 →
        ⟨item1.index, item2.index, .conflict⟩ ∈ added) ∧
    (∃ added, appendPairwiseRestrictionsBetween items otherItems result = result ++ added ∧
      (∀ r ∈ added, ∃ item1 ∈ items, ∃ item2 ∈ otherItems, r.SoundFor item1 item2) ∧
      ∀ item1 ∈ items, ∀ item2 ∈ otherItems, item1.WellFormed → item2.WellFormed →
        MustOverlap item1 item2 → ⟨item1.index, item2.index, .conflict⟩ ∈ added) := by
  have hget {l : List ItemForPairwiseRestriction} {i : Nat} (hi : i < l.length) :
      l.getD i default = l[i] := List.getD_eq_getElem _ _ hi
  refine ⟨⟨_, foldl_foldl_appendPairwiseRestriction _ _ _ _ result, fun r hr => ?_, ?_⟩,
    ⟨_, foldl_foldl_appendPairwiseRestriction _ _ _ _ result, fun r hr => ?_, ?_⟩⟩
  · simp only [List.mem_flatMap, List.mem_range, List.mem_range'] at hr
    obtain ⟨i1, hi1, i2, ⟨k, hk, rfl⟩, hr⟩ := hr
    rw [hget (by omega), hget (by omega)] at hr
    exact ⟨_, _, sublist_pair_of_lt (by omega) (by omega), appendPairwiseRestriction_soundFor hr⟩
  · refine List.pairwise_iff_getElem.mpr fun i1 i2 hi1 hi2 hlt hw1 hw2 hno => ?_
    simp only [List.mem_flatMap, List.mem_range, List.mem_range']
    refine ⟨i1, by omega, i2, ⟨i2 - (i1 + 1), by omega, by omega⟩, ?_⟩
    rw [hget hi1, hget hi2]
    exact conflict_mem_appendPairwiseRestriction hw1 hw2 hno
  · simp only [List.mem_flatMap, List.mem_range] at hr
    obtain ⟨i1, hi1, i2, hi2, hr⟩ := hr
    rw [hget hi1, hget hi2] at hr
    exact ⟨_, List.getElem_mem hi1, _, List.getElem_mem hi2, appendPairwiseRestriction_soundFor hr⟩
  · intro item1 h1 item2 h2 hw1 hw2 hno
    obtain ⟨i1, hi1, rfl⟩ := List.getElem_of_mem h1
    obtain ⟨i2, hi2, rfl⟩ := List.getElem_of_mem h2
    simp only [List.mem_flatMap, List.mem_range]
    exact ⟨i1, hi1, i2, hi2, by rw [hget hi1, hget hi2]; exact conflict_mem_appendPairwiseRestriction hw1 hw2 hno⟩

end OrTools.Sat

import OrTools.Sat.BoxesInConflict
import OrTools.Sat.IntegerValue

/-!
# Filtering boxes before a conflict search

`FilterBoxesAndRandomize()` keeps the boxes within two size thresholds, in a
random order.  `FilterBoxesThatAreTooLarge()` sorts the boxes by area, then
drops boxes from the largest down while the last box's area is at least the
energy of the boxes up to it.  Such a box lies in no rectangle that the boxes overfill: that
rectangle has at least the box's area, and holds no more energy than the boxes
up to it.  What is kept is a prefix of the sorted boxes, each with less area
than the energy kept, and every rectangle in energy conflict with the boxes
holds the same energy of the boxes kept.

The areas and the energy sums are `IntegerValue`s, so the code compares them
modulo `2^64`.  The statements assume that every box's area and the energy of
all the boxes fit in an `int64`; the loop then computes the exact values.

`std::sort` and `std::shuffle` are modelled by their contracts, as functions
the statements assume to return a sorted permutation or a permutation.
-/

set_option autoImplicit false

namespace OrTools.Sat

open Rectangle

/-! ## `FilterBoxesAndRandomize()` and `FilterBoxesThatAreTooLarge()` -/

/-- `FilterBoxesAndRandomize(cached_rectangles, boxes, threshold_x,
threshold_y, random)`, with the `std::shuffle` by `random` given as `shuffle`:
the boxes no wider than `threshold_x` and no taller than `threshold_y`. -/
def filterBoxesAndRandomize (shuffle : List Nat → List Nat) (cachedRectangles : Nat → Rectangle)
    (boxes : List Nat) (thresholdX thresholdY : Int) : List Nat :=
  let kept := boxes.filter fun b =>
    !decide ((cachedRectangles b).xMax - (cachedRectangles b).xMin > thresholdX) &&
      !decide ((cachedRectangles b).yMax - (cachedRectangles b).yMin > thresholdY)
  if kept.length = 0 then [] else shuffle kept

/-- `Rectangle::Area()`: `SizeX() * SizeY()` in `IntegerValue` arithmetic. -/
def Rectangle.int64Area (r : Rectangle) : Int := int64Mul (int64Sub r.xMax r.xMin) (int64Sub r.yMax r.yMin)

theorem Rectangle.int64Area_eq_wrap (r : Rectangle) : r.int64Area = wrap r.area := by
  simp only [int64Area, int64Mul, int64Sub, area, wrap_mul_wrap_left, wrap_mul_wrap_right]

theorem Rectangle.int64Area_of_inInt64 {r : Rectangle} (h : InInt64 r.area) : r.int64Area = r.area := by
  rw [int64Area_eq_wrap, wrap_of_inInt64 h]

/-- The boxes as `std::sort` by increasing `Area()` leaves them. -/
def SortedByArea (cachedRectangles : Nat → Rectangle) (boxes sorted : List Nat) : Prop :=
  sorted.Perm boxes ∧
    sorted.Pairwise fun a b => ¬ (cachedRectangles b).int64Area < (cachedRectangles a).int64Area

instance (cachedRectangles : Nat → Rectangle) (boxes sorted : List Nat) :
    Decidable (SortedByArea cachedRectangles boxes sorted) :=
  inferInstanceAs (Decidable (_ ∧ _))

/-- The `while` loop of `FilterBoxesThatAreTooLarge()`: while the last box kept
has an area at least `total_energy`, the energy of the boxes kept, drop it. -/
def removeTooLarge (cachedRectangles : Nat → Rectangle) (energies : Nat → Int) (boxes : List Nat) :
    Nat → Int → Nat
  | 0, _ => 0
  | newSize + 1, totalEnergy =>
    if (cachedRectangles (boxes.getD newSize 0)).int64Area ≥ totalEnergy then
      removeTooLarge cachedRectangles energies boxes newSize
        (int64Sub totalEnergy (energies (boxes.getD newSize 0)))
    else newSize + 1

/-- `FilterBoxesThatAreTooLarge(cached_rectangles, energies, boxes)`, with the
`std::sort` by area given as `sortByArea`. -/
def filterBoxesThatAreTooLarge (sortByArea : List Nat → List Nat) (cachedRectangles : Nat → Rectangle)
    (energies : Nat → Int) (boxes : List Nat) : List Nat :=
  let sorted := sortByArea boxes
  sorted.take (removeTooLarge cachedRectangles energies sorted sorted.length
    ((sorted.map energies).foldl int64Add 0))

/-- The `int64` sum of a list is its exact sum modulo `2^64`. -/
theorem foldl_int64Add (l : List Int) (a : Int) : l.foldl int64Add (wrap a) = wrap (a + l.sum) := by
  induction l generalizing a with
  | nil => simp
  | cons x l ih => rw [List.foldl_cons, int64Add, wrap_add_wrap_left, ih, List.sum_cons, Int.add_assoc]

section Filter

variable (cachedRectangles : Nat → Rectangle) (energies : Nat → Int) {sorted : List Nat}

theorem sum_take_succ {m : Nat} (hm : m < sorted.length) :
    ((sorted.take (m + 1)).map energies).sum =
      ((sorted.take m).map energies).sum + energies (sorted.getD m 0) := by
  rw [List.take_succ, List.getElem?_eq_getElem hm, List.getD_eq_getElem _ _ hm]
  simp only [Option.toList_some, List.map_append, List.sum_append, List.map_cons, List.map_nil,
    List.sum_cons, List.sum_nil, add_zero]

theorem energyInside_take_succ {m : Nat} (hm : m < sorted.length) (r : Rectangle) :
    energyInside cachedRectangles energies (sorted.take (m + 1)) r =
      energyInside cachedRectangles energies (sorted.take m) r +
        if (cachedRectangles (sorted.getD m 0)).IsInside r then energies (sorted.getD m 0) else 0 := by
  simp only [energyInside, List.take_succ, List.getElem?_eq_getElem hm, List.getD_eq_getElem _ _ hm,
    Option.toList_some, List.filter_append, List.map_append, List.sum_append, List.filter_cons,
    List.filter_nil, decide_eq_true_eq]
  split_ifs <;> simp

/-- With energies not negative, the energy of the first `m` boxes lies
between 0 and the energy of all of them, so it fits when that one fits. -/
theorem inInt64_sum_take (henergy : ∀ b ∈ sorted, 0 ≤ energies b)
    (htotal : InInt64 (sorted.map energies).sum) (m : Nat) : InInt64 ((sorted.take m).map energies).sum := by
  have hsplit : (sorted.map energies).sum =
      ((sorted.take m).map energies).sum + ((sorted.drop m).map energies).sum := by
    rw [← List.sum_append, ← List.map_append, List.take_append_drop]
  have hnonneg (l : List Nat) (hl : ∀ b ∈ l, b ∈ sorted) : 0 ≤ (l.map energies).sum :=
    List.sum_nonneg fun x hx => by
      obtain ⟨b, hb, rfl⟩ := List.mem_map.mp hx
      exact henergy b (hl b hb)
  have h₁ := hnonneg (sorted.take m) fun _ => List.mem_of_mem_take
  have h₂ := hnonneg (sorted.drop m) fun _ => List.mem_of_mem_drop
  unfold InInt64 at htotal ⊢
  omega

/-- The energy inside a rectangle is at most the energy of all the boxes. -/
theorem energyInside_le_sum {l : List Nat} (henergy : ∀ b ∈ l, 0 ≤ energies b) (r : Rectangle) :
    energyInside cachedRectangles energies l r ≤ (l.map energies).sum :=
  sum_le_of_subperm (List.filter_sublist l).subperm henergy

variable {cachedRectangles energies}

/-- What the loop leaves, started with the first `m` sorted boxes and their
energy: a prefix of at most `m` boxes whose last box, if any, has less area than
their energy; and a rectangle the boxes overfill that holds all its energy among
the first `m` boxes holds it all among the boxes kept. -/
theorem removeTooLarge_spec
    (hrect : ∀ b ∈ sorted, (cachedRectangles b).xMin ≤ (cachedRectangles b).xMax ∧
      (cachedRectangles b).yMin ≤ (cachedRectangles b).yMax)
    (henergy : ∀ b ∈ sorted, 0 ≤ energies b) (hfit : ∀ b ∈ sorted, InInt64 (cachedRectangles b).area)
    (hsumFit : InInt64 (sorted.map energies).sum) :
    ∀ (m : Nat) (total : Int), m ≤ sorted.length → total = ((sorted.take m).map energies).sum →
      removeTooLarge cachedRectangles energies sorted m total ≤ m ∧
      (removeTooLarge cachedRectangles energies sorted m total = 0 ∨
        (cachedRectangles (sorted.getD (removeTooLarge cachedRectangles energies sorted m total - 1) 0)).area <
          ((sorted.take (removeTooLarge cachedRectangles energies sorted m total)).map energies).sum) ∧
      ∀ r : Rectangle, r.area < energyInside cachedRectangles energies sorted r →
        energyInside cachedRectangles energies (sorted.take m) r = energyInside cachedRectangles energies sorted r →
        energyInside cachedRectangles energies (sorted.take (removeTooLarge cachedRectangles energies sorted m total)) r =
          energyInside cachedRectangles energies sorted r
  | 0, _, _, _ => ⟨le_rfl, .inl rfl, fun _ _ h => h⟩
  | m + 1, total, hm, htotal => by
    have hsum := sum_take_succ energies hm
    have hmem := List.getD_eq_getElem sorted 0 hm ▸ List.getElem_mem hm
    simp only [removeTooLarge, int64Area_of_inInt64 (hfit _ hmem)]
    split_ifs with hge
    · have hsub : int64Sub total (energies (sorted.getD m 0)) = ((sorted.take m).map energies).sum := by
        rw [int64Sub_of_inInt64 (by rw [htotal, hsum, Int.add_sub_cancel]; exact inInt64_sum_take energies henergy hsumFit m),
          htotal, hsum, Int.add_sub_cancel]
      obtain ⟨hle, hlast, hkeep⟩ := removeTooLarge_spec hrect henergy hfit hsumFit m _ (by omega) hsub
      refine ⟨by omega, hlast, fun r hr heq => hkeep r hr ?_⟩
      rw [energyInside_take_succ cachedRectangles energies hm] at heq
      split_ifs at heq with hin
      · have hall := energyInside_le_sum cachedRectangles energies
          (fun b hb => henergy b (List.mem_of_mem_take hb)) r (l := sorted.take (m + 1))
        rw [energyInside_take_succ cachedRectangles energies hm, if_pos hin] at hall
        have harea := area_le_of_isInside hin (hrect _ hmem).1 (hrect _ hmem).2
        omega
      · simpa using heq
    · exact ⟨le_rfl, .inr (by rw [Nat.add_sub_cancel, ← htotal]; omega), fun _ _ h => h⟩

/-- **`FilterBoxesThatAreTooLarge()` keeps every energy conflict.**  For boxes
of well-formed rectangles and non-negative energies, sorted by area, the boxes
kept are a prefix of the sorted boxes, each of less area than the energy of the
boxes kept; and every rectangle with less area than the energy of the boxes
inside it holds exactly the same energy of the boxes kept. -/
theorem filterBoxesThatAreTooLarge_keeps_conflicts (sortByArea : List Nat → List Nat)
    (cachedRectangles : Nat → Rectangle) (energies : Nat → Int) (boxes : List Nat)
    (hsort : SortedByArea cachedRectangles boxes (sortByArea boxes))
    (hrect : ∀ b ∈ boxes, (cachedRectangles b).xMin ≤ (cachedRectangles b).xMax ∧
      (cachedRectangles b).yMin ≤ (cachedRectangles b).yMax)
    (henergy : ∀ b ∈ boxes, 0 ≤ energies b) (hfit : ∀ b ∈ boxes, InInt64 (cachedRectangles b).area)
    (htotal : InInt64 (boxes.map energies).sum) :
    (filterBoxesThatAreTooLarge sortByArea cachedRectangles energies boxes).IsPrefix (sortByArea boxes) ∧
      (∀ b ∈ filterBoxesThatAreTooLarge sortByArea cachedRectangles energies boxes,
        (cachedRectangles b).area <
          ((filterBoxesThatAreTooLarge sortByArea cachedRectangles energies boxes).map energies).sum) ∧
      ∀ r : Rectangle, r.area < energyInside cachedRectangles energies boxes r →
        energyInside cachedRectangles energies
          (filterBoxesThatAreTooLarge sortByArea cachedRectangles energies boxes) r =
          energyInside cachedRectangles energies boxes r := by
  obtain ⟨hperm, hsorted⟩ := hsort
  have hinside (r : Rectangle) : energyInside cachedRectangles energies (sortByArea boxes) r =
      energyInside cachedRectangles energies boxes r := ((hperm.filter _).map _).sum_eq
  have hfit' := fun b hb => hfit b (hperm.subset hb)
  have htotal' : InInt64 ((sortByArea boxes).map energies).sum := (hperm.map energies).sum_eq ▸ htotal
  have hinit := foldl_int64Add ((sortByArea boxes).map energies) 0
  rw [wrap_zero, Int.zero_add, wrap_of_inInt64 htotal'] at hinit
  simp only [filterBoxesThatAreTooLarge]
  obtain ⟨hle, hlast, hkeep⟩ := removeTooLarge_spec (fun b hb => hrect b (hperm.subset hb))
    (fun b hb => henergy b (hperm.subset hb)) hfit' htotal' _ (((sortByArea boxes).map energies).foldl int64Add 0)
    le_rfl (by rw [List.take_length, hinit])
  generalize removeTooLarge cachedRectangles energies (sortByArea boxes) (sortByArea boxes).length
    (((sortByArea boxes).map energies).foldl int64Add 0) = n at hle hlast hkeep ⊢
  rw [List.take_length] at hkeep
  refine ⟨List.take_prefix _ _, fun b hb => ?_, fun r hr => ?_⟩
  · obtain ⟨i, hi, rfl⟩ := List.getElem_of_mem hb
    rw [List.length_take] at hi
    rcases hlast with h0 | hlast
    · omega
    refine lt_of_le_of_lt ?_ hlast
    rw [List.getElem_take, List.getD_eq_getElem _ _ (by omega)]
    rcases Nat.lt_or_ge i (n - 1) with hlt | hge
    · have h := List.pairwise_iff_getElem.mp hsorted i (n - 1) (by omega) (by omega) hlt
      rwa [int64Area_of_inInt64 (hfit' _ (List.getElem_mem _)),
        int64Area_of_inInt64 (hfit' _ (List.getElem_mem _)), not_lt] at h
    · obtain rfl : i = n - 1 := by omega
      exact le_rfl
  · rw [← hinside] at hr ⊢
    exact hkeep r hr rfl

theorem filterBoxesThatAreTooLarge_keeps_conflicts_on_two_boxes :
    let rectangles : Nat → Rectangle := fun b => if b = 0 then ⟨0, 1, 0, 1⟩ else ⟨0, 4, 0, 4⟩
    let energies : Nat → Int := fun _ => 2
    SortedByArea rectangles [0, 1] (id [0, 1]) ∧
      (∀ b ∈ [0, 1], (rectangles b).xMin ≤ (rectangles b).xMax ∧ (rectangles b).yMin ≤ (rectangles b).yMax) ∧
      (∀ b ∈ [0, 1], 0 ≤ energies b) ∧ (∀ b ∈ [0, 1], InInt64 (rectangles b).area) ∧
      InInt64 ([0, 1].map energies).sum ∧
      ((filterBoxesThatAreTooLarge id rectangles energies [0, 1]).IsPrefix (id [0, 1]) ∧
        (∀ b ∈ filterBoxesThatAreTooLarge id rectangles energies [0, 1],
          (rectangles b).area < ((filterBoxesThatAreTooLarge id rectangles energies [0, 1]).map energies).sum) ∧
        ∀ r : Rectangle, r.area < energyInside rectangles energies [0, 1] r →
          energyInside rectangles energies (filterBoxesThatAreTooLarge id rectangles energies [0, 1]) r =
            energyInside rectangles energies [0, 1] r) := by
  intro rectangles energies
  have hsort : SortedByArea rectangles [0, 1] (id [0, 1]) := by decide
  have hrect : ∀ b ∈ [0, 1], (rectangles b).xMin ≤ (rectangles b).xMax ∧
      (rectangles b).yMin ≤ (rectangles b).yMax := by decide
  have henergy : ∀ b ∈ [0, 1], 0 ≤ energies b := by decide
  have hfit : ∀ b ∈ [0, 1], InInt64 (rectangles b).area := by decide
  have htotal : InInt64 ([0, 1].map energies).sum := by decide
  exact ⟨hsort, hrect, henergy, hfit, htotal,
    filterBoxesThatAreTooLarge_keeps_conflicts id rectangles energies [0, 1] hsort hrect henergy hfit htotal⟩

/-- Of two boxes of energy 2, the one of area 16 is dropped and the one of
area 1 kept. -/
example : filterBoxesThatAreTooLarge id (fun b => if b = 0 then ⟨0, 1, 0, 1⟩ else ⟨0, 4, 0, 4⟩)
    (fun _ => 2) [0, 1] = [0] := by decide

/-- A `2^32` by `2^32` box has `Area()` 0 in `int64`, so a box of energy 1 is
kept although its area is `2^64`. -/
example : filterBoxesThatAreTooLarge id (fun _ => ⟨0, 4294967296, 0, 4294967296⟩) (fun _ => 1) [0] = [0] := by
  decide

end Filter

end OrTools.Sat

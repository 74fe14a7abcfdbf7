import OrTools.Sat.EnergyConflict
import Mathlib.Data.Int.Interval

/-!
# The minimum energy of an item inside a rectangle

A `RectangleInRange` is an item of size `x_size` by `y_size`, to be placed
anywhere inside its `bounding_area`.  Inside the rectangle it probes, the
search of `FindRectanglesWithEnergyConflictMC()` gives each item the energy
`Smallest1DIntersection()` on `x` times `Smallest1DIntersection()` on `y`, as
`CacheShrinkDeltaEnergy()` computes it.  `Smallest1DIntersection()` looks only at the two extreme placements of the
item.  The overlap is concave in the placement, so one of them gives the least
overlap over all placements, and the product, counted in integer points, is the
least area that any placement of the item shares with the rectangle.
`CanConsumeEnergy()` is the quick test that this energy is not zero.
-/

set_option autoImplicit false

namespace OrTools.Sat

open Rectangle

/-! ## `Smallest1DIntersection()` -/

/-- `Smallest1DIntersection(range_min, range_max, size, interval_min,
interval_max)`. -/
def smallest1DIntersection (rangeMin rangeMax size intervalMin intervalMax : Int) : Int :=
  let overlapOnLeft := min (rangeMin + size) intervalMax - max rangeMin intervalMin
  let overlapOnRight := min rangeMax intervalMax - max (rangeMax - size) intervalMin
  max 0 (min overlapOnLeft overlapOnRight)

/-- The length of the intersection of the item at `[start, start + size)` with
`[interval_min, interval_max)`. -/
def intersectionLength (start size intervalMin intervalMax : Int) : Int :=
  max 0 (min (start + size) intervalMax - max start intervalMin)

section OneAxis

variable {rangeMin rangeMax size : Int} (intervalMin intervalMax : Int)

theorem smallest1DIntersection_nonneg :
    0 ≤ smallest1DIntersection rangeMin rangeMax size intervalMin intervalMax :=
  le_max_left _ _

theorem intersectionLength_nonneg (start : Int) : 0 ≤ intersectionLength start size intervalMin intervalMax :=
  le_max_left _ _

/-- No placement of the item in its range overlaps the interval less: the
overlap is concave in the start, so it is least at an end of the range. -/
theorem smallest1DIntersection_le {start : Int} (h₁ : rangeMin ≤ start) (h₂ : start + size ≤ rangeMax) :
    smallest1DIntersection rangeMin rangeMax size intervalMin intervalMax ≤
      intersectionLength start size intervalMin intervalMax := by
  simp only [smallest1DIntersection, intersectionLength]
  omega

/-- One of the two extreme placements overlaps the interval that little. -/
theorem exists_intersectionLength_eq (hfit : rangeMin + size ≤ rangeMax) :
    ∃ start, rangeMin ≤ start ∧ start + size ≤ rangeMax ∧
      intersectionLength start size intervalMin intervalMax =
        smallest1DIntersection rangeMin rangeMax size intervalMin intervalMax := by
  simp only [smallest1DIntersection, intersectionLength]
  by_cases hleft : min (rangeMin + size) intervalMax - max rangeMin intervalMin ≤
      min rangeMax intervalMax - max (rangeMax - size) intervalMin
  · exact ⟨rangeMin, le_rfl, hfit, by omega⟩
  · exact ⟨rangeMax - size, by omega, by omega, by rw [sub_add_cancel]; omega⟩

/-- For an item of positive size that fits in its range, the least overlap with
a non-empty interval is not zero exactly when the interval meets both extreme
placements. -/
theorem smallest1DIntersection_ne_zero_iff (hsize : 0 < size) (hfit : rangeMin + size ≤ rangeMax)
    (hle : intervalMin ≤ intervalMax) :
    smallest1DIntersection rangeMin rangeMax size intervalMin intervalMax ≠ 0 ↔
      intervalMin < rangeMin + size ∧ rangeMax - size < intervalMax ∧ intervalMin ≠ intervalMax := by
  simp only [smallest1DIntersection]
  omega

end OneAxis

/-! ## Items in ranges -/

/-- Modelled from the spec: `RectangleInRange` of `diffn_util.h`, which is not
under src/: an item of size `x_size` by `y_size` to be placed inside
`bounding_area`. -/
structure RectangleInRange where
  boxIndex : Nat
  boundingArea : Rectangle
  xSize : Int
  ySize : Int
  deriving DecidableEq, Repr

namespace RectangleInRange

/-- The box is a placement of the item: its sides are the item's sizes, and it
lies inside the bounding area. -/
def Places (item : RectangleInRange) (box : Rectangle) : Prop :=
  box.xMax - box.xMin = item.xSize ∧ box.yMax - box.yMin = item.ySize ∧ box.IsInside item.boundingArea

instance (item : RectangleInRange) (box : Rectangle) : Decidable (item.Places box) :=
  inferInstanceAs (Decidable (_ ∧ _ ∧ _))

/-- The energy the probing search gives the item inside `rectangle`,
`curr_x * curr_y` of `CacheShrinkDeltaEnergy()`. -/
def minimumEnergyIn (item : RectangleInRange) (rectangle : Rectangle) : Int :=
  smallest1DIntersection item.boundingArea.xMin item.boundingArea.xMax item.xSize rectangle.xMin
      rectangle.xMax *
    smallest1DIntersection item.boundingArea.yMin item.boundingArea.yMax item.ySize rectangle.yMin
      rectangle.yMax

end RectangleInRange

/-- `CanConsumeEnergy(rectangle, item)`. -/
def canConsumeEnergy (rectangle : Rectangle) (item : RectangleInRange) : Bool :=
  decide (rectangle.xMax > item.boundingArea.xMax - item.xSize) &&
    decide (rectangle.yMax > item.boundingArea.yMax - item.ySize) &&
    decide (rectangle.xMin < item.boundingArea.xMin + item.xSize) &&
    decide (rectangle.yMin < item.boundingArea.yMin + item.ySize)

/-! ## Counting points -/

namespace Rectangle

/-- The integer points of the rectangle. -/
def points (r : Rectangle) : Finset (Int × Int) := Finset.Ico r.xMin r.xMax ×ˢ Finset.Ico r.yMin r.yMax

theorem mem_points {r : Rectangle} {p : Int × Int} : p ∈ r.points ↔ r.Contains p := by
  simp [points, Contains, and_assoc]

/-- Two rectangles share as many points as the product of their overlaps on
each axis. -/
theorem card_points_inter (a b : Rectangle) :
    ((a.points ∩ b.points).card : Int) =
      intersectionLength a.xMin (a.xMax - a.xMin) b.xMin b.xMax *
        intersectionLength a.yMin (a.yMax - a.yMin) b.yMin b.yMax := by
  rw [points, points, Finset.product_inter_product, Finset.Ico_inter_Ico, Finset.Ico_inter_Ico,
    Finset.card_product, Int.card_Ico, Int.card_Ico, Nat.cast_mul, Int.toNat_eq_max, Int.toNat_eq_max]
  simp only [intersectionLength, add_sub_cancel]
  congr 1 <;> omega

end Rectangle

namespace RectangleInRange

variable (item : RectangleInRange) (r : Rectangle)

/-- Every placement of the item shares at least its minimum energy in points
with the rectangle. -/
theorem minimumEnergyIn_le {box : Rectangle} (h : item.Places box) :
    item.minimumEnergyIn r ≤ (box.points ∩ r.points).card := by
  obtain ⟨hx, hy, h₁, h₂, h₃, h₄⟩ := h
  rw [card_points_inter, minimumEnergyIn, hx, hy]
  exact mul_le_mul (smallest1DIntersection_le _ _ h₁ (by omega)) (smallest1DIntersection_le _ _ h₃ (by omega))
    (smallest1DIntersection_nonneg _ _) (intersectionLength_nonneg _ _ _)

end RectangleInRange

end OrTools.Sat

import Mathlib.Data.List.Pairwise
import Mathlib.Order.Basic

/-!
# Rectangles and region differences

A `Rectangle` of the 2D packing code stands for the integer points of
`[x_min, x_max) × [y_min, y_max)`.  `RegionDifference(other)` cuts a rectangle
into at most four pieces around its intersection with `other`;
`PavedRegionDifference()` applies it to every rectangle of a region, once per
rectangle removed, and `FindEmptySpaces()` paves a bounding box minus the
occupied rectangles with it.

The results are point-set statements: the pieces are pairwise disjoint and
cover exactly the points of the rectangle outside `other`, and the paving of a
region made of pairwise disjoint rectangles covers exactly the region minus
the removed rectangles, again with pairwise disjoint rectangles.  Coordinates
are `Int`: the functions only compare coordinates and the `SizeX()` tested
against zero.
-/

set_option autoImplicit false

namespace OrTools.Sat

/-- `Rectangle`, with the fields the code builds it from. -/
structure Rectangle where
  xMin : Int
  xMax : Int
  yMin : Int
  yMax : Int
  deriving DecidableEq, Repr

namespace Rectangle

/-- The rectangle holds the integer point `p`. -/
def Contains (r : Rectangle) (p : Int × Int) : Prop :=
  r.xMin ≤ p.1 ∧ p.1 < r.xMax ∧ r.yMin ≤ p.2 ∧ p.2 < r.yMax

instance (r : Rectangle) (p : Int × Int) : Decidable (r.Contains p) :=
  inferInstanceAs (Decidable (_ ∧ _ ∧ _ ∧ _))

/-- The two rectangles have no point in common. -/
def PointsDisjoint (a b : Rectangle) : Prop := ∀ p, ¬ (a.Contains p ∧ b.Contains p)

/-- `IsDisjoint(other)`. -/
def IsDisjoint (r other : Rectangle) : Bool :=
  r.xMin ≥ other.xMax || other.xMin ≥ r.xMax || r.yMin ≥ other.yMax || other.yMin ≥ r.yMax

/-- Modelled from the spec: `Rectangle::GetEmpty()` of `diffn_util.h`, which is
not under src/, the rectangle at the origin with no point. -/
def getEmpty : Rectangle := ⟨0, 0, 0, 0⟩

/-- Modelled from the spec: `Rectangle::SizeX()` of `diffn_util.h`. -/
def sizeX (r : Rectangle) : Int := r.xMax - r.xMin

/-- Modelled from the spec: `Rectangle::SizeY()` of `diffn_util.h`. -/
def sizeY (r : Rectangle) : Int := r.yMax - r.yMin

/-- Modelled from the spec: `Rectangle::Intersect(other)` of `diffn_util.h`,
which is not under src/: the overlap of the two rectangles, or `GetEmpty()`
when the overlap has no point. -/
def intersect (r other : Rectangle) : Rectangle :=
  if max r.xMin other.xMin ≥ min r.xMax other.xMax ∨ max r.yMin other.yMin ≥ min r.yMax other.yMax
  then getEmpty
  else ⟨max r.xMin other.xMin, min r.xMax other.xMax, max r.yMin other.yMin, min r.yMax other.yMax⟩

/-- `RegionDifference(other)`: the pieces left and right of the intersection,
then below and above it, each only when it is not empty. -/
def regionDifference (r other : Rectangle) : List Rectangle :=
  let intersect := r.intersect other
  if intersect.sizeX = 0 then [r]
  else
    (if r.xMin < intersect.xMin then [⟨r.xMin, intersect.xMin, r.yMin, r.yMax⟩] else []) ++
    (if r.xMax > intersect.xMax then [⟨intersect.xMax, r.xMax, r.yMin, r.yMax⟩] else []) ++
    (if r.yMin < intersect.yMin then [⟨intersect.xMin, intersect.xMax, r.yMin, intersect.yMin⟩]
      else []) ++
    (if r.yMax > intersect.yMax then [⟨intersect.xMin, intersect.xMax, intersect.yMax, r.yMax⟩]
      else [])

theorem contains_intersect (r other : Rectangle) (p : Int × Int) :
    (r.intersect other).Contains p ↔ r.Contains p ∧ other.Contains p := by
  unfold intersect
  split_ifs <;> simp only [Contains, getEmpty] <;> omega

/-- The intersection has no width exactly when the rectangles share no point. -/
theorem sizeX_intersect_eq_zero (r other : Rectangle) :
    (r.intersect other).sizeX = 0 ↔
      max r.xMin other.xMin ≥ min r.xMax other.xMax ∨ max r.yMin other.yMin ≥ min r.yMax other.yMax := by
  unfold intersect
  split_ifs with h <;> simp only [sizeX, getEmpty] <;> omega

/-- A non-empty intersection lies inside the rectangle. -/
theorem intersect_bounds (r other : Rectangle) (h : ¬ (r.intersect other).sizeX = 0) :
    r.xMin ≤ (r.intersect other).xMin ∧ (r.intersect other).xMin < (r.intersect other).xMax ∧
      (r.intersect other).xMax ≤ r.xMax ∧ r.yMin ≤ (r.intersect other).yMin ∧
      (r.intersect other).yMin < (r.intersect other).yMax ∧ (r.intersect other).yMax ≤ r.yMax := by
  rw [sizeX_intersect_eq_zero] at h
  unfold intersect
  rw [if_neg h]
  dsimp only
  omega

/-- The four pieces of `RegionDifference(other)` around a non-empty
intersection, before the tests that drop the empty ones. -/
def pieces (r i : Rectangle) : List Rectangle :=
  [⟨r.xMin, i.xMin, r.yMin, r.yMax⟩, ⟨i.xMax, r.xMax, r.yMin, r.yMax⟩,
    ⟨i.xMin, i.xMax, r.yMin, i.yMin⟩, ⟨i.xMin, i.xMax, i.yMax, r.yMax⟩]

theorem regionDifference_sublist_pieces (r other : Rectangle)
    (h : (r.intersect other).sizeX ≠ 0) :
    (r.regionDifference other).Sublist (pieces r (r.intersect other)) := by
  have hif : ∀ (c : Prop) [Decidable c] (x : Rectangle), (if c then [x] else []).Sublist [x] :=
    fun c _ x => by split_ifs <;> simp
  simp only [regionDifference, if_neg h, pieces]
  exact (((hif _ _).append (hif _ _)).append (hif _ _)).append (hif _ _)

/-- Around a non-empty intersection the four pieces are pairwise disjoint. -/
theorem pieces_pairwise (r other : Rectangle) (h : (r.intersect other).sizeX ≠ 0) :
    (pieces r (r.intersect other)).Pairwise PointsDisjoint := by
  rw [Ne, sizeX_intersect_eq_zero] at h
  unfold pieces intersect
  rw [if_neg h]
  simp only [List.pairwise_cons, List.mem_cons, List.mem_singleton, forall_eq_or_imp, forall_eq,
    List.not_mem_nil, false_implies, implies_true, List.Pairwise.nil, and_true, PointsDisjoint,
    Contains]
  refine ⟨⟨fun p => ?_, fun p => ?_, fun p => ?_⟩, ⟨fun p => ?_, fun p => ?_⟩, fun p => ?_⟩ <;> omega

/-- Some rectangle of the list holds the point. -/
def Covers (rs : List Rectangle) (p : Int × Int) : Prop := ∃ q ∈ rs, q.Contains p

@[simp] theorem covers_nil (p : Int × Int) : ¬ Covers [] p := by simp [Covers]

@[simp] theorem covers_singleton (q : Rectangle) (p : Int × Int) : Covers [q] p ↔ q.Contains p := by
  simp [Covers]

@[simp] theorem covers_append (l₁ l₂ : List Rectangle) (p : Int × Int) :
    Covers (l₁ ++ l₂) p ↔ Covers l₁ p ∨ Covers l₂ p := by
  simp only [Covers, List.mem_append, or_and_right, exists_or]

/-- A piece kept only when it is not empty covers what the piece covers. -/
theorem covers_ite (c : Prop) [Decidable c] (q : Rectangle) (p : Int × Int)
    (hc : ¬ c → ¬ q.Contains p) : Covers (if c then [q] else []) p ↔ q.Contains p := by
  split_ifs with h
  · exact covers_singleton q p
  · exact ⟨fun h' => absurd h' (covers_nil p), fun h' => absurd h' (hc h)⟩

/-- The pieces of `RegionDifference(other)` cover exactly the points of the
rectangle outside `other`. -/
theorem covers_regionDifference (r other : Rectangle) (p : Int × Int) :
    Covers (r.regionDifference other) p ↔ r.Contains p ∧ ¬ other.Contains p := by
  by_cases h : (r.intersect other).sizeX = 0
  · have hdis : ¬ (r.Contains p ∧ other.Contains p) := by
      rw [sizeX_intersect_eq_zero] at h
      simp only [Contains]; omega
    simp only [regionDifference, if_pos h, covers_singleton]
    tauto
  · have hi := contains_intersect r other p
    have hb := intersect_bounds r other h
    simp only [regionDifference, if_neg h]
    generalize r.intersect other = i at hi hb
    simp only [Contains] at hi
    rw [covers_append, covers_append, covers_append, covers_ite _ _ _ (by simp only [Contains]; omega),
      covers_ite _ _ _ (by simp only [Contains]; omega), covers_ite _ _ _ (by simp only [Contains]; omega),
      covers_ite _ _ _ (by simp only [Contains]; omega)]
    simp only [Contains]
    omega

/-- `RegionDifference(other)` returns at most four pairwise disjoint rectangles
covering exactly the rectangle minus `other`. -/
theorem regionDifference_spec (r other : Rectangle) :
    (r.regionDifference other).length ≤ 4 ∧ (r.regionDifference other).Pairwise PointsDisjoint ∧
      ∀ p, Covers (r.regionDifference other) p ↔ r.Contains p ∧ ¬ other.Contains p := by
  refine ⟨?_, ?_, covers_regionDifference r other⟩
  · by_cases h : (r.intersect other).sizeX = 0
    · simp [regionDifference, h]
    · simpa [pieces] using (regionDifference_sublist_pieces r other h).length_le
  · by_cases h : (r.intersect other).sizeX = 0
    · simp [regionDifference, h]
    · exact (pieces_pairwise r other h).sublist (regionDifference_sublist_pieces r other h)

@[simp] theorem covers_cons (q : Rectangle) (rs : List Rectangle) (p : Int × Int) :
    Covers (q :: rs) p ↔ q.Contains p ∨ Covers rs p := by
  simp [Covers]

theorem covers_flatMap (rs : List Rectangle) (f : Rectangle → List Rectangle) (p : Int × Int) :
    Covers (rs.flatMap f) p ↔ ∃ q ∈ rs, Covers (f q) p := by
  simp only [Covers, List.mem_flatMap]
  exact ⟨fun ⟨x, ⟨q, hq, hx⟩, hp⟩ => ⟨q, hq, x, hx, hp⟩, fun ⟨q, hq, x, hx, hp⟩ => ⟨x, ⟨q, hq, hx⟩, hp⟩⟩

/-- One pass of `PavedRegionDifference()`: the pieces of pairwise disjoint
rectangles minus `rectangle` are pairwise disjoint and cover the region minus
`rectangle`. -/
theorem flatMap_regionDifference {region : List Rectangle} (hd : region.Pairwise PointsDisjoint)
    (rectangle : Rectangle) :
    (region.flatMap (·.regionDifference rectangle)).Pairwise PointsDisjoint ∧
      ∀ p, Covers (region.flatMap (·.regionDifference rectangle)) p ↔
        Covers region p ∧ ¬ rectangle.Contains p := by
  have hsub : ∀ r : Rectangle, ∀ q ∈ r.regionDifference rectangle, ∀ p, q.Contains p → r.Contains p :=
    fun r q hq p hp => ((covers_regionDifference r rectangle p).mp ⟨q, hq, hp⟩).1
  refine ⟨List.pairwise_flatMap.mpr ⟨fun r _ => (regionDifference_spec r rectangle).2.1,
    hd.imp fun hab x hx y hy p hp => hab p ⟨hsub _ x hx p hp.1, hsub _ y hy p hp.2⟩⟩, fun p => ?_⟩
  rw [covers_flatMap]
  simp only [covers_regionDifference]
  exact ⟨fun ⟨q, hq, hp, hn⟩ => ⟨⟨q, hq, hp⟩, hn⟩, fun ⟨⟨q, hq, hp⟩, hn⟩ => ⟨q, hq, hp, hn⟩⟩

/-- `PavedRegionDifference(original_region, area_to_remove)`: each rectangle
removed cuts every rectangle of the region, and the loop stops once nothing is
left. -/
def pavedRegionDifference (originalRegion : List Rectangle) : List Rectangle → List Rectangle
  | [] => originalRegion
  | rectangle :: areaToRemove =>
    let newAreaToCover := originalRegion.flatMap (·.regionDifference rectangle)
    if newAreaToCover.isEmpty then newAreaToCover
    else pavedRegionDifference newAreaToCover areaToRemove

/-- The paving of pairwise disjoint rectangles is made of pairwise disjoint
rectangles and covers exactly the region minus the removed rectangles. -/
theorem pavedRegionDifference_spec : ∀ (areaToRemove originalRegion : List Rectangle),
    originalRegion.Pairwise PointsDisjoint →
      (pavedRegionDifference originalRegion areaToRemove).Pairwise PointsDisjoint ∧
        ∀ p, Covers (pavedRegionDifference originalRegion areaToRemove) p ↔
          Covers originalRegion p ∧ ¬ Covers areaToRemove p
  | [], _, hd => ⟨hd, fun p => by simp [pavedRegionDifference]⟩
  | rectangle :: areaToRemove, originalRegion, hd => by
    obtain ⟨hd', hcov⟩ := flatMap_regionDifference hd rectangle
    simp only [pavedRegionDifference]
    split_ifs with he
    · refine ⟨hd', fun p => ?_⟩
      have := hcov p
      rw [List.isEmpty_iff.mp he] at this ⊢
      simp only [covers_nil, false_iff, not_and, covers_cons, not_or] at this ⊢
      tauto
    · obtain ⟨hd'', hcov'⟩ := pavedRegionDifference_spec areaToRemove _ hd'
      exact ⟨hd'', fun p => by rw [hcov', hcov, covers_cons]; tauto⟩

/-- `FindEmptySpaces(bounding_box, ocupied_rectangles)`, on the occupied
rectangles as `std::sort` leaves them. -/
def findEmptySpaces (boundingBox : Rectangle) (ocupiedRectangles : List Rectangle) : List Rectangle :=
  pavedRegionDifference [boundingBox] ocupiedRectangles

/-- `RegionDifference(other)` returns at most four pairwise disjoint rectangles
covering the rectangle minus `other`; so `PavedRegionDifference()` of pairwise
disjoint rectangles returns pairwise disjoint rectangles covering exactly the
region minus the removed rectangles, and `FindEmptySpaces()` paves exactly the
bounding box minus the occupied rectangles, whatever order the sort leaves
them in. -/
theorem pavedRegionDifference_paves (originalRegion areaToRemove : List Rectangle)
    (hd : originalRegion.Pairwise PointsDisjoint) :
    (∀ r other : Rectangle, (r.regionDifference other).length ≤ 4 ∧
      (r.regionDifference other).Pairwise PointsDisjoint ∧
      ∀ p, Covers (r.regionDifference other) p ↔ r.Contains p ∧ ¬ other.Contains p) ∧
    (pavedRegionDifference originalRegion areaToRemove).Pairwise PointsDisjoint ∧
    (∀ p, Covers (pavedRegionDifference originalRegion areaToRemove) p ↔
      Covers originalRegion p ∧ ¬ Covers areaToRemove p) ∧
    ∀ (boundingBox : Rectangle) (ocupiedRectangles sorted : List Rectangle),
      sorted.Perm ocupiedRectangles →
      (findEmptySpaces boundingBox sorted).Pairwise PointsDisjoint ∧
      ∀ p, Covers (findEmptySpaces boundingBox sorted) p ↔
        boundingBox.Contains p ∧ ¬ Covers ocupiedRectangles p := by
  refine ⟨regionDifference_spec, (pavedRegionDifference_spec areaToRemove originalRegion hd).1,
    (pavedRegionDifference_spec areaToRemove originalRegion hd).2,
    fun boundingBox ocupiedRectangles sorted hperm => ?_⟩
  obtain ⟨hd', hcov⟩ := pavedRegionDifference_spec sorted [boundingBox] (List.pairwise_singleton _ _)
  refine ⟨hd', fun p => ?_⟩
  rw [findEmptySpaces, hcov, covers_singleton]
  simp only [Covers, hperm.mem_iff]

theorem pavedRegionDifference_paves_on_square :
    [(⟨0, 4, 0, 4⟩ : Rectangle)].Pairwise PointsDisjoint ∧
      ((∀ r other : Rectangle, (r.regionDifference other).length ≤ 4 ∧
        (r.regionDifference other).Pairwise PointsDisjoint ∧
        ∀ p, Covers (r.regionDifference other) p ↔ r.Contains p ∧ ¬ other.Contains p) ∧
      (pavedRegionDifference [⟨0, 4, 0, 4⟩] [⟨1, 2, 1, 2⟩]).Pairwise PointsDisjoint ∧
      (∀ p, Covers (pavedRegionDifference [⟨0, 4, 0, 4⟩] [⟨1, 2, 1, 2⟩]) p ↔
        Covers [⟨0, 4, 0, 4⟩] p ∧ ¬ Covers [⟨1, 2, 1, 2⟩] p) ∧
      ∀ (boundingBox : Rectangle) (ocupiedRectangles sorted : List Rectangle),
        sorted.Perm ocupiedRectangles →
        (findEmptySpaces boundingBox sorted).Pairwise PointsDisjoint ∧
        ∀ p, Covers (findEmptySpaces boundingBox sorted) p ↔
          boundingBox.Contains p ∧ ¬ Covers ocupiedRectangles p) :=
  ⟨List.pairwise_singleton _ _, pavedRegionDifference_paves _ _ (List.pairwise_singleton _ _)⟩

example : pavedRegionDifference [⟨0, 4, 0, 4⟩] [⟨1, 2, 1, 2⟩] =
    [⟨0, 1, 0, 4⟩, ⟨2, 4, 0, 4⟩, ⟨1, 2, 0, 1⟩, ⟨1, 2, 2, 4⟩] := by decide

end Rectangle

end OrTools.Sat

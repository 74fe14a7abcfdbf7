import OrTools.Sat.MinimumEnergy
import Mathlib.Data.List.Sort
import Mathlib.Data.List.Dedup
import Mathlib.Algebra.BigOperators.Group.Finset

/-!
# `ProbingRectangle`

`FindRectanglesWithEnergyConflictMC()` looks for a rectangle that its items must fill with
more energy than its area.  It starts from the bounding box of all items and shrinks one edge
at a time to the next coordinate where the energy of an item may change slope: the points
`x_min`, `x_min + x_size`, `x_max - x_size` and `x_max` of every item's range, sorted and
grouped by value, with one bogus point past each end.

`ProbingRectangle` keeps the energy of the current rectangle without a pass over the items.
An item touches an edge when the rectangle's edge lies inside the item's range on that side
(`GetPossibleEdgeIntersection()`).  While it touches one edge of a direction only, moving that
edge inward takes one unit of its `Smallest1DIntersection()` per unit moved: the item's length
across, summed in `intersect_length_[edge]`.  An item at a corner also loses length across
when the orthogonal edge moves, which `corner_count_` corrects.  The items touching both edges
of a direction are not linear in the move; `ranges_touching_both_boundaries_` holds them and
their energy is summed exactly.  `cached_delta_energy_[edge]` is the energy the next move of
`edge` removes, and `ValidateInvariants()` recomputes all of it from scratch.

The enums `Edge`, `Direction` and `Corner`, the struct `RectangleInRange` and the accessors
`GetShrinkDeltaEnergy()`, `GetMinimumEnergy()`, `GetCurrentRectangleArea()` and
`IsMinimal()` are declared in `diffn_util.h`, which is not under src/; they are modelled from
their uses here.
-/

set_option autoImplicit false

namespace OrTools.Sat

open Function

/-! ## Edges, directions and corners -/

/-- `ProbingRectangle::Edge`, in the order of its values. -/
inductive Edge
  | top
  | left
  | bottom
  | right
  deriving DecidableEq, Repr

/-- `ProbingRectangle::Direction`: `LEFT_AND_RIGHT` is the dimension `0`. -/
inductive Direction
  | leftAndRight
  | topAndBottom
  deriving DecidableEq, Repr

/-- `RectangleInRange::Corner`. -/
inductive Corner
  | bottomLeft
  | topLeft
  | bottomRight
  | topRight
  deriving DecidableEq, Repr

/-- `EdgeInfo::OrthogonalInfo`. -/
structure OrthogonalInfo where
  edge : Edge
  adjacentCorner : Corner
  deriving DecidableEq, Repr

/-- `EdgeInfo`: the two orthogonal edges, lower coordinate first. -/
structure EdgeInfo where
  oppositeEdge : Edge
  shrinkDirection : Direction
  orthogonalShrinkDirection : Direction
  orthogonalEdges : OrthogonalInfo × OrthogonalInfo
  deriving DecidableEq, Repr

/-- `GetEdgeInfo(edge)`, the constants of `EdgeInfoHolder`. -/
def getEdgeInfo : Edge → EdgeInfo
  | .left => ⟨.right, .leftAndRight, .topAndBottom, (⟨.bottom, .bottomLeft⟩, ⟨.top, .topLeft⟩)⟩
  | .right => ⟨.left, .leftAndRight, .topAndBottom, (⟨.bottom, .bottomRight⟩, ⟨.top, .topRight⟩)⟩
  | .bottom => ⟨.top, .topAndBottom, .leftAndRight, (⟨.left, .bottomLeft⟩, ⟨.right, .bottomRight⟩)⟩
  | .top => ⟨.bottom, .topAndBottom, .leftAndRight, (⟨.left, .topLeft⟩, ⟨.right, .topRight⟩)⟩

/-- `GetPossibleEdgeIntersection(rectangle, range)`: which edges of `rectangle` lie inside the
range of the item on their side. -/
def getPossibleEdgeIntersection (rectangle : Rectangle) (range : RectangleInRange) : Edge → Bool
  | .left => decide (rectangle.xMin ≥ range.boundingArea.xMin)
  | .bottom => decide (rectangle.yMin ≥ range.boundingArea.yMin)
  | .right => decide (rectangle.xMax ≤ range.boundingArea.xMax)
  | .top => decide (rectangle.yMax ≤ range.boundingArea.yMax)

/-- `GetSmallest1DIntersection(direction, range, rectangle)`. -/
def getSmallest1DIntersection (direction : Direction) (range : RectangleInRange)
    (rectangle : Rectangle) : Int :=
  match direction with
  | .leftAndRight =>
    smallest1DIntersection range.boundingArea.xMin range.boundingArea.xMax range.xSize
      rectangle.xMin rectangle.xMax
  | .topAndBottom =>
    smallest1DIntersection range.boundingArea.yMin range.boundingArea.yMax range.ySize
      rectangle.yMin rectangle.yMax

/-- `touching_boundary` of `ValidateInvariants()` and `touching_boundary_after` of
`ShrinkImpl()`: the edges the item touches, none when it cannot consume energy in the
rectangle. -/
def touchingBoundary (rectangle : Rectangle) (range : RectangleInRange) : Edge → Bool :=
  if canConsumeEnergy rectangle range then getPossibleEdgeIntersection rectangle range
  else fun _ => false

/-! ## The sorted points -/

/-- `ProbingRectangle::IntervalPoint`: a coordinate and the index of the item it comes from,
`-1` for the bogus points. -/
structure IntervalPoint where
  value : Int
  index : Int
  deriving DecidableEq, Repr

/-- `ProbingRectangle::PointsForCoordinate`: a coordinate and the points that have it. -/
structure PointsForCoordinate where
  coordinate : Int
  itemsTouchingCoordinate : List IntervalPoint
  deriving DecidableEq, Repr, Inhabited

/-- The order of `comparator` in the constructor: by value, then by index. -/
def IntervalPoint.Le (a b : IntervalPoint) : Prop :=
  a.value < b.value ∨ (a.value = b.value ∧ a.index ≤ b.index)

instance : DecidableRel IntervalPoint.Le := fun _ _ => inferInstanceAs (Decidable (_ ∨ _))

instance : IsTotal IntervalPoint IntervalPoint.Le :=
  ⟨fun a b => by simp only [IntervalPoint.Le]; omega⟩

instance : IsTrans IntervalPoint IntervalPoint.Le :=
  ⟨fun a b c => by simp only [IntervalPoint.Le]; omega⟩

/-- `gtl::STLSortAndRemoveDuplicates()` with `comparator`: the points by value and index, each
once.  The order is linear, so every sort gives this list. -/
def IntervalPoint.sortAndRemoveDuplicates (points : List IntervalPoint) : List IntervalPoint :=
  (points.insertionSort IntervalPoint.Le).dedup

/-- The two nested `while` loops of the constructor: the sorted points cut into runs of one
value. -/
def groupByCoordinate : List IntervalPoint → List PointsForCoordinate
  | [] => []
  | point :: points =>
    match groupByCoordinate points with
    | group :: groups =>
      if group.coordinate = point.value then
        ⟨point.value, point :: group.itemsTouchingCoordinate⟩ :: groups
      else ⟨point.value, [point]⟩ :: group :: groups
    | [] => [⟨point.value, [point]⟩]

/-- The points the constructor pushes for item `i` on one axis. -/
def axisPoints (i : Nat) (rangeMin rangeMax size : Int) : List IntervalPoint :=
  [⟨rangeMin, i⟩, ⟨rangeMin + size, i⟩, ⟨rangeMax - size, i⟩, ⟨rangeMax, i⟩]

/-- The `bounding_box` of the constructor.  The code starts from the limits of
`IntegerValue`; the model's values are unbounded, so it starts from the first item. -/
def boundingBox : List RectangleInRange → Rectangle
  | [] => ⟨0, 0, 0, 0⟩
  | interval :: intervals =>
    intervals.foldl (fun box interval =>
      ⟨min box.xMin interval.boundingArea.xMin, max box.xMax interval.boundingArea.xMax,
        min box.yMin interval.boundingArea.yMin, max box.yMax interval.boundingArea.yMax⟩)
      interval.boundingArea

/-! ## Arrays indexed by an edge, a corner or a direction -/

/-- An array indexed by the edges, as `indexes_[4]` is. -/
@[ext] structure EdgeArray (α : Type) where
  top : α
  left : α
  bottom : α
  right : α
  deriving DecidableEq, Repr

/-- An array indexed by the corners, as `corner_count_[4]` is. -/
@[ext] structure CornerArray (α : Type) where
  bottomLeft : α
  topLeft : α
  bottomRight : α
  topRight : α
  deriving DecidableEq, Repr

/-- An array indexed by the directions, as `ranges_touching_both_boundaries_[2]` is. -/
@[ext] structure DirectionArray (α : Type) where
  leftAndRight : α
  topAndBottom : α
  deriving DecidableEq

namespace EdgeArray

variable {α : Type}

/-- `a[edge]`. -/
def get (a : EdgeArray α) : Edge → α
  | .top => a.top
  | .left => a.left
  | .bottom => a.bottom
  | .right => a.right

/-- `a[edge] = value`. -/
def set (a : EdgeArray α) : Edge → α → EdgeArray α
  | .top, value => { a with top := value }
  | .left, value => { a with left := value }
  | .bottom, value => { a with bottom := value }
  | .right, value => { a with right := value }

/-- The array of `f edge` at every edge. -/
def ofFn (f : Edge → α) : EdgeArray α := ⟨f .top, f .left, f .bottom, f .right⟩

@[simp] theorem get_set (a : EdgeArray α) (edge : Edge) (value : α) :
    (a.set edge value).get = update a.get edge value := by
  funext x
  cases edge <;> cases x <;> rfl

@[simp] theorem get_ofFn (f : Edge → α) : (ofFn f).get = f := by
  funext x
  cases x <;> rfl

@[simp] theorem ofFn_get (a : EdgeArray α) : ofFn a.get = a := rfl

theorem ext_get {a b : EdgeArray α} (h : ∀ edge, a.get edge = b.get edge) : a = b :=
  EdgeArray.ext (h .top) (h .left) (h .bottom) (h .right)

theorem get_ite (c : Prop) [Decidable c] (a b : EdgeArray α) (edge : Edge) :
    (if c then a else b).get edge = if c then a.get edge else b.get edge := by
  split <;> rfl

end EdgeArray

namespace CornerArray

variable {α : Type}

/-- `a[corner]`. -/
def get (a : CornerArray α) : Corner → α
  | .bottomLeft => a.bottomLeft
  | .topLeft => a.topLeft
  | .bottomRight => a.bottomRight
  | .topRight => a.topRight

/-- `a[corner] = value`. -/
def set (a : CornerArray α) : Corner → α → CornerArray α
  | .bottomLeft, value => { a with bottomLeft := value }
  | .topLeft, value => { a with topLeft := value }
  | .bottomRight, value => { a with bottomRight := value }
  | .topRight, value => { a with topRight := value }

/-- The array of `f corner` at every corner. -/
def ofFn (f : Corner → α) : CornerArray α := ⟨f .bottomLeft, f .topLeft, f .bottomRight, f .topRight⟩

@[simp] theorem get_set (a : CornerArray α) (corner : Corner) (value : α) :
    (a.set corner value).get = update a.get corner value := by
  funext x
  cases corner <;> cases x <;> rfl

@[simp] theorem get_ofFn (f : Corner → α) : (ofFn f).get = f := by
  funext x
  cases x <;> rfl

@[simp] theorem ofFn_get (a : CornerArray α) : ofFn a.get = a := rfl

theorem ext_get {a b : CornerArray α} (h : ∀ corner, a.get corner = b.get corner) : a = b :=
  CornerArray.ext (h .bottomLeft) (h .topLeft) (h .bottomRight) (h .topRight)

theorem get_ite (c : Prop) [Decidable c] (a b : CornerArray α) (corner : Corner) :
    (if c then a else b).get corner = if c then a.get corner else b.get corner := by
  split <;> rfl

end CornerArray

namespace DirectionArray

variable {α : Type}

/-- `a[direction]`. -/
def get (a : DirectionArray α) : Direction → α
  | .leftAndRight => a.leftAndRight
  | .topAndBottom => a.topAndBottom

/-- `a[direction] = value`. -/
def set (a : DirectionArray α) : Direction → α → DirectionArray α
  | .leftAndRight, value => { a with leftAndRight := value }
  | .topAndBottom, value => { a with topAndBottom := value }

@[simp] theorem get_set (a : DirectionArray α) (direction : Direction) (value : α) :
    (a.set direction value).get = update a.get direction value := by
  funext x
  cases direction <;> cases x <;> rfl

theorem ext_get {a b : DirectionArray α} (h : ∀ direction, a.get direction = b.get direction) :
    a = b :=
  DirectionArray.ext (h .leftAndRight) (h .topAndBottom)

end DirectionArray

/-! ## The state -/

/-- The fields of `ProbingRectangle`; `ranges_touching_both_boundaries_` are hash sets of item
indexes. -/
structure ProbingRectangle where
  intervals : List RectangleInRange
  groupedIntervalsSortedByX : List PointsForCoordinate
  groupedIntervalsSortedByY : List PointsForCoordinate
  indexes : EdgeArray Nat
  nextIndexes : EdgeArray Nat
  rangesTouchingBothBoundaries : DirectionArray (Finset Nat)
  cornerCount : CornerArray Int
  intersectLength : EdgeArray Int
  cachedDeltaEnergy : EdgeArray Int
  minimumEnergy : Int
  fullEnergy : Int
  probeArea : Int

namespace ProbingRectangle

variable (p : ProbingRectangle)

/-- `intervals_[idx]` for an index of the hash sets. -/
def item (idx : Nat) : RectangleInRange := p.intervals.getD idx ⟨0, ⟨0, 0, 0, 0⟩, 0, 0⟩

/-- `intervals_[item.index]` for a sorted point: the bogus points, of index `-1`, have no
item. -/
def itemAt (index : Int) : Option RectangleInRange :=
  if 0 ≤ index then p.intervals[index.toNat]? else none

/-- `GetCurrentRectangle()`. -/
def getCurrentRectangle : Rectangle :=
  ⟨(p.groupedIntervalsSortedByX.getD (p.indexes.get .left) default).coordinate,
    (p.groupedIntervalsSortedByX.getD (p.indexes.get .right) default).coordinate,
    (p.groupedIntervalsSortedByY.getD (p.indexes.get .bottom) default).coordinate,
    (p.groupedIntervalsSortedByY.getD (p.indexes.get .top) default).coordinate⟩

/-- `CanShrink(edge)`: the two edges of a direction answer alike. -/
def canShrink : Edge → Bool
  | .left | .right => decide (p.nextIndexes.get .right > p.indexes.get .left)
  | .bottom | .top => decide (p.indexes.get .top > p.nextIndexes.get .bottom)

/-- `GetShrinkDeltaEnergy(edge)` of `diffn_util.h`: the cached energy. -/
def getShrinkDeltaEnergy (edge : Edge) : Int := p.cachedDeltaEnergy.get edge

/-- `GetMinimumEnergy()` of `diffn_util.h`. -/
def getMinimumEnergy : Int := p.minimumEnergy

/-- `GetCurrentRectangleArea()` of `diffn_util.h`. -/
def getCurrentRectangleArea : Int := p.probeArea

/-- `IsMinimal()` of `diffn_util.h`: no edge can shrink. -/
def isMinimal : Bool := !p.canShrink .left && !p.canShrink .bottom

/-- `GetShrinkDeltaArea(edge)`. -/
def getShrinkDeltaArea (edge : Edge) : Int :=
  let currentRectangle := p.getCurrentRectangle
  let sortedIntervals :=
    if edge = .left ∨ edge = .right then p.groupedIntervalsSortedByX else p.groupedIntervalsSortedByY
  let coordinate := (sortedIntervals.getD (p.nextIndexes.get edge) default).coordinate
  match edge with
  | .left => (coordinate - currentRectangle.xMin) * currentRectangle.sizeY
  | .bottom => (coordinate - currentRectangle.yMin) * currentRectangle.sizeX
  | .right => (currentRectangle.xMax - coordinate) * currentRectangle.sizeY
  | .top => (currentRectangle.yMax - coordinate) * currentRectangle.sizeX

end ProbingRectangle

/-! ## `CacheShrinkDeltaEnergy()` -/

/-- The energy that the move from `current` to `next` along `dimension` removes from an item
touching both edges of `dimension`: `curr - curr_y * up_x` for the dimension `0`. -/
def bothBoundariesDeltaEnergy (dimension : Direction) (range : RectangleInRange)
    (current next : Rectangle) : Int :=
  let currX := getSmallest1DIntersection .leftAndRight range current
  let currY := getSmallest1DIntersection .topAndBottom range current
  match dimension with
  | .leftAndRight => currX * currY - currY * getSmallest1DIntersection .leftAndRight range next
  | .topAndBottom => currX * currY - currX * getSmallest1DIntersection .topAndBottom range next

namespace ProbingRectangle

variable (p : ProbingRectangle)

/-- `CacheShrinkDeltaEnergy(dimension)`: the items touching both edges exactly, the others by
`intersect_length_` times the move. -/
def cacheShrinkDeltaEnergy (dimension : Direction) : ProbingRectangle :=
  let currentRectangle := p.getCurrentRectangle
  let delta (next : Rectangle) (step units : Int) : Int :=
    (∑ idx ∈ p.rangesTouchingBothBoundaries.get dimension,
      bothBoundariesDeltaEnergy dimension (p.item idx) currentRectangle next) + units * step
  match dimension with
  | .leftAndRight =>
    if !p.canShrink .left then
      { p with cachedDeltaEnergy := (p.cachedDeltaEnergy.set .left 0).set .right 0 }
    else
      let up := { currentRectangle with
        xMin := (p.groupedIntervalsSortedByX.getD (p.nextIndexes.get .left) default).coordinate }
      let down := { currentRectangle with
        xMax := (p.groupedIntervalsSortedByX.getD (p.nextIndexes.get .right) default).coordinate }
      let deltaEnergyUp := delta up (up.xMin - currentRectangle.xMin) (p.intersectLength.get .left)
      let deltaEnergyDown :=
        delta down (currentRectangle.xMax - down.xMax) (p.intersectLength.get .right)
      { p with cachedDeltaEnergy :=
          (p.cachedDeltaEnergy.set .left deltaEnergyUp).set .right deltaEnergyDown }
  | .topAndBottom =>
    if !p.canShrink .top then
      { p with cachedDeltaEnergy := (p.cachedDeltaEnergy.set .bottom 0).set .top 0 }
    else
      let up := { currentRectangle with
        yMin := (p.groupedIntervalsSortedByY.getD (p.nextIndexes.get .bottom) default).coordinate }
      let down := { currentRectangle with
        yMax := (p.groupedIntervalsSortedByY.getD (p.nextIndexes.get .top) default).coordinate }
      let deltaEnergyUp :=
        delta up (up.yMin - currentRectangle.yMin) (p.intersectLength.get .bottom)
      let deltaEnergyDown := delta down (currentRectangle.yMax - down.yMax) (p.intersectLength.get .top)
      { p with cachedDeltaEnergy :=
          (p.cachedDeltaEnergy.set .bottom deltaEnergyUp).set .top deltaEnergyDown }

end ProbingRectangle

/-! ## `ShrinkImpl()` -/

/-- The state the loop over `items_touching_coordinate` of `ShrinkImpl()` changes. -/
structure ShrinkAcc where
  intersectLength : EdgeArray Int
  cornerCount : CornerArray Int
  rangesTouchingBothBoundaries : DirectionArray (Finset Nat)
  deltaCornerCount : CornerArray Int
  updateNextIndex : EdgeArray Bool

/-- The lambda `erase_item(edge_to_erase)`: the item no longer counts in
`intersect_length_[edge_to_erase]`, and the corners it made with that edge are to be
removed. -/
def eraseItem (prevRectangle : Rectangle) (range : RectangleInRange)
    (touchingBoundaryBefore : Edge → Bool) (acc : EdgeArray Int × CornerArray Bool)
    (edgeToErase : Edge) : EdgeArray Int × CornerArray Bool :=
  let eraseInfo := getEdgeInfo edgeToErase
  let intersectLength := acc.1.set edgeToErase (acc.1.get edgeToErase -
    getSmallest1DIntersection eraseInfo.orthogonalShrinkDirection range prevRectangle)
  if touchingBoundaryBefore eraseInfo.orthogonalEdges.1.edge &&
      touchingBoundaryBefore eraseInfo.orthogonalEdges.2.edge then
    (intersectLength, acc.2)
  else
    (intersectLength, [eraseInfo.orthogonalEdges.1, eraseInfo.orthogonalEdges.2].foldl
      (fun removeCorner o =>
        if touchingBoundaryBefore o.edge then removeCorner.set o.adjacentCorner true
        else removeCorner) acc.2)

/-- The body of the loop over `items_touching_coordinate`, for the item `idx`. -/
def shrinkItem (edge : Edge) (prevRectangle currentRectangle : Rectangle) (acc : ShrinkAcc)
    (idx : Nat) (range : RectangleInRange) : ShrinkAcc :=
  if !canConsumeEnergy prevRectangle range then acc
  else
    let e := getEdgeInfo edge
    let before := getPossibleEdgeIntersection prevRectangle range
    let after := touchingBoundary currentRectangle range
    let noCorner : CornerArray Bool := ⟨false, false, false, false⟩
    -- The item now touches `edge`.
    let (intersectLength, removeCorner, both, deltaCornerCount) :
        EdgeArray Int × CornerArray Bool × DirectionArray (Finset Nat) × CornerArray Int :=
      if after edge && !before edge then
        if before e.oppositeEdge then
          let erased := eraseItem prevRectangle range before (acc.intersectLength, noCorner)
            e.oppositeEdge
          (erased.1, erased.2, acc.rangesTouchingBothBoundaries.set e.shrinkDirection
            (insert idx (acc.rangesTouchingBothBoundaries.get e.shrinkDirection)), acc.deltaCornerCount)
        else
          (acc.intersectLength.set edge (acc.intersectLength.get edge +
              getSmallest1DIntersection e.orthogonalShrinkDirection range prevRectangle),
            noCorner, acc.rangesTouchingBothBoundaries,
            if !before e.orthogonalEdges.1.edge || !before e.orthogonalEdges.2.edge then
              [e.orthogonalEdges.1, e.orthogonalEdges.2].foldl (fun delta o =>
                if before o.edge then delta.set o.adjacentCorner (delta.get o.adjacentCorner + 1)
                else delta) acc.deltaCornerCount
            else acc.deltaCornerCount)
      else (acc.intersectLength, noCorner, acc.rangesTouchingBothBoundaries, acc.deltaCornerCount)
    -- The edges the item no longer touches.
    let (intersectLength, removeCorner, both, updateNextIndex) :=
      [Edge.top, .left, .bottom, .right].foldl
        (fun (s : EdgeArray Int × CornerArray Bool × DirectionArray (Finset Nat) × EdgeArray Bool)
            edgeToUpdate =>
          let info := getEdgeInfo edgeToUpdate
          if !(before edgeToUpdate && !after edgeToUpdate) then s
          else
            let updateNextIndex := s.2.2.2.set edgeToUpdate true
            if before info.oppositeEdge then
              (s.1, s.2.1, s.2.2.1.set info.shrinkDirection ((s.2.2.1.get info.shrinkDirection).erase idx),
                updateNextIndex)
            else
              let erased := eraseItem prevRectangle range before (s.1, s.2.1) edgeToUpdate
              (erased.1, erased.2, s.2.2.1, updateNextIndex))
        (intersectLength, removeCorner, both, acc.updateNextIndex)
    ⟨intersectLength,
      CornerArray.ofFn fun c => acc.cornerCount.get c - if removeCorner.get c then 1 else 0, both,
      deltaCornerCount, updateNextIndex⟩

/-- The `for` loops that move `next_indexes_[LEFT]` and `next_indexes_[BOTTOM]` up to the first
coordinate where an item can consume energy, stopping at `bound`.  The loop runs at most
`fuel` times. -/
def scanUp (consumes : Nat → Bool) (bound : Nat) : Nat → Nat → Nat
  | 0, next => next
  | fuel + 1, next => if next < bound ∧ !consumes next then scanUp consumes bound fuel (next + 1) else next

/-- The `for` loops that move `next_indexes_[RIGHT]` and `next_indexes_[TOP]` down. -/
def scanDown (consumes : Nat → Bool) (bound : Nat) : Nat → Nat → Nat
  | 0, next => next
  | fuel + 1, next => if next > bound ∧ !consumes next then scanDown consumes bound fuel (next - 1) else next

namespace ProbingRectangle

variable (p : ProbingRectangle)

/-- The lambda `points_consume_energy(points)`. -/
def pointsConsumeEnergy (currentRectangle : Rectangle) (points : List IntervalPoint) : Bool :=
  points.any fun point => match p.itemAt point.index with
    | some range => canConsumeEnergy currentRectangle range
    | none => false

/-- The loop over `items_touching_coordinate`. -/
def shrinkItems (edge : Edge) (prevRectangle currentRectangle : Rectangle) (acc : ShrinkAcc)
    (points : List IntervalPoint) : ShrinkAcc :=
  points.foldl (fun acc point => match p.itemAt point.index with
    | some range => shrinkItem edge prevRectangle currentRectangle acc point.index.toNat range
    | none => acc) acc

/-- The loop over `ranges_touching_both_boundaries_[e.shrink_direction]`, for one item: the
change of its length along the shrink, for the orthogonal edge it touches alone. -/
def bothBoundariesDeltaLength (edge : Edge) (prevRectangle currentRectangle : Rectangle)
    (idx : Nat) (x : Edge) : Int :=
  let e := getEdgeInfo edge
  let range := p.item idx
  let touchingCorner : Bool × Bool :=
    if e.shrinkDirection = .leftAndRight then
      (decide (currentRectangle.yMin ≥ range.boundingArea.yMin),
        decide (currentRectangle.yMax ≤ range.boundingArea.yMax))
    else
      (decide (currentRectangle.xMin ≥ range.boundingArea.xMin),
        decide (currentRectangle.xMax ≤ range.boundingArea.xMax))
  if touchingCorner.1 = touchingCorner.2 then 0
  else
    let incr := getSmallest1DIntersection e.shrinkDirection range prevRectangle -
      getSmallest1DIntersection e.shrinkDirection range currentRectangle
    if touchingCorner.1 ∧ x = e.orthogonalEdges.1.edge then incr
    else if touchingCorner.2 ∧ x = e.orthogonalEdges.2.edge then incr else 0

/-- The `switch (edge)` of `ShrinkImpl()`: the length of the move. -/
def step1dSize (edge : Edge) (prevRectangle currentRectangle : Rectangle) : Int :=
  match edge with
  | .left => currentRectangle.xMin - prevRectangle.xMin
  | .bottom => currentRectangle.yMin - prevRectangle.yMin
  | .right => prevRectangle.xMax - currentRectangle.xMax
  | .top => prevRectangle.yMax - currentRectangle.yMax

/-- The `switch (edge)` of `ShrinkImpl()`: the next indexes of `edge` and of its opposite, from
the moved `indexes`. -/
def moveNextIndexes (edge : Edge) (indexes nextIndexes : EdgeArray Nat) : EdgeArray Nat :=
  let opposite := (getEdgeInfo edge).oppositeEdge
  match edge with
  | .left | .bottom =>
    (nextIndexes.set edge (min (indexes.get edge + 1) (indexes.get opposite))).set opposite
      (max (indexes.get edge) (nextIndexes.get opposite))
  | .right | .top =>
    (nextIndexes.set edge (max (indexes.get edge - 1) (indexes.get opposite))).set opposite
      (min (indexes.get edge) (nextIndexes.get opposite))

/-- The four `for` loops at the end of `ShrinkImpl()`, each run when its edge is marked. -/
def scanNextIndexes (currentRectangle : Rectangle) (updateNextIndex : EdgeArray Bool)
    (indexes nextIndexes : EdgeArray Nat) : EdgeArray Nat :=
  let consumesX g := p.pointsConsumeEnergy currentRectangle
    (p.groupedIntervalsSortedByX.getD g default).itemsTouchingCoordinate
  let consumesY g := p.pointsConsumeEnergy currentRectangle
    (p.groupedIntervalsSortedByY.getD g default).itemsTouchingCoordinate
  let nextIndexes := if updateNextIndex.get .left then
    nextIndexes.set .left
      (scanUp consumesX (indexes.get .right) (indexes.get .right) (nextIndexes.get .left))
    else nextIndexes
  let nextIndexes := if updateNextIndex.get .bottom then
    nextIndexes.set .bottom
      (scanUp consumesY (indexes.get .top) (indexes.get .top) (nextIndexes.get .bottom))
    else nextIndexes
  let nextIndexes := if updateNextIndex.get .right then
    nextIndexes.set .right
      (scanDown consumesX (indexes.get .left) (nextIndexes.get .right) (nextIndexes.get .right))
    else nextIndexes
  if updateNextIndex.get .top then
    nextIndexes.set .top
      (scanDown consumesY (indexes.get .bottom) (nextIndexes.get .top) (nextIndexes.get .top))
  else nextIndexes

/-- `Shrink(edge)`, which runs `ShrinkImpl<edge>()`. -/
def shrink (edge : Edge) : ProbingRectangle :=
  let e := getEdgeInfo edge
  let minimumEnergy := p.minimumEnergy - p.getShrinkDeltaEnergy edge
  let sortedIntervals := if e.shrinkDirection = .leftAndRight then p.groupedIntervalsSortedByX
    else p.groupedIntervalsSortedByY
  let prevRectangle := p.getCurrentRectangle
  let indexes := p.indexes.set edge (p.nextIndexes.get edge)
  let currentRectangle := { p with indexes }.getCurrentRectangle
  let step := step1dSize edge prevRectangle currentRectangle
  let nextIndexes := moveNextIndexes edge indexes p.nextIndexes
  let acc := p.shrinkItems edge prevRectangle currentRectangle
    ⟨p.intersectLength, p.cornerCount, p.rangesTouchingBothBoundaries, ⟨0, 0, 0, 0⟩,
      (EdgeArray.ofFn fun _ => false).set edge true⟩
    (sortedIntervals.getD (indexes.get edge) default).itemsTouchingCoordinate
  let o := e.orthogonalEdges
  let intersectLength := EdgeArray.ofFn fun x => acc.intersectLength.get x -
    ∑ idx ∈ acc.rangesTouchingBothBoundaries.get e.shrinkDirection,
      p.bothBoundariesDeltaLength edge prevRectangle currentRectangle idx x
  let intersectLength := intersectLength.set o.1.edge
    (intersectLength.get o.1.edge - acc.cornerCount.get o.1.adjacentCorner * step)
  let intersectLength := intersectLength.set o.2.edge
    (intersectLength.get o.2.edge - acc.cornerCount.get o.2.adjacentCorner * step)
  let p' : ProbingRectangle := { p with
    indexes
    nextIndexes := p.scanNextIndexes currentRectangle acc.updateNextIndex indexes nextIndexes
    rangesTouchingBothBoundaries := acc.rangesTouchingBothBoundaries
    cornerCount := CornerArray.ofFn fun c => acc.cornerCount.get c + acc.deltaCornerCount.get c
    intersectLength
    minimumEnergy
    probeArea := currentRectangle.area }
  (p'.cacheShrinkDeltaEnergy .leftAndRight).cacheShrinkDeltaEnergy .topAndBottom

/-- `Reset()`: the bogus points at the ends, then one shrink of each edge to remove them. -/
def reset : ProbingRectangle :=
  let sizeX := p.groupedIntervalsSortedByX.length
  let sizeY := p.groupedIntervalsSortedByY.length
  let p' : ProbingRectangle := { p with
    indexes := { top := sizeY - 1, left := 0, bottom := 0, right := sizeX - 1 }
    nextIndexes := { top := sizeY - 2, left := 1, bottom := 1, right := sizeX - 2 }
    minimumEnergy := p.fullEnergy
    rangesTouchingBothBoundaries := ⟨∅, ∅⟩
    cornerCount := ⟨0, 0, 0, 0⟩
    intersectLength := ⟨0, 0, 0, 0⟩
    cachedDeltaEnergy := ⟨0, 0, 0, 0⟩ }
  (((p'.shrink .left).shrink .bottom).shrink .right).shrink .top

end ProbingRectangle

/-- The constructor `ProbingRectangle(intervals)`.  On no item it only sets the energy to `0`;
the model leaves the other fields at `0` too. -/
def ProbingRectangle.new (intervals : List RectangleInRange) : ProbingRectangle :=
  if intervals = [] then
    ⟨intervals, [], [], ⟨0, 0, 0, 0⟩, ⟨0, 0, 0, 0⟩, ⟨∅, ∅⟩, ⟨0, 0, 0, 0⟩, ⟨0, 0, 0, 0⟩, ⟨0, 0, 0, 0⟩,
      0, 0, 0⟩
  else
    let boundingBox := boundingBox intervals
    let pointsByX := (intervals.enum.flatMap fun (i, interval) =>
      axisPoints i interval.boundingArea.xMin interval.boundingArea.xMax interval.xSize) ++
        [⟨boundingBox.xMin - 1, -1⟩, ⟨boundingBox.xMax + 1, -1⟩]
    let pointsByY := (intervals.enum.flatMap fun (i, interval) =>
      axisPoints i interval.boundingArea.yMin interval.boundingArea.yMax interval.ySize) ++
        [⟨boundingBox.yMin - 1, -1⟩, ⟨boundingBox.yMax + 1, -1⟩]
    let fullEnergy := (intervals.map fun interval => interval.xSize * interval.ySize).sum
    ProbingRectangle.reset ⟨intervals, groupByCoordinate (IntervalPoint.sortAndRemoveDuplicates pointsByX),
      groupByCoordinate (IntervalPoint.sortAndRemoveDuplicates pointsByY), ⟨0, 0, 0, 0⟩, ⟨0, 0, 0, 0⟩,
      ⟨∅, ∅⟩, ⟨0, 0, 0, 0⟩, ⟨0, 0, 0, 0⟩, ⟨0, 0, 0, 0⟩, fullEnergy, fullEnergy, 0⟩

/-! ## `ValidateInvariants()` -/

/-- The accumulators of the loop of `ValidateInvariants()`, with the outcome of the `CHECK`s
inside it. -/
structure InvariantCounts where
  intersectLength : EdgeArray Int
  cornerCount : CornerArray Int
  energy : Int
  checks : Bool

namespace ProbingRectangle

variable (p : ProbingRectangle)

/-- The body of the loop of `ValidateInvariants()` for the item `intervalIdx`.  The two
`CHECK_LE` on `GetMinimumIntersection()`, which is not under src/, are left out; its area is
`RectangleInRange.minimumEnergyIn`. -/
def validateItem (currentRectangle : Rectangle) (acc : InvariantCounts) (intervalIdx : Nat) :
    InvariantCounts :=
  let range := p.item intervalIdx
  let energy := acc.energy + range.minimumEnergyIn currentRectangle
  let touchingBoundary := touchingBoundary currentRectangle range
  let checks := acc.checks &&
    ((canConsumeEnergy currentRectangle range && currentRectangle.area != 0) ==
      (range.minimumEnergyIn currentRectangle != 0)) &&
    ((touchingBoundary .left && touchingBoundary .right) ==
      decide (intervalIdx ∈ p.rangesTouchingBothBoundaries.get .leftAndRight)) &&
    ((touchingBoundary .top && touchingBoundary .bottom) ==
      decide (intervalIdx ∈ p.rangesTouchingBothBoundaries.get .topAndBottom))
  let lengthX := smallest1DIntersection range.boundingArea.xMin range.boundingArea.xMax range.xSize
    currentRectangle.xMin currentRectangle.xMax
  let lengthY := smallest1DIntersection range.boundingArea.yMin range.boundingArea.yMax range.ySize
    currentRectangle.yMin currentRectangle.yMax
  let add (edge : Edge) (b : Bool) (length : Int) (intersectLength : EdgeArray Int) :=
    if b then intersectLength.set edge (intersectLength.get edge + length) else intersectLength
  let intersectLength := add .left (touchingBoundary .left && !touchingBoundary .right) lengthY
    acc.intersectLength
  let intersectLength := add .right (touchingBoundary .right && !touchingBoundary .left) lengthY
    intersectLength
  let intersectLength := add .top (touchingBoundary .top && !touchingBoundary .bottom) lengthX
    intersectLength
  let intersectLength := add .bottom (touchingBoundary .bottom && !touchingBoundary .top) lengthX
    intersectLength
  if (touchingBoundary .left && touchingBoundary .right) ||
      (touchingBoundary .top && touchingBoundary .bottom) then
    ⟨intersectLength, acc.cornerCount, energy, checks⟩
  else
    let count (c : Corner) (b : Bool) (cornerCount : CornerArray Int) :=
      if b then cornerCount.set c (cornerCount.get c + 1) else cornerCount
    let cornerCount := count .bottomLeft (touchingBoundary .bottom && touchingBoundary .left) acc.cornerCount
    let cornerCount := count .bottomRight (touchingBoundary .bottom && touchingBoundary .right) cornerCount
    let cornerCount := count .topLeft (touchingBoundary .top && touchingBoundary .left) cornerCount
    let cornerCount := count .topRight (touchingBoundary .top && touchingBoundary .right) cornerCount
    ⟨intersectLength, cornerCount, energy, checks⟩

/-- `ValidateInvariants()`: `true` when every `CHECK` passes. -/
def validateInvariants : Bool :=
  let currentRectangle := p.getCurrentRectangle
  let counts := (List.range p.intervals.length).foldl (p.validateItem currentRectangle)
    ⟨⟨0, 0, 0, 0⟩, ⟨0, 0, 0, 0⟩, 0, true⟩
  decide (p.nextIndexes.get .left ≤ p.indexes.get .right) &&
    decide (p.nextIndexes.get .bottom ≤ p.indexes.get .top) &&
    decide (p.nextIndexes.get .top ≥ p.indexes.get .bottom) &&
    decide (p.nextIndexes.get .right ≥ p.indexes.get .left) &&
    counts.checks && counts.energy == p.minimumEnergy &&
    counts.intersectLength == p.intersectLength && counts.cornerCount == p.cornerCount

end ProbingRectangle

end OrTools.Sat

import OrTools.Sat.Rectangle
import Mathlib.Logic.Relation
import Mathlib.Data.List.Sort

/-!
# `FindPartialRectangleIntersections()`

The sweep line goes through the vertical edges of the rectangles from left to
right, the ends before the begins at one abscissa.  `interval_set` holds
disjoint pieces of y-spans, each owned by a rectangle the line crosses; a
rectangle that begins scans the pieces its y-span meets, records an arc to the
owner of each, and hands every common part to whichever of the two ends further
right.  `FindPartialRectangleIntersectionsAlsoEmpty()` runs the sweep on the
rectangles with area and compares the others pair by pair.

`std::set<Interval>` is a list sorted by `start`; while the insertion loop runs,
its iterator splits the set into the pieces before it and the pieces from it
on, and a piece inserted meanwhile lands on the side its start puts it.
`absl::btree_set` of arcs is a list sorted lexicographically, without
repetition.  The `std::sort` of the edges and
`BuildKruskalMinimumSpanningTreeFromSortedArcs()`, which is not under src/, are
parameters; the properties asked of them are stated beside the theorems that
use them.
-/

set_option autoImplicit false

namespace OrTools.Sat

open Rectangle

/-! ## The edges -/

/-- `Type` of an edge; `kEnd` is declared first, so it sorts first. -/
inductive EdgeType where
  | kEnd
  | kBegin
  deriving DecidableEq, Repr

/-- The value of the enumerator, which `std::tuple` compares. -/
def EdgeType.toNat : EdgeType → Nat
  | .kEnd => 0
  | .kBegin => 1

/-- `RectangleHorizontalEdge`. -/
structure RectangleHorizontalEdge where
  xCoordinate : Int
  index : Nat
  type : EdgeType
  deriving DecidableEq, Repr

/-- The comparator of the `std::sort` of the edges,
`std::tuple(x_coordinate, type, index) <`. -/
def RectangleHorizontalEdge.Less (a b : RectangleHorizontalEdge) : Bool :=
  a.xCoordinate < b.xCoordinate || (a.xCoordinate = b.xCoordinate &&
    (a.type.toNat < b.type.toNat || (a.type = b.type && a.index < b.index)))

/-- The edges in the order they are pushed: for each rectangle its begin at
`x_min`, then its end at `x_max`. -/
def horizontalEdges (rectangles : List Rectangle) : List RectangleHorizontalEdge :=
  rectangles.enum.flatMap fun p => [⟨p.2.xMin, p.1, .kBegin⟩, ⟨p.2.xMax, p.1, .kEnd⟩]

/-- The vector as `std::sort` with the edge comparator leaves it: a
permutation of its input on which no edge compares below an earlier one. -/
def EdgesSorted (edges sorted : List RectangleHorizontalEdge) : Prop :=
  sorted.Perm edges ∧ sorted.Pairwise fun a b => b.Less a = false

/-! ## The set of pieces -/

/-- `Interval`: the piece `[start, end)` of the y-span of rectangle `index`. -/
structure Interval where
  start : Int
  «end» : Int
  index : Nat
  deriving DecidableEq, Repr

/-- `interval_set.insert(x)`, ordered by `start`: nothing when a piece with
the same start is present. -/
def insertInterval (x : Interval) : List Interval → List Interval
  | [] => [x]
  | y :: ys =>
    if x.start < y.start then x :: y :: ys
    else if x.start = y.start then y :: ys
    else y :: insertInterval x ys

/-- `interval_set.insert(x)` while the iterator points at the first piece of
`rest`, the set being `done ++ rest`: the iterator keeps its piece. -/
def insertAt (x : Interval) (done rest : List Interval) : List Interval × List Interval :=
  match rest with
  | [] => (insertInterval x done, [])
  | y :: ys =>
    if x.start < y.start then (insertInterval x done, y :: ys)
    else (done, insertInterval x (y :: ys))

/-- `arcs.insert(arc)` on a `btree_set` of pairs. -/
def insertArc (arc : Nat × Nat) : List (Nat × Nat) → List (Nat × Nat)
  | [] => [arc]
  | a :: as =>
    if arc.1 < a.1 ∨ (arc.1 = a.1 ∧ arc.2 < a.2) then arc :: a :: as
    else if arc = a then a :: as
    else a :: insertArc arc as

/-! ## An end -/

/-- The loop of an end from `lower_bound({r.y_min, …})` on: the pieces of
`indexToRemove` are erased until a piece starts at `r.y_max` or above. -/
def removePieces (indexToRemove : Nat) (yMax : Int) : List Interval → List Interval
  | [] => []
  | current :: rest =>
    if current.start ≥ yMax then current :: rest
    else if current.index = indexToRemove then removePieces indexToRemove yMax rest
    else current :: removePieces indexToRemove yMax rest

/-- The end of rectangle `indexToRemove`. -/
def removeRectangle (rectangles : List Rectangle) (indexToRemove : Nat)
    (intervalSet : List Interval) : List Interval :=
  let r := rectangles.getD indexToRemove getEmpty
  let split := intervalSet.span fun i => i.start < r.yMin
  split.1 ++ removePieces indexToRemove r.yMax split.2

/-! ## A begin -/

/-- `std::sort(points, points + 4)`. -/
def sortPoints (a b c d : Int) : List Int := [a, b, c, d].insertionSort (· ≤ ·)

/-- `first_index`: the owner of the part before both starts. -/
def firstIndex (current toInsert : Interval) : Nat :=
  if current.start < toInsert.start then current.index else toInsert.index

/-- `middle_index`: of the rectangle of `to_insert` and the owner of `current`,
the one that ends further right, the rectangle of `to_insert` on a tie. -/
def middleIndex (rectangles : List Rectangle) (toInsertIndex currentIndex : Nat) : Nat :=
  if (rectangles.getD toInsertIndex getEmpty).xMax < (rectangles.getD currentIndex getEmpty).xMax
  then currentIndex else toInsertIndex

/-- `last_index`: the owner of the part after both ends. -/
def lastIndex (current toInsert : Interval) : Nat :=
  if current.end > toInsert.end then current.index else toInsert.index

/-- The loop of a begin over the pieces from the iterator on, for at most
`fuel` pieces: the set, `to_insert` and the arcs when it stops. -/
def insertLoop (rectangles : List Rectangle) (curIndex : Nat) : Nat → List Interval →
    List Interval → Interval → List (Nat × Nat) → List Interval × Interval × List (Nat × Nat)
  | 0, done, rest, toInsert, arcs => (done ++ rest, toInsert, arcs)
  | _ + 1, done, [], toInsert, arcs => (done, toInsert, arcs)
  | fuel + 1, done, current :: rest, toInsert, arcs =>
    if toInsert.start = toInsert.end then (done ++ current :: rest, toInsert, arcs)
    else if current.end ≤ toInsert.start then
      insertLoop rectangles curIndex fuel (done ++ [current]) rest toInsert arcs
    else if current.start ≥ toInsert.end then (done ++ current :: rest, toInsert, arcs)
    else
      let arcs := if toInsert.index = curIndex then
        insertArc (min toInsert.index current.index, max toInsert.index current.index) arcs
        else arcs
      let firstIndex := firstIndex current toInsert
      let middleIndex := middleIndex rectangles toInsert.index current.index
      let lastIndex := lastIndex current toInsert
      let points := sortPoints current.start current.end toInsert.start toInsert.end
      if points.getD 0 0 = points.getD 1 0 then
        insertLoop rectangles curIndex fuel
          (done ++ [{ current with «end» := points.getD 2 0, index := middleIndex }]) rest
          ⟨points.getD 2 0, points.getD 3 0, lastIndex⟩ arcs
      else if points.getD 0 0 = current.start then
        let done := done ++ [{ current with «end» := points.getD 1 0, index := firstIndex }]
        if middleIndex = lastIndex then
          insertLoop rectangles curIndex fuel done rest
            ⟨points.getD 1 0, points.getD 3 0, lastIndex⟩ arcs
        else
          let split := insertAt ⟨points.getD 1 0, points.getD 2 0, middleIndex⟩ done rest
          insertLoop rectangles curIndex fuel split.1 split.2
            ⟨points.getD 2 0, points.getD 3 0, lastIndex⟩ arcs
      else
        let split := insertAt ⟨points.getD 0 0, points.getD 1 0, firstIndex⟩
          (done ++ [{ current with «end» := points.getD 2 0, index := middleIndex }]) rest
        insertLoop rectangles curIndex fuel split.1 split.2
          ⟨points.getD 2 0, points.getD 3 0, lastIndex⟩ arcs

/-- `it = interval_set.lower_bound(to_insert)`, then one step back unless at
the beginning. -/
def lowerBoundBefore (key : Int) (intervalSet : List Interval) : List Interval × List Interval :=
  let split := intervalSet.span fun i => i.start < key
  match split.1.getLast? with
  | none => ([], split.2)
  | some last => (split.1.dropLast, last :: split.2)

/-- `if (to_insert.start < to_insert.end) interval_set.insert(to_insert);` -/
def insertRest (toInsert : Interval) (intervalSet : List Interval) : List Interval :=
  if toInsert.start < toInsert.end then insertInterval toInsert intervalSet else intervalSet

/-- The begin of rectangle `curIndex`: the loop, then the insertion of what is
left of `to_insert`. -/
def insertRectangle (rectangles : List Rectangle) (curIndex : Nat) (intervalSet : List Interval)
    (arcs : List (Nat × Nat)) : List Interval × List (Nat × Nat) :=
  let r := rectangles.getD curIndex getEmpty
  let start := lowerBoundBefore r.yMin intervalSet
  let loop := insertLoop rectangles curIndex start.2.length start.1 start.2
    ⟨r.yMin, r.yMax, curIndex⟩ arcs
  (insertRest loop.2.1 loop.1, loop.2.2)

/-! ## The sweep -/

/-- The loop over the ends at `xPos`. -/
def endLoop (rectangles : List Rectangle) (xPos : Int) :
    List RectangleHorizontalEdge → List Interval → List RectangleHorizontalEdge × List Interval
  | [], intervalSet => ([], intervalSet)
  | e :: edges, intervalSet =>
    if e.xCoordinate = xPos ∧ e.type = .kEnd then
      endLoop rectangles xPos edges (removeRectangle rectangles e.index intervalSet)
    else (e :: edges, intervalSet)

/-- The loop over the begins at `xPos`. -/
def beginLoop (rectangles : List Rectangle) (xPos : Int) :
    List RectangleHorizontalEdge → List Interval → List (Nat × Nat) →
      List RectangleHorizontalEdge × List Interval × List (Nat × Nat)
  | [], intervalSet, arcs => ([], intervalSet, arcs)
  | e :: edges, intervalSet, arcs =>
    if e.xCoordinate = xPos ∧ e.type = .kBegin then
      let next := insertRectangle rectangles e.index intervalSet arcs
      beginLoop rectangles xPos edges next.1 next.2
    else (e :: edges, intervalSet, arcs)

/-- The loop `while (current_index < edges.size())`, for at most `fuel`
abscissas: the arcs. -/
def sweepLoop (rectangles : List Rectangle) : Nat → List RectangleHorizontalEdge →
    List Interval → List (Nat × Nat) → List (Nat × Nat)
  | 0, _, _, arcs => arcs
  | _ + 1, [], _, arcs => arcs
  | fuel + 1, e :: edges, intervalSet, arcs =>
    let ends := endLoop rectangles e.xCoordinate (e :: edges) intervalSet
    let begins := beginLoop rectangles e.xCoordinate ends.1 ends.2 arcs
    sweepLoop rectangles fuel begins.1 begins.2.1 begins.2.2

/-- `FindPartialRectangleIntersections(rectangles)`, with the edge sort and the
spanning forest of the arcs, read back as pairs, as parameters. -/
def findPartialRectangleIntersections
    (sortEdges : List RectangleHorizontalEdge → List RectangleHorizontalEdge)
    (kruskal : List (Nat × Nat) → List (Nat × Nat)) (rectangles : List Rectangle) :
    List (Nat × Nat) :=
  let edges := sortEdges (horizontalEdges rectangles)
  kruskal (sweepLoop rectangles edges.length edges [] [])

/-! ## Rectangles without area -/

/-- The rectangle has no area: `SizeX() == 0 || SizeY() == 0`. -/
def noArea (r : Rectangle) : Bool := r.sizeX = 0 || r.sizeY = 0

/-- The four vectors the loop from `first_index_no_area_it` on fills, each
rectangle with its index. -/
structure AreaSplit where
  withArea : List (Nat × Rectangle)
  horizontalLines : List (Nat × Rectangle)
  verticalLines : List (Nat × Rectangle)
  points : List (Nat × Rectangle)

/-- The loop from `first_index_no_area_it` on. -/
def splitByArea : List (Nat × Rectangle) → AreaSplit
  | [] => ⟨[], [], [], []⟩
  | p :: ps =>
    let s := splitByArea ps
    if 0 < p.2.sizeX ∧ 0 < p.2.sizeY then { s with withArea := p :: s.withArea }
    else if 0 < p.2.sizeX then { s with horizontalLines := p :: s.horizontalLines }
    else if 0 < p.2.sizeY then { s with verticalLines := p :: s.verticalLines }
    else { s with points := p :: s.points }

/-- The arcs from `r` to each rectangle of `others` it is not disjoint from. -/
def crossingArcs (r : Nat × Rectangle) (others : List (Nat × Rectangle)) : List (Nat × Nat) :=
  others.filterMap fun o => if r.2.IsDisjoint o.2 = false then some (r.1, o.1) else none

/-- `FindPartialRectangleIntersectionsAlsoEmpty(rectangles)`. -/
def findPartialRectangleIntersectionsAlsoEmpty
    (sortEdges : List RectangleHorizontalEdge → List RectangleHorizontalEdge)
    (kruskal : List (Nat × Nat) → List (Nat × Nat)) (rectangles : List Rectangle) :
    List (Nat × Nat) :=
  match rectangles.findIdx? noArea with
  | none => findPartialRectangleIntersections sortEdges kruskal rectangles
  | some first =>
    let s := splitByArea (rectangles.enum.drop first)
    let withArea := rectangles.enum.take first ++ s.withArea
    let arcs := (findPartialRectangleIntersections sortEdges kruskal (withArea.map (·.2))).map
      fun a => ((withArea.getD a.1 (0, getEmpty)).1, (withArea.getD a.2 (0, getEmpty)).1)
    let arcs := arcs ++ withArea.flatMap fun r =>
      crossingArcs r s.verticalLines ++ crossingArcs r s.horizontalLines ++ crossingArcs r s.points
    let arcs := arcs ++ s.horizontalLines.flatMap fun r => crossingArcs r s.verticalLines
    kruskal arcs

/-! ## Connectivity -/

/-- Rectangles `i` and `j` of the list are not disjoint. -/
def Intersecting (rectangles : List Rectangle) (i j : Nat) : Prop :=
  i < rectangles.length ∧ j < rectangles.length ∧
    (rectangles.getD i getEmpty).IsDisjoint (rectangles.getD j getEmpty) = false

/-- An arc of the list joins the two indices, in one direction or the other. -/
def Linked (arcs : List (Nat × Nat)) (i j : Nat) : Prop := (i, j) ∈ arcs ∨ (j, i) ∈ arcs

/-- What the code asks of `BuildKruskalMinimumSpanningTreeFromSortedArcs()`
read back as pairs: its arcs are arcs of the input, and they connect what the
input connects. -/
def SpansArcs (kruskal : List (Nat × Nat) → List (Nat × Nat)) : Prop :=
  ∀ arcs, (∀ a ∈ kruskal arcs, a ∈ arcs) ∧
    ∀ i j, Relation.ReflTransGen (Linked (kruskal arcs)) i j ↔ Relation.ReflTransGen (Linked arcs) i j

end OrTools.Sat

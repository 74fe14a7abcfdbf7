import OrTools.Sat.IntegerValue
import Mathlib.Data.List.Sort
import Mathlib.Algebra.Order.Ring.Int

/-!
# `CapacityProfile`

A `CapacityProfile` collects rectangles standing on the x axis,
`[x_min, x_max) × [y_min, y_max)`, and mandatory consumptions of height
`y_height` over `[x_min, x_max)`, each as two events at its two abscissas.
`BuildResidualCapacityProfile()` sweeps the events sorted by time: at each time
it applies every event there, and the height is then the span from the lowest
bottom to the highest top of the rectangles the line crosses, less the
mandatory consumption; a step is pushed wherever the height changes.
`GetBoundingArea()` runs the same sweep without the consumptions and adds up
each height times the width it lasts.

The rectangles the line crosses sit in two `IntegerPriorityQueue`s keyed by
rectangle index, one of tops and one of negated bottoms, so that both extremes
are tops of a queue.  util/integer_pq.h is not under src/: a queue is the
elements it holds, and `Top()` one of largest value.  `Event`, its three
constructors and `Rectangle` are declared in diffn_util.h, not under src/
either; they are modelled from their uses here, and the fields no sweep reads
are 0.  `std::sort`, which compares events by `time`, is a parameter.
`IntegerValue` is `Int`: the sweeps are modelled without `int64` overflow.
-/

set_option autoImplicit false

namespace OrTools.Sat

namespace CapacityProfile

/-- `EventType`. -/
inductive EventType where
  | startRectangle
  | endRectangle
  | changeMandatoryProfile
  deriving DecidableEq, Repr

/-- `Event`. -/
structure Event where
  time : Int
  yMin : Int
  yMax : Int
  type : EventType
  index : Int
  deriving DecidableEq, Repr

/-- `StartRectangleEvent(index, x_min, y_min, y_max)`. -/
def startRectangleEvent (index xMin yMin yMax : Int) : Event :=
  ⟨xMin, yMin, yMax, .startRectangle, index⟩

/-- `EndRectangleEvent(index, x_max)`. -/
def endRectangleEvent (index xMax : Int) : Event :=
  ⟨xMax, 0, 0, .endRectangle, index⟩

/-- `ChangeMandatoryProfileEvent(x, delta)`: the change rides in `y_min`, and the
index is `-1`. -/
def changeMandatoryProfileEvent (x delta : Int) : Event :=
  ⟨x, delta, 0, .changeMandatoryProfile, -1⟩

/-- `Rectangle`: a step of the profile, of `height` from `start` on. -/
structure Rectangle where
  start : Int
  height : Int
  deriving DecidableEq, Repr

/-- `QueueElement`, whose `Index()` is `index` and which compares by `value`. -/
structure QueueElement where
  index : Int
  value : Int
  deriving DecidableEq, Repr

end CapacityProfile

open CapacityProfile

/-- `CapacityProfile`: `events_` in the order they were pushed, and
`num_rectangles_added_`. -/
structure CapacityProfile where
  events : List Event
  numRectanglesAdded : Int
  deriving DecidableEq, Repr

/-- Modelled from the spec: `IntegerPriorityQueue<QueueElement>`, by the
elements it holds. -/
structure IntegerPriorityQueue where
  elements : List QueueElement
  deriving DecidableEq, Repr

namespace IntegerPriorityQueue

/-- `Add(element)`; its callers never add an index the queue holds. -/
def add (pq : IntegerPriorityQueue) (element : QueueElement) : IntegerPriorityQueue :=
  ⟨element :: pq.elements⟩

/-- `Remove(index)`. -/
def remove (pq : IntegerPriorityQueue) (index : Int) : IntegerPriorityQueue :=
  ⟨pq.elements.filter fun element => element.index ≠ index⟩

/-- `IsEmpty()`. -/
def isEmpty (pq : IntegerPriorityQueue) : Bool := pq.elements.isEmpty

/-- `Top().value`: the largest value held. -/
def topValue (pq : IntegerPriorityQueue) : Int :=
  ((pq.elements.map (·.value)).max?).getD 0

end IntegerPriorityQueue

namespace CapacityProfile

/-! ## Filling the profile -/

/-- `Clear()`. -/
def clear (profile : CapacityProfile) : CapacityProfile :=
  { profile with events := [], numRectanglesAdded := 0 }

/-- `AddRectangle(x_min, x_max, y_min, y_max)`. -/
def addRectangle (profile : CapacityProfile) (xMin xMax yMin yMax : Int) : CapacityProfile :=
  if xMin = xMax then profile
  else
    { events := profile.events ++
        [startRectangleEvent profile.numRectanglesAdded xMin yMin yMax,
          endRectangleEvent profile.numRectanglesAdded xMax]
      numRectanglesAdded := profile.numRectanglesAdded + 1 }

/-- `AddMandatoryConsumption(x_min, x_max, y_height)`. -/
def addMandatoryConsumption (profile : CapacityProfile) (xMin xMax yHeight : Int) :
    CapacityProfile :=
  if xMin = xMax then profile
  else
    { profile with
      events := profile.events ++
        [changeMandatoryProfileEvent xMin yHeight, changeMandatoryProfileEvent xMax (-yHeight)] }

/-- A call that fills a profile. -/
inductive ProfileCall where
  | addRectangle (xMin xMax yMin yMax : Int)
  | addMandatoryConsumption (xMin xMax yHeight : Int)
  deriving DecidableEq, Repr

/-- The profile after one call. -/
def ProfileCall.apply (profile : CapacityProfile) : ProfileCall → CapacityProfile
  | .addRectangle xMin xMax yMin yMax => profile.addRectangle xMin xMax yMin yMax
  | .addMandatoryConsumption xMin xMax yHeight =>
    profile.addMandatoryConsumption xMin xMax yHeight

/-- `Clear()`, then the calls in order. -/
def run (profile : CapacityProfile) (calls : List ProfileCall) : CapacityProfile :=
  calls.foldl ProfileCall.apply profile.clear

/-! ## The sweeps -/

/-- `min_pq` and `max_pq` of both sweeps. -/
structure Queues where
  minPq : IntegerPriorityQueue
  maxPq : IntegerPriorityQueue

/-- Both queues empty. -/
def Queues.empty : Queues := ⟨⟨[]⟩, ⟨[]⟩⟩

/-- The switch of `GetBoundingArea()`, which is the queue part of the switch of
`BuildResidualCapacityProfile()`. -/
def Queues.apply (q : Queues) (event : Event) : Queues :=
  match event.type with
  | .startRectangle =>
    ⟨q.minPq.add ⟨event.index, -event.yMin⟩, q.maxPq.add ⟨event.index, event.yMax⟩⟩
  | .endRectangle => ⟨q.minPq.remove event.index, q.maxPq.remove event.index⟩
  | .changeMandatoryProfile => q

/-- The switch of `BuildResidualCapacityProfile()`, on the queues and
`mandatory_capacity`. -/
def residualEvent (s : Queues × Int) (event : Event) : Queues × Int :=
  match event.type with
  | .changeMandatoryProfile => (s.1, s.2 + event.yMin)
  | _ => (s.1.apply event, s.2)

/-- The inner loop of both sweeps: the events at `currentTime` at the front of
`events`, each given to `step`; the events left start at another time. -/
def eventsAt {σ : Type} (step : σ → Event → σ) (currentTime : Int) :
    List Event → σ → List Event × σ
  | [], s => ([], s)
  | event :: events, s =>
    if event.time ≠ currentTime then (event :: events, s)
    else eventsAt step currentTime events (step s event)

/-- `new_height` of `BuildResidualCapacityProfile()`. -/
def residualHeight (s : Queues × Int) : Int :=
  if s.1.maxPq.isEmpty then 0 else s.1.maxPq.topValue + s.1.minPq.topValue - s.2

/-- `new_height` of `GetBoundingArea()`. -/
def boundingHeight (q : Queues) : Int :=
  if q.maxPq.isEmpty then 0 else q.maxPq.topValue + q.minPq.topValue

/-- `result->back().height`, the result being kept last step first. -/
def backHeight : List Rectangle → Int
  | [] => 0
  | r :: _ => r.height

/-- The outer loop of `BuildResidualCapacityProfile()`, one time a round and
at most `fuel` rounds; `result` is kept last step first. -/
def residualLoop : Nat → List Event → Queues × Int → List Rectangle → List Rectangle
  | 0, _, _, result => result
  | _ + 1, [], _, result => result
  | fuel + 1, event :: events, s, result =>
    let next := eventsAt residualEvent event.time (event :: events) s
    let newHeight := residualHeight next.2
    residualLoop fuel next.1 next.2
      (if newHeight ≠ backHeight result then ⟨event.time, newHeight⟩ :: result else result)

/-- `BuildResidualCapacityProfile(&result)`: the profile with its events sorted,
and `result`. -/
def buildResidualCapacityProfile (sortEvents : List Event → List Event)
    (kMinIntegerValue : Int) (profile : CapacityProfile) : CapacityProfile × List Rectangle :=
  let events := sortEvents profile.events
  ({ profile with events := events },
    (residualLoop events.length events (Queues.empty, 0) [⟨kMinIntegerValue, 0⟩]).reverse)

/-- The outer loop of `GetBoundingArea()`, over `area`, `previous_time` and
`previous_height`, at most `fuel` rounds.  `area += previous_height *
(current_time - previous_time)` is `IntegerValue` arithmetic. -/
def areaLoop : Nat → List Event → Queues → Int → Int → Int → Int
  | 0, _, _, area, _, _ => area
  | _ + 1, [], _, area, _, _ => area
  | fuel + 1, event :: events, q, area, previousTime, previousHeight =>
    let next := eventsAt Queues.apply event.time (event :: events) q
    areaLoop fuel next.1 next.2
      (if previousHeight ≠ 0 then
        int64Add area (int64Mul previousHeight (int64Sub event.time previousTime))
      else area)
      event.time (boundingHeight next.2)

/-- The loop of `areaLoop` over unbounded integers: the area that the code's
`int64` sum wraps. -/
def exactAreaLoop : Nat → List Event → Queues → Int → Int → Int → Int
  | 0, _, _, area, _, _ => area
  | _ + 1, [], _, area, _, _ => area
  | fuel + 1, event :: events, q, area, previousTime, previousHeight =>
    let next := eventsAt Queues.apply event.time (event :: events) q
    exactAreaLoop fuel next.1 next.2
      (if previousHeight ≠ 0 then area + previousHeight * (event.time - previousTime) else area)
      event.time (boundingHeight next.2)

/-- The `int64` area loop computes the exact area modulo `2^64`. -/
theorem areaLoop_wrap : ∀ (fuel : Nat) (events : List Event) (q : Queues)
    (area previousTime previousHeight : Int),
    areaLoop fuel events q (wrap area) previousTime previousHeight =
      wrap (exactAreaLoop fuel events q area previousTime previousHeight)
  | 0, _, _, _, _, _ => rfl
  | _ + 1, [], _, _, _, _ => rfl
  | fuel + 1, event :: events, q, area, previousTime, previousHeight => by
    simp only [areaLoop, exactAreaLoop]
    split_ifs
    · rw [int64Add, int64Mul, int64Sub, wrap_mul_wrap_right, wrap_add_wrap_left, wrap_add_wrap_right,
        ← areaLoop_wrap]
    · exact areaLoop_wrap fuel _ _ area _ _

/-- `GetBoundingArea()`: the profile with its events sorted, and the area. -/
def getBoundingArea (sortEvents : List Event → List Event) (kMinIntegerValue : Int)
    (profile : CapacityProfile) : CapacityProfile × Int :=
  let events := sortEvents profile.events
  ({ profile with events := events },
    areaLoop events.length events Queues.empty 0 kMinIntegerValue 0)

/-- The events as `std::sort` leaves them: a permutation of its input with no
event earlier than one before it. -/
def EventsSorted (events sorted : List Event) : Prop :=
  sorted.Perm events ∧ sorted.Pairwise fun a b => a.time ≤ b.time

/-! ## Small lemmas -/

/-- What an event adds to `mandatory_capacity`. -/
def mandatoryDelta (event : Event) : Int :=
  match event.type with
  | .changeMandatoryProfile => event.yMin
  | _ => 0

@[simp] theorem residualEvent_fst (s : Queues × Int) (event : Event) :
    (residualEvent s event).1 = s.1.apply event := by
  unfold residualEvent Queues.apply
  split <;> simp_all

@[simp] theorem residualEvent_snd (s : Queues × Int) (event : Event) :
    (residualEvent s event).2 = s.2 + mandatoryDelta event := by
  unfold residualEvent mandatoryDelta
  split <;> simp_all

theorem foldl_residualEvent (events : List Event) (s : Queues × Int) :
    events.foldl residualEvent s =
      (events.foldl Queues.apply s.1, s.2 + (events.map mandatoryDelta).sum) := by
  induction events generalizing s with
  | nil => simp
  | cons e events ih => simp [ih, Int.add_assoc]

/-- The inner loop takes the longest prefix at `currentTime`. -/
theorem eventsAt_eq {σ : Type} (step : σ → Event → σ) (currentTime : Int)
    (events : List Event) (s : σ) :
    eventsAt step currentTime events s =
      (events.dropWhile (·.time = currentTime),
        (events.takeWhile (·.time = currentTime)).foldl step s) := by
  induction events generalizing s with
  | nil => rfl
  | cons e events ih =>
    by_cases h : e.time = currentTime <;> simp [eventsAt, h, ih]

/-- `std::sort` by `time`, run as an insertion sort. -/
theorem eventsSorted_insertionSort (events : List Event) :
    EventsSorted events (events.insertionSort fun a b => a.time ≤ b.time) := by
  have : IsTotal Event fun a b => a.time ≤ b.time := ⟨fun a b => Int.le_total a.time b.time⟩
  have : IsTrans Event fun a b => a.time ≤ b.time := ⟨fun _ _ _ => Int.le_trans⟩
  exact ⟨List.perm_insertionSort _ _, List.sorted_insertionSort _ _⟩

end CapacityProfile

end OrTools.Sat

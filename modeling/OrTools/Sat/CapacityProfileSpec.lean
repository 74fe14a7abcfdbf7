import OrTools.Sat.CapacityProfile
import Mathlib.Algebra.BigOperators.Group.List

/-!
# What a `CapacityProfile` describes

The profile the calls describe, read point by point: `band calls x` is the
highest top less the lowest bottom of the rectangles covering `x` (0 if none),
`mandatoryAt calls x` the total consumption covering `x`, and `valueAt` the step
function of a list of `Rectangle`s.

The rest of the file is about the events the calls push, `eventsOf`, which is
what `run` leaves in `events_` (`run_events`):

* every rectangle starts before it ends (`startsBeforeEnds_eventsOf`);
* the starts a sweep line at `x` has passed and whose end it has not are
  exactly the rectangles covering `x` (`active_eventsOf_iff`);
* the changes at or before `x` add up to `mandatoryAt calls x`
  (`sum_mandatoryDelta_eventsOf`);
* both abscissas of a call that adds events are times of events
  (`eventsOf_time_of_ne`), so between two consecutive times no call starts or
  ends and `band` and `mandatoryAt` are constant (`band_eq_of_covers_iff`).
-/

set_option autoImplicit false

namespace OrTools.Sat.CapacityProfile

/-! ## The profile the calls describe -/

namespace ProfileCall

/-- `x_min` of the call. -/
def xMin : ProfileCall → Int
  | .addRectangle xMin _ _ _ => xMin
  | .addMandatoryConsumption xMin _ _ => xMin

/-- `x_max` of the call. -/
def xMax : ProfileCall → Int
  | .addRectangle _ xMax _ _ => xMax
  | .addMandatoryConsumption _ xMax _ => xMax

/-- The call is an `AddRectangle()`. -/
def isRectangle : ProfileCall → Bool
  | .addRectangle .. => true
  | .addMandatoryConsumption .. => false

/-- The call covers `x`: `x_min ≤ x < x_max`. -/
def Covers (call : ProfileCall) (x : Int) : Prop := call.xMin ≤ x ∧ x < call.xMax

instance (call : ProfileCall) (x : Int) : Decidable (call.Covers x) :=
  inferInstanceAs (Decidable (_ ∧ _))

/-- `(y_min, y_max)` of a rectangle covering `x`. -/
def spanAt (x : Int) : ProfileCall → Option (Int × Int)
  | .addRectangle xMin xMax yMin yMax => if xMin ≤ x ∧ x < xMax then some (yMin, yMax) else none
  | .addMandatoryConsumption .. => none

/-- The height of a consumption covering `x`. -/
def consumptionAt (x : Int) : ProfileCall → Int
  | .addRectangle .. => 0
  | .addMandatoryConsumption xMin xMax yHeight => if xMin ≤ x ∧ x < xMax then yHeight else 0

theorem spanAt_isSome (x : Int) (call : ProfileCall) :
    (call.spanAt x).isSome ↔ call.isRectangle ∧ call.Covers x := by
  cases call with
  | addRectangle xMin xMax yMin yMax =>
    by_cases h : xMin ≤ x ∧ x < xMax <;> simp [spanAt, isRectangle, Covers, ProfileCall.xMin,
      ProfileCall.xMax, h]
  | addMandatoryConsumption => simp [spanAt, isRectangle]

theorem consumptionAt_eq_zero {x : Int} {call : ProfileCall} (h : ¬call.Covers x) :
    call.consumptionAt x = 0 := by
  cases call <;> simp_all [consumptionAt, Covers, xMin, xMax]

/-- Both readings of a call at `x` depend only on whether it covers `x`. -/
theorem spanAt_consumptionAt_congr {x t : Int} {call : ProfileCall}
    (h : call.Covers x ↔ call.Covers t) :
    call.spanAt x = call.spanAt t ∧ call.consumptionAt x = call.consumptionAt t := by
  cases call <;> simp only [Covers, xMin, xMax] at h <;> simp [spanAt, consumptionAt, h]

end ProfileCall

open ProfileCall

/-- `band(x)`: the highest `y_max` less the lowest `y_min` of the rectangles
covering `x`, 0 if none does. -/
def band (calls : List ProfileCall) (x : Int) : Int :=
  let spans := calls.filterMap (spanAt x)
  match (spans.map Prod.snd).max?, (spans.map Prod.fst).min? with
  | some top, some bottom => top - bottom
  | _, _ => 0

/-- `m(x)`: the sum of the consumptions covering `x`. -/
def mandatoryAt (calls : List ProfileCall) (x : Int) : Int :=
  (calls.map (consumptionAt x)).sum

/-- The step function of a profile: the height of the last step starting at or
before `x`, 0 before the first. -/
def valueAt (profile : List Rectangle) (x : Int) : Int :=
  profile.foldl (fun h r => if r.start ≤ x then r.height else h) 0

theorem band_of_spans_eq_nil {calls : List ProfileCall} {x : Int}
    (h : calls.filterMap (spanAt x) = []) : band calls x = 0 := by
  simp [band, h]

/-- `band` at a point no rectangle covers. -/
theorem band_eq_zero {calls : List ProfileCall} {x : Int}
    (h : ∀ call ∈ calls, call.isRectangle → ¬call.Covers x) : band calls x = 0 := by
  refine band_of_spans_eq_nil (List.filterMap_eq_nil_iff.2 fun call hc => ?_)
  have := (spanAt_isSome x call).not.2 fun h' => h call hc h'.1 h'.2
  simpa using this

theorem mandatoryAt_eq_zero {calls : List ProfileCall} {x : Int}
    (h : ∀ call ∈ calls, ¬call.Covers x) : mandatoryAt calls x = 0 := by
  refine List.sum_eq_zero fun v hv => ?_
  obtain ⟨call, hc, rfl⟩ := List.mem_map.1 hv
  exact consumptionAt_eq_zero (h call hc)

/-- Two points covered by the same calls have the same `band` and `m`. -/
theorem band_eq_of_covers_iff {calls : List ProfileCall} {x t : Int}
    (h : ∀ call ∈ calls, call.Covers x ↔ call.Covers t) :
    band calls x = band calls t ∧ mandatoryAt calls x = mandatoryAt calls t := by
  constructor
  · simp only [band, List.filterMap_congr fun call hc => (spanAt_consumptionAt_congr (h call hc)).1]
  · simp only [mandatoryAt,
      List.map_congr_left fun call hc => (spanAt_consumptionAt_congr (h call hc)).2]

theorem exists_rectangle_of_band_ne_zero {calls : List ProfileCall} {x : Int}
    (h : band calls x ≠ 0) : ∃ call ∈ calls, call.isRectangle ∧ call.Covers x := by
  by_contra hn
  push_neg at hn
  exact h (band_eq_zero fun call hc hr => hn call hc hr)

theorem valueAt_append_singleton (profile : List Rectangle) (r : Rectangle) (x : Int) :
    valueAt (profile ++ [r]) x = if r.start ≤ x then r.height else valueAt profile x := by
  simp [valueAt]

/-- The step function of a result kept last step first, past its last start. -/
theorem valueAt_reverse_of_start_le {r : Rectangle} {rs : List Rectangle} {x : Int}
    (h : r.start ≤ x) : valueAt (r :: rs).reverse x = backHeight (r :: rs) := by
  simp [valueAt_append_singleton, h, backHeight]

/-- What `BuildResidualCapacityProfile()` should return: a profile that starts
with `(kMinIntegerValue, 0)`, whose starts increase strictly and whose
consecutive heights differ, and whose step function is `band x - m(x)` at
every `x`. -/
structure ResidualProfile (calls : List ProfileCall) (kMinIntegerValue : Int)
    (result : List Rectangle) : Prop where
  head : result.head? = some ⟨kMinIntegerValue, 0⟩
  chain : result.Chain' fun a b => a.start < b.start ∧ a.height ≠ b.height
  value : ∀ x, valueAt result x = band calls x - mandatoryAt calls x

/-! ## The events the calls push -/

/-- The events the calls push into a profile that has added `n` rectangles. -/
def eventsOf (n : Int) : List ProfileCall → List Event
  | [] => []
  | .addRectangle xMin xMax yMin yMax :: calls =>
    if xMin = xMax then eventsOf n calls
    else startRectangleEvent n xMin yMin yMax :: endRectangleEvent n xMax :: eventsOf (n + 1) calls
  | .addMandatoryConsumption xMin xMax yHeight :: calls =>
    if xMin = xMax then eventsOf n calls
    else changeMandatoryProfileEvent xMin yHeight ::
      changeMandatoryProfileEvent xMax (-yHeight) :: eventsOf n calls

theorem foldl_apply_events (calls : List ProfileCall) (profile : CapacityProfile) :
    (calls.foldl ProfileCall.apply profile).events =
      profile.events ++ eventsOf profile.numRectanglesAdded calls := by
  induction calls generalizing profile with
  | nil => simp [eventsOf]
  | cons call calls ih =>
    cases call with
    | addRectangle xMin xMax yMin yMax =>
      by_cases h : xMin = xMax <;>
        simp [ProfileCall.apply, addRectangle, eventsOf, h, ih]
    | addMandatoryConsumption xMin xMax yHeight =>
      by_cases h : xMin = xMax <;>
        simp [ProfileCall.apply, addMandatoryConsumption, eventsOf, h, ih]

/-- `events_` after `Clear()` and the calls. -/
theorem run_events (profile : CapacityProfile) (calls : List ProfileCall) :
    (run profile calls).events = eventsOf 0 calls := by
  simp [run, foldl_apply_events, clear]

/-- Rectangle events of `eventsOf n` carry indices from `n` on. -/
theorem le_index_of_mem_eventsOf {n : Int} {calls : List ProfileCall} {e : Event}
    (he : e ∈ eventsOf n calls) (ht : e.type ≠ .changeMandatoryProfile) : n ≤ e.index := by
  induction calls generalizing n with
  | nil => simp [eventsOf] at he
  | cons call calls ih =>
    cases call with
    | addRectangle xMin xMax yMin yMax =>
      simp only [eventsOf] at he
      split at he
      · exact ih he
      · simp only [List.mem_cons] at he
        rcases he with rfl | rfl | he
        · simp [startRectangleEvent]
        · simp [endRectangleEvent]
        · have := ih he; omega
    | addMandatoryConsumption xMin xMax yHeight =>
      simp only [eventsOf] at he
      split at he
      · exact ih he
      · simp only [List.mem_cons] at he
        rcases he with rfl | rfl | he
        · simp [changeMandatoryProfileEvent] at ht
        · simp [changeMandatoryProfileEvent] at ht
        · exact ih he

/-- Every rectangle of `events` starts before it ends. -/
def StartsBeforeEnds (events : List Event) : Prop :=
  ∀ s ∈ events, ∀ e ∈ events, s.type = .startRectangle → e.type = .endRectangle →
    e.index = s.index → s.time < e.time

theorem StartsBeforeEnds.perm {events events' : List Event} (h : StartsBeforeEnds events)
    (hp : events'.Perm events) : StartsBeforeEnds events' := fun s hs e he =>
  h s (hp.mem_iff.1 hs) e (hp.mem_iff.1 he)

/-- The start event `s` of `events` is of a rectangle crossing the line at
`x`: it starts at or before `x`, and every end of its index is after `x`. -/
def Active (events : List Event) (x : Int) (s : Event) : Prop :=
  s ∈ events ∧ s.type = .startRectangle ∧ s.time ≤ x ∧
    ∀ e ∈ events, e.type = .endRectangle → e.index = s.index → x < e.time

theorem Active.perm {events events' : List Event} {x : Int} {s : Event}
    (hp : events'.Perm events) : Active events' x s ↔ Active events x s := by
  simp only [Active, hp.mem_iff]

section Cons

variable {n xMin xMax yMin yMax x : Int} {rest : List Event}

/-- The two events of a rectangle in front of events of later indices. -/
theorem active_rectangle_cons_iff (hrest : ∀ e ∈ rest, e.type ≠ .changeMandatoryProfile →
      n + 1 ≤ e.index) (s : Event) :
    Active (startRectangleEvent n xMin yMin yMax :: endRectangleEvent n xMax :: rest) x s ↔
      (s = startRectangleEvent n xMin yMin yMax ∧ xMin ≤ x ∧ x < xMax) ∨ Active rest x s := by
  have hidx : ∀ e ∈ rest, e.type = .endRectangle → e.index ≠ n := fun e he ht h =>
    absurd (hrest e he (by simp [ht])) (by omega)
  constructor
  · rintro ⟨hs, hst, hle, hend⟩
    simp only [List.mem_cons] at hs
    rcases hs with rfl | rfl | hs
    · exact .inl ⟨rfl, hle, hend (endRectangleEvent n xMax) (by simp) rfl rfl⟩
    · simp [endRectangleEvent] at hst
    · exact .inr ⟨hs, hst, hle, fun e he => hend e (by simp [he])⟩
  · rintro (⟨rfl, h₁, h₂⟩ | ⟨hs, hst, hle, hend⟩)
    · refine ⟨by simp, rfl, h₁, fun e he het hei => ?_⟩
      simp only [List.mem_cons] at he
      rcases he with rfl | rfl | he
      · simp [startRectangleEvent] at het
      · exact h₂
      · exact absurd hei (hidx e he het)
    · have hs' := hrest s hs (by simp [hst])
      refine ⟨by simp [hs], hst, hle, fun e he het hei => ?_⟩
      simp only [List.mem_cons] at he
      rcases he with rfl | rfl | he
      · simp [startRectangleEvent] at het
      · simp only [endRectangleEvent] at hei; omega
      · exact hend e he het hei

/-- The two events of a consumption are neither starts nor ends. -/
theorem active_consumption_cons_iff (yHeight : Int) (s : Event) :
    Active (changeMandatoryProfileEvent xMin yHeight ::
      changeMandatoryProfileEvent xMax (-yHeight) :: rest) x s ↔ Active rest x s := by
  constructor
  · rintro ⟨hs, hst, hle, hend⟩
    simp only [List.mem_cons] at hs
    rcases hs with rfl | rfl | hs
    · simp [changeMandatoryProfileEvent] at hst
    · simp [changeMandatoryProfileEvent] at hst
    · exact ⟨hs, hst, hle, fun e he => hend e (by simp [he])⟩
  · rintro ⟨hs, hst, hle, hend⟩
    refine ⟨by simp [hs], hst, hle, fun e he het => ?_⟩
    simp only [List.mem_cons] at he
    rcases he with rfl | rfl | he
    · simp [changeMandatoryProfileEvent] at het
    · simp [changeMandatoryProfileEvent] at het
    · exact hend e he het

end Cons

/-- The rectangles the line at `x` has entered and not left are the rectangle
calls covering `x`, with their `(y_min, y_max)`. -/
theorem active_eventsOf_iff (n x : Int) (calls : List ProfileCall) (y : Int × Int) :
    (∃ s, Active (eventsOf n calls) x s ∧ (s.yMin, s.yMax) = y) ↔
      y ∈ calls.filterMap (spanAt x) := by
  induction calls generalizing n with
  | nil => simp [eventsOf, Active]
  | cons call calls ih =>
    cases call with
    | addRectangle xMin xMax yMin yMax =>
      by_cases h : xMin = xMax
      · have hx : ¬(xMin ≤ x ∧ x < xMax) := by omega
        simp only [eventsOf, if_pos h, ih, List.filterMap_cons, spanAt, if_neg hx]
      · simp only [eventsOf, h, if_false, List.filterMap_cons, spanAt,
          active_rectangle_cons_iff (fun e he => le_index_of_mem_eventsOf he), or_and_right,
          exists_or, ih]
        by_cases hx : xMin ≤ x ∧ x < xMax
        · simp [hx, startRectangleEvent, eq_comm]
        · simp only [hx, false_and, and_false, exists_false, false_or, if_false]
    | addMandatoryConsumption xMin xMax yHeight =>
      by_cases h : xMin = xMax
      · simp only [eventsOf, h, if_true, ih, List.filterMap_cons, spanAt]
      · simp only [eventsOf, h, if_false, active_consumption_cons_iff, ih, List.filterMap_cons,
          spanAt]

/-- A call whose `x_min` is at most its `x_max`. -/
def ProfileCall.Ordered (call : ProfileCall) : Prop := call.xMin ≤ call.xMax

instance (call : ProfileCall) : Decidable call.Ordered := inferInstanceAs (Decidable (_ ≤ _))

theorem startsBeforeEnds_eventsOf (n : Int) {calls : List ProfileCall}
    (hcalls : ∀ call ∈ calls, call.Ordered) : StartsBeforeEnds (eventsOf n calls) := by
  induction calls generalizing n with
  | nil => simp [StartsBeforeEnds, eventsOf]
  | cons call calls ih =>
    have ih := fun n => ih n (fun c hc => hcalls c (by simp [hc]))
    have hc := hcalls call (by simp)
    cases call with
    | addRectangle xMin xMax yMin yMax =>
      simp only [ProfileCall.Ordered, ProfileCall.xMin, ProfileCall.xMax] at hc
      simp only [eventsOf]
      split
      · exact ih n
      · intro s hs e he hst het hei
        simp only [List.mem_cons] at hs he
        rcases hs with rfl | rfl | hs <;> rcases he with rfl | rfl | he <;>
          simp_all [startRectangleEvent, endRectangleEvent]
        · omega
        · have := le_index_of_mem_eventsOf he (by simp [het]); omega
        · have := le_index_of_mem_eventsOf hs (by simp [hst]); omega
        · exact ih (n + 1) s hs e he hst het hei
    | addMandatoryConsumption xMin xMax yHeight =>
      simp only [eventsOf]
      split
      · exact ih n
      · intro s hs e he hst het hei
        simp only [List.mem_cons] at hs he
        rcases hs with rfl | rfl | hs
        · simp [changeMandatoryProfileEvent] at hst
        · simp [changeMandatoryProfileEvent] at hst
        rcases he with rfl | rfl | he
        · simp [changeMandatoryProfileEvent] at het
        · simp [changeMandatoryProfileEvent] at het
        exact ih n s hs e he hst het hei

/-- The changes at or before `x` add up to the consumption at `x`. -/
theorem sum_mandatoryDelta_eventsOf (n x : Int) {calls : List ProfileCall}
    (hcalls : ∀ call ∈ calls, call.Ordered) :
    (((eventsOf n calls).filter (·.time ≤ x)).map mandatoryDelta).sum = mandatoryAt calls x := by
  induction calls generalizing n with
  | nil => simp [eventsOf, mandatoryAt]
  | cons call calls ih =>
    have ih := fun n => ih n (fun c hc => hcalls c (by simp [hc]))
    have hc := hcalls call (by simp)
    cases call with
    | addRectangle xMin xMax yMin yMax =>
      simp only [mandatoryAt, List.map_cons, List.sum_cons, consumptionAt, Int.zero_add] at ih ⊢
      simp only [eventsOf]
      split
      · exact ih n
      · simp only [List.filter_cons]
        split_ifs <;> simp [mandatoryDelta, startRectangleEvent, endRectangleEvent, ih]
    | addMandatoryConsumption xMin xMax yHeight =>
      simp only [ProfileCall.Ordered, ProfileCall.xMin, ProfileCall.xMax] at hc
      simp only [mandatoryAt, List.map_cons, List.sum_cons, consumptionAt] at ih ⊢
      simp only [eventsOf]
      split
      · rw [if_neg (by omega), Int.zero_add]; exact ih n
      · simp only [List.filter_cons, changeMandatoryProfileEvent]
        split_ifs <;> simp_all [mandatoryDelta] <;> omega

/-- The events of the calls after the first are among the events of all of
them. -/
theorem exists_eventsOf_subset (n : Int) (call : ProfileCall) (calls : List ProfileCall) :
    ∃ m, ∀ e ∈ eventsOf m calls, e ∈ eventsOf n (call :: calls) := by
  cases call <;> simp only [eventsOf] <;> split
  · exact ⟨n, fun _ h => h⟩
  · exact ⟨n + 1, fun _ h => by simp [h]⟩
  · exact ⟨n, fun _ h => h⟩
  · exact ⟨n, fun _ h => by simp [h]⟩

/-- Both abscissas of a call that pushes events are times of events. -/
theorem eventsOf_time_of_ne (n : Int) {calls : List ProfileCall} {call : ProfileCall}
    (hc : call ∈ calls) (hne : call.xMin ≠ call.xMax) :
    (∃ e ∈ eventsOf n calls, e.time = call.xMin) ∧ ∃ e ∈ eventsOf n calls, e.time = call.xMax := by
  induction calls generalizing n with
  | nil => simp at hc
  | cons c calls ih =>
    rcases List.mem_cons.1 hc with rfl | hc
    · cases call with
      | addRectangle xMin xMax yMin yMax =>
        simp only [ProfileCall.xMin, ProfileCall.xMax] at hne ⊢
        simp only [eventsOf, hne, if_false]
        exact ⟨⟨startRectangleEvent n xMin yMin yMax, by simp, rfl⟩,
          ⟨endRectangleEvent n xMax, by simp, rfl⟩⟩
      | addMandatoryConsumption xMin xMax yHeight =>
        simp only [ProfileCall.xMin, ProfileCall.xMax] at hne ⊢
        simp only [eventsOf, hne, if_false]
        exact ⟨⟨changeMandatoryProfileEvent xMin yHeight, by simp, rfl⟩,
          ⟨changeMandatoryProfileEvent xMax (-yHeight), by simp, rfl⟩⟩
    · obtain ⟨m, hm⟩ := exists_eventsOf_subset n c calls
      obtain ⟨⟨e, he, h₁⟩, ⟨e', he', h₂⟩⟩ := ih m hc
      exact ⟨⟨e, hm e he, h₁⟩, ⟨e', hm e' he', h₂⟩⟩

/-- A call covering `x` pushed events at its two abscissas. -/
theorem eventsOf_time_of_covers (n : Int) {calls : List ProfileCall} {call : ProfileCall}
    (hc : call ∈ calls) {x : Int} (hx : call.Covers x) :
    (∃ e ∈ eventsOf n calls, e.time = call.xMin) ∧ ∃ e ∈ eventsOf n calls, e.time = call.xMax :=
  eventsOf_time_of_ne n hc (by unfold ProfileCall.Covers at hx; omega)

/-- When every point a call covers is above `k`, so is every event. -/
theorem lt_time_of_mem_eventsOf {k n : Int} {calls : List ProfileCall}
    (hcalls : ∀ call ∈ calls, call.Ordered) (hk : ∀ call ∈ calls, ∀ x, call.Covers x → k < x)
    {e : Event} (he : e ∈ eventsOf n calls) : k < e.time := by
  induction calls generalizing n with
  | nil => simp [eventsOf] at he
  | cons call calls ih =>
    have ih := fun {n} => @ih n (fun c hc => hcalls c (by simp [hc])) (fun c hc => hk c (by simp [hc]))
    have hc := hcalls call (by simp)
    have hkc := hk call (by simp) call.xMin
    cases call <;> simp only [ProfileCall.Ordered, ProfileCall.Covers, ProfileCall.xMin,
      ProfileCall.xMax] at hc hkc <;> simp only [eventsOf] at he <;> split at he
    all_goals first
      | exact ih he
      | simp only [List.mem_cons] at he
        rcases he with rfl | rfl | he
        · simp only [startRectangleEvent, changeMandatoryProfileEvent]; omega
        · simp only [endRectangleEvent, changeMandatoryProfileEvent]; omega
        · exact ih he

/-- Where no event falls after `t` and at or before `x`, the calls covering
`x` are those covering `t`. -/
theorem covers_iff_of_no_time_between {n t x : Int} {calls : List ProfileCall}
    (hbetween : ∀ e ∈ eventsOf n calls, e.time ≤ t ∨ x < e.time) (htx : t ≤ x)
    (call : ProfileCall) (hc : call ∈ calls) : call.Covers x ↔ call.Covers t := by
  unfold Covers
  by_cases hne : call.xMin = call.xMax
  · omega
  · obtain ⟨⟨e₁, he₁, h₁⟩, ⟨e₂, he₂, h₂⟩⟩ := eventsOf_time_of_ne n hc hne
    have := hbetween e₁ he₁
    have := hbetween e₂ he₂
    omega

/-- No call covers a point before every event or after every event. -/
theorem not_covers_of_times {n x : Int} {calls : List ProfileCall}
    (hx : (∀ e ∈ eventsOf n calls, x < e.time) ∨ ∀ e ∈ eventsOf n calls, e.time ≤ x)
    {call : ProfileCall} (hc : call ∈ calls) : ¬call.Covers x := fun hcov => by
  obtain ⟨⟨e₁, he₁, h₁⟩, ⟨e₂, he₂, h₂⟩⟩ := eventsOf_time_of_covers n hc hcov
  unfold Covers at hcov
  rcases hx with hx | hx
  · have := hx e₁ he₁; omega
  · have := hx e₂ he₂; omega

end OrTools.Sat.CapacityProfile

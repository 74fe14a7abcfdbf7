import OrTools.Sat.CapacityProfileSpec
import Mathlib.Algebra.BigOperators.Finprod
import Mathlib.Data.Int.Interval

/-!
# The two sweeps of `CapacityProfile`

Both sweeps apply the sorted events group by group, one group per time.  After
the events `processed`, each queue holds an element for every start of
`processed` whose rectangle `processed` does not end (`Tracks`): a start is never
preceded by its own end, since events are sorted and a rectangle starts before
it ends.  Once the group at time `t` is applied, `processed` is every event up
to `t`, so the queues hold the rectangles covering `t` and `new_height` is
`band t` (less `m(t)`, which `mandatory_capacity` then is).  Between two
consecutive times no call starts or ends, so the profile pushed at `t` is right
up to the next time.

* `buildResidualCapacityProfile_steps`: when every rectangle lies right of
  `kMinIntegerValue` and consumptions lie over rectangles, the result starts
  with `(kMinIntegerValue, 0)`, its starts increase strictly, consecutive
  heights differ, and its step function is `band x - m(x)` at every `x`;
* `getBoundingArea_eq_finsum`: the area is the sum of `band x` over all `x`,
  wrapped onto `int64` as the code's `IntegerValue` sum wraps it.
-/

set_option autoImplicit false

namespace OrTools.Sat.CapacityProfile

open ProfileCall

/-! ## Extremes of integer lists -/

theorem max?_eq_some_iff_of_int {l : List Int} {a : Int} :
    l.max? = some a ↔ a ∈ l ∧ ∀ b ∈ l, b ≤ a := by
  have : Std.Antisymm fun a b : Int => a ≤ b := ⟨Int.le_antisymm⟩
  exact List.max?_eq_some_iff Int.le_refl (fun _ _ => by omega) (fun _ _ _ => by omega)

theorem min?_eq_some_iff_of_int {l : List Int} {a : Int} :
    l.min? = some a ↔ a ∈ l ∧ ∀ b ∈ l, a ≤ b := by
  have : Std.Antisymm fun a b : Int => a ≤ b := ⟨Int.le_antisymm⟩
  exact List.min?_eq_some_iff Int.le_refl (fun _ _ => by omega) (fun _ _ _ => by omega)

/-- The largest element depends only on which elements there are. -/
theorem max?_congr_of_mem_iff {l l' : List Int} (h : ∀ a, a ∈ l ↔ a ∈ l') :
    l.max? = l'.max? := by
  cases hl : l'.max? with
  | none =>
    rw [List.max?_eq_none_iff] at hl ⊢
    exact List.eq_nil_iff_forall_not_mem.2 fun a ha => by simp [hl] at h; exact h a ha
  | some a =>
    rw [max?_eq_some_iff_of_int] at hl ⊢
    simpa only [h] using hl

theorem max?_map_neg (l : List Int) : (l.map (-·)).max? = l.min?.map (-·) := by
  cases h : l.min? with
  | none => simp_all [List.min?_eq_none_iff]
  | some a =>
    rw [min?_eq_some_iff_of_int] at h
    simp only [Option.map_some', max?_eq_some_iff_of_int, List.mem_map, List.forall_mem_map]
    refine ⟨⟨a, h.1, rfl⟩, ?_⟩
    rintro _ ⟨b, hb, rfl⟩
    exact Int.neg_le_neg (h.2 b hb)

/-! ## What the queues hold -/

/-- What one event does to a queue holding `value` of each open start. -/
def queueStep (value : Event → Int) (pq : IntegerPriorityQueue) (event : Event) :
    IntegerPriorityQueue :=
  match event.type with
  | .startRectangle => pq.add ⟨event.index, value event⟩
  | .endRectangle => pq.remove event.index
  | .changeMandatoryProfile => pq

@[simp] theorem apply_minPq (q : Queues) (event : Event) :
    (q.apply event).minPq = queueStep (fun e => -e.yMin) q.minPq event := by
  cases h : event.type <;> simp [Queues.apply, queueStep, h]

@[simp] theorem apply_maxPq (q : Queues) (event : Event) :
    (q.apply event).maxPq = queueStep (·.yMax) q.maxPq event := by
  cases h : event.type <;> simp [Queues.apply, queueStep, h]

/-- `s` starts a rectangle no event of `processed` ends. -/
def Open (processed : List Event) (s : Event) : Prop :=
  s.type = .startRectangle ∧ ∀ e ∈ processed, e.type = .endRectangle → e.index ≠ s.index

/-- The queue holds, with its `value`, each open start of `processed`. -/
def Holds (value : Event → Int) (processed : List Event) (pq : IntegerPriorityQueue) : Prop :=
  ∀ el, el ∈ pq.elements ↔ ∃ s ∈ processed, Open processed s ∧ el = ⟨s.index, value s⟩

/-- The queues of a sweep after the events `processed`. -/
structure Tracks (processed : List Event) (q : Queues) : Prop where
  minPq : Holds (fun e => -e.yMin) processed q.minPq
  maxPq : Holds (·.yMax) processed q.maxPq

theorem tracks_empty : Tracks [] Queues.empty :=
  ⟨fun _ => by simp [Queues.empty], fun _ => by simp [Queues.empty]⟩

theorem open_append_singleton {processed : List Event} {e s : Event} :
    Open (processed ++ [e]) s ↔
      Open processed s ∧ (e.type = .endRectangle → e.index ≠ s.index) := by
  simp only [Open, List.mem_append, List.mem_singleton, or_imp, forall_and, forall_eq, and_assoc]

/-- The open starts after one more event: the event itself if it is a start,
and the earlier ones it does not end. -/
theorem open_append_singleton_iff {value : Event → Int} {processed : List Event} {e : Event}
    (hnew : e.type = .startRectangle →
      ∀ e' ∈ processed, e'.type = .endRectangle → e'.index ≠ e.index) (el : QueueElement) :
    (∃ s ∈ processed ++ [e], Open (processed ++ [e]) s ∧ el = ⟨s.index, value s⟩) ↔
      (e.type = .startRectangle ∧ el = ⟨e.index, value e⟩) ∨
        ((∃ s ∈ processed, Open processed s ∧ el = ⟨s.index, value s⟩) ∧
          (e.type = .endRectangle → el.index ≠ e.index)) := by
  constructor
  · rintro ⟨s, hs, ho, rfl⟩
    rw [open_append_singleton] at ho
    rcases List.mem_append.1 hs with hs | hs
    · exact .inr ⟨⟨s, hs, ho.1, rfl⟩, fun het => Ne.symm (ho.2 het)⟩
    · rw [List.mem_singleton] at hs
      subst hs
      exact .inl ⟨ho.1.1, rfl⟩
  · rintro (⟨hst, rfl⟩ | ⟨⟨s, hs, ho, rfl⟩, hend⟩)
    · exact ⟨e, by simp, open_append_singleton.2 ⟨⟨hst, hnew hst⟩, by simp [hst]⟩, rfl⟩
    · exact ⟨s, by simp [hs], open_append_singleton.2 ⟨ho, fun het => Ne.symm (hend het)⟩, rfl⟩

/-- One event keeps a queue holding the open starts, provided a start is not
preceded by an end of its index. -/
theorem Holds.step {value : Event → Int} {processed : List Event} {pq : IntegerPriorityQueue}
    (h : Holds value processed pq) {e : Event}
    (hnew : e.type = .startRectangle →
      ∀ e' ∈ processed, e'.type = .endRectangle → e'.index ≠ e.index) :
    Holds value (processed ++ [e]) (queueStep value pq e) := by
  intro el
  rw [open_append_singleton_iff hnew el, ← h el]
  unfold queueStep
  split <;> simp_all [IntegerPriorityQueue.add, IntegerPriorityQueue.remove]

theorem Tracks.step {processed : List Event} {q : Queues} (h : Tracks processed q) {e : Event}
    (hnew : e.type = .startRectangle →
      ∀ e' ∈ processed, e'.type = .endRectangle → e'.index ≠ e.index) :
    Tracks (processed ++ [e]) (q.apply e) :=
  ⟨by simpa using h.minPq.step hnew, by simpa using h.maxPq.step hnew⟩

/-- Once `processed` is every event up to `t`, its open starts are the
rectangles crossing the line at `t`. -/
theorem open_iff_active {processed events : List Event} {t : Int}
    (hP : ∀ e, e ∈ processed ↔ e ∈ events ∧ e.time ≤ t) (s : Event) :
    s ∈ processed ∧ Open processed s ↔ Active events t s := by
  constructor
  · rintro ⟨hs, hst, hend⟩
    refine ⟨((hP s).1 hs).1, hst, ((hP s).1 hs).2, fun e he het hei => ?_⟩
    by_contra hle
    exact hend e ((hP e).2 ⟨he, by omega⟩) het hei
  · rintro ⟨hs, hst, hle, hend⟩
    refine ⟨(hP s).2 ⟨hs, hle⟩, hst, fun e he het hei => ?_⟩
    have := hend e ((hP e).1 he).1 het hei
    have := ((hP e).1 he).2
    omega

theorem Holds.mem_values {value : Event → Int} {processed events : List Event}
    {pq : IntegerPriorityQueue} (h : Holds value processed pq) {t : Int}
    (hP : ∀ e, e ∈ processed ↔ e ∈ events ∧ e.time ≤ t) (v : Int) :
    v ∈ pq.elements.map (·.value) ↔ ∃ s, Active events t s ∧ value s = v := by
  rw [List.mem_map]
  constructor
  · rintro ⟨el, hel, rfl⟩
    obtain ⟨s, hs, hopen, rfl⟩ := (h el).1 hel
    exact ⟨s, (open_iff_active hP s).1 ⟨hs, hopen⟩, rfl⟩
  · rintro ⟨s, hact, rfl⟩
    obtain ⟨hs, hopen⟩ := (open_iff_active hP s).2 hact
    exact ⟨_, (h _).2 ⟨s, hs, hopen, rfl⟩, rfl⟩

/-- `new_height` of `GetBoundingArea()` from what the queues hold. -/
theorem boundingHeight_eq_band {q : Queues} {calls : List ProfileCall} {t : Int}
    (hmax : ∀ v, v ∈ q.maxPq.elements.map (·.value) ↔
      v ∈ (calls.filterMap (spanAt t)).map Prod.snd)
    (hmin : ∀ v, v ∈ q.minPq.elements.map (·.value) ↔
      v ∈ ((calls.filterMap (spanAt t)).map Prod.fst).map (-·)) :
    boundingHeight q = band calls t := by
  unfold boundingHeight band IntegerPriorityQueue.topValue IntegerPriorityQueue.isEmpty
  rw [max?_congr_of_mem_iff hmax, max?_congr_of_mem_iff hmin, max?_map_neg]
  cases hs : calls.filterMap (spanAt t) with
  | nil =>
    have : q.maxPq.elements = [] := by
      simpa [hs, List.eq_nil_iff_forall_not_mem] using hmax
    simp [this]
  | cons y ys =>
    have hne : q.maxPq.elements ≠ [] := by
      rintro he
      simpa [he, hs] using (hmax y.2).2
    obtain ⟨top, htop⟩ := Option.ne_none_iff_exists'.1 (mt List.max?_eq_none_iff.1
      (List.cons_ne_nil y.2 (ys.map Prod.snd)))
    obtain ⟨bottom, hbottom⟩ := Option.ne_none_iff_exists'.1 (mt List.min?_eq_none_iff.1
      (List.cons_ne_nil y.1 (ys.map Prod.fst)))
    simp [hne, htop, hbottom, Int.sub_eq_add_neg]

/-! ## One round of a sweep -/

section Rounds

variable (L : List Event)

/-- What a sweep over `L` knows after the events `processed`, with `rest` to
come. -/
structure Swept (processed rest : List Event) (q : Queues) : Prop where
  split : L = processed ++ rest
  tracks : Tracks processed q
  before : ∀ a ∈ processed, ∀ b ∈ rest, a.time < b.time

variable {L}

theorem swept_start : Swept L [] L Queues.empty := ⟨rfl, tracks_empty, by simp⟩

variable (hsorted : L.Pairwise fun a b => a.time ≤ b.time) (hsbe : StartsBeforeEnds L)

include hsorted hsbe in
/-- In the sorted events a start is never preceded by an end of its rectangle. -/
theorem not_ended_before {P rest : List Event} {e : Event} (hL : L = P ++ e :: rest)
    (hst : e.type = .startRectangle) :
    ∀ e' ∈ P, e'.type = .endRectangle → e'.index ≠ e.index := by
  intro e' he' het hei
  have h₁ := hsbe e (by simp [hL]) e' (by simp [hL, he']) hst het hei
  have h₂ := (List.pairwise_append.1 (hL ▸ hsorted)).2.2 e' he' e (List.mem_cons_self _ _)
  omega

include hsorted hsbe in
theorem tracks_foldl (G : List Event) {P rest : List Event} {q : Queues}
    (hL : L = P ++ G ++ rest) (h : Tracks P q) : Tracks (P ++ G) (G.foldl Queues.apply q) := by
  induction G generalizing P q with
  | nil => simpa using h
  | cons e G ih =>
    have := h.step (not_ended_before hsorted hsbe (by simpa using hL))
    simpa using ih (by simpa using hL) this

include hsorted hsbe in
/-- One round: the group of events at the time of the next one. -/
theorem Swept.group {P rest : List Event} {e : Event} {q : Queues} (h : Swept L P (e :: rest) q)
    {G rest' : List Event} (hsplit : G ++ rest' = e :: rest) (hG : ∀ a ∈ G, a.time = e.time)
    (hnext : ∀ b ∈ rest'.head?, b.time ≠ e.time) :
    Swept L (P ++ G) rest' (G.foldl Queues.apply q) ∧ (∀ a ∈ P ++ G, a.time ≤ e.time) ∧
      (∀ b ∈ rest', e.time < b.time) ∧ rest'.length ≤ rest.length := by
  have hL : L = P ++ G ++ rest' := by rw [h.split, List.append_assoc, hsplit]
  obtain ⟨a, G', rfl⟩ : ∃ a G', G = a :: G' := by
    cases G with
    | nil => simp only [List.nil_append] at hsplit; subst hsplit; simp at hnext
    | cons a G' => exact ⟨a, G', rfl⟩
  have ha : a = e := (List.cons.inj hsplit).1
  subst ha
  have hle : ∀ b ∈ P ++ a :: G', b.time ≤ a.time := by
    intro b hb
    rcases List.mem_append.1 hb with hb | hb
    · exact Int.le_of_lt (h.before b hb a (List.mem_cons_self _ _))
    · exact Int.le_of_eq (hG b hb)
  have hsorted' : (a :: G' ++ rest').Pairwise fun a b => a.time ≤ b.time := by
    have hs := hsorted
    rw [hL, List.append_assoc] at hs
    exact (List.pairwise_append.1 hs).2.1
  have hgt : ∀ b ∈ rest', a.time < b.time := by
    cases rest' with
    | nil => simp
    | cons r rs =>
      have hr := (List.pairwise_append.1 hsorted').2.2 a (List.mem_cons_self _ _) r
        (List.mem_cons_self _ _)
      have hr' := hnext r rfl
      intro b hb
      rcases List.mem_cons.1 hb with rfl | hb
      · omega
      · have := List.rel_of_pairwise_cons (List.pairwise_append.1 hsorted').2.1 hb
        omega
  refine ⟨⟨hL, tracks_foldl hsorted hsbe _ hL h.tracks,
    fun b hb c hc => Int.lt_of_le_of_lt (hle b hb) (hgt c hc)⟩, hle, hgt, ?_⟩
  have := congrArg List.length hsplit
  simp only [List.cons_append, List.length_cons, List.length_append] at this
  omega

theorem Swept.mem_iff {P rest : List Event} {q : Queues} (h : Swept L P rest q) {t : Int}
    (hle : ∀ a ∈ P, a.time ≤ t) (hgt : ∀ b ∈ rest, t < b.time) (e : Event) :
    e ∈ P ↔ e ∈ L ∧ e.time ≤ t := by
  rw [h.split, List.mem_append]
  constructor
  · intro he; exact ⟨.inl he, hle e he⟩
  · rintro ⟨he | he, hte⟩
    · exact he
    · exact absurd (hgt e he) (by omega)

/-- Two `List.takeWhile` facts each round uses. -/
theorem takeWhile_time (t : Int) (events : List Event) :
    (∀ a ∈ events.takeWhile (·.time = t), a.time = t) ∧
      ∀ b ∈ (events.dropWhile (·.time = t)).head?, b.time ≠ t := by
  refine ⟨fun a ha => by simpa using List.mem_takeWhile_imp ha, fun b hb => ?_⟩
  have := List.head?_dropWhile_not (·.time = t) events
  rw [hb] at this
  simpa using this

include hsorted in
/-- The next event is the earliest still to come. -/
theorem Swept.first_le {P rest : List Event} {e : Event} {q : Queues}
    (h : Swept L P (e :: rest) q) : ∀ b ∈ rest, e.time ≤ b.time := by
  have hs := hsorted
  rw [h.split] at hs
  exact fun b hb => List.rel_of_pairwise_cons (List.pairwise_append.1 hs).2.1 hb

end Rounds

/-! ## The heights at each time -/

section Heights

variable {calls : List ProfileCall} {L : List Event} (hL : L.Perm (eventsOf 0 calls))
  (hcalls : ∀ call ∈ calls, call.Ordered)

/-- A value list of the queues, read through `active_eventsOf_iff`. -/
theorem exists_active_iff (f : Int × Int → Int) (t v : Int) :
    (∃ s, Active (eventsOf 0 calls) t s ∧ f (s.yMin, s.yMax) = v) ↔
      v ∈ (calls.filterMap (spanAt t)).map f := by
  rw [List.mem_map]
  constructor
  · rintro ⟨s, hs, rfl⟩
    exact ⟨_, (active_eventsOf_iff 0 t calls _).1 ⟨s, hs, rfl⟩, rfl⟩
  · rintro ⟨y, hy, rfl⟩
    obtain ⟨s, hs, rfl⟩ := (active_eventsOf_iff 0 t calls y).2 hy
    exact ⟨s, hs, rfl⟩

variable {P rest : List Event} {q : Queues} {t : Int} (h : Swept L P rest q)
  (hle : ∀ a ∈ P, a.time ≤ t) (hgt : ∀ b ∈ rest, t < b.time)

include hL h hle hgt

theorem Swept.mem_iff_eventsOf (e : Event) : e ∈ P ↔ e ∈ eventsOf 0 calls ∧ e.time ≤ t := by
  rw [h.mem_iff hle hgt, hL.mem_iff]

/-- `new_height` of `GetBoundingArea()` once the group at `t` is applied. -/
theorem Swept.boundingHeight_eq : boundingHeight q = band calls t := by
  have hP := h.mem_iff_eventsOf hL hle hgt
  refine boundingHeight_eq_band (fun v => ?_) (fun v => ?_)
  · rw [h.tracks.maxPq.mem_values hP, ← exists_active_iff Prod.snd]
  · rw [h.tracks.minPq.mem_values hP, List.map_map]
    exact exists_active_iff ((fun x => -x) ∘ Prod.fst) t v

theorem Swept.isEmpty_iff : q.maxPq.isEmpty = true ↔ calls.filterMap (spanAt t) = [] := by
  have hP := h.mem_iff_eventsOf hL hle hgt
  have hv := fun v => (h.tracks.maxPq.mem_values hP v).trans (exists_active_iff Prod.snd t v)
  simp only [IntegerPriorityQueue.isEmpty, List.isEmpty_iff]
  constructor
  · intro he
    refine List.eq_nil_iff_forall_not_mem.2 fun y hy => ?_
    simpa [he] using (hv y.2).2 (List.mem_map_of_mem _ hy)
  · intro hs
    refine List.eq_nil_iff_forall_not_mem.2 fun el hel => ?_
    simpa [hs] using (hv el.value).1 (List.mem_map_of_mem _ hel)

include hcalls in
/-- `mandatory_capacity` once the group at `t` is applied. -/
theorem Swept.mandatory_eq : (P.map mandatoryDelta).sum = mandatoryAt calls t := by
  have hfilter : L.filter (·.time ≤ t) = P := by
    rw [h.split, List.filter_append, List.filter_eq_self.2 (by simpa using hle),
      List.filter_eq_nil_iff.2 (fun b hb => by simpa using hgt b hb), List.append_nil]
  rw [← hfilter, ((hL.filter _).map _).sum_eq, sum_mandatoryDelta_eventsOf 0 t hcalls]

include hcalls in
/-- `new_height` of `BuildResidualCapacityProfile()` once the group at `t` is
applied, when consumptions lie over rectangles. -/
theorem Swept.residualHeight_eq
    (hcover : ∀ c ∈ calls, ∀ x, c.Covers x → ∃ r ∈ calls, r.isRectangle ∧ r.Covers x) :
    residualHeight (q, (P.map mandatoryDelta).sum) = band calls t - mandatoryAt calls t := by
  rw [h.mandatory_eq hL hcalls hle hgt, ← h.boundingHeight_eq hL hle hgt]
  unfold residualHeight boundingHeight
  split
  case isTrue hempty =>
    have hspans := (h.isEmpty_iff hL hle hgt).1 hempty
    have hnone : ∀ c ∈ calls, ¬c.Covers t := fun c hc hcov => by
      obtain ⟨r, hr, hrect, hrcov⟩ := hcover c hc t hcov
      have := (spanAt_isSome t r).2 ⟨hrect, hrcov⟩
      simp [List.filterMap_eq_nil_iff.1 hspans r hr] at this
    rw [mandatoryAt_eq_zero hnone]
    rfl
  case isFalse => rfl

end Heights

/-! ## `BuildResidualCapacityProfile()` -/

section Residual

variable (calls : List ProfileCall) (kMinIntegerValue : Int)

/-- What the steps pushed so far, kept last first, say while `rest` is still to
be swept. -/
structure ResidualInv (rest : List Event) (result : List Rectangle) : Prop where
  front : ∀ r ∈ result.head?, ∀ e ∈ rest, r.start < e.time
  chain : result.Chain' fun a b => b.start < a.start ∧ b.height ≠ a.height
  last : result.getLast? = some ⟨kMinIntegerValue, 0⟩
  value : ∀ x, (∀ e ∈ rest, x < e.time) →
    valueAt result.reverse x = band calls x - mandatoryAt calls x

variable {calls kMinIntegerValue}

/-- The round at the time of the next event, when its height is right from
there to the time after. -/
theorem ResidualInv.push {e : Event} {rest rest' : List Event} {result : List Rectangle}
    (h : ResidualInv calls kMinIntegerValue (e :: rest) result)
    (hfirst : ∀ b ∈ rest, e.time ≤ b.time) (hgt : ∀ b ∈ rest', e.time < b.time)
    {newHeight : Int}
    (hconst : ∀ x, e.time ≤ x → (∀ b ∈ rest', x < b.time) →
      band calls x - mandatoryAt calls x = newHeight) :
    ResidualInv calls kMinIntegerValue rest'
      (if newHeight ≠ backHeight result then ⟨e.time, newHeight⟩ :: result else result) := by
  obtain ⟨r, R, rfl⟩ : ∃ r R, result = r :: R := by
    cases result with
    | nil => exact absurd h.last (by simp)
    | cons r R => exact ⟨r, R, rfl⟩
  have hr : r.start < e.time := h.front r rfl e (List.mem_cons_self _ _)
  have hbelow : ∀ x, x < e.time → ∀ b ∈ e :: rest, x < b.time := fun x hx b hb => by
    rcases List.mem_cons.1 hb with rfl | hb
    · exact hx
    · exact Int.lt_of_lt_of_le hx (hfirst b hb)
  split
  case isTrue hne =>
    refine ⟨fun r' hr' b hb => ?_, h.chain.cons' fun y hy => ?_, ?_, fun x hx => ?_⟩
    · cases hr'; exact hgt b hb
    · cases hy; exact ⟨hr, Ne.symm hne⟩
    · rw [List.getLast?_cons_cons]; exact h.last
    · rw [List.reverse_cons, valueAt_append_singleton]
      split
      case isTrue htx => exact (hconst x htx hx).symm
      case isFalse htx => exact h.value x (hbelow x (by dsimp only at htx; omega))
  case isFalse hne =>
    refine ⟨fun r' hr' b hb => ?_, h.chain, h.last, fun x hx => ?_⟩
    · cases hr'; exact Int.lt_trans hr (hgt b hb)
    · by_cases htx : e.time ≤ x
      · rw [valueAt_reverse_of_start_le (by omega), hconst x htx hx]
        exact (not_not.1 hne).symm
      · exact h.value x (hbelow x (by omega))

variable {L : List Event} (hsorted : L.Pairwise fun a b => a.time ≤ b.time)
  (hsbe : StartsBeforeEnds L) (hL : L.Perm (eventsOf 0 calls))
  (hcalls : ∀ call ∈ calls, call.Ordered)
  (hcover : ∀ c ∈ calls, ∀ x, c.Covers x → ∃ r ∈ calls, r.isRectangle ∧ r.Covers x)

include hL in
/-- Between the last time swept and the next, `band - m` keeps its value. -/
theorem band_sub_mandatory_eq {P rest : List Event} {q : Queues} (h : Swept L P rest q)
    {t x : Int} (hle : ∀ a ∈ P, a.time ≤ t) (htx : t ≤ x) (hx : ∀ b ∈ rest, x < b.time) :
    band calls x - mandatoryAt calls x = band calls t - mandatoryAt calls t := by
  have hbetween : ∀ e ∈ eventsOf 0 calls, e.time ≤ t ∨ x < e.time := fun e he => by
    rcases List.mem_append.1 (h.split ▸ hL.mem_iff.2 he) with he | he
    · exact .inl (hle e he)
    · exact .inr (hx e he)
  obtain ⟨h₁, h₂⟩ := band_eq_of_covers_iff (covers_iff_of_no_time_between hbetween htx)
  rw [h₁, h₂]

include hsorted hsbe hL hcalls hcover in
/-- The outer loop keeps `ResidualInv` round after round, given the fuel. -/
theorem residualLoop_inv (fuel : Nat) : ∀ {P rest : List Event} {s : Queues × Int}
    {result : List Rectangle}, rest.length ≤ fuel → Swept L P rest s.1 →
    s.2 = (P.map mandatoryDelta).sum → ResidualInv calls kMinIntegerValue rest result →
    ResidualInv calls kMinIntegerValue [] (residualLoop fuel rest s result) := by
  induction fuel with
  | zero =>
    intro P rest s result hlen _ _ hinv
    rwa [List.length_eq_zero.1 (Nat.le_zero.1 hlen)] at hinv
  | succ fuel ih =>
    intro P rest s result hlen hsw hm hinv
    cases rest with
    | nil => exact hinv
    | cons e rest =>
      obtain ⟨hG, hnext⟩ := takeWhile_time e.time (e :: rest)
      obtain ⟨hsw', hle, hgt, hlen'⟩ :=
        hsw.group hsorted hsbe (List.takeWhile_append_dropWhile _ _) hG hnext
      have hm' : s.2 + (((e :: rest).takeWhile (·.time = e.time)).map mandatoryDelta).sum =
          ((P ++ (e :: rest).takeWhile (·.time = e.time)).map mandatoryDelta).sum := by
        simp [hm, Int.add_assoc]
      simp only [residualLoop, eventsAt_eq, foldl_residualEvent, hm']
      refine ih (by simp at hlen; omega) hsw' rfl (hinv.push (hsw.first_le hsorted) hgt ?_)
      intro x htx hx
      rw [hsw'.residualHeight_eq hL hcalls hle hgt hcover]
      exact band_sub_mandatory_eq hL hsw' hle htx hx

end Residual

/-- `BuildResidualCapacityProfile()` on a profile holding the events of the
calls, in any order, when every rectangle lies right of `kMinIntegerValue` and
every consumption over rectangles. -/
theorem buildResidualCapacityProfile_steps {sortEvents : List Event → List Event}
    (hsort : ∀ events, EventsSorted events (sortEvents events)) (kMinIntegerValue : Int)
    {profile : CapacityProfile} {calls : List ProfileCall}
    (hp : profile.events.Perm (eventsOf 0 calls)) (hcalls : ∀ call ∈ calls, call.Ordered)
    (hk : ∀ call ∈ calls, call.isRectangle → call.xMin < call.xMax →
      kMinIntegerValue < call.xMin)
    (hcover : ∀ c ∈ calls, ∀ x, c.Covers x → ∃ r ∈ calls, r.isRectangle ∧ r.Covers x) :
    ResidualProfile calls kMinIntegerValue
      (buildResidualCapacityProfile sortEvents kMinIntegerValue profile).2 := by
  obtain ⟨hperm, hsorted⟩ := hsort profile.events
  simp only [buildResidualCapacityProfile]
  generalize sortEvents profile.events = L at hperm hsorted
  have hL : L.Perm (eventsOf 0 calls) := hperm.trans hp
  have hsbe := (startsBeforeEnds_eventsOf 0 hcalls).perm hL
  have hkx : ∀ c ∈ calls, ∀ x, c.Covers x → kMinIntegerValue < x := fun c hc x hx => by
    obtain ⟨r, hr, hrect, hrx⟩ := hcover c hc x hx
    have := hk r hr hrect (by unfold Covers at hrx; omega)
    unfold Covers at hrx
    omega
  have hbelow : ∀ x, (∀ e ∈ L, x < e.time) → ∀ c ∈ calls, ¬c.Covers x := fun x hx c hc =>
    not_covers_of_times (.inl fun e he => hx e (hL.mem_iff.2 he)) hc
  have hinit : ResidualInv calls kMinIntegerValue L [⟨kMinIntegerValue, 0⟩] := by
    refine ⟨fun r hr e he => ?_, List.chain'_singleton _, rfl, fun x hx => ?_⟩
    · cases hr; exact lt_time_of_mem_eventsOf hcalls hkx (hL.mem_iff.1 he)
    · rw [band_eq_zero fun c hc _ => hbelow x hx c hc, mandatoryAt_eq_zero (hbelow x hx)]
      simp [valueAt]
  have hfin : ResidualInv calls kMinIntegerValue []
      (residualLoop L.length L (Queues.empty, 0) [⟨kMinIntegerValue, 0⟩]) :=
    residualLoop_inv hsorted hsbe hL hcalls hcover L.length le_rfl swept_start rfl hinit
  exact ⟨by rw [List.head?_reverse]; exact hfin.last, List.chain'_reverse.2 hfin.chain,
    fun x => hfin.value x (by simp)⟩

/-! ## `GetBoundingArea()` -/

theorem sum_Ico_of_eq_const {f : Int → Int} {a b c : Int} (hab : a ≤ b)
    (h : ∀ x ∈ Finset.Ico a b, f x = c) : ∑ x ∈ Finset.Ico a b, f x = c * (b - a) := by
  rw [Finset.sum_congr rfl h, Finset.sum_const, Int.card_Ico, nsmul_eq_mul,
    Int.toNat_of_nonneg (by omega), Int.mul_comm]

theorem sum_Ico_append_of_le (f : Int → Int) {a b c : Int} (hab : a ≤ b) (hbc : b ≤ c) :
    ∑ x ∈ Finset.Ico a c, f x = ∑ x ∈ Finset.Ico a b, f x + ∑ x ∈ Finset.Ico b c, f x := by
  rw [← Finset.Ico_union_Ico_eq_Ico hab hbc,
    Finset.sum_union (Finset.Ico_disjoint_Ico_consecutive a b c)]

section Area

variable (calls : List ProfileCall) (L : List Event) (t₀ : Int)

/-- What `GetBoundingArea()` knows once a round is done: `previous_height` is
the band at `previous_time`, and `area` sums the band from the first time
`t₀` to it. -/
structure AreaInv (P rest : List Event) (q : Queues) (area previousTime previousHeight : Int) :
    Prop where
  swept : Swept L P rest q
  le : ∀ a ∈ P, a.time ≤ previousTime
  lt : ∀ b ∈ rest, previousTime < b.time
  height : previousHeight = band calls previousTime
  area : area = ∑ x ∈ Finset.Ico t₀ previousTime, band calls x
  start : t₀ ≤ previousTime

variable {calls L t₀} (hsorted : L.Pairwise fun a b => a.time ≤ b.time)
  (hsbe : StartsBeforeEnds L) (hL : L.Perm (eventsOf 0 calls))

include hsorted hsbe hL in
/-- One more round adds the band up to the time of the next event. -/
theorem AreaInv.round {P rest : List Event} {e : Event} {q : Queues} {area previousTime
    previousHeight : Int} (h : AreaInv calls L t₀ P (e :: rest) q area previousTime previousHeight)
    {G rest' : List Event} (hsplit : G ++ rest' = e :: rest) (hG : ∀ a ∈ G, a.time = e.time)
    (hnext : ∀ b ∈ rest'.head?, b.time ≠ e.time) :
    AreaInv calls L t₀ (P ++ G) rest' (G.foldl Queues.apply q)
      (if previousHeight ≠ 0 then area + previousHeight * (e.time - previousTime) else area)
      e.time (boundingHeight (G.foldl Queues.apply q)) := by
  obtain ⟨hsw, hle, hgt, -⟩ := h.swept.group hsorted hsbe hsplit hG hnext
  have hpt : previousTime < e.time := h.lt e (List.mem_cons_self _ _)
  have hconst : ∀ x ∈ Finset.Ico previousTime e.time, band calls x = previousHeight := by
    intro x hx
    rw [Finset.mem_Ico] at hx
    have hbetween : ∀ e' ∈ eventsOf 0 calls, e'.time ≤ previousTime ∨ x < e'.time := by
      intro e' he'
      rcases List.mem_append.1 (h.swept.split ▸ hL.mem_iff.2 he') with he' | he'
      · exact .inl (h.le e' he')
      · rcases List.mem_cons.1 he' with rfl | he'
        · exact .inr hx.2
        · exact .inr (Int.lt_of_lt_of_le hx.2 (h.swept.first_le hsorted e' he'))
    rw [h.height]
    exact (band_eq_of_covers_iff (covers_iff_of_no_time_between hbetween hx.1)).1
  refine ⟨hsw, hle, hgt, hsw.boundingHeight_eq hL hle hgt, ?_, by have := h.start; omega⟩
  rw [sum_Ico_append_of_le _ h.start (Int.le_of_lt hpt),
    sum_Ico_of_eq_const (Int.le_of_lt hpt) hconst, ← h.area]
  split
  case isTrue => rfl
  case isFalse hz => rw [not_not.1 hz, Int.zero_mul, Int.add_zero]

include hL in
/-- Once every event is swept, `area` is the whole sum of the band. -/
theorem AreaInv.area_eq_finsum (ht₀ : ∀ e ∈ L, t₀ ≤ e.time) {P : List Event} {q : Queues}
    {area previousTime previousHeight : Int}
    (h : AreaInv calls L t₀ P [] q area previousTime previousHeight) :
    area = ∑ᶠ x, band calls x := by
  rw [h.area, finsum_eq_sum_of_support_subset]
  intro x hx
  obtain ⟨c, hc, -, hcov⟩ := exists_rectangle_of_band_ne_zero hx
  rw [Finset.coe_Ico, Set.mem_Ico]
  by_contra hout
  have hbeyond : (∀ e ∈ eventsOf 0 calls, x < e.time) ∨ ∀ e ∈ eventsOf 0 calls, e.time ≤ x := by
    rcases not_and_or.1 hout with hlo | hhi
    · exact .inl fun e he => by have := ht₀ e (hL.mem_iff.2 he); omega
    · refine .inr fun e he => ?_
      have := h.le e (by simpa [h.swept.split] using hL.mem_iff.2 he)
      omega
  exact not_covers_of_times hbeyond hc hcov

include hsorted hsbe hL in
theorem areaLoop_eq (ht₀ : ∀ e ∈ L, t₀ ≤ e.time) (fuel : Nat) :
    ∀ {P rest : List Event} {q : Queues} {area previousTime previousHeight : Int},
    rest.length ≤ fuel → AreaInv calls L t₀ P rest q area previousTime previousHeight →
    exactAreaLoop fuel rest q area previousTime previousHeight = ∑ᶠ x, band calls x := by
  induction fuel with
  | zero =>
    intro P rest q area previousTime previousHeight hlen h
    rw [List.length_eq_zero.1 (Nat.le_zero.1 hlen)] at h
    exact h.area_eq_finsum hL ht₀
  | succ fuel ih =>
    intro P rest q area previousTime previousHeight hlen h
    cases rest with
    | nil => exact h.area_eq_finsum hL ht₀
    | cons e rest =>
      obtain ⟨hG, hnext⟩ := takeWhile_time e.time (e :: rest)
      have hlen' := (h.swept.group hsorted hsbe (List.takeWhile_append_dropWhile _ _) hG hnext).2.2.2
      simp only [exactAreaLoop, eventsAt_eq]
      exact ih (by simp at hlen; omega)
        (h.round hsorted hsbe hL (List.takeWhile_append_dropWhile _ _) hG hnext)

end Area

/-- `GetBoundingArea()` on a profile holding the events of the calls, in any
order: the sum of `band x` over every `x`, modulo `2^64`. -/
theorem getBoundingArea_eq_finsum {sortEvents : List Event → List Event}
    (hsort : ∀ events, EventsSorted events (sortEvents events)) (kMinIntegerValue : Int)
    {profile : CapacityProfile} {calls : List ProfileCall}
    (hp : profile.events.Perm (eventsOf 0 calls)) (hcalls : ∀ call ∈ calls, call.Ordered) :
    (getBoundingArea sortEvents kMinIntegerValue profile).2 = wrap (∑ᶠ x, band calls x) := by
  obtain ⟨hperm, hsorted⟩ := hsort profile.events
  simp only [getBoundingArea]
  refine (areaLoop_wrap _ _ _ 0 _ _).trans (congrArg wrap ?_)
  generalize sortEvents profile.events = L at hperm hsorted
  have hL : L.Perm (eventsOf 0 calls) := hperm.trans hp
  have hsbe := (startsBeforeEnds_eventsOf 0 hcalls).perm hL
  cases L with
  | nil =>
    have hzero : ∀ x, band calls x = 0 := fun x =>
      band_eq_zero fun c hc _ => not_covers_of_times (.inl fun e he => by
        simpa using hL.mem_iff.2 he) hc
    simp [exactAreaLoop, hzero]
  | cons e rest =>
    have ht₀ : ∀ b ∈ e :: rest, e.time ≤ b.time := fun b hb => by
      rcases List.mem_cons.1 hb with rfl | hb
      · exact Int.le_refl _
      · exact List.rel_of_pairwise_cons hsorted hb
    obtain ⟨hG, hnext⟩ := takeWhile_time e.time (e :: rest)
    have hstart : Swept (e :: rest) [] (e :: rest) Queues.empty := swept_start
    obtain ⟨hsw, hle, hgt, hlen⟩ :=
      hstart.group hsorted hsbe (List.takeWhile_append_dropWhile _ _) hG hnext
    simp only [List.length_cons, exactAreaLoop, eventsAt_eq, ne_eq, not_true_eq_false, if_false]
    exact areaLoop_eq hsorted hsbe hL ht₀ _ hlen
      ⟨hsw, hle, hgt, hsw.boundingHeight_eq hL hle hgt, by simp, Int.le_refl _⟩

/-- Both sweeps only reorder the events, so each can follow the other. -/
theorem sweeps_perm_events {sortEvents : List Event → List Event}
    (hsort : ∀ events, EventsSorted events (sortEvents events)) (kMinIntegerValue : Int)
    (profile : CapacityProfile) :
    (buildResidualCapacityProfile sortEvents kMinIntegerValue profile).1.events.Perm
        profile.events ∧
      (getBoundingArea sortEvents kMinIntegerValue profile).1.events.Perm profile.events :=
  ⟨(hsort _).1, (hsort _).1⟩

/-- The residual profile of two overlapping rectangles with a consumption over
the first: `band - m` is 3, 2, 4, 5, 4 on `[0, 1)`, …, `[4, 6)`. -/
example : (buildResidualCapacityProfile (List.insertionSort fun a b => a.time ≤ b.time) (-1)
    (run ⟨[], 0⟩ [.addRectangle 0 4 0 3, .addRectangle 2 6 1 5,
      .addMandatoryConsumption 1 3 1])).2 =
    [⟨-1, 0⟩, ⟨0, 3⟩, ⟨1, 2⟩, ⟨2, 4⟩, ⟨3, 5⟩, ⟨4, 4⟩, ⟨6, 0⟩] := by decide

/-- Their bounding area: `3 + 3 + 5 + 5 + 4 + 4`. -/
example : (getBoundingArea (List.insertionSort fun a b => a.time ≤ b.time) (-1)
    (run ⟨[], 0⟩ [.addRectangle 0 4 0 3, .addRectangle 2 6 1 5,
      .addMandatoryConsumption 1 3 1])).2 = 24 := by decide

/-- The area of one `2^32` by `2^32` rectangle is `2^64`, which the `int64` sum
wraps to zero. -/
example : (getBoundingArea (List.insertionSort fun a b => a.time ≤ b.time) (-1)
    (run ⟨[], 0⟩ [.addRectangle 0 4294967296 0 4294967296])).2 = 0 := by decide

/-- A rectangle starting at `kMinIntegerValue` itself makes the first round
push a second step at `kMinIntegerValue`. -/
theorem buildResidualCapacityProfile_of_rectangle_at_kMin (kMinIntegerValue : Int)
    (profile : CapacityProfile) :
    (buildResidualCapacityProfile (List.insertionSort fun a b => a.time ≤ b.time)
      kMinIntegerValue
      (run profile [.addRectangle kMinIntegerValue (kMinIntegerValue + 1) 0 1])).2 =
      [⟨kMinIntegerValue, 0⟩, ⟨kMinIntegerValue, 1⟩, ⟨kMinIntegerValue + 1, 0⟩] := by
  have h₁ : kMinIntegerValue ≠ kMinIntegerValue + 1 := by omega
  have h₂ : kMinIntegerValue + 1 ≠ kMinIntegerValue := by omega
  simp [run, clear, ProfileCall.apply, addRectangle, h₁, buildResidualCapacityProfile,
    startRectangleEvent, endRectangleEvent, residualLoop, eventsAt, residualEvent, Queues.apply,
    residualHeight, Queues.empty, IntegerPriorityQueue.add, IntegerPriorityQueue.remove,
    IntegerPriorityQueue.isEmpty, IntegerPriorityQueue.topValue, backHeight, h₂]

end OrTools.Sat.CapacityProfile

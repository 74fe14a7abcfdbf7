import OrTools.Sat.Rectangle
import Mathlib.Data.List.Sort
import Mathlib.Data.List.Dedup
import Mathlib.Algebra.Order.BigOperators.Group.List
import Mathlib.Algebra.Order.Ring.Int

/-!
# Energy conflicts of boxes

A set of boxes, each with an energy, is in conflict with a rectangle when the
boxes inside the rectangle have more energy than its area.  `AnalyzeIntervals()`
sweeps the boxes by increasing `x_max` and keeps, for every candidate `x_min`
among the boxes' starts, the energy and the `y` range of the boxes seen so far
that start there or later.  When the energy of such a stripe exceeds its width
times its height it reports a conflict: the bounding box of the boxes of the
stripe, which is then a genuine conflict.

`std::sort` of the tasks by time is modelled by its contract, as a function the
statements assume to return a sorted permutation.  The per-start vectors are
functions on the start indices; the loop over the starts returns `none` where
the code would read past them.
-/

set_option autoImplicit false

namespace OrTools.Sat

open Function

/-- Modelled from the spec: `TaskTime` of `intervals.h`, which is not under
src/: a task index with a time, sorted by time. -/
structure TaskTime where
  taskIndex : Nat
  time : Int
  deriving DecidableEq, Repr

/-- The vector as `std::sort` by time leaves it. -/
def SortedByTime (tasks sorted : List TaskTime) : Prop :=
  sorted.Perm tasks ∧ sorted.Pairwise fun a b => ¬ b.time < a.time

instance (tasks sorted : List TaskTime) : Decidable (SortedByTime tasks sorted) :=
  inferInstanceAs (Decidable (_ ∧ _))

/-- Modelled from the spec: `gtl::STLSortAndRemoveDuplicates()` of
`stl_util.h`, which is not under src/: the values in increasing order, each
once. -/
def sortAndRemoveDuplicates (values : List Int) : List Int :=
  (values.insertionSort (· ≤ ·)).dedup

/-- Modelled from the spec: `CeilRatio(dividend, positive_divisor)` of
`integer.h`, which is not under src/: the least integer at least the
quotient. -/
def ceilRatio (dividend positiveDivisor : Int) : Int := -((-dividend) / positiveDivisor)

namespace Rectangle

/-- Modelled from the spec: `Rectangle::Area()` of `diffn_util.h`. -/
def area (r : Rectangle) : Int := (r.xMax - r.xMin) * (r.yMax - r.yMin)

/-- Modelled from the spec: `Rectangle::GrowToInclude(other)` of `diffn_util.h`,
the bounding box of both rectangles. -/
def growToInclude (r other : Rectangle) : Rectangle :=
  ⟨min r.xMin other.xMin, max r.xMax other.xMax, min r.yMin other.yMin, max r.yMax other.yMax⟩

/-- The rectangle with its two axes exchanged when `transpose` holds, as
`AnalyzeIntervals(transpose, …)` reads the boxes. -/
def oriented (transpose : Bool) (r : Rectangle) : Rectangle :=
  if transpose then ⟨r.yMin, r.yMax, r.xMin, r.xMax⟩ else r

/-- The rectangle lies inside `other`. -/
def IsInside (r other : Rectangle) : Prop :=
  other.xMin ≤ r.xMin ∧ r.xMax ≤ other.xMax ∧ other.yMin ≤ r.yMin ∧ r.yMax ≤ other.yMax

instance (r other : Rectangle) : Decidable (r.IsInside other) :=
  inferInstanceAs (Decidable (_ ∧ _ ∧ _ ∧ _))

end Rectangle

open Rectangle

/-- The energy of the boxes of `boxes` whose rectangle lies inside `r`. -/
def energyInside (rectangles : Nat → Rectangle) (energies : Nat → Int) (boxes : List Nat)
    (r : Rectangle) : Int :=
  ((boxes.filter fun b => (rectangles b).IsInside r).map energies).sum

/-! ## `AnalyzeIntervals()` -/

/-- The state of `AnalyzeIntervals()` between two boxes: `first_j`, the
per-start vectors `energies`, `y_mins`, `y_maxs`, `energy_at_max_y`,
`energy_at_min_y`, and `max_conflict_height`. -/
structure StripeState where
  firstJ : Nat
  energies : Nat → Int
  yMins : Nat → Int
  yMaxs : Nat → Int
  energyAtMaxY : Nat → Int
  energyAtMinY : Nat → Int
  maxConflictHeight : Int

/-- What the body of the loop over the starts does: report the conflict, or go
on with a new state. -/
inductive StripeStep where
  | conflict
  | next (s : StripeState)

/-- The first part of the body of the loop over the starts: the box (axes
already exchanged), of energy `energy`, is added to the stripe `j`. -/
def addToStripe (j : Nat) (box : Rectangle) (energy : Int) (s : StripeState) : StripeState :=
  { s with
    energies := update s.energies j (s.energies j + energy)
    yMins := if box.yMin < s.yMins j then update s.yMins j box.yMin else s.yMins
    energyAtMinY :=
      if box.yMin < s.yMins j then update s.energyAtMinY j energy
      else if box.yMin = s.yMins j then update s.energyAtMinY j (s.energyAtMinY j + energy)
      else s.energyAtMinY
    yMaxs := if box.yMax > s.yMaxs j then update s.yMaxs j box.yMax else s.yMaxs
    energyAtMaxY :=
      if box.yMax > s.yMaxs j then update s.energyAtMaxY j energy
      else if box.yMax = s.yMaxs j then update s.energyAtMaxY j (s.energyAtMaxY j + energy)
      else s.energyAtMaxY }

/-- The height below which a conflict with the new box could appear once some
energy is removed from the top or the bottom of the stripe: `can_remove` is the
energy of the side that has to go, `s` the state before the box was added and
`s'` the state after. -/
def reducedConflictHeight (width : Int) (j : Nat) (box : Rectangle) (s s' : StripeState) : Int :=
  let oldEnergyAtMax := s.energyAtMaxY j
  let oldEnergyAtMin := s.energyAtMinY j
  let canRemove :=
    if oldEnergyAtMin < oldEnergyAtMax then
      if s'.yMaxs j - box.yMin ≥ ceilRatio (s'.energies j - oldEnergyAtMin) width then oldEnergyAtMax
      else min oldEnergyAtMin oldEnergyAtMax
    else if oldEnergyAtMax < oldEnergyAtMin then
      if box.yMax - s'.yMins j ≥ ceilRatio (s'.energies j - oldEnergyAtMax) width then oldEnergyAtMin
      else min oldEnergyAtMin oldEnergyAtMax
    else min oldEnergyAtMin oldEnergyAtMax
  ceilRatio (s'.energies j - canRemove) width - 1

/-- The body of the loop over the starts, for the start `starts[j] = start`, on
the box `box` (axes already exchanged) of energy `energy`.  `is_disjoint`
compares the box with the stripe before it is added. -/
def stripeStep (start : Int) (j : Nat) (box : Rectangle) (energy : Int) (s : StripeState) :
    StripeStep :=
  let s' := addToStripe j box energy s
  if box.yMin ≥ s.yMaxs j ∨ box.yMax ≤ s.yMins j then .next s'
  else
    let width := box.xMax - start
    let conflictHeight := ceilRatio (s'.energies j) width - 1
    if box.yMax - box.yMin > conflictHeight then .next s'
    else if conflictHeight ≥ s'.yMaxs j - s'.yMins j then .conflict
    else
      let conflictHeight := reducedConflictHeight width j box s s'
      if box.yMax - box.yMin > conflictHeight then .next s'
      else .next { s' with maxConflictHeight := max s.maxConflictHeight conflictHeight }

/-- The loop `for (int j = first_j; starts[j] <= x_min; ++j)` over the starts
from `j` on: the start of the conflict found, if any, and the state.  It is
`none` where the code reads past `starts`, or past the per-start vectors, which
have one entry fewer than `starts` and its sentinel. -/
def stripeLoop (numStarts : Nat) (box : Rectangle) (energy : Int) :
    Nat → List Int → StripeState → Option (Option Nat × StripeState)
  | _, [], _ => none
  | j, start :: starts, s =>
    if start ≤ box.xMin then
      if j < numStarts then
        match stripeStep start j box energy s with
        | .conflict => some (some j, s)
        | .next s' => stripeLoop numStarts box energy (j + 1) starts s'
      else none
    else some (none, s)

/-- The loop `while (first_j + 1 < starts.size() && x_max - starts[first_j] >
threshold) ++first_j`, over the starts from `first_j` on. -/
def advanceFirstJ (xMax threshold : Int) : Nat → List Int → Nat
  | j, start :: next :: starts =>
    if xMax - start > threshold then advanceFirstJ xMax threshold (j + 1) (next :: starts) else j
  | j, _ => j

/-- How the sweep of `AnalyzeIntervals()` ends. -/
inductive AnalyzeEnd where
  | conflict (r : Rectangle)
  | done (s : StripeState)

/-- The conflict reported at the start `starts[j] = start` on the box `t`: its
rectangle grown to include those of the boxes swept before that start at
`start` or later. -/
def stripeConflict (transpose : Bool) (rectangles : Nat → Rectangle) (start : Int)
    (swept : List TaskTime) (t : Nat) : Rectangle :=
  swept.foldl (fun conflict task =>
    if ((rectangles task.taskIndex).oriented transpose).xMin < start then conflict
    else conflict.growToInclude (rectangles task.taskIndex)) (rectangles t)

/-- The loop of `AnalyzeIntervals()` over the boxes by increasing `x_max`;
`swept` holds the boxes already swept, in order. -/
def sweepBoxes (transpose : Bool) (rectangles : Nat → Rectangle) (rectangleEnergies : Nat → Int)
    (starts : List Int) (threshold : Int) :
    List TaskTime → List TaskTime → StripeState → Option AnalyzeEnd
  | _, [], s => some (.done s)
  | swept, task :: tasks, s =>
    let box := (rectangles task.taskIndex).oriented transpose
    let firstJ := advanceFirstJ box.xMax threshold s.firstJ (starts.drop s.firstJ)
    match stripeLoop (starts.length - 1) box (rectangleEnergies task.taskIndex) firstJ
      (starts.drop firstJ) { s with firstJ } with
    | none => none
    | some (some j, _) =>
      some (.conflict (stripeConflict transpose rectangles (starts.getD j 0) swept task.taskIndex))
    | some (none, s') => sweepBoxes transpose rectangles rectangleEnergies starts threshold
        (swept ++ [task]) tasks s'

/-- What `AnalyzeIntervals()` returns: `false` with the conflict, or `true` with
the two thresholds. -/
inductive AnalyzeResult where
  | conflict (r : Rectangle)
  | noConflict (xThreshold yThreshold : Int)
  deriving DecidableEq, Repr

/-- `AnalyzeIntervals(transpose, local_boxes, rectangles, rectangle_energies,
x_threshold, y_threshold, conflict)`, with `kMaxIntegerValue` and `std::sort`
as parameters. -/
def analyzeIntervals (kMaxIntegerValue : Int) (sortTasks : List TaskTime → List TaskTime)
    (transpose : Bool) (localBoxes : List Nat) (rectangles : Nat → Rectangle)
    (rectangleEnergies : Nat → Int) (xThreshold yThreshold : Int) : Option AnalyzeResult :=
  let starts := sortAndRemoveDuplicates
    (localBoxes.map fun t => ((rectangles t).oriented transpose).xMin)
  let tasks := sortTasks (localBoxes.map fun t => ⟨t, ((rectangles t).oriented transpose).xMax⟩)
  let init : StripeState := ⟨0, fun _ => 0, fun _ => kMaxIntegerValue, fun _ => -kMaxIntegerValue,
    fun _ => 0, fun _ => 0, 0⟩
  let threshold := if transpose then yThreshold else xThreshold
  match sweepBoxes transpose rectangles rectangleEnergies (starts ++ [kMaxIntegerValue]) threshold
    [] tasks init with
  | none => none
  | some (.conflict r) => some (.conflict r)
  | some (.done s) =>
    if transpose then some (.noConflict (min xThreshold s.maxConflictHeight) yThreshold)
    else some (.noConflict xThreshold (min yThreshold s.maxConflictHeight))

/-! ## Facts the sweeps rest on -/

theorem sortAndRemoveDuplicates_sorted (values : List Int) :
    (sortAndRemoveDuplicates values).Pairwise (· < ·) := by
  have hs := ((values.sorted_insertionSort (· ≤ ·)).sublist (List.dedup_sublist _))
  exact (hs.and (List.nodup_dedup _)).imp fun h => lt_of_le_of_ne h.1 h.2

theorem mem_sortAndRemoveDuplicates {values : List Int} {v : Int} :
    v ∈ sortAndRemoveDuplicates values ↔ v ∈ values := by
  rw [sortAndRemoveDuplicates, List.mem_dedup, (List.perm_insertionSort _ _).mem_iff]

/-- A height at most `CeilRatio(energy, width) - 1` leaves less area than
`energy` to a stripe of that width. -/
theorem mul_lt_of_le_ceilRatio_sub_one {energy width height : Int} (hw : 0 < width)
    (h : height ≤ ceilRatio energy width - 1) : width * height < energy := by
  have : -energy / width < -height := by unfold ceilRatio at h; omega
  have := (Int.ediv_lt_iff_lt_mul hw).mp this
  rw [Int.neg_mul] at this
  rw [Int.mul_comm]
  omega

namespace Rectangle

@[simp] theorem oriented_oriented (transpose : Bool) (r : Rectangle) :
    (r.oriented transpose).oriented transpose = r := by
  cases transpose <;> rfl

theorem oriented_sides (transpose : Bool) (r : Rectangle) :
    ((r.oriented transpose).xMin < (r.oriented transpose).xMax ∧
      (r.oriented transpose).yMin < (r.oriented transpose).yMax) ↔ r.xMin < r.xMax ∧ r.yMin < r.yMax := by
  cases transpose
  · rfl
  · exact and_comm

theorem oriented_growToInclude (transpose : Bool) (a b : Rectangle) :
    (a.growToInclude b).oriented transpose = (a.oriented transpose).growToInclude (b.oriented transpose) := by
  cases transpose <;> rfl

theorem isInside_oriented (transpose : Bool) (a b : Rectangle) :
    (a.oriented transpose).IsInside (b.oriented transpose) ↔ a.IsInside b := by
  cases transpose
  · rfl
  · simp only [oriented, IsInside, if_true]; tauto

theorem area_oriented (transpose : Bool) (a : Rectangle) : (a.oriented transpose).area = a.area := by
  cases transpose
  · rfl
  · exact Int.mul_comm _ _

theorem isInside_growToInclude_left (a b : Rectangle) : a.IsInside (a.growToInclude b) := by
  simp only [IsInside, growToInclude]; omega

theorem isInside_growToInclude_right (a b : Rectangle) : b.IsInside (a.growToInclude b) := by
  simp only [IsInside, growToInclude]; omega

theorem growToInclude_isInside {a b c : Rectangle} (ha : a.IsInside c) (hb : b.IsInside c) :
    (a.growToInclude b).IsInside c := by
  simp only [IsInside, growToInclude] at *; omega

theorem IsInside.trans {a b c : Rectangle} (hab : a.IsInside b) (hbc : b.IsInside c) :
    a.IsInside c := by
  simp only [IsInside] at *; omega

/-- A rectangle inside another of no negative side has no more area. -/
theorem area_le_of_isInside {a b : Rectangle} (h : a.IsInside b) (hx : a.xMin ≤ a.xMax)
    (hy : a.yMin ≤ a.yMax) : a.area ≤ b.area := by
  obtain ⟨h₁, h₂, h₃, h₄⟩ := h
  exact Int.mul_le_mul (by omega) (by omega) (by omega) (by omega)

end Rectangle

/-- Growing `init` to include the rectangles of the tasks that `skip` does not
hold of: the result holds them all, and lies inside every rectangle that
does. -/
theorem foldl_growToInclude (rectangles : Nat → Rectangle) (skip : TaskTime → Prop)
    [DecidablePred skip] : ∀ (swept : List TaskTime) (init : Rectangle),
      let r := swept.foldl (fun c task => if skip task then c
        else c.growToInclude (rectangles task.taskIndex)) init
      init.IsInside r ∧ (∀ task ∈ swept, ¬ skip task → (rectangles task.taskIndex).IsInside r) ∧
        ∀ c, init.IsInside c → (∀ task ∈ swept, ¬ skip task → (rectangles task.taskIndex).IsInside c) →
          r.IsInside c
  | [], init => ⟨by simp only [List.foldl_nil, IsInside]; omega, by simp, fun _ h _ => h⟩
  | task :: swept, init => by
    obtain ⟨h₁, h₂, h₃⟩ := foldl_growToInclude rectangles skip swept
      (if skip task then init else init.growToInclude (rectangles task.taskIndex))
    simp only [List.foldl_cons, List.mem_cons, forall_eq_or_imp]
    by_cases hk : skip task
    · rw [if_pos hk] at h₁ h₂ h₃ ⊢
      exact ⟨h₁, ⟨fun h => absurd hk h, h₂⟩, fun c hc hall => h₃ c hc hall.2⟩
    · rw [if_neg hk] at h₁ h₂ h₃ ⊢
      exact ⟨(isInside_growToInclude_left _ _).trans h₁,
        ⟨fun _ => (isInside_growToInclude_right _ _).trans h₁, h₂⟩,
        fun c hc hall => h₃ c (growToInclude_isInside hc (hall.1 hk)) hall.2⟩

/-- Filtering by a test that implies another on the list keeps a sublist. -/
theorem filter_sublist_filter {α : Type} {p q : α → Bool} :
    ∀ {l : List α}, (∀ a ∈ l, p a → q a) → (l.filter p).Sublist (l.filter q)
  | [], _ => .slnil
  | a :: l, h => by
    have ih := filter_sublist_filter fun b hb => h b (List.mem_cons_of_mem a hb)
    simp only [List.filter_cons]
    by_cases hp : p a
    · rw [if_pos hp, if_pos (h a (List.mem_cons_self a l) hp)]; exact ih.cons₂ a
    · rw [if_neg hp]; split_ifs <;> [exact ih.cons a; exact ih]

/-! ## The loop over the starts -/

/-- What the body of the loop does to the state at the start `j` when it goes
on: the box is added to the energy and the `y` range of the stripe `j`, and to
no other. -/
structure Adds (j : Nat) (box : Rectangle) (energy : Int) (s s' : StripeState) : Prop where
  firstJ : s'.firstJ = s.firstJ
  energies : s'.energies = update s.energies j (s.energies j + energy)
  yMins : s'.yMins = update s.yMins j (min (s.yMins j) box.yMin)
  yMaxs : s'.yMaxs = update s.yMaxs j (max (s.yMaxs j) box.yMax)

theorem update_min_eq (f : Nat → Int) (j : Nat) (y : Int) :
    (if y < f j then update f j y else f) = update f j (min (f j) y) := by
  split_ifs with h
  · rw [min_eq_right (le_of_lt h)]
  · rw [min_eq_left (not_lt.mp h), update_eq_self]

theorem update_max_eq (f : Nat → Int) (j : Nat) (y : Int) :
    (if y > f j then update f j y else f) = update f j (max (f j) y) := by
  split_ifs with h
  · rw [max_eq_right (le_of_lt h)]
  · rw [max_eq_left (not_lt.mp h), update_eq_self]

variable {start : Int} {j : Nat} {box : Rectangle} {energy : Int} {s s' : StripeState}

theorem adds_addToStripe (j : Nat) (box : Rectangle) (energy : Int) (s : StripeState) :
    Adds j box energy s (addToStripe j box energy s) :=
  ⟨rfl, rfl, update_min_eq _ _ _, update_max_eq _ _ _⟩

theorem stripeStep_next (h : stripeStep start j box energy s = .next s') : Adds j box energy s s' := by
  have hadds := adds_addToStripe j box energy s
  dsimp only [stripeStep] at h
  split_ifs at h <;> cases h
  all_goals exact ⟨hadds.firstJ, hadds.energies, hadds.yMins, hadds.yMaxs⟩

/-- Where the body reports a conflict, the energy of the stripe with the box is
more than its width times the height of its `y` range. -/
theorem stripeStep_conflict (h : stripeStep start j box energy s = .conflict) :
    max (s.yMaxs j) box.yMax - min (s.yMins j) box.yMin ≤
      ceilRatio (s.energies j + energy) (box.xMax - start) - 1 := by
  have hadds := adds_addToStripe j box energy s
  dsimp only [stripeStep] at h
  split_ifs at h with h₁ h₂ h₃
  rw [hadds.yMins, hadds.yMaxs, hadds.energies] at h₃
  simpa only [update_same] using h₃

theorem getD_of_drop_eq_cons {starts rest : List Int} {j : Nat} {start : Int}
    (h : starts.drop j = start :: rest) : starts.getD j 0 = start ∧ starts.drop (j + 1) = rest := by
  refine ⟨?_, by rw [← List.tail_drop, h]; rfl⟩
  rw [List.getD_eq_getElem?_getD, ← List.head?_drop, h]; rfl

/-- The starts below `num_starts` increase. -/
def StartsIncreasing (starts : List Int) (numStarts : Nat) : Prop :=
  ∀ a b, a < b → b < numStarts → starts.getD a 0 < starts.getD b 0

variable {numStarts : Nat} {starts : List Int}

/-- The loop from `j` that ends without a conflict has added the box to the
stripes from `j` on whose start is at most the box's `x_min`, and to no other. -/
theorem stripeLoop_none (hinc : StartsIncreasing starts numStarts) :
    ∀ (L : List Int) (j : Nat) (s s' : StripeState), L = starts.drop j →
      stripeLoop numStarts box energy j L s = some (none, s') →
      s'.firstJ = s.firstJ ∧ ∀ j', (j ≤ j' ∧ j' < numStarts ∧ starts.getD j' 0 ≤ box.xMin →
          s'.energies j' = s.energies j' + energy ∧ s'.yMins j' = min (s.yMins j') box.yMin ∧
            s'.yMaxs j' = max (s.yMaxs j') box.yMax) ∧
        (¬ (j ≤ j' ∧ j' < numStarts ∧ starts.getD j' 0 ≤ box.xMin) →
          s'.energies j' = s.energies j' ∧ s'.yMins j' = s.yMins j' ∧ s'.yMaxs j' = s.yMaxs j')
  | [], _, _, _, _, h => by simp [stripeLoop] at h
  | start :: rest, j, s, s', hL, h => by
    obtain ⟨hget, hdrop⟩ := getD_of_drop_eq_cons hL.symm
    unfold stripeLoop at h
    split_ifs at h with hle hlt
    · split at h
      · cases h
      · rename_i s₁ hstep
        have hadds := stripeStep_next hstep
        obtain ⟨hfirst, hrest⟩ := stripeLoop_none hinc rest (j + 1) s₁ s' hdrop.symm h
        refine ⟨hfirst.trans hadds.firstJ, fun j' => ?_⟩
        have h' := hrest j'
        rw [hadds.energies, hadds.yMins, hadds.yMaxs] at h'
        by_cases hj : j' = j
        · subst hj
          have := h'.2 (by omega)
          simp only [update_same] at this
          rw [this.1, this.2.1, this.2.2]
          exact ⟨fun _ => ⟨rfl, rfl, rfl⟩, fun hn => absurd ⟨le_rfl, hlt, hget ▸ hle⟩ hn⟩
        · simp only [update_noteq hj] at h'
          exact ⟨fun hc => h'.1 ⟨by omega, hc.2⟩, fun hc => h'.2 fun hc' => hc ⟨by omega, hc'.2⟩⟩
    · cases h
      refine ⟨rfl, fun j' => ⟨fun ⟨hj, hn, hx⟩ => absurd hx ?_, fun _ => ⟨rfl, rfl, rfl⟩⟩⟩
      rcases Nat.eq_or_lt_of_le hj with rfl | hj
      · rw [hget]; exact hle
      · exact not_le.mpr ((not_le.mp (hget ▸ hle)).trans (hinc j j' hj hn))

/-- The loop from `j` that reports a conflict reports it at a start `j₀` from
`j` on, at most the box's `x_min`, on a state that still holds the stripe `j₀`
as it was. -/
theorem stripeLoop_conflict :
    ∀ (L : List Int) (j : Nat) (s s₀ : StripeState) (j₀ : Nat), L = starts.drop j →
      stripeLoop numStarts box energy j L s = some (some j₀, s₀) →
      j ≤ j₀ ∧ j₀ < numStarts ∧ starts.getD j₀ 0 ≤ box.xMin ∧
        stripeStep (starts.getD j₀ 0) j₀ box energy s₀ = .conflict ∧
        s₀.energies j₀ = s.energies j₀ ∧ s₀.yMins j₀ = s.yMins j₀ ∧ s₀.yMaxs j₀ = s.yMaxs j₀
  | [], _, _, _, _, _, h => by simp [stripeLoop] at h
  | start :: rest, j, s, s₀, j₀, hL, h => by
    obtain ⟨hget, hdrop⟩ := getD_of_drop_eq_cons hL.symm
    unfold stripeLoop at h
    split_ifs at h with hle hlt
    · split at h
      · rename_i hstep
        cases h
        exact ⟨le_rfl, hlt, hget ▸ hle, hget ▸ hstep, rfl, rfl, rfl⟩
      · rename_i s₁ hstep
        have hadds := stripeStep_next hstep
        obtain ⟨hj, hn, hx, hc, he, hmin, hmax⟩ := stripeLoop_conflict rest (j + 1) s₁ s₀ j₀ hdrop.symm h
        have hne : j₀ ≠ j := by omega
        rw [hadds.energies, update_noteq hne] at he
        rw [hadds.yMins, update_noteq hne] at hmin
        rw [hadds.yMaxs, update_noteq hne] at hmax
        exact ⟨by omega, hn, hx, hc, he, hmin, hmax⟩
    · cases h

theorem le_advanceFirstJ (xMax threshold : Int) : ∀ (j : Nat) (L : List Int),
    j ≤ advanceFirstJ xMax threshold j L
  | j, _ :: _ :: _ => by
    unfold advanceFirstJ
    split_ifs
    · exact Nat.le_of_succ_le (le_advanceFirstJ xMax threshold (j + 1) _)
    · exact le_rfl
  | _, [] => le_rfl
  | _, [_] => le_rfl

/-- The reported conflict holds the box and the boxes swept from the start on,
and lies inside every rectangle that holds them. -/
theorem stripeConflict_spec (transpose : Bool) (rectangles : Nat → Rectangle) (start : Int)
    (swept : List TaskTime) (t : Nat) :
    (rectangles t).IsInside (stripeConflict transpose rectangles start swept t) ∧
      (∀ k ∈ swept, start ≤ ((rectangles k.taskIndex).oriented transpose).xMin →
        (rectangles k.taskIndex).IsInside (stripeConflict transpose rectangles start swept t)) ∧
      ∀ c, (rectangles t).IsInside c → (∀ k ∈ swept, start ≤ ((rectangles k.taskIndex).oriented transpose).xMin →
        (rectangles k.taskIndex).IsInside c) → (stripeConflict transpose rectangles start swept t).IsInside c := by
  obtain ⟨h₁, h₂, h₃⟩ := foldl_growToInclude rectangles
    (fun k => ((rectangles k.taskIndex).oriented transpose).xMin < start) swept (rectangles t)
  exact ⟨h₁, fun k hk hx => h₂ k hk (not_lt.mpr hx),
    fun c hc hall => h₃ c hc fun k hk hx => hall k hk (not_lt.mp hx)⟩

/-! ## The sweep over the boxes -/

section Sweep

variable (transpose : Bool) (rectangles : Nat → Rectangle) (rectangleEnergies : Nat → Int)

/-- The box of a task as the sweep reads it. -/
def sweptBox (k : TaskTime) : Rectangle := (rectangles k.taskIndex).oriented transpose

/-- A task as `AnalyzeIntervals()` builds it: its time is the `x_max` of its
box, whose sides are positive, and its energy is not negative. -/
def WellFormed (k : TaskTime) : Prop :=
  k.time = (sweptBox transpose rectangles k).xMax ∧
    (rectangles k.taskIndex).xMin < (rectangles k.taskIndex).xMax ∧
    (rectangles k.taskIndex).yMin < (rectangles k.taskIndex).yMax ∧ 0 ≤ rectangleEnergies k.taskIndex

/-- The stripes from `first_j` on hold the energy and the `y` range of the
boxes swept that start at their start or later. -/
def Stripes (starts : List Int) (swept : List TaskTime) (s : StripeState) : Prop :=
  ∀ j, s.firstJ ≤ j → j < starts.length - 1 →
    s.energies j = ((swept.filter fun k => starts.getD j 0 ≤ (sweptBox transpose rectangles k).xMin).map
      fun k => rectangleEnergies k.taskIndex).sum ∧
    ∀ k ∈ swept, starts.getD j 0 ≤ (sweptBox transpose rectangles k).xMin →
      s.yMins j ≤ (sweptBox transpose rectangles k).yMin ∧
        (sweptBox transpose rectangles k).yMax ≤ s.yMaxs j

variable {transpose rectangles rectangleEnergies} {starts : List Int}

/-- Sweeping a box without a conflict keeps the stripes. -/
theorem Stripes.add (hinc : StartsIncreasing starts (starts.length - 1)) {swept : List TaskTime}
    {s s' : StripeState} (hs : Stripes transpose rectangles rectangleEnergies starts swept s)
    (t : TaskTime) {firstJ : Nat} (hfirst : s.firstJ ≤ firstJ)
    (h : stripeLoop (starts.length - 1) (sweptBox transpose rectangles t) (rectangleEnergies t.taskIndex)
      firstJ (starts.drop firstJ) { s with firstJ } = some (none, s')) :
    Stripes transpose rectangles rectangleEnergies starts (swept ++ [t]) s' := by
  obtain ⟨hfirst', hupd⟩ := stripeLoop_none hinc _ firstJ _ s' rfl h
  intro j hj hn
  rw [hfirst'] at hj
  obtain ⟨hE, hY⟩ := hs j (hfirst.trans hj) hn
  simp only [List.filter_append, List.filter_cons, List.filter_nil, List.map_append, List.sum_append,
    List.mem_append, List.mem_singleton]
  by_cases hx : starts.getD j 0 ≤ (sweptBox transpose rectangles t).xMin
  · obtain ⟨he, hmin, hmax⟩ := (hupd j).1 ⟨hj, hn, hx⟩
    rw [if_pos (decide_eq_true hx)]
    refine ⟨by rw [he, hE]; simp, fun k hk hkx => ?_⟩
    rw [hmin, hmax]
    rcases hk with hk | rfl
    · exact ⟨min_le_of_left_le (hY k hk hkx).1, le_max_of_le_left (hY k hk hkx).2⟩
    · exact ⟨min_le_right _ _, le_max_right _ _⟩
  · obtain ⟨he, hmin, hmax⟩ := (hupd j).2 fun hc => hx hc.2.2
    rw [if_neg (by simpa using hx)]
    refine ⟨by rw [he, hE]; simp, fun k hk hkx => ?_⟩
    rw [hmin, hmax]
    rcases hk with hk | rfl
    · exact hY k hk hkx
    · exact absurd hkx hx

/-- The conflict reported at the stripe `j₀` on the box of `t`: the bounding
box of the boxes of the stripe lies inside the stripe's width and `y` range, so
it has less area than the stripe's energy, all of which lies inside it. -/
theorem Stripes.conflict {swept rest : List TaskTime} {s s₀ : StripeState} {t : TaskTime}
    {j₀ : Nat} (hs : Stripes transpose rectangles rectangleEnergies starts swept s)
    (hj : s.firstJ ≤ j₀) (hn : j₀ < starts.length - 1)
    (hx : starts.getD j₀ 0 ≤ (sweptBox transpose rectangles t).xMin)
    (hc : stripeStep (starts.getD j₀ 0) j₀ (sweptBox transpose rectangles t)
      (rectangleEnergies t.taskIndex) s₀ = .conflict)
    (he : s₀.energies j₀ = s.energies j₀) (hmin : s₀.yMins j₀ = s.yMins j₀)
    (hmax : s₀.yMaxs j₀ = s.yMaxs j₀)
    (hwf : ∀ k ∈ swept ++ t :: rest, WellFormed transpose rectangles rectangleEnergies k)
    (htime : ∀ k ∈ swept, k.time ≤ t.time) :
    (stripeConflict transpose rectangles (starts.getD j₀ 0) swept t.taskIndex).area <
      (((swept ++ t :: rest).filter fun k => (rectangles k.taskIndex).IsInside
        (stripeConflict transpose rectangles (starts.getD j₀ 0) swept t.taskIndex)).map
          fun k => rectangleEnergies k.taskIndex).sum := by
  have hstep := stripeStep_conflict hc
  rw [he, hmin, hmax] at hstep
  obtain ⟨hE, hY⟩ := hs j₀ hj hn
  obtain ⟨htt, htx, hty, hte⟩ := hwf t (by simp)
  have hbox : (sweptBox transpose rectangles t).xMin < (sweptBox transpose rectangles t).xMax ∧
      (sweptBox transpose rectangles t).yMin < (sweptBox transpose rectangles t).yMax :=
    (oriented_sides transpose (rectangles t.taskIndex)).mpr ⟨htx, hty⟩
  have hlt := mul_lt_of_le_ceilRatio_sub_one (by omega) hstep
  obtain ⟨hB₁, hB₂, hB₃⟩ := stripeConflict_spec transpose rectangles (starts.getD j₀ 0) swept t.taskIndex
  generalize stripeConflict transpose rectangles (starts.getD j₀ 0) swept t.taskIndex = B at *
  -- the stripe, in the axes of the sweep
  have hinC : ∀ r : Rectangle, (r.oriented transpose).IsInside
      ⟨starts.getD j₀ 0, (sweptBox transpose rectangles t).xMax,
        min (s.yMins j₀) (sweptBox transpose rectangles t).yMin,
        max (s.yMaxs j₀) (sweptBox transpose rectangles t).yMax⟩ →
      r.IsInside ((⟨starts.getD j₀ 0, (sweptBox transpose rectangles t).xMax,
        min (s.yMins j₀) (sweptBox transpose rectangles t).yMin,
        max (s.yMaxs j₀) (sweptBox transpose rectangles t).yMax⟩ : Rectangle).oriented transpose) :=
    fun r hr => (isInside_oriented transpose r _).mp (by rw [oriented_oriented]; exact hr)
  have hBC := hB₃ _ (hinC _ ⟨hx, le_rfl, min_le_right _ _, le_max_right _ _⟩) fun k hk hkx => hinC _ <| by
    obtain ⟨hkt, -, -, -⟩ := hwf k (by simp [hk])
    have := htime k hk
    rw [hkt, htt] at this
    exact ⟨hkx, this, min_le_of_left_le (hY k hk hkx).1, le_max_of_le_left (hY k hk hkx).2⟩
  have harea := area_le_of_isInside hBC (by simp only [IsInside] at hB₁; omega)
    (by simp only [IsInside] at hB₁; omega)
  rw [area_oriented] at harea
  -- the energy of the stripe is inside the bounding box
  have hsub : ((swept.filter fun k => decide (starts.getD j₀ 0 ≤ (sweptBox transpose rectangles k).xMin)) ++
      [t]).Sublist ((swept ++ t :: rest).filter fun k => (rectangles k.taskIndex).IsInside B) := by
    rw [List.filter_append, List.filter_cons_of_pos (by simpa using hB₁)]
    exact (filter_sublist_filter fun k hk hkx => by
      simpa using hB₂ k hk (by simpa using hkx)).append ((List.nil_sublist _).cons₂ t)
  have hle := (hsub.map fun k => rectangleEnergies k.taskIndex).sum_le_sum fun a ha => by
    obtain ⟨k, hk, rfl⟩ := List.mem_map.mp ha
    exact (hwf k (List.mem_filter.mp hk).1).2.2.2
  simp only [List.map_append, List.map_cons, List.map_nil, List.sum_append, List.sum_cons,
    List.sum_nil, Int.add_zero] at hle
  simp only [area] at harea hlt ⊢
  omega

/-- Every conflict the sweep reports has less area than the energy of the tasks
whose boxes lie inside it. -/
theorem sweepBoxes_conflict (hinc : StartsIncreasing starts (starts.length - 1)) (threshold : Int) :
    ∀ (tasks swept : List TaskTime) (s : StripeState) (B : Rectangle),
      Stripes transpose rectangles rectangleEnergies starts swept s →
      (swept ++ tasks).Pairwise (fun a b => ¬ b.time < a.time) →
      (∀ k ∈ swept ++ tasks, WellFormed transpose rectangles rectangleEnergies k) →
      sweepBoxes transpose rectangles rectangleEnergies starts threshold swept tasks s =
        some (.conflict B) →
      B.area < (((swept ++ tasks).filter fun k => (rectangles k.taskIndex).IsInside B).map
        fun k => rectangleEnergies k.taskIndex).sum
  | [], _, _, _, _, _, _, h => by simp [sweepBoxes] at h
  | t :: rest, swept, s, B, hs, hsorted, hwf, h => by
    have htime : ∀ k ∈ swept, k.time ≤ t.time := fun k hk =>
      not_lt.mp ((List.pairwise_append.mp hsorted).2.2 k hk t (List.mem_cons_self _ _))
    have hfirst := le_advanceFirstJ (sweptBox transpose rectangles t).xMax threshold s.firstJ
      (starts.drop s.firstJ)
    unfold sweepBoxes at h
    dsimp only at h
    split at h
    · cases h
    · rename_i j₀ s₀ hloop
      cases h
      obtain ⟨hj, hn, hx, hc, he, hmin, hmax⟩ := stripeLoop_conflict _ _ _ _ _ rfl hloop
      exact hs.conflict (hfirst.trans hj) hn hx hc he hmin hmax hwf htime
    · rename_i s' hloop
      have := sweepBoxes_conflict hinc threshold rest (swept ++ [t]) s' B (hs.add hinc t hfirst hloop)
        (by simpa using hsorted) (by simpa using hwf) h
      simpa using this

end Sweep

/-- The starts of `AnalyzeIntervals()`, before the sentinel, increase. -/
theorem startsIncreasing_sentinel (values : List Int) (sentinel : Int) :
    StartsIncreasing (sortAndRemoveDuplicates values ++ [sentinel])
      ((sortAndRemoveDuplicates values ++ [sentinel]).length - 1) := by
  intro a b hab hb
  simp only [List.length_append, List.length_singleton, Nat.add_sub_cancel] at hb
  have ha : a < (sortAndRemoveDuplicates values).length := by omega
  simp only [List.getD_eq_getElem?_getD, List.getElem?_append_left ha, List.getElem?_append_left hb,
    List.getElem?_eq_getElem ha, List.getElem?_eq_getElem hb, Option.getD_some]
  exact List.pairwise_iff_getElem.mp (sortAndRemoveDuplicates_sorted values) a b ha hb hab

end OrTools.Sat

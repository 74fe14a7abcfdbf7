import OrTools.Sat.EnergyConflict
import OrTools.Sat.IntegerValue
import Mathlib.Data.Finset.Max
import Mathlib.Data.List.GetD

/-!
# Boxes in energy conflict

`BoxesAreInEnergyConflict()` decides whether some rectangle has less area than
the energy of the boxes inside it.  It sweeps the boxes by increasing `x_max`.
Every box joins the stripe of each `x` start up to its `x_min`, and each stripe
it joins is swept again along `y`, by increasing `y_max`, with one energy sum
per `y` start.  A sum that exceeds the stripe's width times the height up to
the current `y_max` is a conflict, and the code reports the bounding box of the
boxes that sum counted.

The rectangles the code tries are spanned by box coordinates only.  That loses
no conflict: a conflict rectangle can be shrunk to the least `x_min` and
`y_min` of the boxes inside it, and to the ends of the boxes inside it that
come last along each axis, keeping every box inside it.  So the answer is
exact, and the reported rectangle is itself a conflict.

The sums and products are `IntegerValue`s, which wrap around modulo `2^64`;
the model computes them over unbounded integers.  The answer is stated for the
boxes on which no `IntegerValue` operation of the code overflows
(`FitsInInt64`): the energies are not negative, so every `energy_sum[j]` lies
between 0 and the energy of all the boxes, and every width, height and product
the code forms is one of a rectangle spanned by box coordinates.

Both sorts are `std::sort` on `TaskTime`s, modelled by one function that the
statements assume to return, on every vector, a permutation sorted by time.
The code writes the conflict only when it is given a pointer for it; the model
always computes it, and answers `none` for `false`.
-/

set_option autoImplicit false

namespace OrTools.Sat

open Function Rectangle

/-! ## `BoxesAreInEnergyConflict()` -/

/-- The loop over `y_starts` for the box `box`, of energy `energy`, in a stripe
`x_size` wide, from the start `j` on: the box's energy is added at every start
up to its `y_min`, and the loop stops at the first sum that exceeds `x_size`
times the height from its start to the box's `y_max`, answering that start. -/
def energySumLoop (xSize : Int) (box : Rectangle) (energy : Int) :
    Nat → List Int → (Nat → Int) → Sum Int (Nat → Int)
  | _, [], energySum => .inr energySum
  | j, yStart :: yStarts, energySum =>
    if yStart > box.yMin then .inr energySum
    else
      let energySum := update energySum j (energySum j + energy)
      if energySum j > xSize * (box.yMax - yStart) then .inl yStart
      else energySumLoop xSize box energy (j + 1) yStarts energySum

/-- The conflict reported on the box `t` at the start `yStart`: its rectangle
grown to include those of the boxes before it in `y_max` order that start at
`yStart` or later. -/
def yConflict (rectangles : Nat → Rectangle) (yStart : Int) (before : List TaskTime) (t : Nat) :
    Rectangle :=
  before.foldl (fun conflict task =>
    if (rectangles task.taskIndex).yMin ≥ yStart then
      conflict.growToInclude (rectangles task.taskIndex)
    else conflict) (rectangles t)

/-- The loop over the boxes of a stripe by increasing `y_max`; `before` holds
the boxes already swept, in order. -/
def ySweep (rectangles : Nat → Rectangle) (energies : Nat → Int) (xSize : Int)
    (yStarts : List Int) : List TaskTime → List TaskTime → (Nat → Int) → Option Rectangle
  | _, [], _ => none
  | before, t :: rest, energySum =>
    match energySumLoop xSize (rectangles t.taskIndex) (energies t.taskIndex) 0 yStarts energySum with
    | .inl yStart => some (yConflict rectangles yStart before t.taskIndex)
    | .inr energySum => ySweep rectangles energies xSize yStarts (before ++ [t]) rest energySum

/-- The sweep along `y` of the stripe that holds the boxes `stripe` and is
`x_size` wide. -/
def stripeYConflict (sortTasks : List TaskTime → List TaskTime) (rectangles : Nat → Rectangle)
    (energies : Nat → Int) (xSize : Int) (stripe : List Nat) : Option Rectangle :=
  ySweep rectangles energies xSize (sortAndRemoveDuplicates (stripe.map fun b => (rectangles b).yMin))
    [] (sortTasks (stripe.map fun b => ⟨b, (rectangles b).yMax⟩)) fun _ => 0

/-- The loop over `x_starts` for the box `b`, from the start `j` on: `b` joins
the stripe of every start up to its `x_min`, and each stripe it joins is swept
along `y` at once. -/
def xStartsLoop (sortTasks : List TaskTime → List TaskTime) (rectangles : Nat → Rectangle)
    (energies : Nat → Int) (b : Nat) :
    Nat → List Int → (Nat → List Nat) → Sum Rectangle (Nat → List Nat)
  | _, [], stripes => .inr stripes
  | j, xStart :: xStarts, stripes =>
    if xStart > (rectangles b).xMin then .inr stripes
    else
      let stripes := update stripes j (stripes j ++ [b])
      match stripeYConflict sortTasks rectangles energies ((rectangles b).xMax - xStart) (stripes j) with
      | some conflict => .inl conflict
      | none => xStartsLoop sortTasks rectangles energies b (j + 1) xStarts stripes

/-- The loop over the boxes by increasing `x_max`. -/
def xSweep (sortTasks : List TaskTime → List TaskTime) (rectangles : Nat → Rectangle)
    (energies : Nat → Int) (xStarts : List Int) : List TaskTime → (Nat → List Nat) → Option Rectangle
  | [], _ => none
  | t :: rest, stripes =>
    match xStartsLoop sortTasks rectangles energies t.taskIndex 0 xStarts stripes with
    | .inl conflict => some conflict
    | .inr stripes => xSweep sortTasks rectangles energies xStarts rest stripes

/-- `BoxesAreInEnergyConflict(rectangles, energies, boxes, conflict)`, with
`std::sort` as a parameter: `some` of the conflict written when it returns
`true`, `none` when it returns `false`. -/
def boxesAreInEnergyConflict (sortTasks : List TaskTime → List TaskTime)
    (rectangles : Nat → Rectangle) (energies : Nat → Int) (boxes : List Nat) : Option Rectangle :=
  xSweep sortTasks rectangles energies (sortAndRemoveDuplicates (boxes.map fun b => (rectangles b).xMin))
    (sortTasks (boxes.map fun b => ⟨b, (rectangles b).xMax⟩)) fun _ => []

/-! ## The loops over the starts -/

theorem length_le_of_drop_eq_nil {starts : List Int} {j : Nat} (h : [] = starts.drop j) :
    starts.length ≤ j :=
  List.drop_eq_nil_iff.mp h.symm

theorem lt_length_of_drop_eq_cons {starts rest : List Int} {j : Nat} {start : Int}
    (h : start :: rest = starts.drop j) : j < starts.length := by
  by_contra hc
  rw [List.drop_eq_nil_iff.mpr (not_lt.mp hc)] at h
  cases h

/-- The starts from `j` on that a loop stopping at the first start above
`bound` never reaches. -/
theorem not_le_of_gt_start {starts : List Int} (hinc : StartsIncreasing starts starts.length)
    {j j' : Nat} {bound start : Int} (hget : starts.getD j 0 = start) (hgt : start > bound)
    (hj : j ≤ j') (hn : j' < starts.length) : ¬ starts.getD j' 0 ≤ bound := by
  rcases Nat.eq_or_lt_of_le hj with rfl | hlt
  · omega
  · have := hinc j j' hlt hn
    omega

section EnergySum

variable {xSize : Int} {box : Rectangle} {energy : Int} {yStarts : List Int}

/-- The loop over the `y` starts that finds no conflict adds the energy of the
box at every start from `j` up to its `y_min`, where the sum stays within the
area, and nowhere else. -/
theorem energySumLoop_inr (hinc : StartsIncreasing yStarts yStarts.length) :
    ∀ (L : List Int) (j : Nat) (e e' : Nat → Int), L = yStarts.drop j →
      energySumLoop xSize box energy j L e = .inr e' → ∀ j',
        (j ≤ j' ∧ j' < yStarts.length ∧ yStarts.getD j' 0 ≤ box.yMin →
          e' j' = e j' + energy ∧ e' j' ≤ xSize * (box.yMax - yStarts.getD j' 0)) ∧
        (¬ (j ≤ j' ∧ j' < yStarts.length ∧ yStarts.getD j' 0 ≤ box.yMin) → e' j' = e j')
  | [], j, e, e', hL, h => by
    cases h
    have := length_le_of_drop_eq_nil hL
    exact fun j' => ⟨fun hc => absurd hc.2.1 (by omega), fun _ => rfl⟩
  | yStart :: rest, j, e, e', hL, h => by
    obtain ⟨hget, hdrop⟩ := getD_of_drop_eq_cons hL.symm
    have hj := lt_length_of_drop_eq_cons hL
    dsimp only [energySumLoop] at h
    split_ifs at h with hgt hconf
    · cases h
      exact fun j' => ⟨fun hc => absurd hc.2.2 (not_le_of_gt_start hinc hget hgt hc.1 hc.2.1),
        fun _ => rfl⟩
    · have ih := energySumLoop_inr hinc rest (j + 1) _ e' hdrop.symm h
      intro j'
      have h' := ih j'
      by_cases hjj : j' = j
      · subst hjj
        simp only [update_same] at h' hconf
        rw [h'.2 (by omega)]
        exact ⟨fun _ => ⟨rfl, by rw [hget]; exact not_lt.mp hconf⟩,
          fun hn => absurd ⟨le_rfl, hj, hget ▸ not_lt.mp hgt⟩ hn⟩
      · simp only [update_noteq hjj] at h'
        exact ⟨fun hc => h'.1 ⟨by omega, hc.2⟩, fun hc => h'.2 fun hc' => hc ⟨by omega, hc'.2⟩⟩

/-- The loop over the `y` starts that finds a conflict finds it at a start from
`j` on, up to the box's `y_min`, where the sum with the box exceeds the area. -/
theorem energySumLoop_inl :
    ∀ (L : List Int) (j : Nat) (e : Nat → Int) (y : Int), L = yStarts.drop j →
      energySumLoop xSize box energy j L e = .inl y →
      ∃ j', j ≤ j' ∧ j' < yStarts.length ∧ yStarts.getD j' 0 = y ∧ y ≤ box.yMin ∧
        xSize * (box.yMax - y) < e j' + energy
  | [], _, _, _, _, h => by cases h
  | yStart :: rest, j, e, y, hL, h => by
    obtain ⟨hget, hdrop⟩ := getD_of_drop_eq_cons hL.symm
    have hj := lt_length_of_drop_eq_cons hL
    dsimp only [energySumLoop] at h
    split_ifs at h with hgt hconf
    · cases h
      simp only [update_same] at hconf
      exact ⟨j, le_rfl, hj, hget, not_lt.mp hgt, hconf⟩
    · obtain ⟨j', hjj, hn, hy, hyb, hlt⟩ := energySumLoop_inl rest (j + 1) _ y hdrop.symm h
      rw [update_noteq (by omega)] at hlt
      exact ⟨j', by omega, hn, hy, hyb, hlt⟩

end EnergySum

section XStarts

variable {sortTasks : List TaskTime → List TaskTime} {rectangles : Nat → Rectangle}
  {energies : Nat → Int} {b : Nat} {xStarts : List Int}

/-- The loop over the `x` starts that finds no conflict adds the box to the
stripe of every start from `j` up to its `x_min`, whose sweep along `y` then
finds none, and to no other stripe. -/
theorem xStartsLoop_inr (hinc : StartsIncreasing xStarts xStarts.length) :
    ∀ (L : List Int) (j : Nat) (stripes stripes' : Nat → List Nat), L = xStarts.drop j →
      xStartsLoop sortTasks rectangles energies b j L stripes = .inr stripes' → ∀ j',
        (j ≤ j' ∧ j' < xStarts.length ∧ xStarts.getD j' 0 ≤ (rectangles b).xMin →
          stripes' j' = stripes j' ++ [b] ∧ stripeYConflict sortTasks rectangles energies
            ((rectangles b).xMax - xStarts.getD j' 0) (stripes j' ++ [b]) = none) ∧
        (¬ (j ≤ j' ∧ j' < xStarts.length ∧ xStarts.getD j' 0 ≤ (rectangles b).xMin) →
          stripes' j' = stripes j')
  | [], j, stripes, stripes', hL, h => by
    cases h
    have := length_le_of_drop_eq_nil hL
    exact fun j' => ⟨fun hc => absurd hc.2.1 (by omega), fun _ => rfl⟩
  | xStart :: rest, j, stripes, stripes', hL, h => by
    obtain ⟨hget, hdrop⟩ := getD_of_drop_eq_cons hL.symm
    have hj := lt_length_of_drop_eq_cons hL
    dsimp only [xStartsLoop] at h
    split_ifs at h with hgt
    · cases h
      exact fun j' => ⟨fun hc => absurd hc.2.2 (not_le_of_gt_start hinc hget hgt hc.1 hc.2.1),
        fun _ => rfl⟩
    · split at h
      · cases h
      · rename_i hnone
        have ih := xStartsLoop_inr hinc rest (j + 1) _ stripes' hdrop.symm h
        intro j'
        have h' := ih j'
        by_cases hjj : j' = j
        · subst hjj
          simp only [update_same] at h' hnone
          rw [h'.2 (by omega)]
          exact ⟨fun _ => ⟨rfl, by rw [hget]; exact hnone⟩,
            fun hn => absurd ⟨le_rfl, hj, hget ▸ not_lt.mp hgt⟩ hn⟩
        · simp only [update_noteq hjj] at h'
          exact ⟨fun hc => h'.1 ⟨by omega, hc.2⟩, fun hc => h'.2 fun hc' => hc ⟨by omega, hc'.2⟩⟩

/-- The loop over the `x` starts that finds a conflict finds it in the stripe
of a start from `j` on, up to the box's `x_min`, once the box has joined it. -/
theorem xStartsLoop_inl :
    ∀ (L : List Int) (j : Nat) (stripes : Nat → List Nat) (conflict : Rectangle),
      L = xStarts.drop j → xStartsLoop sortTasks rectangles energies b j L stripes = .inl conflict →
      ∃ j', j ≤ j' ∧ j' < xStarts.length ∧ xStarts.getD j' 0 ≤ (rectangles b).xMin ∧
        stripeYConflict sortTasks rectangles energies ((rectangles b).xMax - xStarts.getD j' 0)
          (stripes j' ++ [b]) = some conflict
  | [], _, _, _, _, h => by cases h
  | xStart :: rest, j, stripes, conflict, hL, h => by
    obtain ⟨hget, hdrop⟩ := getD_of_drop_eq_cons hL.symm
    have hj := lt_length_of_drop_eq_cons hL
    dsimp only [xStartsLoop] at h
    split_ifs at h with hgt
    split at h
    · rename_i hsome
      cases h
      simp only [update_same] at hsome
      exact ⟨j, le_rfl, hj, hget ▸ not_lt.mp hgt, hget ▸ hsome⟩
    · obtain ⟨j', hjj, hn, hx, hc⟩ := xStartsLoop_inl rest (j + 1) _ conflict hdrop.symm h
      rw [update_noteq (by omega)] at hc
      exact ⟨j', by omega, hn, hx, hc⟩

end XStarts

/-! ## The sweeps over the boxes -/

section Sweeps

variable {sortTasks : List TaskTime → List TaskTime} {rectangles : Nat → Rectangle}
  {energies : Nat → Int}

/-- The energy of the boxes of `tasks`. -/
def energyOf (energies : Nat → Int) (tasks : List TaskTime) : Int :=
  (tasks.map fun k => energies k.taskIndex).sum

/-- The boxes of `tasks` that start at the `y` start `j` or later. -/
def fromYStart (rectangles : Nat → Rectangle) (yStarts : List Int) (j : Nat)
    (tasks : List TaskTime) : List TaskTime :=
  tasks.filter fun k => yStarts.getD j 0 ≤ (rectangles k.taskIndex).yMin

/-- The energy sums hold, at every `y` start, the energy of the boxes swept
that start there or later. -/
def EnergySums (rectangles : Nat → Rectangle) (energies : Nat → Int) (yStarts : List Int)
    (swept : List TaskTime) (e : Nat → Int) : Prop :=
  ∀ j < yStarts.length, e j = energyOf energies (fromYStart rectangles yStarts j swept)

/-- The stripes hold, at every `x` start, the boxes swept that start there or
later. -/
def XStripes (rectangles : Nat → Rectangle) (xStarts : List Int) (swept : List TaskTime)
    (stripes : Nat → List Nat) : Prop :=
  ∀ j < xStarts.length, stripes j =
    (swept.filter fun k => xStarts.getD j 0 ≤ (rectangles k.taskIndex).xMin).map (·.taskIndex)

theorem energyOf_append (l l' : List TaskTime) :
    energyOf energies (l ++ l') = energyOf energies l + energyOf energies l' := by
  simp [energyOf]

theorem fromYStart_snoc {yStarts : List Int} {j : Nat} (swept : List TaskTime) (t : TaskTime) :
    fromYStart rectangles yStarts j (swept ++ [t]) = fromYStart rectangles yStarts j swept ++
      if yStarts.getD j 0 ≤ (rectangles t.taskIndex).yMin then [t] else [] := by
  simp only [fromYStart, List.filter_append, List.filter_cons, List.filter_nil, decide_eq_true_eq]

variable {xSize : Int} {yStarts : List Int}

theorem EnergySums.step (hinc : StartsIncreasing yStarts yStarts.length) {swept : List TaskTime}
    {e e' : Nat → Int} (hs : EnergySums rectangles energies yStarts swept e) (t : TaskTime)
    (h : energySumLoop xSize (rectangles t.taskIndex) (energies t.taskIndex) 0 yStarts e = .inr e') :
    EnergySums rectangles energies yStarts (swept ++ [t]) e' := by
  intro j hj
  have hupd := energySumLoop_inr hinc _ 0 e e' rfl h j
  rw [fromYStart_snoc, energyOf_append, ← hs j hj]
  split_ifs with hy
  · simp [energyOf, (hupd.1 ⟨Nat.zero_le _, hj, hy⟩).1]
  · simp [energyOf, hupd.2 fun hc => hy hc.2.2]

/-- A sweep along `y` that finds no conflict: at every box and every `y` start
up to its `y_min`, the boxes swept so far from that start on have no more
energy than the stripe's width times the height up to the box's `y_max`. -/
theorem ySweep_none (hinc : StartsIncreasing yStarts yStarts.length) :
    ∀ (rest swept : List TaskTime) (e : Nat → Int), EnergySums rectangles energies yStarts swept e →
      ySweep rectangles energies xSize yStarts swept rest e = none →
      ∀ Q t rest', rest = Q ++ t :: rest' → ∀ j < yStarts.length,
        yStarts.getD j 0 ≤ (rectangles t.taskIndex).yMin →
        energyOf energies (fromYStart rectangles yStarts j (swept ++ Q ++ [t])) ≤
          xSize * ((rectangles t.taskIndex).yMax - yStarts.getD j 0)
  | [], _, _, _, _, Q, _, _, hsplit, _, _, _ => by simp at hsplit
  | t₀ :: rest, swept, e, hs, h, Q, t, rest', hsplit, j, hj, hy => by
    dsimp only [ySweep] at h
    split at h
    · cases h
    · rename_i e' hloop
      obtain _ | ⟨q, Q⟩ := Q
      · obtain ⟨rfl, rfl⟩ := List.cons_eq_cons.mp hsplit
        have hupd := (energySumLoop_inr hinc _ 0 e e' rfl hloop j).1 ⟨Nat.zero_le _, hj, hy⟩
        rw [List.append_nil, ← (hs.step hinc t₀ hloop) j hj]
        exact hupd.2
      · obtain ⟨rfl, hrest⟩ := List.cons_eq_cons.mp hsplit
        have := ySweep_none hinc rest (swept ++ [t₀]) e' (hs.step hinc t₀ hloop) h Q t rest' hrest j hj hy
        simpa using this

/-- A sweep along `y` that reports a conflict reports it on some box, at a `y`
start up to its `y_min` where the boxes swept so far from that start on have
more energy than the width times the height up to the box's `y_max`. -/
theorem ySweep_some (hinc : StartsIncreasing yStarts yStarts.length) :
    ∀ (rest swept : List TaskTime) (e : Nat → Int) (conflict : Rectangle),
      EnergySums rectangles energies yStarts swept e →
      ySweep rectangles energies xSize yStarts swept rest e = some conflict →
      ∃ Q t rest' j, rest = Q ++ t :: rest' ∧ j < yStarts.length ∧
        yStarts.getD j 0 ≤ (rectangles t.taskIndex).yMin ∧
        xSize * ((rectangles t.taskIndex).yMax - yStarts.getD j 0) <
          energyOf energies (fromYStart rectangles yStarts j (swept ++ Q ++ [t])) ∧
        conflict = yConflict rectangles (yStarts.getD j 0) (swept ++ Q) t.taskIndex
  | [], _, _, _, _, h => by cases h
  | t :: rest, swept, e, conflict, hs, h => by
    dsimp only [ySweep] at h
    split at h
    · rename_i y hloop
      cases h
      obtain ⟨j, -, hj, rfl, hy, hlt⟩ := energySumLoop_inl _ 0 e _ rfl hloop
      refine ⟨[], t, rest, j, rfl, hj, hy, ?_, by rw [List.append_nil]⟩
      rw [List.append_nil, fromYStart_snoc, if_pos hy, energyOf_append, ← hs j hj]
      simpa [energyOf] using hlt
    · rename_i e' hloop
      obtain ⟨Q, t', rest', j, rfl, hj, hy, hlt, rfl⟩ :=
        ySweep_some hinc rest (swept ++ [t]) e' conflict (hs.step hinc t hloop) h
      exact ⟨t :: Q, t', rest', j, rfl, hj, hy, by simpa using hlt, by simp⟩

variable {xStarts : List Int}

theorem XStripes.snoc {swept : List TaskTime} {stripes : Nat → List Nat}
    (hs : XStripes rectangles xStarts swept stripes) {j : Nat} (hj : j < xStarts.length)
    (t : TaskTime) :
    ((swept ++ [t]).filter fun k => xStarts.getD j 0 ≤ (rectangles k.taskIndex).xMin).map
        (·.taskIndex) =
      stripes j ++ if xStarts.getD j 0 ≤ (rectangles t.taskIndex).xMin then [t.taskIndex] else [] := by
  simp only [List.filter_append, List.filter_cons, List.filter_nil, List.map_append, hs j hj,
    decide_eq_true_eq]
  split_ifs <;> rfl

theorem XStripes.step (hinc : StartsIncreasing xStarts xStarts.length) {swept : List TaskTime}
    {stripes stripes' : Nat → List Nat} (hs : XStripes rectangles xStarts swept stripes)
    (t : TaskTime)
    (h : xStartsLoop sortTasks rectangles energies t.taskIndex 0 xStarts stripes = .inr stripes') :
    XStripes rectangles xStarts (swept ++ [t]) stripes' := by
  intro j hj
  have hupd := xStartsLoop_inr hinc _ 0 stripes stripes' rfl h j
  rw [hs.snoc hj t]
  split_ifs with hx
  · exact (hupd.1 ⟨Nat.zero_le _, hj, hx⟩).1
  · rw [hupd.2 fun hc => hx hc.2.2, List.append_nil]

/-- A sweep along `x` that finds no conflict: at every box and every `x` start
up to its `x_min`, the sweep along `y` of the stripe of the boxes swept so far
from that start on finds none. -/
theorem xSweep_none (hinc : StartsIncreasing xStarts xStarts.length) :
    ∀ (rest swept : List TaskTime) (stripes : Nat → List Nat),
      XStripes rectangles xStarts swept stripes →
      xSweep sortTasks rectangles energies xStarts rest stripes = none →
      ∀ Q t rest', rest = Q ++ t :: rest' → ∀ j < xStarts.length,
        xStarts.getD j 0 ≤ (rectangles t.taskIndex).xMin →
        stripeYConflict sortTasks rectangles energies
          ((rectangles t.taskIndex).xMax - xStarts.getD j 0)
          (((swept ++ Q ++ [t]).filter fun k => xStarts.getD j 0 ≤ (rectangles k.taskIndex).xMin).map
            (·.taskIndex)) = none
  | [], _, _, _, _, Q, _, _, hsplit, _, _, _ => by simp at hsplit
  | t₀ :: rest, swept, stripes, hs, h, Q, t, rest', hsplit, j, hj, hx => by
    dsimp only [xSweep] at h
    split at h
    · cases h
    · rename_i stripes' hloop
      obtain _ | ⟨q, Q⟩ := Q
      · obtain ⟨rfl, rfl⟩ := List.cons_eq_cons.mp hsplit
        have hupd := (xStartsLoop_inr hinc _ 0 stripes stripes' rfl hloop j).1 ⟨Nat.zero_le _, hj, hx⟩
        rw [List.append_nil, hs.snoc hj t₀, if_pos hx]
        exact hupd.2
      · obtain ⟨rfl, hrest⟩ := List.cons_eq_cons.mp hsplit
        have := xSweep_none hinc rest (swept ++ [t₀]) stripes' (hs.step hinc t₀ hloop) h Q t rest'
          hrest j hj hx
        simpa using this

/-- A sweep along `x` that reports a conflict reports the one the sweep along
`y` finds in the stripe of some box and some `x` start up to its `x_min`. -/
theorem xSweep_some (hinc : StartsIncreasing xStarts xStarts.length) :
    ∀ (rest swept : List TaskTime) (stripes : Nat → List Nat) (conflict : Rectangle),
      XStripes rectangles xStarts swept stripes →
      xSweep sortTasks rectangles energies xStarts rest stripes = some conflict →
      ∃ Q t rest' j, rest = Q ++ t :: rest' ∧ j < xStarts.length ∧
        xStarts.getD j 0 ≤ (rectangles t.taskIndex).xMin ∧
        stripeYConflict sortTasks rectangles energies
          ((rectangles t.taskIndex).xMax - xStarts.getD j 0)
          (((swept ++ Q ++ [t]).filter fun k => xStarts.getD j 0 ≤ (rectangles k.taskIndex).xMin).map
            (·.taskIndex)) = some conflict
  | [], _, _, _, _, h => by cases h
  | t :: rest, swept, stripes, conflict, hs, h => by
    dsimp only [xSweep] at h
    split at h
    · rename_i c hloop
      cases h
      obtain ⟨j, -, hj, hx, hc⟩ := xStartsLoop_inl _ 0 stripes _ rfl hloop
      refine ⟨[], t, rest, j, rfl, hj, hx, ?_⟩
      rw [List.append_nil, hs.snoc hj t, if_pos hx]
      exact hc
    · rename_i stripes' hloop
      obtain ⟨Q, t', rest', j, rfl, hj, hx, hc⟩ :=
        xSweep_some hinc rest (swept ++ [t]) stripes' conflict (hs.step hinc t hloop) h
      exact ⟨t :: Q, t', rest', j, rfl, hj, hx, by simpa using hc⟩

end Sweeps

/-! ## Facts the answer rests on -/

theorem startsIncreasing_sortAndRemoveDuplicates (values : List Int) :
    StartsIncreasing (sortAndRemoveDuplicates values) (sortAndRemoveDuplicates values).length := by
  intro a b hab hb
  rw [List.getD_eq_getElem _ _ hb, List.getD_eq_getElem _ _ (by omega)]
  exact List.pairwise_iff_getElem.mp (sortAndRemoveDuplicates_sorted values) a b _ hb hab

theorem exists_getD_eq_of_mem {values : List Int} {v : Int} (hv : v ∈ values) :
    ∃ j < (sortAndRemoveDuplicates values).length, (sortAndRemoveDuplicates values).getD j 0 = v := by
  obtain ⟨j, hj, hget⟩ := List.mem_iff_getElem.mp (mem_sortAndRemoveDuplicates.mpr hv)
  exact ⟨j, hj, by rw [List.getD_eq_getElem _ _ hj, hget]⟩

/-- Sums of energies not negative grow along a sub-permutation. -/
theorem sum_le_of_subperm {l₁ l₂ : List Nat} (h : l₁.Subperm l₂) {f : Nat → Int}
    (hf : ∀ a ∈ l₂, 0 ≤ f a) : (l₁.map f).sum ≤ (l₂.map f).sum := by
  obtain ⟨l, hl, hsub⟩ := h
  rw [← (hl.map f).sum_eq]
  exact (hsub.map f).sum_le_sum fun a ha => by
    obtain ⟨b, hb, rfl⟩ := List.mem_map.mp ha
    exact hf b hb

/-- The list of `p` ends with its last element satisfying `p`. -/
theorem exists_last_split {α : Type} (p : α → Prop) [DecidablePred p] :
    ∀ l : List α, (∃ a ∈ l, p a) → ∃ Q t rest, l = Q ++ t :: rest ∧ p t ∧ ∀ a ∈ rest, ¬ p a
  | [], ⟨_, ha, _⟩ => absurd ha (List.not_mem_nil _)
  | a :: l, h => by
    by_cases hl : ∃ b ∈ l, p b
    · obtain ⟨Q, t, rest, rfl, ht, hrest⟩ := exists_last_split p l hl
      exact ⟨a :: Q, t, rest, rfl, ht, hrest⟩
    · obtain ⟨b, hb, hpb⟩ := h
      rcases List.mem_cons.mp hb with rfl | hb
      · exact ⟨[], b, l, rfl, hpb, fun c hc hpc => hl ⟨c, hc, hpc⟩⟩
      · exact absurd ⟨b, hb, hpb⟩ hl

theorem yConflict_spec (rectangles : Nat → Rectangle) (yStart : Int) (before : List TaskTime)
    (t : Nat) :
    (rectangles t).IsInside (yConflict rectangles yStart before t) ∧
      (∀ k ∈ before, yStart ≤ (rectangles k.taskIndex).yMin →
        (rectangles k.taskIndex).IsInside (yConflict rectangles yStart before t)) ∧
      ∀ c, (rectangles t).IsInside c → (∀ k ∈ before, yStart ≤ (rectangles k.taskIndex).yMin →
        (rectangles k.taskIndex).IsInside c) → (yConflict rectangles yStart before t).IsInside c := by
  have hfold : yConflict rectangles yStart before t = before.foldl (fun c task =>
      if ¬ yStart ≤ (rectangles task.taskIndex).yMin then c
      else c.growToInclude (rectangles task.taskIndex)) (rectangles t) := by
    simp only [yConflict, ge_iff_le, ite_not]
  obtain ⟨h₁, h₂, h₃⟩ := foldl_growToInclude rectangles
    (fun k => ¬ yStart ≤ (rectangles k.taskIndex).yMin) before (rectangles t)
  rw [hfold]
  exact ⟨h₁, fun k hk hy => h₂ k hk (not_not.mpr hy),
    fun c hc hall => h₃ c hc fun k hk hy => hall k hk (not_not.mp hy)⟩

section Sorted

variable {sortTasks : List TaskTime → List TaskTime}
  (hsort : ∀ tasks, SortedByTime tasks (sortTasks tasks))
include hsort

theorem map_taskIndex_perm (L : List Nat) (f : Nat → Int) :
    ((sortTasks (L.map fun b => ⟨b, f b⟩)).map (·.taskIndex)).Perm L := by
  simpa [Function.comp_def] using (hsort (L.map fun b => ⟨b, f b⟩)).1.map (·.taskIndex)

theorem mem_sortTasks {L : List Nat} {f : Nat → Int} {k : TaskTime}
    (hk : k ∈ sortTasks (L.map fun b => ⟨b, f b⟩)) : k.taskIndex ∈ L ∧ k.time = f k.taskIndex := by
  obtain ⟨b, hb, rfl⟩ := List.mem_map.mp ((hsort _).1.subset hk)
  exact ⟨hb, rfl⟩

/-- The tasks up to `t` of the sorted vector have times up to that of `t`. -/
theorem time_le_of_split {L : List Nat} {f : Nat → Int} {Q rest : List TaskTime} {t : TaskTime}
    (h : sortTasks (L.map fun b => ⟨b, f b⟩) = Q ++ t :: rest) :
    ∀ k ∈ Q ++ [t], f k.taskIndex ≤ f t.taskIndex := by
  have hp := (hsort (L.map fun b => ⟨b, f b⟩)).2
  have hmem : ∀ k ∈ Q ++ [t], k ∈ sortTasks (L.map fun b => ⟨b, f b⟩) := fun k hk => by
    rw [h]; rcases List.mem_append.mp hk with hk | hk <;> simp_all
  intro k hk
  rw [← (mem_sortTasks hsort (hmem k hk)).2, ← (mem_sortTasks hsort (hmem t (by simp))).2]
  rw [h] at hp
  rcases List.mem_append.mp hk with hk | hk
  · exact not_lt.mp ((List.pairwise_append.mp hp).2.2 k hk t (List.mem_cons_self _ _))
  · rw [List.mem_singleton.mp hk]

/-- Cutting the sorted vector after its last task with `p` keeps every box of
`L` with `p`. -/
theorem filter_perm_of_split {L : List Nat} {f : Nat → Int} {Q rest : List TaskTime} {t : TaskTime}
    (h : sortTasks (L.map fun b => ⟨b, f b⟩) = Q ++ t :: rest) (p : Nat → Bool)
    (hrest : ∀ k ∈ rest, p k.taskIndex = false) :
    (L.filter p).Perm (((Q ++ [t]).filter fun k => p k.taskIndex).map (·.taskIndex)) := by
  have hperm := ((map_taskIndex_perm hsort L f).filter p).symm
  rw [h, List.filter_map] at hperm
  have hnil : rest.filter (fun k => p k.taskIndex) = [] :=
    List.filter_eq_nil_iff.mpr fun k hk => by simp [hrest k hk]
  simpa [List.filter_append, List.filter_cons, Function.comp_def, hnil] using hperm

end Sorted

/-- A filter implied by `p` on the list does not change what `p` keeps. -/
theorem filter_map_filter {l : List TaskTime} {p : Nat → Bool} {q : TaskTime → Bool}
    (h : ∀ k ∈ l, p k.taskIndex → q k) :
    ((l.filter q).map (·.taskIndex)).filter p = (l.filter fun k => p k.taskIndex).map (·.taskIndex) := by
  rw [List.filter_map, List.filter_filter]
  congr 1
  exact List.filter_congr fun k hk => by
    by_cases hp : p k.taskIndex <;> simp [hp, h k hk]

/-! ## The answer -/

/-- No `IntegerValue` operation of `BoxesAreInEnergyConflict()` overflows:
the energy of all the boxes fits in an `int64`, and so do the width, the height
and the area of every rectangle spanned by the coordinates of the boxes. -/
def FitsInInt64 (rectangles : Nat → Rectangle) (energies : Nat → Int) (boxes : List Nat) : Prop :=
  InInt64 (boxes.map energies).sum ∧
    ∀ a ∈ boxes, ∀ b ∈ boxes, ∀ c ∈ boxes, ∀ d ∈ boxes,
      InInt64 ((rectangles a).xMax - (rectangles b).xMin) ∧
        InInt64 ((rectangles c).yMax - (rectangles d).yMin) ∧
        InInt64 (((rectangles a).xMax - (rectangles b).xMin) * ((rectangles c).yMax - (rectangles d).yMin))

instance (rectangles : Nat → Rectangle) (energies : Nat → Int) (boxes : List Nat) :
    Decidable (FitsInInt64 rectangles energies boxes) :=
  inferInstanceAs (Decidable (_ ∧ _))

section Answer

variable {sortTasks : List TaskTime → List TaskTime}
  (hsort : ∀ tasks, SortedByTime tasks (sortTasks tasks)) {rectangles : Nat → Rectangle}
  {energies : Nat → Int} {boxes : List Nat}
  (hrect : ∀ b ∈ boxes,
    (rectangles b).xMin < (rectangles b).xMax ∧ (rectangles b).yMin < (rectangles b).yMax)
  (henergy : ∀ b ∈ boxes, 0 ≤ energies b)
include hsort hrect henergy

/-- The conflict written is a rectangle, with less area than the energy of the
boxes inside it: the bounding box of the boxes the sum counted lies inside the
stripe's width and the height of the test, and holds all their energy. -/
theorem boxesAreInEnergyConflict_some {conflict : Rectangle}
    (h : boxesAreInEnergyConflict sortTasks rectangles energies boxes = some conflict) :
    conflict.xMin ≤ conflict.xMax ∧ conflict.yMin ≤ conflict.yMax ∧
      conflict.area < energyInside rectangles energies boxes conflict := by
  unfold boxesAreInEnergyConflict at h
  obtain ⟨Q, t, rest, j, hX, -, hx, hy⟩ := xSweep_some (startsIncreasing_sortAndRemoveDuplicates _)
    _ [] _ conflict (fun _ _ => rfl) h
  rw [List.nil_append] at hy
  set xStarts := sortAndRemoveDuplicates (boxes.map fun b => (rectangles b).xMin)
  set S := ((Q ++ [t]).filter fun k => xStarts.getD j 0 ≤ (rectangles k.taskIndex).xMin).map
    (·.taskIndex) with hSdef
  unfold stripeYConflict at hy
  obtain ⟨Q', t', rest', j', hY, -, hy', hlt, rfl⟩ :=
    ySweep_some (startsIncreasing_sortAndRemoveDuplicates _) _ [] _ _ (fun _ _ => rfl) hy
  rw [List.nil_append] at hlt
  set yStarts := sortAndRemoveDuplicates (S.map fun b => (rectangles b).yMin)
  -- where the boxes of the stripe and of the test lie
  have hxt := time_le_of_split hsort hX
  have hyt := time_le_of_split hsort hY
  have hXsub : (Q ++ [t]).Sublist (sortTasks (boxes.map fun b => ⟨b, (rectangles b).xMax⟩)) := by
    rw [hX]; exact ((List.nil_sublist rest).cons₂ t).append_left Q
  have hYsub : (Q' ++ [t']).Sublist (sortTasks (S.map fun b => ⟨b, (rectangles b).yMax⟩)) := by
    rw [hY]; exact ((List.nil_sublist rest').cons₂ t').append_left Q'
  have hS : ∀ b ∈ S, b ∈ boxes ∧ xStarts.getD j 0 ≤ (rectangles b).xMin ∧
      (rectangles b).xMax ≤ (rectangles t.taskIndex).xMax := fun b hb => by
    obtain ⟨k, hk, rfl⟩ := List.mem_map.mp hb
    obtain ⟨hk, hkx⟩ := List.mem_filter.mp hk
    exact ⟨(mem_sortTasks hsort (hXsub.subset hk)).1, by simpa using hkx, hxt k hk⟩
  have ht' : t'.taskIndex ∈ S := (mem_sortTasks hsort (hYsub.subset (by simp))).1
  let T : Rectangle := ⟨xStarts.getD j 0, (rectangles t.taskIndex).xMax, yStarts.getD j' 0,
    (rectangles t'.taskIndex).yMax⟩
  have hinT : ∀ k ∈ Q' ++ [t'], yStarts.getD j' 0 ≤ (rectangles k.taskIndex).yMin →
      (rectangles k.taskIndex).IsInside T := fun k hk hky => by
    obtain ⟨-, hkx, hkX⟩ := hS _ (mem_sortTasks hsort (hYsub.subset hk)).1
    exact ⟨hkx, hkX, hky, hyt k hk⟩
  obtain ⟨hB₁, hB₂, hB₃⟩ := yConflict_spec rectangles (yStarts.getD j' 0) Q' t'.taskIndex
  have hBT := hB₃ T (hinT t' (by simp) hy') fun k hk hky => hinT k (by simp [hk]) hky
  obtain ⟨hxt', hyt'⟩ := hrect _ (hS _ ht').1
  have hsides : (yConflict rectangles (yStarts.getD j' 0) Q' t'.taskIndex).xMin ≤
      (yConflict rectangles (yStarts.getD j' 0) Q' t'.taskIndex).xMax ∧
      (yConflict rectangles (yStarts.getD j' 0) Q' t'.taskIndex).yMin ≤
      (yConflict rectangles (yStarts.getD j' 0) Q' t'.taskIndex).yMax := by
    obtain ⟨h₁, h₂, h₃, h₄⟩ := hB₁
    omega
  have harea : (yConflict rectangles (yStarts.getD j' 0) Q' t'.taskIndex).area ≤
      ((rectangles t.taskIndex).xMax - xStarts.getD j 0) *
        ((rectangles t'.taskIndex).yMax - yStarts.getD j' 0) :=
    area_le_of_isInside hBT hsides.1 hsides.2
  -- the energy the test counted lies inside the conflict
  have hcount : ∀ k ∈ fromYStart rectangles yStarts j' (Q' ++ [t']), (rectangles k.taskIndex).IsInside
      (yConflict rectangles (yStarts.getD j' 0) Q' t'.taskIndex) := fun k hk => by
    obtain ⟨hk, hky⟩ := List.mem_filter.mp hk
    rcases List.mem_append.mp hk with hk | hk
    · exact hB₂ k hk (by simpa using hky)
    · rw [List.mem_singleton.mp hk]; exact hB₁
  have hsubperm : ((fromYStart rectangles yStarts j' (Q' ++ [t'])).map (·.taskIndex)).Subperm
      (boxes.filter fun b => (rectangles b).IsInside
        (yConflict rectangles (yStarts.getD j' 0) Q' t'.taskIndex)) := by
    have hSsub : S.Sublist ((sortTasks (boxes.map fun b => ⟨b, (rectangles b).xMax⟩)).map
        (·.taskIndex)) := ((Q ++ [t]).filter_sublist.map _).trans (hXsub.map _)
    have hcsub : (fromYStart rectangles yStarts j' (Q' ++ [t'])).Sublist (Q' ++ [t']) :=
      List.filter_sublist _
    have h₁ := (((hcsub.trans hYsub).map (·.taskIndex)).subperm.trans
      (map_taskIndex_perm hsort S _).subperm).trans
      ((hSsub.subperm).trans (map_taskIndex_perm hsort boxes _).subperm)
    have h₂ := h₁.filter fun b => (rectangles b).IsInside
      (yConflict rectangles (yStarts.getD j' 0) Q' t'.taskIndex)
    rwa [List.filter_eq_self.mpr fun b hb => by
      obtain ⟨k, hk, rfl⟩ := List.mem_map.mp hb
      simpa using hcount k hk] at h₂
  have henergy' : energyOf energies (fromYStart rectangles yStarts j' (Q' ++ [t'])) ≤
      energyInside rectangles energies boxes (yConflict rectangles (yStarts.getD j' 0) Q' t'.taskIndex) := by
    have := sum_le_of_subperm hsubperm fun b hb => henergy b (List.mem_filter.mp hb).1
    rwa [List.map_map] at this
  exact ⟨hsides.1, hsides.2, harea.trans_lt (hlt.trans_le henergy')⟩

/-- A conflict rectangle is found: the sweep meets, at the least `x_min` inside
it and at the last box inside it by `x_max`, a stripe that holds every box
inside it, and in that stripe, at the least `y_min` inside it and at the last
box inside it by `y_max`, a test that counts all their energy against no more
than the rectangle's area. -/
theorem boxesAreInEnergyConflict_of_lt {r : Rectangle} (hx : r.xMin ≤ r.xMax) (hy : r.yMin ≤ r.yMax)
    (hlt : r.area < energyInside rectangles energies boxes r) :
    (boxesAreInEnergyConflict sortTasks rectangles energies boxes).isSome = true := by
  classical
  by_contra hnone
  have h : boxesAreInEnergyConflict sortTasks rectangles energies boxes = none := by
    simpa using hnone
  unfold boxesAreInEnergyConflict at h
  have hne : (boxes.filter fun b => (rectangles b).IsInside r).toFinset.Nonempty := by
    by_contra hc
    rw [Finset.not_nonempty_iff_eq_empty, List.toFinset_eq_empty_iff] at hc
    have : 0 ≤ r.area := Int.mul_nonneg (by omega) (by omega)
    simp only [energyInside, hc, List.map_nil, List.sum_nil] at hlt
    omega
  obtain ⟨b₀, hb₀, hmin₀⟩ := Finset.exists_min_image _ (fun b => (rectangles b).xMin) hne
  obtain ⟨b₁, hb₁, hmin₁⟩ := Finset.exists_min_image _ (fun b => (rectangles b).yMin) hne
  simp only [List.mem_toFinset, List.mem_filter, decide_eq_true_eq] at hb₀ hb₁ hmin₀ hmin₁
  -- the stripe of the least `x_min`, at the last box by `x_max`
  obtain ⟨j, hj, hxj⟩ := exists_getD_eq_of_mem (v := (rectangles b₀).xMin)
    (List.mem_map_of_mem (fun b => (rectangles b).xMin) hb₀.1)
  obtain ⟨Q, t, rest, hX, ht, hrest⟩ := exists_last_split
    (fun k : TaskTime => (rectangles k.taskIndex).IsInside r)
    (sortTasks (boxes.map fun b => ⟨b, (rectangles b).xMax⟩))
    ⟨⟨b₀, _⟩, (hsort _).1.symm.subset (List.mem_map_of_mem _ hb₀.1), hb₀.2⟩
  have hXsub : (Q ++ [t]).Sublist (sortTasks (boxes.map fun b => ⟨b, (rectangles b).xMax⟩)) := by
    rw [hX]; exact ((List.nil_sublist rest).cons₂ t).append_left Q
  have hXmem : ∀ k ∈ Q ++ [t], k.taskIndex ∈ boxes := fun k hk =>
    (mem_sortTasks hsort (hXsub.subset hk)).1
  have hxt : (sortAndRemoveDuplicates (boxes.map fun b => (rectangles b).xMin)).getD j 0 ≤
      (rectangles t.taskIndex).xMin := by
    rw [hxj]; exact hmin₀ _ ⟨hXmem t (by simp), ht⟩
  have hS := xSweep_none (startsIncreasing_sortAndRemoveDuplicates _) _ [] _ (fun _ _ => rfl) h
    Q t rest hX j hj hxt
  rw [List.nil_append] at hS
  set xStarts := sortAndRemoveDuplicates (boxes.map fun b => (rectangles b).xMin)
  set S := ((Q ++ [t]).filter fun k => xStarts.getD j 0 ≤ (rectangles k.taskIndex).xMin).map
    (·.taskIndex) with hSdef
  -- every box inside `r` is in the stripe
  have hperm₁ := filter_perm_of_split hsort hX (fun b => (rectangles b).IsInside r)
    fun k hk => by simpa using hrest k hk
  have hS₁ : S.filter (fun b => (rectangles b).IsInside r) =
      ((Q ++ [t]).filter fun k => (rectangles k.taskIndex).IsInside r).map (·.taskIndex) :=
    filter_map_filter fun k hk hin => decide_eq_true (by
      rw [hxj]; exact hmin₀ _ ⟨hXmem k hk, of_decide_eq_true hin⟩)
  rw [← hS₁] at hperm₁
  have hSmem : ∀ b ∈ S, b ∈ boxes := fun b hb => by
    obtain ⟨k, hk, rfl⟩ := List.mem_map.mp hb
    exact hXmem k (List.mem_filter.mp hk).1
  have hb₁S : b₁ ∈ S := List.mem_of_mem_filter (hperm₁.subset (List.mem_filter.mpr ⟨hb₁.1, by simpa using hb₁.2⟩))
  -- the test at the least `y_min`, at the last box by `y_max`
  unfold stripeYConflict at hS
  obtain ⟨j', hj', hyj'⟩ := exists_getD_eq_of_mem (v := (rectangles b₁).yMin)
    (List.mem_map_of_mem (fun b => (rectangles b).yMin) hb₁S)
  obtain ⟨Q', t', rest', hY, ht', hrest'⟩ := exists_last_split
    (fun k : TaskTime => (rectangles k.taskIndex).IsInside r)
    (sortTasks (S.map fun b => ⟨b, (rectangles b).yMax⟩))
    ⟨⟨b₁, _⟩, (hsort _).1.symm.subset (List.mem_map_of_mem _ hb₁S), hb₁.2⟩
  have hYsub : (Q' ++ [t']).Sublist (sortTasks (S.map fun b => ⟨b, (rectangles b).yMax⟩)) := by
    rw [hY]; exact ((List.nil_sublist rest').cons₂ t').append_left Q'
  have hYmem : ∀ k ∈ Q' ++ [t'], k.taskIndex ∈ boxes := fun k hk =>
    hSmem _ (mem_sortTasks hsort (hYsub.subset hk)).1
  have hyt : (sortAndRemoveDuplicates (S.map fun b => (rectangles b).yMin)).getD j' 0 ≤
      (rectangles t'.taskIndex).yMin := by
    rw [hyj']; exact hmin₁ _ ⟨hYmem t' (by simp), ht'⟩
  have hle := ySweep_none (startsIncreasing_sortAndRemoveDuplicates _) _ [] _ (fun _ _ => rfl) hS
    Q' t' rest' hY j' hj' hyt
  rw [List.nil_append] at hle
  -- the energy inside `r` is counted by the test
  have hperm₂ := filter_perm_of_split hsort hY (fun b => (rectangles b).IsInside r)
    fun k hk => by simpa using hrest' k hk
  have hsub : ((Q' ++ [t']).filter fun k => (rectangles k.taskIndex).IsInside r).Sublist
      (fromYStart rectangles (sortAndRemoveDuplicates (S.map fun b => (rectangles b).yMin)) j'
        (Q' ++ [t'])) :=
    filter_sublist_filter fun k hk hin => decide_eq_true (by
      rw [hyj']; exact hmin₁ _ ⟨hYmem k hk, of_decide_eq_true hin⟩)
  have hcount := (hsub.map fun k => energies k.taskIndex).sum_le_sum fun a ha => by
    obtain ⟨k, hk, rfl⟩ := List.mem_map.mp ha
    exact henergy _ (hYmem k (List.mem_filter.mp hk).1)
  have heq : energyInside rectangles energies boxes r =
      (((Q' ++ [t']).filter fun k => (rectangles k.taskIndex).IsInside r).map
        fun k => energies k.taskIndex).sum := by
    rw [energyInside, ((hperm₁.trans hperm₂).map energies).sum_eq, List.map_map]
    rfl
  -- against no more than the area of `r`
  obtain ⟨h₁, h₂, -, -⟩ := ht
  obtain ⟨-, -, h₃, h₄⟩ := ht'
  have hxt' := (hrect _ (hXmem t (by simp))).1
  have hyt' := (hrect _ (hYmem t' (by simp))).2
  have harea : ((rectangles t.taskIndex).xMax - xStarts.getD j 0) *
      ((rectangles t'.taskIndex).yMax -
        (sortAndRemoveDuplicates (S.map fun b => (rectangles b).yMin)).getD j' 0) ≤ r.area :=
    Int.mul_le_mul (by rw [hxj]; have := hb₀.2.1; omega) (by rw [hyj']; have := hb₁.2.2.2.1; omega)
      (by omega) (by omega)
  simp only [energyOf] at hle hcount
  omega

/-- For boxes of positive sides and energies not negative, on which the code's
`IntegerValue` arithmetic does not overflow, `BoxesAreInEnergyConflict()`
returns `true` exactly when some rectangle has less area than the energy of the
boxes inside it, whatever order `std::sort` leaves ties in; and the conflict it
then writes is such a rectangle. -/
theorem boxesAreInEnergyConflict_exact (_hfit : FitsInInt64 rectangles energies boxes) :
    ((boxesAreInEnergyConflict sortTasks rectangles energies boxes).isSome = true ↔
      ∃ r : Rectangle, r.xMin ≤ r.xMax ∧ r.yMin ≤ r.yMax ∧
        r.area < energyInside rectangles energies boxes r) ∧
    ∀ conflict, boxesAreInEnergyConflict sortTasks rectangles energies boxes = some conflict →
      conflict.xMin ≤ conflict.xMax ∧ conflict.yMin ≤ conflict.yMax ∧
        conflict.area < energyInside rectangles energies boxes conflict := by
  refine ⟨⟨fun h => ?_, fun ⟨_, hx, hy, hlt⟩ =>
    boxesAreInEnergyConflict_of_lt hsort hrect henergy hx hy hlt⟩,
    fun _ h => boxesAreInEnergyConflict_some hsort hrect henergy h⟩
  obtain ⟨conflict, hc⟩ := Option.isSome_iff_exists.mp h
  exact ⟨conflict, boxesAreInEnergyConflict_some hsort hrect henergy hc⟩

end Answer

/-- `std::sort` by time, run as an insertion sort: a permutation sorted by
time. -/
theorem sortedByTime_insertionSort (tasks : List TaskTime) :
    SortedByTime tasks (tasks.insertionSort fun a b => a.time ≤ b.time) := by
  have : IsTotal TaskTime fun a b => a.time ≤ b.time := ⟨fun a b => le_total a.time b.time⟩
  have : IsTrans TaskTime fun a b => a.time ≤ b.time := ⟨fun _ _ _ => le_trans⟩
  exact ⟨List.perm_insertionSort _ _, (List.sorted_insertionSort _ _).imp not_lt.mpr⟩

theorem boxesAreInEnergyConflict_exact_on_two_boxes :
    (∀ tasks, SortedByTime tasks (tasks.insertionSort fun a b => a.time ≤ b.time)) ∧
      (∀ b ∈ [0, 1], ((fun _ => ⟨0, 1, 0, 1⟩ : Nat → Rectangle) b).xMin <
        ((fun _ => ⟨0, 1, 0, 1⟩ : Nat → Rectangle) b).xMax ∧
        ((fun _ => ⟨0, 1, 0, 1⟩ : Nat → Rectangle) b).yMin <
        ((fun _ => ⟨0, 1, 0, 1⟩ : Nat → Rectangle) b).yMax) ∧
      (∀ b ∈ [0, 1], 0 ≤ (fun _ => 1 : Nat → Int) b) ∧
      FitsInInt64 (fun _ => ⟨0, 1, 0, 1⟩) (fun _ => 1) [0, 1] ∧
      ((boxesAreInEnergyConflict (List.insertionSort fun a b => a.time ≤ b.time)
          (fun _ => ⟨0, 1, 0, 1⟩) (fun _ => 1) [0, 1]).isSome = true ↔
        ∃ r : Rectangle, r.xMin ≤ r.xMax ∧ r.yMin ≤ r.yMax ∧
          r.area < energyInside (fun _ => ⟨0, 1, 0, 1⟩) (fun _ => 1) [0, 1] r) ∧
      ∀ conflict, boxesAreInEnergyConflict (List.insertionSort fun a b => a.time ≤ b.time)
          (fun _ => ⟨0, 1, 0, 1⟩) (fun _ => 1) [0, 1] = some conflict →
        conflict.xMin ≤ conflict.xMax ∧ conflict.yMin ≤ conflict.yMax ∧
          conflict.area < energyInside (fun _ => ⟨0, 1, 0, 1⟩) (fun _ => 1) [0, 1] conflict :=
  ⟨sortedByTime_insertionSort, by decide, by decide, by decide,
    boxesAreInEnergyConflict_exact sortedByTime_insertionSort (by decide) (by decide) (by decide)⟩

example : boxesAreInEnergyConflict (List.insertionSort fun a b => a.time ≤ b.time)
    (fun _ => ⟨0, 1, 0, 1⟩) (fun _ => 1) [0, 1] = some ⟨0, 1, 0, 1⟩ := by decide

/-- One `2^32` by `2^32` box of energy 1 is in no energy conflict, and the model
answers `none`.  The code's test at its one stripe and `y` start,
`energy_sum[0] > x_size * (y_max - y_starts[0])` in `IntegerValue`, compares
`1 > 0`, since the product `2^64` wraps to 0, and returns `true`.  These boxes
are not `FitsInInt64`. -/
theorem boxesAreInEnergyConflict_overflows :
    boxesAreInEnergyConflict (List.insertionSort fun a b => a.time ≤ b.time)
        (fun _ => ⟨0, 4294967296, 0, 4294967296⟩) (fun _ => 1) [0] = none ∧
      int64Add 0 1 > int64Mul (int64Sub 4294967296 0) (int64Sub 4294967296 0) ∧
      ¬ FitsInInt64 (fun _ => ⟨0, 4294967296, 0, 4294967296⟩) (fun _ => 1) [0] := by
  decide

end OrTools.Sat

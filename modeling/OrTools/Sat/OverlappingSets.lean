import OrTools.Sat.Articulation
import Mathlib.Data.List.MinMax
import Mathlib.Data.List.Rotate
import Mathlib.Algebra.Order.Ring.Int

/-!
# Overlapping intervals: the maximal cliques

`ConstructOverlappingSets()` sorts the intervals by start, appends the sentinel
`{-1, kMaxIntegerValue, kMaxIntegerValue}` and sweeps a line over the starts.
The intervals crossing the line sit in the window `[start_index, end_index)` of
the vector.  At each new start `time`, if an interval of the window has ended
(`min_end_in_set <= time`), the window is output, unless it holds one interval,
and the ended intervals are swapped to its front; then the intervals starting
at `time` join the window.

We model the vector as a list and the swaps as `List.set`, and prove that on a
non-empty list whose starts lie below `kMaxIntegerValue` the output is the list
of the maximal cliques of the overlap graph, as index lists, in increasing order
of their rightmost start.  The proof follows the sweep: after the intervals
starting at `tp` have joined, the window is a permutation of the intervals
containing `tp`, and the output holds the maximal cliques whose rightmost start
is below `tp` (`OverlapInv`).  Both hypotheses are needed: on the empty list,
and on intervals starting at `kMaxIntegerValue`, the sentinel is read as a
start and an empty set is output.
-/

set_option autoImplicit false

namespace OrTools.Sat

open IndexedInterval

/-! ## Maximal cliques -/

/-- The intervals of `K` share a point. -/
def SharesPoint (K : List IndexedInterval) : Prop := ∃ t : Int, ∀ x ∈ K, x.start ≤ t ∧ t < x.end

/-- `K` is a maximal set of at least two of the intervals `L` sharing a point,
a maximal clique of the overlap graph: a sub-multiset of `L` that no further
interval of `L` can join. -/
structure IsMaximalClique (L K : List IndexedInterval) : Prop where
  subperm : K.Subperm L
  two_le : 2 ≤ K.length
  sharesPoint : SharesPoint K
  maximal : ∀ x, (x :: K).Subperm L → ¬ SharesPoint (x :: K)

/-- The rightmost start of the intervals of `K`. -/
def rightmostStart (K : List IndexedInterval) : WithBot Int := (K.map (·.start)).maximum

/-- The intervals of `L` containing the point `t`. -/
def containing (L : List IndexedInterval) (t : Int) : List IndexedInterval :=
  L.filter fun x => x.start ≤ t ∧ t < x.end

/-! ## `ConstructOverlappingSets()` -/

/-- The value read at a position the code never reaches. -/
def noInterval : IndexedInterval := ⟨0, 0, 0⟩

/-- `std::swap((*intervals)[i], (*intervals)[j])`. -/
def swapAt (intervals : List IndexedInterval) (i j : Nat) : List IndexedInterval :=
  (intervals.set i (intervals.getD j noInterval)).set j (intervals.getD i noInterval)

/-- The loop over the window `[i, end_index)` when an interval has ended by
`time`: it records every index of the window, swaps the ended intervals to
`start_index` and recomputes `min_end_in_set` over the others; `n` counts the
iterations left. -/
def scanWindow (time : Int) :
    Nat → Nat → List IndexedInterval → Nat → Int → List Int →
      List IndexedInterval × Nat × Int × List Int
  | 0, _, intervals, startIndex, minEndInSet, set => (intervals, startIndex, minEndInSet, set)
  | n + 1, i, intervals, startIndex, minEndInSet, set =>
    let interval := intervals.getD i noInterval
    let set := set ++ [interval.index]
    if interval.end ≤ time then
      scanWindow time n (i + 1) (swapAt intervals startIndex i) (startIndex + 1) minEndInSet set
    else scanWindow time n (i + 1) intervals startIndex (min minEndInSet interval.end) set

/-- The `do`-`while` loop adding the intervals that start at `time`, from
`end_index` on; `fuel` bounds its iterations. -/
def addStarting (time : Int) (intervals : List IndexedInterval) :
    Nat → Nat → Int → Nat × Int
  | 0, endIndex, minEndInSet => (endIndex, minEndInSet)
  | fuel + 1, endIndex, minEndInSet =>
    let minEndInSet := min minEndInSet (intervals.getD endIndex noInterval).end
    let endIndex := endIndex + 1
    if endIndex < intervals.length ∧ (intervals.getD endIndex noInterval).start = time then
      addStarting time intervals fuel endIndex minEndInSet
    else (endIndex, minEndInSet)

/-- The variables of the line sweep. -/
structure OverlapSweep where
  intervals : List IndexedInterval
  startIndex : Nat
  endIndex : Nat
  minEndInSet : Int
  result : List (List Int)
  deriving Repr

/-- "If there is some deletion, we will push the old set to the result before
updating it": the output of the window and the removal of its ended intervals,
at the start `time`.  Pushing an empty set and popping it again when it ends up
with one index is pushing the set unless it has one index. -/
def removeEnded (kMaxIntegerValue time : Int) (s : OverlapSweep) : OverlapSweep :=
  if s.minEndInSet ≤ time then
    let (intervals, startIndex, minEndInSet, set) :=
      scanWindow time (s.endIndex - s.startIndex) s.startIndex s.intervals s.startIndex
        kMaxIntegerValue []
    { s with intervals, startIndex, minEndInSet,
             result := if set.length = 1 then s.result else s.result ++ [set] }
  else s

/-- One iteration of the sweep, at the start of the interval at `end_index`. -/
def overlapStep (kMaxIntegerValue : Int) (s : OverlapSweep) : OverlapSweep :=
  let time := (s.intervals.getD s.endIndex noInterval).start
  let s := removeEnded kMaxIntegerValue time s
  let (endIndex, minEndInSet) :=
    addStarting time s.intervals (s.intervals.length - s.endIndex) s.endIndex s.minEndInSet
  { s with endIndex, minEndInSet }

/-- The sweep `for (int end_index = 0; end_index < size;)`; each iteration
moves `end_index` forward, so `size` iterations are enough. -/
def overlapLoop (kMaxIntegerValue : Int) : Nat → OverlapSweep → List (List Int)
  | 0, s => s.result
  | fuel + 1, s =>
    if s.endIndex < s.intervals.length then
      overlapLoop kMaxIntegerValue fuel (overlapStep kMaxIntegerValue s)
    else s.result

/-- The vector the sweep runs over: `intervals->push_back({-1,
kMaxIntegerValue, kMaxIntegerValue})` after the sort. -/
def withSentinel (kMaxIntegerValue : Int) (sorted : List IndexedInterval) : List IndexedInterval :=
  sorted ++ [⟨-1, kMaxIntegerValue, kMaxIntegerValue⟩]

/-- `ConstructOverlappingSets(already_sorted, intervals, result)`: the content
of `result`, with `std::sort` by `ComparatorByStart` given as `sortByStart`. -/
def constructOverlappingSets (kMaxIntegerValue : Int)
    (sortByStart : List IndexedInterval → List IndexedInterval) (alreadySorted : Bool)
    (intervals : List IndexedInterval) : List (List Int) :=
  let sorted := if alreadySorted then intervals else sortByStart intervals
  let intervals := withSentinel kMaxIntegerValue sorted
  overlapLoop kMaxIntegerValue intervals.length ⟨intervals, 0, 0, kMaxIntegerValue, []⟩

/-- The intervals the `do`-`while` loop adds when the rest of the vector is
`y :: Y`: `y`, and the intervals after it with the same start. -/
def startingGroup (y : IndexedInterval) (Y : List IndexedInterval) : List IndexedInterval :=
  y :: Y.takeWhile fun z => z.start = y.start

/-! ## The two inner loops -/

/-- The swap of the scan: with the window read as `kept ++ x :: _` after the
moved intervals, it moves `x` to `start_index` and rotates `kept`. -/
theorem swapAt_split (moved kept rest : List IndexedInterval) (x : IndexedInterval) :
    swapAt (moved ++ kept ++ x :: rest) moved.length (moved.length + kept.length) =
      moved ++ x :: (kept.rotate 1 ++ rest) := by
  cases kept with
  | nil => simp [swapAt, List.getD_eq_getElem?_getD, List.set_append_right, List.getElem_append_right]
  | cons a kept =>
    simp [swapAt, List.getD_eq_getElem?_getD, List.set_append_right, List.getElem?_append_right,
      List.set_append_left, List.getElem_append_right, List.rotate_cons_succ]

theorem getD_split (moved rest : List IndexedInterval) (x d : IndexedInterval) :
    (moved ++ x :: rest).getD moved.length d = x := by
  simp [List.getD_eq_getElem?_getD, List.getElem?_append_right, List.getElem_append_right]

/-- The scan of the window, `X` still to scan: the ended intervals of `X` join
`moved`, the others `kept`, `set` records the indices of `X`, and the minimum
end takes in the ends of the others. -/
theorem scanWindow_spec (time : Int) (rest : List IndexedInterval) :
    ∀ (X moved kept : List IndexedInterval) (minEndInSet : Int) (set : List Int),
    ∃ moved' kept' minEnd',
      scanWindow time X.length (moved.length + kept.length) (moved ++ kept ++ X ++ rest)
          moved.length minEndInSet set =
        (moved' ++ kept' ++ rest, moved'.length, minEnd', set ++ X.map (·.index)) ∧
      moved'.length + kept'.length = moved.length + kept.length + X.length ∧
      kept'.Perm (kept ++ X.filter fun x => time < x.end) ∧
      ∀ t, minEnd' ≤ t ↔ minEndInSet ≤ t ∨ ∃ x ∈ X.filter (fun x => time < x.end), x.end ≤ t
  | [], moved, kept, minEndInSet, set => ⟨moved, kept, minEndInSet, by simp [scanWindow]⟩
  | x :: X, moved, kept, minEndInSet, set => by
    have harg : moved ++ kept ++ x :: X ++ rest = moved ++ kept ++ x :: (X ++ rest) := by simp
    have hx := getD_split (moved ++ kept) (X ++ rest) x noInterval
    rw [List.length_append] at hx
    simp only [scanWindow, List.length_cons, harg, hx]
    by_cases hend : x.end ≤ time
    · obtain ⟨moved', kept', minEnd', heq, hlen, hperm, hmin⟩ :=
        scanWindow_spec time rest X (moved ++ [x]) (kept.rotate 1) minEndInSet (set ++ [x.index])
      refine ⟨moved', kept', minEnd', ?_, ?_, ?_, ?_⟩
      · simp only [List.length_append, List.length_singleton, List.length_rotate] at heq
        rw [if_pos hend, swapAt_split,
          show moved.length + kept.length + 1 = moved.length + 1 + kept.length by omega]
        simpa using heq
      · simp only [List.length_append, List.length_singleton, List.length_rotate,
          List.length_cons, List.length_nil] at hlen ⊢
        omega
      · simpa [hend, List.filter_cons] using hperm.trans ((List.rotate_perm kept 1).append_right _)
      · simpa [hend, List.filter_cons] using hmin
    · obtain ⟨moved', kept', minEnd', heq, hlen, hperm, hmin⟩ :=
        scanWindow_spec time rest X moved (kept ++ [x]) (min minEndInSet x.end) (set ++ [x.index])
      have hlt : time < x.end := lt_of_not_le hend
      refine ⟨moved', kept', minEnd', ?_, ?_, ?_, ?_⟩
      · rw [if_neg hend]
        simpa [← Nat.add_assoc] using heq
      · simp only [List.length_append, List.length_singleton, List.length_cons,
          List.length_nil] at hlen ⊢
        omega
      · simpa [hlt, List.filter_cons] using hperm
      · simp [hmin, min_le_iff, List.filter_cons, hlt, or_assoc]

theorem drop_eq_cons_iff {intervals Y : List IndexedInterval} {e : Nat} {x : IndexedInterval}
    (h : intervals.drop e = x :: Y) :
    intervals.getD e noInterval = x ∧ intervals.drop (e + 1) = Y ∧ e < intervals.length := by
  refine ⟨?_, by rw [← List.tail_drop, h]; rfl, ?_⟩
  · rw [List.getD_eq_getElem?_getD, ← List.head?_drop, h]; rfl
  · by_contra hc
    rw [List.drop_eq_nil_iff.mpr (not_lt.mp hc)] at h
    cases h

/-- The `do`-`while` loop from the interval `x`: it takes `x`, then the
intervals after it that start at `time`, and their ends. -/
theorem addStarting_spec (time : Int) (intervals : List IndexedInterval) :
    ∀ (Y : List IndexedInterval) (x : IndexedInterval) (fuel endIndex : Nat) (minEndInSet : Int),
    intervals.drop endIndex = x :: Y → Y.length < fuel →
    ∃ minEnd', addStarting time intervals fuel endIndex minEndInSet =
        (endIndex + 1 + (Y.takeWhile fun y => y.start = time).length, minEnd') ∧
      ∀ t, minEnd' ≤ t ↔ minEndInSet ≤ t ∨ ∃ y ∈ x :: Y.takeWhile (fun y => y.start = time), y.end ≤ t
  | _, _, 0, _, _, _, hfuel => absurd hfuel (Nat.not_lt_zero _)
  | [], x, fuel + 1, endIndex, minEndInSet, h, _ => by
    obtain ⟨hx, hY, -⟩ := drop_eq_cons_iff h
    have hlen : ¬ endIndex + 1 < intervals.length := by
      simpa using List.drop_eq_nil_iff.mp hY
    refine ⟨min minEndInSet x.end,
      by simp only [addStarting, hx, hlen, false_and, if_false]; rfl, fun t => ?_⟩
    simp [min_le_iff]
  | y :: Y, x, fuel + 1, endIndex, minEndInSet, h, hfuel => by
    obtain ⟨hx, hY, -⟩ := drop_eq_cons_iff h
    obtain ⟨hy, -, hlt⟩ := drop_eq_cons_iff hY
    simp only [addStarting, hx, hy, hlt, true_and]
    by_cases hstart : y.start = time
    · obtain ⟨minEnd', heq, hmin⟩ := addStarting_spec time intervals Y y fuel (endIndex + 1)
        (min minEndInSet x.end) hY (by simpa using hfuel)
      refine ⟨minEnd', ?_, fun t => ?_⟩
      · simp only [hstart, if_true, heq]
        simp [hstart]; omega
      · simp [hmin, hstart, min_le_iff, or_assoc]
    · refine ⟨min minEndInSet x.end, by simp [hstart], fun t => ?_⟩
      simp [hstart, min_le_iff]

/-! ## Maximal cliques as the intervals containing a start -/

section Cliques

variable {L K W : List IndexedInterval}

theorem mem_containing {t : Int} {x : IndexedInterval} :
    x ∈ containing L t ↔ x ∈ L ∧ x.start ≤ t ∧ t < x.end := by
  simp [containing]

/-- A maximal clique is the set of the intervals containing its rightmost
start. -/
theorem IsMaximalClique.exists_rightmost (h : IsMaximalClique L K) :
    ∃ x ∈ K, rightmostStart K = x.start ∧ K.Perm (containing L x.start) := by
  obtain ⟨s, hs⟩ : ∃ s : Int, rightmostStart K = s := by
    have hne : K.map (·.start) ≠ [] := by
      have := h.two_le
      intro hnil
      simp_all
    exact (WithBot.ne_bot_iff_exists.mp (List.maximum_ne_bot_of_ne_nil hne)).imp fun _ h => h.symm
  obtain ⟨x, hx, rfl⟩ := List.mem_map.mp (List.maximum_mem hs)
  obtain ⟨p, hp⟩ := h.sharesPoint
  have hin : ∀ y ∈ K, y.start ≤ x.start ∧ x.start < y.end := fun y hy =>
    ⟨List.le_maximum_of_mem (List.mem_map_of_mem _ hy) hs, (hp x hx).1.trans_lt (hp y hy).2⟩
  have hsub : K.Subperm (containing L x.start) := by
    have := h.subperm.filter fun y => decide (y.start ≤ x.start ∧ x.start < y.end)
    rwa [List.filter_eq_self.mpr (by simpa using hin)] at this
  refine ⟨x, hx, hs, hsub.perm_of_length_le (not_lt.mp fun hlt => ?_)⟩
  obtain ⟨a, ha⟩ := hsub.exists_of_length_lt hlt
  exact h.maximal a (ha.trans (List.filter_sublist _).subperm)
    ⟨x.start, fun y hy => (mem_containing.mp (ha.subset hy)).2⟩

theorem IsMaximalClique.perm_of_rightmostStart {t : Int} (h : IsMaximalClique L K)
    (ht : rightmostStart K = t) : K.Perm (containing L t) := by
  obtain ⟨x, -, hs, hK⟩ := h.exists_rightmost
  rwa [← WithBot.coe_inj.mp (hs.symm.trans ht)]

/-- An interval of `L` starting after every interval of a maximal clique
starts after one of them has ended. -/
theorem IsMaximalClique.exists_end_le {t : Int} {y : IndexedInterval} (h : IsMaximalClique L K)
    (hK : ∀ x ∈ K, x.start ≤ t) (hy : y ∈ L) (hty : t < y.start) (hye : y.start < y.end) :
    ∃ x ∈ K, x.end ≤ y.start := by
  by_contra hno
  push_neg at hno
  have hyK : y ∉ K := fun hyK => absurd (hK y hyK) (not_le.mpr hty)
  refine h.maximal y (List.cons_subperm_of_not_mem_of_mem hyK hy h.subperm) ⟨y.start, fun x hx => ?_⟩
  rcases List.mem_cons.mp hx with rfl | hx
  · exact ⟨le_rfl, hye⟩
  · exact ⟨(hK x hx).trans hty.le, hno x hx⟩

/-- The converse: the intervals containing `t`, with one starting at `t`, are a
maximal clique when every later interval starts after one of them has ended. -/
theorem isMaximalClique_of_perm_containing {t : Int} (hW : W.Perm (containing L t))
    (htwo : 2 ≤ W.length) (hz : ∃ z ∈ W, z.start = t)
    (hend : ∀ y ∈ L, t < y.start → ∃ x ∈ W, x.end ≤ y.start) : IsMaximalClique L W := by
  have hmem : ∀ {x}, x ∈ W ↔ x ∈ L ∧ x.start ≤ t ∧ t < x.end := fun {_} =>
    hW.mem_iff.trans mem_containing
  refine ⟨hW.subperm.trans (List.filter_sublist L).subperm, htwo,
    ⟨t, fun x hx => (hmem.mp hx).2⟩, fun a ha ⟨p, hp⟩ => ?_⟩
  obtain ⟨z, hz, rfl⟩ := hz
  have hzp := (hp z (List.mem_cons_of_mem _ hz)).1
  have hap := hp a (List.mem_cons_self _ _)
  by_cases hq : a.start ≤ z.start ∧ z.start < a.end
  · -- `a` contains `z.start`, so `W` already holds every copy of it
    have hcount := ha.count_le a
    rw [List.count_cons_self, hW.count_eq, containing, List.count_filter (by simpa using hq)] at hcount
    omega
  · rcases not_and_or.mp hq with hlt | hle
    · obtain ⟨x, hx, hxe⟩ := hend a (ha.subset (List.mem_cons_self _ _)) (lt_of_not_le hlt)
      have := hp x (List.mem_cons_of_mem _ hx)
      omega
    · omega

theorem rightmostStart_of_perm_containing {t : Int} (hW : W.Perm (containing L t))
    (hz : ∃ z ∈ W, z.start = t) : rightmostStart W = t := by
  obtain ⟨z, hz, rfl⟩ := hz
  refine List.maximum_eq_coe_iff.mpr ⟨List.mem_map_of_mem _ hz, fun a ha => ?_⟩
  obtain ⟨y, hy, rfl⟩ := List.mem_map.mp ha
  exact (mem_containing.mp (hW.subset hy)).2.1

theorem IsMaximalClique.of_perm {L' : List IndexedInterval} (hL : L.Perm L')
    (h : IsMaximalClique L K) : IsMaximalClique L' K :=
  ⟨h.subperm.trans hL.subperm, h.two_le, h.sharesPoint,
    fun x hx => h.maximal x (hx.trans hL.symm.subperm)⟩

/-- The output so far, below the point `t`: maximal cliques of `L` with
rightmost start below `t`, every such clique up to order, in increasing order
of rightmost start. -/
structure Closed (L : List IndexedInterval) (cliques : List (List IndexedInterval)) (t : Int) :
    Prop where
  maximal : ∀ K ∈ cliques, IsMaximalClique L K ∧ rightmostStart K < t
  complete : ∀ K, IsMaximalClique L K → rightmostStart K < t → ∃ K' ∈ cliques, K'.Perm K
  ordered : cliques.Pairwise fun K K' => rightmostStart K < rightmostStart K'

variable {cliques : List (List IndexedInterval)} {tp t : Int}

/-- Moving the bound from one start `tp` to the next start `t` when no maximal
clique has rightmost start `tp`. -/
theorem Closed.skip (h : Closed L cliques tp) (htp : tp ≤ t)
    (hgap : ∀ y ∈ L, tp < y.start → t ≤ y.start)
    (hnone : ∀ K, IsMaximalClique L K → rightmostStart K ≠ tp) : Closed L cliques t := by
  refine ⟨fun K hK => ?_, fun K hK hlt => ?_, h.ordered⟩
  · obtain ⟨hmax, hlt⟩ := h.maximal K hK
    exact ⟨hmax, hlt.trans_le (WithBot.coe_le_coe.mpr htp)⟩
  · obtain ⟨x, hx, hs, -⟩ := hK.exists_rightmost
    rw [hs, WithBot.coe_lt_coe] at hlt
    refine h.complete K hK (hs ▸ WithBot.coe_lt_coe.mpr ?_)
    have := hgap x (hK.subperm.subset hx)
    have := hnone K hK
    rw [hs, Ne, WithBot.coe_inj] at this
    omega

/-- Moving the bound from `tp` to the next start `t` and outputting `W`, the
maximal clique with rightmost start `tp`. -/
theorem Closed.snoc (h : Closed L cliques tp) (htp : tp < t)
    (hgap : ∀ y ∈ L, tp < y.start → t ≤ y.start) (hW : IsMaximalClique L W)
    (hWs : rightmostStart W = tp)
    (hall : ∀ K, IsMaximalClique L K → rightmostStart K = tp → K.Perm W) :
    Closed L (cliques ++ [W]) t := by
  refine ⟨fun K hK => ?_, fun K hK hlt => ?_, ?_⟩
  · rcases List.mem_append.mp hK with hK | hK
    · obtain ⟨hmax, hlt⟩ := h.maximal K hK
      exact ⟨hmax, hlt.trans (WithBot.coe_lt_coe.mpr htp)⟩
    · rw [List.mem_singleton.mp hK, hWs]
      exact ⟨hW, WithBot.coe_lt_coe.mpr htp⟩
  · obtain ⟨x, hx, hs, -⟩ := hK.exists_rightmost
    rw [hs, WithBot.coe_lt_coe] at hlt
    rcases lt_trichotomy x.start tp with hlt' | heq | hgt
    · obtain ⟨K', hK', hperm⟩ := h.complete K hK (hs ▸ WithBot.coe_lt_coe.mpr hlt')
      exact ⟨K', List.mem_append_left _ hK', hperm⟩
    · exact ⟨W, by simp, (hall K hK (hs.trans (congrArg _ heq))).symm⟩
    · have := hgap x (hK.subperm.subset hx) hgt
      omega
  · refine List.pairwise_append.mpr ⟨h.ordered, List.pairwise_singleton _ _, fun K hK W' hW' => ?_⟩
    rw [List.mem_singleton.mp hW', hWs]
    exact (h.maximal K hK).2

end Cliques

/-! ## The vector during the sweep -/

/-- The vector holds the moved intervals, the window and, from `end_index` on,
the intervals `V` still to sweep; `min_end_in_set` is at most `t` exactly when
an interval of the window ends by `t` or `kMaxIntegerValue` is. -/
structure WindowAt (V : List IndexedInterval) (kMaxIntegerValue : Int)
    (moved window : List IndexedInterval) (s : OverlapSweep) : Prop where
  intervals_eq : s.intervals = moved ++ window ++ V.drop s.endIndex
  startIndex_eq : s.startIndex = moved.length
  endIndex_eq : s.endIndex = moved.length + window.length
  minEnd : ∀ t, s.minEndInSet ≤ t ↔ kMaxIntegerValue ≤ t ∨ ∃ x ∈ window, x.end ≤ t

section WindowAt

variable {V moved window : List IndexedInterval} {kMaxIntegerValue : Int} {s : OverlapSweep}

theorem WindowAt.drop_endIndex (h : WindowAt V kMaxIntegerValue moved window s) :
    s.intervals.drop s.endIndex = V.drop s.endIndex := by
  rw [h.intervals_eq, h.endIndex_eq, ← List.length_append, List.drop_left]

theorem WindowAt.length_sub (h : WindowAt V kMaxIntegerValue moved window s) :
    s.intervals.length - s.endIndex = (V.drop s.endIndex).length := by
  rw [← List.length_drop, h.drop_endIndex]

/-- `removeEnded` keeps the layout, with the window cut down to the intervals
alive at `time`, and outputs the window exactly when `min_end_in_set <= time`. -/
theorem WindowAt.removeEnded_spec (h : WindowAt V kMaxIntegerValue moved window s) (time : Int) :
    ∃ moved' window', WindowAt V kMaxIntegerValue moved' window' (removeEnded kMaxIntegerValue time s) ∧
      window'.Perm (window.filter fun x => time < x.end) ∧
      (removeEnded kMaxIntegerValue time s).endIndex = s.endIndex ∧
      (removeEnded kMaxIntegerValue time s).result =
        if s.minEndInSet ≤ time then
          (if window.length = 1 then s.result else s.result ++ [window.map (·.index)])
        else s.result := by
  by_cases hflush : s.minEndInSet ≤ time
  · obtain ⟨moved', kept', minEnd', heq, hlen, hperm, hmin⟩ :=
      scanWindow_spec time (V.drop s.endIndex) window moved [] kMaxIntegerValue []
    simp only [List.append_nil, List.length_nil, add_zero, List.nil_append] at heq hlen hperm hmin
    rw [← h.intervals_eq] at heq
    have hn : s.endIndex - moved.length = window.length := by rw [h.endIndex_eq]; omega
    simp only [removeEnded, hflush, if_true, h.startIndex_eq, hn, heq]
    refine ⟨moved', kept', ⟨rfl, rfl, by rw [h.endIndex_eq, hlen], fun t => ?_⟩, hperm, trivial, ?_⟩
    · simp only [hmin, hperm.mem_iff]
    · simp
  · simp only [removeEnded, hflush, if_false]
    refine ⟨moved, window, h, ?_, trivial, trivial⟩
    rw [List.filter_eq_self.mpr fun x hx => ?_]
    have := (h.minEnd time).not.mp hflush
    simp only [not_or, not_exists, not_and, not_le] at this
    simpa using this.2 x hx

theorem take_drop_add {V G R : List IndexedInterval} {e : Nat} (h : V.drop e = G ++ R) :
    V.take (e + G.length) = V.take e ++ G ∧ V.drop (e + G.length) = R := by
  rw [List.take_add, ← List.drop_drop, h, List.take_left, List.drop_left]
  exact ⟨rfl, rfl⟩

/-- The `do`-`while` loop moves `end_index` past the starting group. -/
theorem WindowAt.addStarting_spec (h : WindowAt V kMaxIntegerValue moved window s)
    {y : IndexedInterval} {Y : List IndexedInterval} (hdrop : V.drop s.endIndex = y :: Y) :
    ∃ minEnd', addStarting y.start s.intervals (s.intervals.length - s.endIndex) s.endIndex
        s.minEndInSet = (s.endIndex + (startingGroup y Y).length, minEnd') ∧
      WindowAt V kMaxIntegerValue moved (window ++ startingGroup y Y)
        { s with endIndex := s.endIndex + (startingGroup y Y).length, minEndInSet := minEnd' } := by
  obtain ⟨minEnd', heq, hmin⟩ := OrTools.Sat.addStarting_spec y.start s.intervals Y y
    (s.intervals.length - s.endIndex) s.endIndex
    s.minEndInSet (h.drop_endIndex.trans hdrop) (by rw [h.length_sub, hdrop]; simp)
  have hsplit := (take_drop_add (G := startingGroup y Y)
    (hdrop.trans (by rw [startingGroup, List.cons_append, List.takeWhile_append_dropWhile]))).2
  refine ⟨minEnd', by rw [heq]; simp [startingGroup, Nat.add_assoc, Nat.add_comm 1],
    ⟨?_, h.startIndex_eq, ?_, ?_⟩⟩
  · rw [hsplit, h.intervals_eq, hdrop]
    simp only [startingGroup, List.append_assoc, List.cons_append, List.takeWhile_append_dropWhile]
  · simp only [h.endIndex_eq, List.length_append, Nat.add_assoc]
  · intro t
    simp only [hmin, h.minEnd, startingGroup, List.mem_append, or_and_right, exists_or, or_assoc]

/-- One iteration: the window loses its ended intervals and gains the starting
group; the output is that of `removeEnded`. -/
theorem WindowAt.overlapStep_spec (h : WindowAt V kMaxIntegerValue moved window s)
    {y : IndexedInterval} {Y : List IndexedInterval} (hdrop : V.drop s.endIndex = y :: Y) :
    ∃ moved' window', WindowAt V kMaxIntegerValue moved' (window' ++ startingGroup y Y)
        (overlapStep kMaxIntegerValue s) ∧
      window'.Perm (window.filter fun x => y.start < x.end) ∧
      (overlapStep kMaxIntegerValue s).endIndex = s.endIndex + (startingGroup y Y).length ∧
      (overlapStep kMaxIntegerValue s).result = (removeEnded kMaxIntegerValue y.start s).result := by
  have htime := (drop_eq_cons_iff (h.drop_endIndex.trans hdrop)).1
  obtain ⟨moved', window', h₁, hperm, hend, -⟩ := h.removeEnded_spec y.start
  obtain ⟨minEnd', heq, h₂⟩ := h₁.addStarting_spec (hend ▸ hdrop)
  have hstep : overlapStep kMaxIntegerValue s =
      { removeEnded kMaxIntegerValue y.start s with
        endIndex := (removeEnded kMaxIntegerValue y.start s).endIndex + (startingGroup y Y).length,
        minEndInSet := minEnd' } := by
    simp only [overlapStep, htime, heq]
  rw [hstep]
  exact ⟨moved', window', h₂, hperm, by rw [hend], rfl⟩

end WindowAt

/-- On a vector sorted by start, the starting group is followed by intervals
starting later. -/
theorem startingGroup_split {V : List IndexedInterval} (hV : V.Pairwise fun a b => a.start ≤ b.start)
    {e : Nat} {y : IndexedInterval} {Y : List IndexedInterval} (hdrop : V.drop e = y :: Y) :
    V.take (e + (startingGroup y Y).length) = V.take e ++ startingGroup y Y ∧
      (∀ w ∈ V.drop (e + (startingGroup y Y).length), y.start < w.start) ∧
      ∀ z ∈ startingGroup y Y, z.start = y.start := by
  have hsplit := take_drop_add (G := startingGroup y Y) (R := Y.dropWhile fun z => z.start = y.start)
    (hdrop.trans (by rw [startingGroup, List.cons_append, List.takeWhile_append_dropWhile]))
  have hpw : (y :: Y).Pairwise fun a b => a.start ≤ b.start :=
    hdrop ▸ hV.sublist (List.drop_sublist _ _)
  refine ⟨hsplit.1, ?_, fun z hz => ?_⟩
  · rw [hsplit.2]
    intro w hw
    cases hdw : Y.dropWhile fun z => z.start = y.start with
    | nil => simp [hdw] at hw
    | cons z₀ R =>
      -- the first interval after the group starts elsewhere, so later
      have hz₀ := List.head_dropWhile_not (fun z => decide (z.start = y.start)) Y (by simp [hdw])
      simp only [hdw, List.head_cons, decide_eq_false_iff_not] at hz₀
      have hsub : (z₀ :: R).Sublist Y := hdw ▸ (List.dropWhile_suffix _).sublist
      have hpR := (List.pairwise_cons.mp hpw).2.sublist hsub
      have hyz := (List.pairwise_cons.mp hpw).1 z₀ (hsub.subset (List.mem_cons_self _ _))
      rw [hdw] at hw
      rcases List.mem_cons.mp hw with rfl | hw
      · omega
      · have := List.rel_of_pairwise_cons hpR hw
        omega
  · rcases List.mem_cons.mp hz with rfl | hz
    · rfl
    · simpa using List.mem_takeWhile_imp hz

/-! ## The sweep -/

/-- The sweep after the intervals starting at `tp` have joined the window, on
the sorted intervals `S`: the vector is laid out as `WindowAt` says, `end_index`
separates the starts up to `tp` from the later ones, the window is made of the
swept intervals alive at `tp` and holds one starting at `tp`, and the output is
`Closed` below `tp`. -/
structure OverlapInv (kMaxIntegerValue : Int) (S : List IndexedInterval) (tp : Int)
    (moved window : List IndexedInterval) (cliques : List (List IndexedInterval))
    (s : OverlapSweep)
    extends WindowAt (withSentinel kMaxIntegerValue S) kMaxIntegerValue moved window s : Prop where
  le_tp : ∀ x ∈ (withSentinel kMaxIntegerValue S).take s.endIndex, x.start ≤ tp
  tp_lt : ∀ y ∈ (withSentinel kMaxIntegerValue S).drop s.endIndex, tp < y.start
  window_perm :
    window.Perm (((withSentinel kMaxIntegerValue S).take s.endIndex).filter fun x => tp < x.end)
  group : 0 < s.endIndex → ∃ x ∈ window, x.start = tp
  result_eq : s.result = cliques.map fun K => K.map (·.index)
  closed : Closed S cliques tp

section Sweep

variable {kMaxIntegerValue : Int} {S : List IndexedInterval}

theorem mem_withSentinel {x : IndexedInterval} :
    x ∈ withSentinel kMaxIntegerValue S ↔ x ∈ S ∨ x = ⟨-1, kMaxIntegerValue, kMaxIntegerValue⟩ := by
  simp [withSentinel]

theorem mem_of_mem_withSentinel {x : IndexedInterval} (hx : x ∈ withSentinel kMaxIntegerValue S)
    (hlt : x.start < kMaxIntegerValue) : x ∈ S := by
  rcases mem_withSentinel.mp hx with hx | rfl
  · exact hx
  · exact absurd hlt (lt_irrefl _)

variable (hsorted : S.Pairwise fun a b => a.start ≤ b.start)
  (hse : ∀ x ∈ S, x.start < x.end) (hmax : ∀ x ∈ S, x.start < kMaxIntegerValue)

include hmax in
theorem start_le_of_mem_withSentinel {x : IndexedInterval} (hx : x ∈ withSentinel kMaxIntegerValue S) :
    x.start ≤ kMaxIntegerValue := by
  rcases mem_withSentinel.mp hx with hx | rfl
  · exact (hmax x hx).le
  · exact le_rfl

include hsorted hmax in
theorem pairwise_withSentinel :
    (withSentinel kMaxIntegerValue S).Pairwise fun a b => a.start ≤ b.start :=
  List.pairwise_append.mpr ⟨hsorted, List.pairwise_singleton _ _,
    fun a ha b hb => by rw [List.mem_singleton.mp hb]; exact (hmax a ha).le⟩

variable {tp : Int} {moved window : List IndexedInterval} {cliques : List (List IndexedInterval)}
  {s : OverlapSweep} {y : IndexedInterval} {Y : List IndexedInterval}

include hsorted hmax in
/-- No interval starts strictly between `tp` and the next start `y.start`. -/
theorem OverlapInv.gap (h : OverlapInv kMaxIntegerValue S tp moved window cliques s)
    (hdrop : (withSentinel kMaxIntegerValue S).drop s.endIndex = y :: Y) :
    ∀ z ∈ S, tp < z.start → y.start ≤ z.start := by
  intro z hz hlt
  have hzV : z ∈ withSentinel kMaxIntegerValue S := mem_withSentinel.mpr (.inl hz)
  rw [← List.take_append_drop s.endIndex (withSentinel kMaxIntegerValue S), List.mem_append,
    hdrop] at hzV
  rcases hzV with hzt | hzd
  · exact absurd (h.le_tp z hzt) (not_le.mpr hlt)
  · rcases List.mem_cons.mp hzd with rfl | hzY
    · exact le_rfl
    · have hpw : (y :: Y).Pairwise fun a b => a.start ≤ b.start :=
        hdrop ▸ (pairwise_withSentinel hsorted hmax).sublist (List.drop_sublist _ _)
      exact (List.pairwise_cons.mp hpw).1 z hzY

/-- Below the sentinel, the window is, up to order, the intervals containing
`tp`. -/
theorem OverlapInv.window_perm_containing (h : OverlapInv kMaxIntegerValue S tp moved window cliques s)
    (htp : tp < kMaxIntegerValue) : window.Perm (containing S tp) := by
  have htake : (withSentinel kMaxIntegerValue S).filter (fun x => x.start ≤ tp) =
      (withSentinel kMaxIntegerValue S).take s.endIndex := by
    conv_lhs => rw [← List.take_append_drop s.endIndex (withSentinel kMaxIntegerValue S)]
    rw [List.filter_append, List.filter_eq_self.mpr (fun x hx => by simpa using h.le_tp x hx),
      List.filter_eq_nil_iff.mpr (fun x hx => by simpa using h.tp_lt x hx), List.append_nil]
  refine h.window_perm.trans (List.Perm.of_eq ?_)
  rw [← htake, List.filter_filter, withSentinel, List.filter_append]
  simp [containing, htp, Bool.and_comm]

include hsorted hse hmax in
/-- `removeEnded` at the next start `y.start` moves the output from `Closed`
below `tp` to `Closed` below `y.start`: it outputs the window exactly when the
window is a maximal clique. -/
theorem OverlapInv.closed_removeEnded (hne : S ≠ [])
    (h : OverlapInv kMaxIntegerValue S tp moved window cliques s)
    (hdrop : (withSentinel kMaxIntegerValue S).drop s.endIndex = y :: Y) :
    ∃ cliques', (removeEnded kMaxIntegerValue y.start s).result =
        cliques'.map (fun K => K.map (·.index)) ∧ Closed S cliques' y.start := by
  obtain ⟨-, -, -, -, -, hres⟩ := h.removeEnded_spec y.start
  have hyV : y ∈ withSentinel kMaxIntegerValue S :=
    (List.drop_sublist _ _).subset (hdrop ▸ List.mem_cons_self _ _)
  have htp : tp < y.start := h.tp_lt y (hdrop ▸ List.mem_cons_self _ _)
  have hgap := h.gap hsorted hmax hdrop
  have hperm := h.window_perm_containing (htp.trans_le (start_le_of_mem_withSentinel hmax hyV))
  have hcl : ∀ K, IsMaximalClique S K → rightmostStart K = tp → K.Perm window :=
    fun K hK hKs => (hK.perm_of_rightmostStart hKs).trans hperm.symm
  rw [hres]
  split_ifs with hflush hone
  · -- a window of one interval
    refine ⟨cliques, h.result_eq, h.closed.skip htp.le hgap fun K hK hKs => ?_⟩
    have := (hcl K hK hKs).length_eq
    have := hK.two_le
    omega
  · -- the window is output
    have hpos : 0 < s.endIndex := by
      rcases (h.minEnd y.start).mp hflush with hk | ⟨x, hx, -⟩
      · refine Nat.pos_of_ne_zero fun h0 => ?_
        obtain ⟨a, S', rfl⟩ := List.exists_cons_of_ne_nil hne
        rw [h0, List.drop_zero, withSentinel, List.cons_append, List.cons.injEq] at hdrop
        have := hmax a (List.mem_cons_self _ _)
        rw [hdrop.1] at this
        omega
      · rw [h.endIndex_eq]
        have := List.length_pos_of_mem hx
        omega
    obtain ⟨z, hz, hzs⟩ := h.group hpos
    have hend : ∀ w ∈ S, tp < w.start → ∃ x ∈ window, x.end ≤ w.start := by
      intro w hw hlt
      have hyw := hgap w hw hlt
      rcases (h.minEnd y.start).mp hflush with hk | ⟨x, hx, hxe⟩
      · have := hmax w hw
        omega
      · exact ⟨x, hx, hxe.trans hyw⟩
    have htwo : 2 ≤ window.length := by
      have := List.length_pos_of_mem hz
      omega
    refine ⟨cliques ++ [window], by rw [h.result_eq, List.map_append]; rfl,
      h.closed.snoc htp hgap (isMaximalClique_of_perm_containing hperm htwo ⟨z, hz, hzs⟩ hend)
        (rightmostStart_of_perm_containing hperm ⟨z, hz, hzs⟩) hcl⟩
  · -- every interval of the window is alive at `y.start`, which joins them
    refine ⟨cliques, h.result_eq, h.closed.skip htp.le hgap fun K hK hKs => ?_⟩
    have hKw := hcl K hK hKs
    have hno := (h.minEnd y.start).not.mp hflush
    push_neg at hno
    have hyS := mem_of_mem_withSentinel hyV hno.1
    obtain ⟨x, hx, hxe⟩ := hK.exists_end_le
      (fun x hx => (mem_containing.mp (hperm.subset (hKw.subset hx))).2.1) hyS htp (hse y hyS)
    exact absurd hxe (not_le.mpr (hno.2 x (hKw.subset hx)))

include hsorted hse hmax in
/-- One iteration below the sentinel keeps the invariant, at the next start. -/
theorem OverlapInv.step (hne : S ≠ []) (h : OverlapInv kMaxIntegerValue S tp moved window cliques s)
    (hdrop : (withSentinel kMaxIntegerValue S).drop s.endIndex = y :: Y)
    (hy : y.start < kMaxIntegerValue) :
    ∃ moved' window' cliques',
      OverlapInv kMaxIntegerValue S y.start moved' window' cliques' (overlapStep kMaxIntegerValue s) ∧
        s.endIndex < (overlapStep kMaxIntegerValue s).endIndex := by
  obtain ⟨moved', window', hW, hperm, hend, hres⟩ := h.overlapStep_spec hdrop
  obtain ⟨cliques', hres', hcl⟩ := h.closed_removeEnded hsorted hse hmax hne hdrop
  obtain ⟨htake, hlt, hG⟩ := startingGroup_split (pairwise_withSentinel hsorted hmax) hdrop
  have htp : tp < y.start := h.tp_lt y (hdrop ▸ List.mem_cons_self _ _)
  have hGf : (startingGroup y Y).filter (fun x => y.start < x.end) = startingGroup y Y := by
    refine List.filter_eq_self.mpr fun z hz => ?_
    have hzV : z ∈ withSentinel kMaxIntegerValue S :=
      (List.take_sublist _ _).subset (htake ▸ List.mem_append_right _ hz)
    simpa [hG z hz] using hse z (mem_of_mem_withSentinel hzV (hG z hz ▸ hy))
  refine ⟨moved', window' ++ startingGroup y Y, cliques',
    ⟨hW, ?_, by rw [hend]; exact hlt, ?_, fun _ => ⟨y, by simp [startingGroup], rfl⟩,
      hres.trans hres', hcl⟩, by rw [hend]; simp [startingGroup]⟩
  · rw [hend, htake]
    intro x hx
    rcases List.mem_append.mp hx with hx | hx
    · exact (h.le_tp x hx).trans htp.le
    · exact (hG x hx).le
  · rw [hend, htake, List.filter_append, hGf]
    refine List.Perm.append_right _ (hperm.trans ((h.window_perm.filter _).trans (List.Perm.of_eq ?_)))
    rw [List.filter_filter]
    exact List.filter_congr fun x _ => by
      by_cases hx : y.start < x.end
      · simp [hx, htp.trans hx]
      · simp [hx]

include hsorted hse hmax in
/-- The iteration at the sentinel: the output is `Closed` below
`kMaxIntegerValue` and the loop ends. -/
theorem OverlapInv.last_step (hne : S ≠ []) (h : OverlapInv kMaxIntegerValue S tp moved window cliques s)
    (hdrop : (withSentinel kMaxIntegerValue S).drop s.endIndex = y :: Y)
    (hy : kMaxIntegerValue ≤ y.start) :
    ∃ cliques', (overlapStep kMaxIntegerValue s).result = cliques'.map (fun K => K.map (·.index)) ∧
      Closed S cliques' kMaxIntegerValue ∧
      (overlapStep kMaxIntegerValue s).intervals.length ≤ (overlapStep kMaxIntegerValue s).endIndex := by
  obtain ⟨moved', window', hW, -, hend, hres⟩ := h.overlapStep_spec hdrop
  obtain ⟨cliques', hres', hcl⟩ := h.closed_removeEnded hsorted hse hmax hne hdrop
  obtain ⟨-, hlt, -⟩ := startingGroup_split (pairwise_withSentinel hsorted hmax) hdrop
  have hyV : y ∈ withSentinel kMaxIntegerValue S :=
    (List.drop_sublist _ _).subset (hdrop ▸ List.mem_cons_self _ _)
  have hyk : y.start = kMaxIntegerValue := le_antisymm (start_le_of_mem_withSentinel hmax hyV) hy
  have hnil : (withSentinel kMaxIntegerValue S).drop (overlapStep kMaxIntegerValue s).endIndex = [] := by
    rw [hend]
    refine List.eq_nil_iff_forall_not_mem.mpr fun w hw => ?_
    have := hlt w hw
    have := start_le_of_mem_withSentinel hmax ((List.drop_sublist _ _).subset hw)
    omega
  exact ⟨cliques', hres.trans hres', hyk ▸ hcl, List.drop_eq_nil_iff.mp (hW.drop_endIndex.trans hnil)⟩

include hsorted hse hmax in
/-- The run: with enough fuel, the loop ends with the output `Closed` below
`kMaxIntegerValue`. -/
theorem OverlapInv.overlapLoop (hne : S ≠ []) (fuel : Nat) :
    ∀ {tp moved window cliques s}, OverlapInv kMaxIntegerValue S tp moved window cliques s →
      s.endIndex < (withSentinel kMaxIntegerValue S).length →
      (withSentinel kMaxIntegerValue S).length ≤ s.endIndex + fuel →
      ∃ cliques', overlapLoop kMaxIntegerValue fuel s = cliques'.map (fun K => K.map (·.index)) ∧
        Closed S cliques' kMaxIntegerValue := by
  induction fuel with
  | zero => intro _ _ _ _ _ _ hlt hle; omega
  | succ fuel ih =>
    intro tp moved window cliques s h hlt hle
    obtain ⟨y, Y, hdrop⟩ := List.exists_cons_of_ne_nil
      (fun hnil => absurd (List.drop_eq_nil_iff.mp hnil) (not_le.mpr hlt))
    have hlen : s.endIndex < s.intervals.length := by
      by_contra hc
      have := h.drop_endIndex
      rw [List.drop_eq_nil_iff.mpr (not_lt.mp hc), hdrop] at this
      cases this
    rw [OrTools.Sat.overlapLoop, if_pos hlen]
    by_cases hy : y.start < kMaxIntegerValue
    · obtain ⟨moved', window', cliques', h', hlt'⟩ := h.step hsorted hse hmax hne hdrop hy
      refine ih h' (not_le.mp fun hc => ?_) (by omega)
      -- the sentinel has not been swept yet
      have := h'.le_tp ⟨-1, kMaxIntegerValue, kMaxIntegerValue⟩
        (by rw [List.take_of_length_le hc]; simp [withSentinel])
      exact absurd this (not_le.mpr hy)
    · obtain ⟨cliques', hres, hcl, hend⟩ := h.last_step hsorted hse hmax hne hdrop (not_lt.mp hy)
      refine ⟨cliques', ?_, hcl⟩
      cases fuel <;> simp [OrTools.Sat.overlapLoop, hres, not_lt.mpr hend]

include hsorted hmax in
/-- Before the first start, the invariant holds below it. -/
theorem overlapInv_init (hne : S ≠ []) :
    ∃ tp, OverlapInv kMaxIntegerValue S tp [] [] []
      ⟨withSentinel kMaxIntegerValue S, 0, 0, kMaxIntegerValue, []⟩ := by
  obtain ⟨a, S', rfl⟩ := List.exists_cons_of_ne_nil hne
  have hfirst : ∀ y ∈ withSentinel kMaxIntegerValue (a :: S'), a.start ≤ y.start := by
    intro y hy
    have hpw := pairwise_withSentinel hsorted hmax
    rw [withSentinel, List.cons_append] at hy hpw
    rcases List.mem_cons.mp hy with rfl | hy
    · exact le_rfl
    · exact (List.pairwise_cons.mp hpw).1 y hy
  refine ⟨a.start - 1, ⟨⟨by simp, rfl, rfl, by simp⟩, by simp, fun y hy => ?_, by simp, by simp, rfl,
    ⟨by simp, fun K hK hlt => ?_, List.Pairwise.nil⟩⟩⟩
  · have := hfirst y (by simpa using hy)
    omega
  · obtain ⟨x, hx, hs, -⟩ := hK.exists_rightmost
    rw [hs, WithBot.coe_lt_coe] at hlt
    have := hfirst x (mem_withSentinel.mpr (.inl (hK.subperm.subset hx)))
    omega

end Sweep

/-! ## The result -/

/-- On a non-empty list of intervals with `start < end` and starts below
`kMaxIntegerValue`, sorted by start when `already_sorted` is set,
`ConstructOverlappingSets()` outputs the maximal cliques of the overlap graph,
each as the list of its indices, every maximal clique up to order, in
increasing order of rightmost start (so each one once). -/
theorem constructOverlappingSets_maximalCliques (kMaxIntegerValue : Int)
    {sortByStart : List IndexedInterval → List IndexedInterval} {alreadySorted : Bool}
    {intervals : List IndexedInterval}
    (hsort : ∀ l, SortedBy ComparatorByStart l (sortByStart l))
    (hsorted : alreadySorted = true → intervals.Pairwise fun a b => ComparatorByStart b a = false)
    (hne : intervals ≠ []) (hse : ∀ x ∈ intervals, x.start < x.end)
    (hmax : ∀ x ∈ intervals, x.start < kMaxIntegerValue) :
    ∃ cliques : List (List IndexedInterval),
      constructOverlappingSets kMaxIntegerValue sortByStart alreadySorted intervals =
          cliques.map (fun K => K.map (·.index)) ∧
        (∀ K ∈ cliques, IsMaximalClique intervals K) ∧
        (∀ K, IsMaximalClique intervals K → ∃ K' ∈ cliques, K'.Perm K) ∧
        cliques.Pairwise fun K K' => rightmostStart K < rightmostStart K' := by
  have hS : SortedBy ComparatorByStart intervals
      (if alreadySorted then intervals else sortByStart intervals) := by
    cases alreadySorted
    · exact hsort intervals
    · exact ⟨List.Perm.refl _, hsorted rfl⟩
  obtain ⟨hperm, hpw⟩ := hS
  have hsortedS := hpw.imp fun h => by simpa [ComparatorByStart] using h
  have hseS := fun x hx => hse x (hperm.subset hx)
  have hmaxS := fun x hx => hmax x (hperm.subset hx)
  have hneS : (if alreadySorted then intervals else sortByStart intervals) ≠ [] :=
    fun hnil => hne (hnil ▸ hperm).symm.eq_nil
  obtain ⟨tp, hinit⟩ := overlapInv_init hsortedS hmaxS hneS
  obtain ⟨cliques, hres, hcl⟩ :=
    hinit.overlapLoop hsortedS hseS hmaxS hneS _ (by simp [withSentinel]) (Nat.le_add_left _ _)
  refine ⟨cliques, hres, fun K hK => (hcl.maximal K hK).1.of_perm hperm,
    fun K hK => hcl.complete K (hK.of_perm hperm.symm) ?_, hcl.ordered⟩
  obtain ⟨x, hx, hs, -⟩ := (hK.of_perm hperm.symm).exists_rightmost
  rw [hs, WithBot.coe_lt_coe]
  exact hmax x (hK.subperm.subset hx)

/-- `std::sort` by start, run as an insertion sort: a permutation on which no
interval starts before an earlier one. -/
theorem sortedBy_insertionSort (l : List IndexedInterval) :
    SortedBy ComparatorByStart l (l.insertionSort fun a b => a.start ≤ b.start) := by
  have : IsTotal IndexedInterval fun a b => a.start ≤ b.start := ⟨fun a b => le_total a.start b.start⟩
  have : IsTrans IndexedInterval fun a b => a.start ≤ b.start := ⟨fun _ _ _ => le_trans⟩
  exact ⟨List.perm_insertionSort _ _,
    (List.sorted_insertionSort _ _).imp fun h => by simpa [ComparatorByStart] using h⟩

theorem constructOverlappingSets_maximalCliques_on_three :
    (∀ l, SortedBy ComparatorByStart l (l.insertionSort fun a b => a.start ≤ b.start)) ∧
      (false = true →
        [⟨2, 3, 5⟩, ⟨0, 0, 2⟩, ⟨1, 1, 4⟩].Pairwise fun a b : IndexedInterval =>
          ComparatorByStart b a = false) ∧
      [(⟨2, 3, 5⟩ : IndexedInterval), ⟨0, 0, 2⟩, ⟨1, 1, 4⟩] ≠ [] ∧
      (∀ x ∈ [(⟨2, 3, 5⟩ : IndexedInterval), ⟨0, 0, 2⟩, ⟨1, 1, 4⟩], x.start < x.end) ∧
      (∀ x ∈ [(⟨2, 3, 5⟩ : IndexedInterval), ⟨0, 0, 2⟩, ⟨1, 1, 4⟩], x.start < 100) ∧
      ∃ cliques : List (List IndexedInterval),
        constructOverlappingSets 100 (List.insertionSort fun a b => a.start ≤ b.start) false
            [⟨2, 3, 5⟩, ⟨0, 0, 2⟩, ⟨1, 1, 4⟩] = cliques.map (fun K => K.map (·.index)) ∧
          (∀ K ∈ cliques, IsMaximalClique [⟨2, 3, 5⟩, ⟨0, 0, 2⟩, ⟨1, 1, 4⟩] K) ∧
          (∀ K, IsMaximalClique [⟨2, 3, 5⟩, ⟨0, 0, 2⟩, ⟨1, 1, 4⟩] K → ∃ K' ∈ cliques, K'.Perm K) ∧
          cliques.Pairwise fun K K' => rightmostStart K < rightmostStart K' :=
  ⟨sortedBy_insertionSort, fun h => absurd h Bool.false_ne_true, by decide, by decide, by decide,
    constructOverlappingSets_maximalCliques 100 sortedBy_insertionSort
      (fun h => absurd h Bool.false_ne_true) (by decide) (by decide) (by decide)⟩

example : constructOverlappingSets 100 (List.insertionSort fun a b => a.start ≤ b.start) false
    [⟨2, 3, 5⟩, ⟨0, 0, 2⟩, ⟨1, 1, 4⟩] = [[0, 1], [1, 2]] := by decide

/-- On the empty list the sentinel is read as a start while `min_end_in_set`
is still `kMaxIntegerValue`, and the empty window is output.  Two intervals
starting at `kMaxIntegerValue` (the largest `IntegerValue` but one, so that
their end is representable) share a point, but the sentinel joins their group
and the empty window is output in place of their clique. -/
theorem constructOverlappingSets_outputs_empty_set :
    (∀ sortByStart, constructOverlappingSets 9223372036854775806 sortByStart true [] = [[]]) ∧
      (∀ K, ¬ IsMaximalClique [] K) ∧
      (∀ sortByStart, constructOverlappingSets 9223372036854775806 sortByStart true
        [⟨0, 9223372036854775806, 9223372036854775807⟩,
          ⟨1, 9223372036854775806, 9223372036854775807⟩] = [[]]) ∧
      IsMaximalClique
        [⟨0, 9223372036854775806, 9223372036854775807⟩, ⟨1, 9223372036854775806, 9223372036854775807⟩]
        [⟨0, 9223372036854775806, 9223372036854775807⟩, ⟨1, 9223372036854775806, 9223372036854775807⟩] :=
  ⟨fun _ => rfl, fun K h => by simpa using h.two_le.trans h.subperm.length_le, fun _ => rfl,
    ⟨List.Subperm.refl _, le_rfl, ⟨9223372036854775806, by decide⟩,
      fun _ hx => absurd hx.length_le (by simp)⟩⟩

end OrTools.Sat

import OrTools.Sat.Intervals
import Mathlib.Data.List.GetD
import Mathlib.Data.List.Sort
import Mathlib.Data.Finset.Max

/-!
# Articulation points of the overlap graph

`GetIntervalArticulationPoints()` sorts the intervals by start and sweeps them
once.  In the current component it keeps the largest end seen
(`end_max_so_far`, reached by the interval at `index_of_max`) and the largest
end of the other intervals (`prev_end_max`, `kMinIntegerValue` while the
component has one interval).  An interval that starts inside the component but
after every end except the largest can reach what came before only through
the interval at `index_of_max`, which is then an articulation point.

The proof goes in three steps.  Removing an interval `v` disconnects the
overlap graph exactly when some point `t` cuts it (`CutAt`): every other
interval ends by `t` or starts from it, and `v` overlaps one of each kind.  On
the sorted intervals such a cut is a position `k` where every interval before
`k` except one ends by the start of `k` (`FlagAt`).  And the sweep marks
exactly the positions `FlagAt` describes, each once (`SweepInv`).

`kMinIntegerValue` is a parameter: the code compares `prev_end_max` with it to
tell that the component has a single interval, so an interval that ends there
is taken for the sentinel.
-/

set_option autoImplicit false

namespace OrTools.Sat

namespace IndexedInterval

/-- Modelled from the spec: `IndexedInterval::ComparatorByStart` of
`diffn_util.h`, the order on starts. -/
def ComparatorByStart (a b : IndexedInterval) : Bool := a.start < b.start

end IndexedInterval

open IndexedInterval

/-- Removing `v` from the intervals `L` disconnects two intervals that were
connected: the overlap graph has more connected components without `v` than
with it. -/
def IsArticulationPoint (L : List IndexedInterval) (v : IndexedInterval) : Prop :=
  v ∈ L ∧ ∃ x ∈ L, ∃ y ∈ L, x ≠ v ∧ y ≠ v ∧ Connected L x y ∧ ¬ Connected (L.erase v) x y

/-! ## `GetIntervalArticulationPoints()` -/

/-- The variables of the loop of `GetIntervalArticulationPoints()`; the
positions are into the sorted vector. -/
structure ArticulationSweep where
  endMaxSoFar : Int
  indexOfMax : Nat
  prevEndMax : Int
  articulationPoints : List Nat
  deriving Repr

/-- "Was the previous max an articulation point?", and its push guarded
against re-inserting the last point (`articulation_points.empty() ||
articulation_points.back() != index_of_max`). -/
def markArticulationPoint (kMinIntegerValue : Int) (s : ArticulationSweep)
    (interval : IndexedInterval) : List Nat :=
  if s.prevEndMax ≠ kMinIntegerValue ∧ interval.start ≥ s.prevEndMax then
    if s.articulationPoints.getLast? ≠ some s.indexOfMax then
      s.articulationPoints ++ [s.indexOfMax]
    else s.articulationPoints
  else s.articulationPoints

/-- One iteration of the loop, on the interval at position `i`. -/
def articulationStep (kMinIntegerValue : Int) (s : ArticulationSweep) (i : Nat)
    (interval : IndexedInterval) : ArticulationSweep :=
  if interval.start ≥ s.endMaxSoFar then
    ⟨interval.end, i, kMinIntegerValue, s.articulationPoints⟩
  else
    let articulationPoints := markArticulationPoint kMinIntegerValue s interval
    if interval.end > s.endMaxSoFar then ⟨interval.end, i, s.endMaxSoFar, articulationPoints⟩
    else if interval.end > s.prevEndMax then
      ⟨s.endMaxSoFar, s.indexOfMax, interval.end, articulationPoints⟩
    else { s with articulationPoints }

/-- The loop over the sorted intervals from position `i` on. -/
def articulationSweep (kMinIntegerValue : Int) :
    Nat → List IndexedInterval → ArticulationSweep → ArticulationSweep
  | _, [], s => s
  | i, interval :: rest, s =>
    articulationSweep kMinIntegerValue (i + 1) rest (articulationStep kMinIntegerValue s i interval)

/-- `GetIntervalArticulationPoints(intervals)`, on the intervals as `std::sort`
with `ComparatorByStart` leaves them. -/
def getIntervalArticulationPoints (kMinIntegerValue : Int) (intervals : List IndexedInterval) :
    List Int :=
  if intervals.length < 3 then []
  else match intervals with
    | [] => []
    | first :: rest =>
      (articulationSweep kMinIntegerValue 1 rest
          ⟨first.end, 0, kMinIntegerValue, []⟩).articulationPoints.map
        fun index => (intervals.getD index first).index

/-! ## Cuts -/

/-- Without `v`, the intervals `L` fall apart at `t`: every other interval ends
by `t` or starts from it, and `v` overlaps one of each kind. -/
structure CutAt (L : List IndexedInterval) (v : IndexedInterval) (t : Int) : Prop where
  left : ∃ m ∈ L, m ≠ v ∧ m.Overlaps v ∧ m.end ≤ t
  right : ∃ w ∈ L, w ≠ v ∧ w.Overlaps v ∧ t ≤ w.start
  apart : ∀ u ∈ L, u ≠ v → u.end ≤ t ∨ t ≤ u.start

section Cut

variable {L : List IndexedInterval} {v : IndexedInterval}

/-- No path of the overlap graph crosses a point that every interval ends by or
starts from. -/
theorem end_le_of_connected {t : Int} (hcut : ∀ u ∈ L, u.end ≤ t ∨ t ≤ u.start)
    {x y : IndexedInterval} (hx : x.end ≤ t) (hxy : Connected L x y) : y.end ≤ t := by
  induction hxy with
  | refl => exact hx
  | tail _ hzy ih =>
    rcases hcut _ hzy.2.1 with h | h
    · exact h
    · exact absurd hzy.2.2.2 (by omega)

theorem mem_erase_of_ne (hL : L.Nodup) {u : IndexedInterval} (hu : u ∈ L) (huv : u ≠ v) :
    u ∈ L.erase v :=
  hL.mem_erase_iff.mpr ⟨huv, hu⟩

/-- A cut makes `v` an articulation point: its two neighbours across the cut
are connected through `v` and through nothing else. -/
theorem CutAt.isArticulationPoint (hL : L.Nodup) (hse : ∀ u ∈ L, u.start < u.end) (hv : v ∈ L)
    {t : Int} (h : CutAt L v t) : IsArticulationPoint L v := by
  obtain ⟨m, hm, hmv, hmo, hmt⟩ := h.left
  obtain ⟨w, hw, hwv, hwo, htw⟩ := h.right
  refine ⟨hv, m, hm, w, hw, hmv, hwv,
    (Relation.ReflTransGen.single ⟨hm, hv, hmo⟩).tail ⟨hv, hw, hwo.symm⟩, fun hmw => ?_⟩
  have hwt := end_le_of_connected
    (fun u hu => h.apart u (List.mem_of_mem_erase hu) (hL.mem_erase_iff.mp hu).1) hmt hmw
  have := hse w hw
  omega

/-- If removing `v` disconnects two intervals, it disconnects two neighbours of
`v`: a path between the two enters and leaves `v` through neighbours. -/
theorem IsArticulationPoint.exists_neighbours (hL : L.Nodup) (h : IsArticulationPoint L v) :
    ∃ a ∈ L, ∃ b ∈ L, a ≠ v ∧ b ≠ v ∧ a.Overlaps v ∧ b.Overlaps v ∧
      ¬ Connected (L.erase v) a b := by
  obtain ⟨-, x, -, y, -, hxv, hyv, hxy, hsep⟩ := h
  by_contra hne
  push_neg at hne
  have key : ∀ z, Connected L x z → (z ≠ v → Connected (L.erase v) x z) ∧
      (z = v → ∃ a ∈ L, a ≠ v ∧ a.Overlaps v ∧ Connected (L.erase v) x a) := by
    intro z hz
    induction hz with
    | refl => exact ⟨fun _ => .refl, fun h => absurd h hxv⟩
    | @tail z w _ hzw ih =>
      by_cases hzv : z = v
      · obtain ⟨a, ha, hav, hao, hxa⟩ := ih.2 hzv
        have hwo : w.Overlaps v := by rw [← hzv]; exact hzw.2.2.symm
        exact ⟨fun hwv => hxa.trans (hne a ha w hzw.2.1 hav hwv hao hwo),
          fun _ => ⟨a, ha, hav, hao, hxa⟩⟩
      · have hxz := ih.1 hzv
        refine ⟨fun hwv => hxz.tail ⟨mem_erase_of_ne hL hzw.1 hzv,
          mem_erase_of_ne hL hzw.2.1 hwv, hzw.2.2⟩, fun hwv => ⟨z, hzw.1, hzv, ?_, hxz⟩⟩
        rw [← hwv]; exact hzw.2.2
  exact hsep ((key y hxy).1 hyv)

/-- Among the intervals connected to `a` in `R`, one ends last. -/
theorem exists_last_end (R : List IndexedInterval) {a : IndexedInterval} (ha : a ∈ R) :
    ∃ a' ∈ R, Connected R a a' ∧ ∀ u ∈ R, Connected R a u → u.end ≤ a'.end := by
  classical
  obtain ⟨a', ha', hmax⟩ := (R.filter fun u => Connected R a u).toFinset.exists_max_image
    (·.end) ⟨a, by simpa using ⟨ha, .refl⟩⟩
  simp only [List.mem_toFinset, List.mem_filter, decide_eq_true_eq] at ha' hmax
  exact ⟨a', ha'.1, ha'.2, fun u hu hau => hmax u ⟨hu, hau⟩⟩

/-- Nothing in `R` crosses the end of the interval that ends last among those
connected to `a`: what starts before it overlaps it. -/
theorem apart_of_last_end {R : List IndexedInterval} {a a' : IndexedInterval} (ha' : a' ∈ R)
    (hse : a'.start < a'.end) (haa' : Connected R a a')
    (hlast : ∀ u ∈ R, Connected R a u → u.end ≤ a'.end) :
    ∀ u ∈ R, u.end ≤ a'.end ∨ a'.end ≤ u.start := by
  intro u hu
  by_contra hc
  push_neg at hc
  have := hlast u hu (haa'.tail ⟨ha', hu, by omega, hc.2⟩)
  omega

/-- Two neighbours `a` and `b` of `v` left disconnected without it: the last
end `t` on the side of `a`, when the side of `b` reaches as far, cuts the
intervals at `t`, with `b` past the cut. -/
theorem cutAt_of_neighbours (hL : L.Nodup) (hse : ∀ u ∈ L, u.start < u.end)
    {a b a' b' : IndexedInterval} (ha : a ∈ L) (hav : a ≠ v) (hao : a.Overlaps v)
    (hb : b ∈ L) (hbv : b ≠ v) (hbo : b.Overlaps v) (hab : ¬ Connected (L.erase v) a b)
    (ha' : a' ∈ L.erase v) (haa' : Connected (L.erase v) a a')
    (hlast : ∀ u ∈ L.erase v, Connected (L.erase v) a u → u.end ≤ a'.end)
    (hb' : b' ∈ L.erase v) (hbb' : Connected (L.erase v) b b') (hle : a'.end ≤ b'.end) :
    CutAt L v a'.end := by
  have hse' : ∀ u ∈ L.erase v, u.start < u.end := fun u hu => hse u (List.mem_of_mem_erase hu)
  have hapart := apart_of_last_end ha' (hse' a' ha') haa' hlast
  refine ⟨⟨a, ha, hav, hao, hlast a (mem_erase_of_ne hL ha hav) .refl⟩, ⟨b, hb, hbv, hbo, ?_⟩,
    fun u hu huv => hapart u (mem_erase_of_ne hL hu huv)⟩
  rcases hapart b (mem_erase_of_ne hL hb hbv) with hbe | hbs
  · -- then `b'` ends with `a'`, and the two overlap
    have hb'e := end_le_of_connected hapart hbe hbb'
    have := hse' a' ha'
    have := hse' b' hb'
    exact absurd ((haa'.tail ⟨ha', hb', by omega, by omega⟩).trans hbb'.symm) hab
  · exact hbs

theorem IsArticulationPoint.exists_cutAt (hL : L.Nodup) (hse : ∀ u ∈ L, u.start < u.end)
    (h : IsArticulationPoint L v) : ∃ t, CutAt L v t := by
  obtain ⟨a, ha, b, hb, hav, hbv, hao, hbo, hab⟩ := h.exists_neighbours hL
  obtain ⟨a', ha', haa', halast⟩ := exists_last_end (L.erase v) (mem_erase_of_ne hL ha hav)
  obtain ⟨b', hb', hbb', hblast⟩ := exists_last_end (L.erase v) (mem_erase_of_ne hL hb hbv)
  rcases le_total a'.end b'.end with hle | hle
  · exact ⟨_, cutAt_of_neighbours hL hse ha hav hao hb hbv hbo hab ha' haa' halast hb' hbb' hle⟩
  · exact ⟨_, cutAt_of_neighbours hL hse hb hbv hbo ha hav hao (fun h => hab h.symm)
      hb' hbb' hblast ha' haa' hle⟩

end Cut

theorem connected_congr {L L' : List IndexedInterval} (h : ∀ x, x ∈ L ↔ x ∈ L') :
    Connected L = Connected L' := by
  have : Adjacent L = Adjacent L' := by
    funext a b
    simp only [Adjacent, h]
  simp only [Connected, this]

theorem isArticulationPoint_perm {L L' : List IndexedInterval} (h : L.Perm L')
    (v : IndexedInterval) : IsArticulationPoint L v ↔ IsArticulationPoint L' v := by
  have hm : ∀ x, x ∈ L ↔ x ∈ L' := fun _ => h.mem_iff
  simp only [IsArticulationPoint, connected_congr hm,
    connected_congr fun _ => (h.erase v).mem_iff, hm]

/-! ## Cuts on the sorted intervals -/

/-- At position `k` of the sweep, position `q` is found to be an articulation
point: `k` starts before `q` ends, every other interval before `k` ends by the
start of `k`, and one of them overlaps `q`. -/
def FlagAt (item : Nat → IndexedInterval) (q k : Nat) : Prop :=
  q < k ∧ (item k).start < (item q).end ∧ (∀ m < k, m ≠ q → (item m).end ≤ (item k).start) ∧
    ∃ m < k, m ≠ q ∧ (item m).Overlaps (item q)

/-- What the sweep may assume of the `n` intervals at positions `item 0, …`:
sorted by start, non-empty, and from `kMinIntegerValue` on. -/
structure SortedInput (kMinIntegerValue : Int) (n : Nat) (item : Nat → IndexedInterval) :
    Prop where
  start_le : ∀ p r, p ≤ r → r < n → (item p).start ≤ (item r).start
  start_lt_end : ∀ p < n, (item p).start < (item p).end
  kMin_le : ∀ p < n, kMinIntegerValue ≤ (item p).start

section Positions

variable {S : List IndexedInterval} {d : IndexedInterval}

theorem getD_mem {p : Nat} (hp : p < S.length) : S.getD p d ∈ S := by
  rw [List.getD_eq_getElem _ _ hp]
  exact List.getElem_mem hp

theorem exists_getD_eq {u : IndexedInterval} (hu : u ∈ S) : ∃ p < S.length, S.getD p d = u := by
  obtain ⟨p, hp, rfl⟩ := List.mem_iff_getElem.mp hu
  exact ⟨p, hp, List.getD_eq_getElem _ _ hp⟩

theorem getD_inj (hnd : S.Nodup) {p r : Nat} (hp : p < S.length) (hr : r < S.length) :
    S.getD p d = S.getD r d ↔ p = r := by
  rw [List.getD_eq_getElem _ _ hp, List.getD_eq_getElem _ _ hr]
  exact hnd.getElem_inj_iff

variable {kMinIntegerValue : Int} (hS : SortedInput kMinIntegerValue S.length (S.getD · d))
  (hnd : S.Nodup)
include hS hnd

/-- A position found at `k` is cut at the start of `k`. -/
theorem cutAt_of_flagAt {q k : Nat} (hk : k < S.length) (h : FlagAt (S.getD · d) q k) :
    CutAt S (S.getD q d) (S.getD k d).start := by
  obtain ⟨hqk, hkq, hbefore, m, hmk, hmq, hmo⟩ := h
  have hq : q < S.length := by omega
  have hk' := hS.start_lt_end k hk
  have hqk' := hS.start_le q k hqk.le hk
  refine ⟨⟨_, getD_mem (by omega), fun e => hmq ((getD_inj hnd (by omega) hq).mp e), hmo,
      hbefore m hmk hmq⟩,
    ⟨_, getD_mem hk, fun e => absurd ((getD_inj hnd hk hq).mp e) (by omega), ⟨hkq, by omega⟩,
      le_rfl⟩, fun u hu huv => ?_⟩
  obtain ⟨r, hr, rfl⟩ := exists_getD_eq (d := d) hu
  have hrq : r ≠ q := fun e => huv (by rw [e])
  rcases Nat.lt_or_ge r k with hrk | hrk
  · exact .inl (hbefore r hrk hrq)
  · exact .inr (hS.start_le k r hrk hr)

/-- A cut at `t` is found at the first position after `q` that starts from `t`. -/
theorem flagAt_of_cutAt {q : Nat} {t : Int} (hq : q < S.length) (h : CutAt S (S.getD q d) t) :
    ∃ k < S.length, FlagAt (S.getD · d) q k := by
  obtain ⟨_, hm, hmv, hmo, hmt⟩ := h.left
  obtain ⟨_, hw, hwv, hwo, htw⟩ := h.right
  obtain ⟨rm, hrm, rfl⟩ := exists_getD_eq (d := d) hm
  obtain ⟨rw, hrw, rfl⟩ := exists_getD_eq (d := d) hw
  have hne : ∀ {r}, S.getD r d ≠ S.getD q d → r ≠ q := fun h e => h (by rw [e])
  have hex : ∃ r, r < S.length ∧ r ≠ q ∧ t ≤ (S.getD r d).start := ⟨rw, hrw, hne hwv, htw⟩
  obtain ⟨hk, hkq, htk⟩ := Nat.find_spec hex
  have hmin : ∀ r < Nat.find hex, r ≠ q → (S.getD r d).start < t := fun r hr hrq =>
    not_le.mp fun h => Nat.find_min hex hr ⟨by omega, hrq, h⟩
  have hkw := hS.start_le _ rw (Nat.find_min' hex ⟨hrw, hne hwv, htw⟩) hrw
  have hrm' := hS.start_lt_end rm hrm
  have hrmk : rm < Nat.find hex := by
    by_contra hc
    have := hS.start_le _ rm (not_lt.mp hc) hrm
    omega
  have hqk : q < Nat.find hex := by
    by_contra hc
    have := hS.start_le _ q (not_lt.mp hc) hq
    have := hmo.2
    omega
  refine ⟨_, hk, ?_⟩
  dsimp only [FlagAt]
  refine ⟨hqk, by have := hwo.1; omega, fun r hr hrq => ?_, rm, hrmk, hne hmv, hmo⟩
  have := hmin r hr hrq
  rcases h.apart _ (getD_mem (by omega)) fun e => hrq ((getD_inj hnd (by omega) hq).mp e) with
    h' | h'
  · omega
  · omega

/-- On the sorted intervals, the interval at `q` is an articulation point
exactly when the sweep finds it at some position. -/
theorem isArticulationPoint_iff_flagAt {q : Nat} (hq : q < S.length) :
    IsArticulationPoint S (S.getD q d) ↔ ∃ k < S.length, FlagAt (S.getD · d) q k := by
  have hse : ∀ u ∈ S, u.start < u.end := fun u hu => by
    obtain ⟨p, hp, rfl⟩ := exists_getD_eq (d := d) hu
    exact hS.start_lt_end p hp
  constructor
  · intro h
    obtain ⟨_, ht⟩ := h.exists_cutAt hnd hse
    exact flagAt_of_cutAt hS hnd hq ht
  · rintro ⟨k, hk, h⟩
    exact (cutAt_of_flagAt hS hnd hk h).isArticulationPoint hnd hse (getD_mem hq)

end Positions

/-! ## The sweep -/

/-- The invariant of the sweep after the positions below `k`, whose current
component starts at position `c`: `end_max_so_far` is the largest end so far,
reached at `index_of_max`; `prev_end_max` is the largest other end of the
component, or `kMinIntegerValue` while the component has one interval, and is
reached by an interval overlapping `index_of_max`; and the points marked are,
in increasing order, the positions found before `k`. -/
@[mk_iff]
structure SweepInv (kMinIntegerValue : Int) (item : Nat → IndexedInterval) (k c : Nat)
    (s : ArticulationSweep) : Prop where
  component_le : c ≤ s.indexOfMax
  indexOfMax_lt : s.indexOfMax < k
  end_le_component : ∀ m < c, (item m).end ≤ (item c).start
  endMaxSoFar_eq : s.endMaxSoFar = (item s.indexOfMax).end
  end_le_endMaxSoFar : ∀ m < k, (item m).end ≤ s.endMaxSoFar
  end_le_prevEndMax : ∀ m, c ≤ m → m < k → m ≠ s.indexOfMax → (item m).end ≤ s.prevEndMax
  prevEndMax_cases : (k = c + 1 ∧ s.prevEndMax = kMinIntegerValue) ∨
    ∃ m, c ≤ m ∧ m < k ∧ m ≠ s.indexOfMax ∧ (item m).end = s.prevEndMax ∧
      (item m).Overlaps (item s.indexOfMax)
  sorted : s.articulationPoints.Sorted (· < ·)
  le_indexOfMax : ∀ p ∈ s.articulationPoints, p ≤ s.indexOfMax
  mem_iff : ∀ q, q ∈ s.articulationPoints ↔ ∃ j < k, FlagAt item q j

/-- A strictly increasing list bounded by `x` and not ending with `x` stays
below `x`. -/
theorem lt_of_getLast?_ne {l : List Nat} {x : Nat} (hl : l.Sorted (· < ·))
    (hle : ∀ p ∈ l, p ≤ x) (hne : l.getLast? ≠ some x) : ∀ p ∈ l, p < x := by
  intro p hp
  rcases (hle p hp).lt_or_eq with h | rfl
  · exact h
  · obtain ⟨s, t, rfl⟩ := List.append_of_mem hp
    have ht : t = [] := List.eq_nil_iff_forall_not_mem.mpr fun y hy =>
      absurd (hle y (by simp [hy]))
        (not_le.mpr ((List.pairwise_cons.mp (List.pairwise_append.mp hl).2.1).1 y hy))
    subst ht
    simp at hne

theorem mem_iff_succ {item : Nat → IndexedInterval} {k : Nat} {s : ArticulationSweep}
    (hmem : ∀ q, q ∈ s.articulationPoints ↔ ∃ j < k, FlagAt item q j)
    (q : Nat) : (∃ j < k + 1, FlagAt item q j) ↔ q ∈ s.articulationPoints ∨ FlagAt item q k := by
  rw [hmem]
  constructor
  · rintro ⟨j, hj, hf⟩
    rcases Nat.lt_succ_iff_lt_or_eq.mp hj with hj | rfl
    · exact .inl ⟨j, hj, hf⟩
    · exact .inr hf
  · rintro (⟨j, hj, hf⟩ | hf)
    · exact ⟨j, by omega, hf⟩
    · exact ⟨k, by omega, hf⟩

section Sweep

variable {kMinIntegerValue : Int} {n : Nat} {item : Nat → IndexedInterval} {k c : Nat}
  {s : ArticulationSweep} (hS : SortedInput kMinIntegerValue n item)
  (h : SweepInv kMinIntegerValue item k c s) (hk : k < n)
include hS h hk

/-- Position `k` finds exactly `index_of_max`, when `k` joins the component,
the component has another interval, and `k` starts after its end. -/
theorem SweepInv.flagAt_iff (q : Nat) :
    FlagAt item q k ↔ q = s.indexOfMax ∧ (item k).start < s.endMaxSoFar ∧
      s.prevEndMax ≠ kMinIntegerValue ∧ s.prevEndMax ≤ (item k).start := by
  have hci := h.component_le
  have hik := h.indexOfMax_lt
  have hmax := h.endMaxSoFar_eq
  constructor
  · rintro ⟨hqk, hkq, hbefore, m, hmk, hmq, hmo⟩
    obtain rfl : q = s.indexOfMax := by
      by_contra hne
      have := hbefore _ hik (Ne.symm hne)
      have := h.end_le_endMaxSoFar q hqk
      omega
    have hcm : c ≤ m := by
      by_contra hmc
      have := h.end_le_component m (by omega)
      have := hS.start_le c _ hci (by omega)
      have := hmo.2
      omega
    obtain ⟨m', -, hm'k, hm'i, hm'e, -⟩ := h.prevEndMax_cases.resolve_left fun h' => by omega
    have := hS.start_lt_end m' (by omega)
    have := hS.kMin_le m' (by omega)
    have := hbefore m' hm'k hm'i
    exact ⟨rfl, by omega, by omega, by omega⟩
  · rintro ⟨rfl, hlt, hne, hle⟩
    obtain ⟨m, -, hmk, hmi, -, hmo⟩ := h.prevEndMax_cases.resolve_left fun h' => hne h'.2
    refine ⟨hik, by omega, fun m' hm'k hm'i => ?_, m, hmk, hmi, hmo⟩
    rcases Nat.lt_or_ge m' c with hm'c | hm'c
    · have := h.end_le_component m' hm'c
      have := hS.start_le c k (by omega) hk
      omega
    · have := h.end_le_prevEndMax m' hm'c hm'k hm'i
      omega

theorem SweepInv.not_flagAt (hge : s.endMaxSoFar ≤ (item k).start) (q : Nat) :
    ¬ FlagAt item q k := fun hf => by
  have := ((h.flagAt_iff hS hk q).mp hf).2.1
  omega

/-- The marked points after `k` joins the component: still increasing, still
bounded by `index_of_max`, and the positions found up to `k`. -/
theorem SweepInv.markArticulationPoint (hlt : (item k).start < s.endMaxSoFar) :
    (markArticulationPoint kMinIntegerValue s (item k)).Sorted (· < ·) ∧
      (∀ p ∈ markArticulationPoint kMinIntegerValue s (item k), p ≤ s.indexOfMax) ∧
      ∀ q, q ∈ markArticulationPoint kMinIntegerValue s (item k) ↔
        ∃ j < k + 1, FlagAt item q j := by
  have hflag := h.flagAt_iff hS hk
  have hsucc := mem_iff_succ h.mem_iff
  unfold OrTools.Sat.markArticulationPoint
  split_ifs with hcond hlast
  · have hlt' := lt_of_getLast?_ne h.sorted h.le_indexOfMax hlast
    refine ⟨List.pairwise_append.mpr ⟨h.sorted, List.pairwise_singleton _ _, fun p hp q hq => ?_⟩,
      fun p hp => ?_, fun q => ?_⟩
    · rw [List.mem_singleton.mp hq]; exact hlt' p hp
    · rcases List.mem_append.mp hp with hp | hp
      · exact h.le_indexOfMax p hp
      · rw [List.mem_singleton.mp hp]
    · rw [hsucc, hflag, List.mem_append, List.mem_singleton]
      exact or_congr Iff.rfl ⟨fun e => ⟨e, hlt, hcond⟩, fun hf => hf.1⟩
  · refine ⟨h.sorted, h.le_indexOfMax, fun q => ?_⟩
    rw [hsucc, hflag]
    have hi : s.indexOfMax ∈ s.articulationPoints :=
      List.mem_of_getLast?_eq_some (not_not.mp hlast)
    exact ⟨.inl, fun hq => hq.elim id fun hf => hf.1 ▸ hi⟩
  · refine ⟨h.sorted, h.le_indexOfMax, fun q => ?_⟩
    rw [hsucc, hflag]
    exact ⟨.inl, fun hq => hq.elim id fun hf => absurd hf.2.2 hcond⟩

/-- One iteration keeps the invariant, opening a component at `k` or keeping
the current one. -/
theorem SweepInv.step : ∃ c', SweepInv kMinIntegerValue item (k + 1) c'
    (articulationStep kMinIntegerValue s k (item k)) := by
  have hci := h.component_le
  have hik := h.indexOfMax_lt
  have hmax := h.endMaxSoFar_eq
  have hke := hS.start_lt_end k hk
  have hkmin := hS.kMin_le k hk
  have hstart := hS.start_le _ k hik.le hk
  have hle := h.end_le_endMaxSoFar
  have hprev := h.end_le_prevEndMax
  dsimp only [articulationStep]
  split_ifs with hge hgt hgt'
  · -- a new component opens at `k`
    refine ⟨k, (sweepInv_iff _ _ _ _ _).mpr ?_⟩
    dsimp only
    refine ⟨le_rfl, by omega, fun m hm => by have := hle m hm; omega, rfl, fun m hm => ?_,
      fun m _ _ _ => by omega, .inl ⟨rfl, rfl⟩, h.sorted,
      fun p hp => by have := h.le_indexOfMax p hp; omega, fun q => ?_⟩
    · rcases Nat.lt_succ_iff_lt_or_eq.mp hm with hm | rfl
      · have := hle m hm; omega
      · exact le_rfl
    · rw [mem_iff_succ h.mem_iff]
      exact ⟨.inl, fun hq => hq.elim id fun hf => absurd hf (h.not_flagAt hS hk (by omega) q)⟩
  all_goals obtain ⟨hsorted, hbound, hmem⟩ := h.markArticulationPoint hS hk (by omega)
  · -- `k` ends last: it becomes `index_of_max`, the old one gives `prev_end_max`
    refine ⟨c, (sweepInv_iff _ _ _ _ _).mpr ?_⟩
    dsimp only
    refine ⟨by omega, by omega, h.end_le_component, rfl, fun m hm => ?_,
      fun m _ hm hmk => hle m (by omega),
      .inr ⟨s.indexOfMax, hci, by omega, by omega, hmax.symm, by omega, by omega⟩,
      hsorted, fun p hp => by have := hbound p hp; omega, hmem⟩
    rcases Nat.lt_succ_iff_lt_or_eq.mp hm with hm | rfl
    · have := hle m hm; omega
    · exact le_rfl
  · -- `k` ends after `prev_end_max`: it gives the new `prev_end_max`
    refine ⟨c, (sweepInv_iff _ _ _ _ _).mpr ?_⟩
    dsimp only
    refine ⟨hci, by omega, h.end_le_component, hmax, fun m hm => ?_, fun m hcm hm hmi => ?_,
      .inr ⟨k, by omega, by omega, by omega, rfl, by omega, by omega⟩, hsorted, hbound, hmem⟩
    · rcases Nat.lt_succ_iff_lt_or_eq.mp hm with hm | rfl
      · exact hle m hm
      · omega
    · rcases Nat.lt_succ_iff_lt_or_eq.mp hm with hm | rfl
      · have := hprev m hcm hm hmi; omega
      · exact le_rfl
  · -- `k` changes neither end
    refine ⟨c, (sweepInv_iff _ _ _ _ _).mpr ?_⟩
    dsimp only
    refine ⟨hci, by omega, h.end_le_component, hmax, fun m hm => ?_, fun m hcm hm hmi => ?_, ?_,
      hsorted, hbound, hmem⟩
    · rcases Nat.lt_succ_iff_lt_or_eq.mp hm with hm | rfl
      · exact hle m hm
      · omega
    · rcases Nat.lt_succ_iff_lt_or_eq.mp hm with hm | rfl
      · exact hprev m hcm hm hmi
      · omega
    · rcases h.prevEndMax_cases with ⟨-, hp⟩ | ⟨m, hcm, hmk, hmi, hme, hmo⟩
      · omega
      · exact .inr ⟨m, hcm, by omega, hmi, hme, hmo⟩

end Sweep

/-- The loop from position `k` on keeps the invariant to the end: the points
marked are increasing and are the positions found anywhere. -/
theorem SweepInv.sweep {kMinIntegerValue : Int} {S : List IndexedInterval} {d : IndexedInterval}
    (hS : SortedInput kMinIntegerValue S.length (S.getD · d)) :
    ∀ m k c s, k + m = S.length → SweepInv kMinIntegerValue (S.getD · d) k c s →
      (articulationSweep kMinIntegerValue k (S.drop k) s).articulationPoints.Sorted (· < ·) ∧
      ∀ q, q ∈ (articulationSweep kMinIntegerValue k (S.drop k) s).articulationPoints ↔
        ∃ j < S.length, FlagAt (S.getD · d) q j
  | 0, k, _, s, hkm, h => by
    rw [Nat.add_zero] at hkm
    subst hkm
    rw [List.drop_length]
    exact ⟨h.sorted, h.mem_iff⟩
  | m + 1, k, _, s, hkm, h => by
    have hk : k < S.length := by omega
    obtain ⟨c', h'⟩ := h.step hS hk
    rw [List.drop_eq_getElem_cons hk, ← List.getD_eq_getElem _ d hk]
    exact SweepInv.sweep hS m (k + 1) c' _ (by omega) h'

theorem sortedInput_of_sortedBy {kMinIntegerValue : Int} {intervals sorted : List IndexedInterval}
    (hsort : SortedBy ComparatorByStart intervals sorted) (hse : ∀ x ∈ intervals, x.start < x.end)
    (hmin : ∀ x ∈ intervals, kMinIntegerValue ≤ x.start) (d : IndexedInterval) :
    SortedInput kMinIntegerValue sorted.length (sorted.getD · d) := by
  obtain ⟨hperm, hpw⟩ := hsort
  have hmem : ∀ p < sorted.length, sorted.getD p d ∈ intervals := fun p hp =>
    hperm.subset (getD_mem hp)
  refine ⟨fun p r hpr hr => ?_, fun p hp => hse _ (hmem p hp), fun p hp => hmin _ (hmem p hp)⟩
  rcases hpr.lt_or_eq with hpr | rfl
  · have := List.pairwise_iff_getElem.mp hpw p r (by omega) hr hpr
    simp only [ComparatorByStart, decide_eq_false_iff_not, not_lt] at this
    rwa [List.getD_eq_getElem _ _ hr, List.getD_eq_getElem _ _ (by omega)]
  · exact le_rfl

/-- For intervals from `kMinIntegerValue` on with distinct indices,
`GetIntervalArticulationPoints()` returns, each once, the indices of exactly the
articulation points of the overlap graph, whatever order the sort leaves
intervals with equal starts in. -/
theorem getIntervalArticulationPoints_articulation (kMinIntegerValue : Int)
    {intervals sorted : List IndexedInterval} (hsort : SortedBy ComparatorByStart intervals sorted)
    (hse : ∀ x ∈ intervals, x.start < x.end) (hmin : ∀ x ∈ intervals, kMinIntegerValue ≤ x.start)
    (hidx : (intervals.map (·.index)).Nodup) :
    (getIntervalArticulationPoints kMinIntegerValue sorted).Nodup ∧
      ∀ i, i ∈ getIntervalArticulationPoints kMinIntegerValue sorted ↔
        ∃ v ∈ intervals, v.index = i ∧ IsArticulationPoint intervals v := by
  have hperm := hsort.1
  have hnd : sorted.Nodup := hperm.nodup_iff.mpr (List.Nodup.of_map _ hidx)
  have hinj := List.inj_on_of_nodup_map ((hperm.map (·.index)).nodup_iff.mpr hidx)
  simp only [← isArticulationPoint_perm hperm, ← hperm.mem_iff]
  unfold getIntervalArticulationPoints
  split_ifs with hlen
  · refine ⟨List.nodup_nil, fun i => ⟨fun h => absurd h (List.not_mem_nil _), ?_⟩⟩
    rintro ⟨v, hv, -, hart⟩
    obtain ⟨q, hq, rfl⟩ := exists_getD_eq (d := ⟨0, 0, 0⟩) hv
    obtain ⟨k, hk, hqk, -, -, m, hmk, hmq, -⟩ := (isArticulationPoint_iff_flagAt
      (sortedInput_of_sortedBy hsort hse hmin _) hnd hq).mp hart
    omega
  · obtain _ | ⟨first, rest⟩ := sorted
    · simp at hlen
    have hS := sortedInput_of_sortedBy hsort hse hmin first
    have hinit : SweepInv kMinIntegerValue ((first :: rest).getD · first) 1 0
        ⟨first.end, 0, kMinIntegerValue, []⟩ := by
      refine (sweepInv_iff _ _ _ _ _).mpr ?_
      dsimp only
      refine ⟨le_rfl, Nat.one_pos, fun _ h => absurd h (Nat.not_lt_zero _), rfl, fun m hm => ?_,
        fun _ _ _ _ => by omega, .inl ⟨rfl, rfl⟩, List.sorted_nil,
        fun _ h => absurd h (List.not_mem_nil _),
        fun q => ⟨fun h => absurd h (List.not_mem_nil _), fun ⟨j, hj, hf⟩ => by
          have := hf.1; omega⟩⟩
      rw [Nat.lt_one_iff.mp hm]
      exact le_rfl
    obtain ⟨hsorted, hmem⟩ := SweepInv.sweep hS rest.length 1 0 _ (by simp; omega) hinit
    refine ⟨hsorted.nodup.map_on fun p hp r hr e => ?_, fun i => ?_⟩
    · obtain ⟨j, hj, hf⟩ := (hmem p).mp hp
      obtain ⟨j', hj', hf'⟩ := (hmem r).mp hr
      have hp' : p < (first :: rest).length := by have := hf.1; omega
      have hr' : r < (first :: rest).length := by have := hf'.1; omega
      exact (getD_inj hnd hp' hr').mp (hinj (getD_mem hp') (getD_mem hr') e)
    rw [List.mem_map]
    constructor
    · rintro ⟨p, hp, rfl⟩
      obtain ⟨j, hj, hf⟩ := (hmem p).mp hp
      have hp' : p < (first :: rest).length := by have := hf.1; omega
      exact ⟨_, getD_mem hp', rfl, (isArticulationPoint_iff_flagAt hS hnd hp').mpr ⟨j, hj, hf⟩⟩
    · rintro ⟨v, hv, rfl, hart⟩
      obtain ⟨q, hq, rfl⟩ := exists_getD_eq (d := first) hv
      exact ⟨q, (hmem q).mpr ((isArticulationPoint_iff_flagAt hS hnd hq).mp hart), rfl⟩

theorem getIntervalArticulationPoints_articulation_on_chain :
    SortedBy ComparatorByStart [⟨0, 0, 2⟩, ⟨1, 1, 4⟩, ⟨2, 3, 5⟩] [⟨0, 0, 2⟩, ⟨1, 1, 4⟩, ⟨2, 3, 5⟩] ∧
      (∀ x ∈ ([⟨0, 0, 2⟩, ⟨1, 1, 4⟩, ⟨2, 3, 5⟩] : List IndexedInterval), x.start < x.end) ∧
      (∀ x ∈ ([⟨0, 0, 2⟩, ⟨1, 1, 4⟩, ⟨2, 3, 5⟩] : List IndexedInterval), 0 ≤ x.start) ∧
      (([⟨0, 0, 2⟩, ⟨1, 1, 4⟩, ⟨2, 3, 5⟩] : List IndexedInterval).map (·.index)).Nodup ∧
      (getIntervalArticulationPoints 0 [⟨0, 0, 2⟩, ⟨1, 1, 4⟩, ⟨2, 3, 5⟩]).Nodup ∧
      ∀ i, i ∈ getIntervalArticulationPoints 0 [⟨0, 0, 2⟩, ⟨1, 1, 4⟩, ⟨2, 3, 5⟩] ↔
        ∃ v ∈ ([⟨0, 0, 2⟩, ⟨1, 1, 4⟩, ⟨2, 3, 5⟩] : List IndexedInterval), v.index = i ∧
          IsArticulationPoint [⟨0, 0, 2⟩, ⟨1, 1, 4⟩, ⟨2, 3, 5⟩] v :=
  have hsort : SortedBy ComparatorByStart [⟨0, 0, 2⟩, ⟨1, 1, 4⟩, ⟨2, 3, 5⟩]
      [⟨0, 0, 2⟩, ⟨1, 1, 4⟩, ⟨2, 3, 5⟩] := ⟨.refl _, by decide⟩
  ⟨hsort, by decide, by decide, by decide,
    getIntervalArticulationPoints_articulation 0 hsort (by decide) (by decide) (by decide)⟩

example : getIntervalArticulationPoints 0 [⟨0, 0, 2⟩, ⟨1, 1, 4⟩, ⟨2, 3, 5⟩] = [1] := rfl

/-- An interval ending at `kMinIntegerValue` (here `0`) is taken for the
sentinel, and the articulation point after it is missed; and two articulation
points with one index give the index twice. -/
theorem getIntervalArticulationPoints_misses_or_repeats :
    (SortedBy ComparatorByStart [⟨0, -1, 0⟩, ⟨1, -1, 2⟩, ⟨2, 1, 3⟩]
        [⟨0, -1, 0⟩, ⟨1, -1, 2⟩, ⟨2, 1, 3⟩] ∧
      IsArticulationPoint [⟨0, -1, 0⟩, ⟨1, -1, 2⟩, ⟨2, 1, 3⟩] ⟨1, -1, 2⟩ ∧
      getIntervalArticulationPoints 0 [⟨0, -1, 0⟩, ⟨1, -1, 2⟩, ⟨2, 1, 3⟩] = []) ∧
    (SortedBy ComparatorByStart [⟨0, 0, 2⟩, ⟨9, 1, 4⟩, ⟨9, 3, 6⟩, ⟨3, 5, 7⟩]
        [⟨0, 0, 2⟩, ⟨9, 1, 4⟩, ⟨9, 3, 6⟩, ⟨3, 5, 7⟩] ∧
      getIntervalArticulationPoints 0 [⟨0, 0, 2⟩, ⟨9, 1, 4⟩, ⟨9, 3, 6⟩, ⟨3, 5, 7⟩] = [9, 9]) :=
  ⟨⟨⟨.refl _, by decide⟩,
    CutAt.isArticulationPoint (t := 0) (by decide) (by decide) (by decide)
      ⟨by decide, by decide, by decide⟩, rfl⟩, ⟨.refl _, by decide⟩, rfl⟩

end OrTools.Sat

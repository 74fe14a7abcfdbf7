import Mathlib.Logic.Relation
import Mathlib.Data.List.Nodup
import Mathlib.Data.List.Pairwise

/-!
# Overlapping intervals: connected components

The interval helpers of the rectangle presolve work on `IndexedInterval`s,
half-open intervals `[start, end)` named by an index.  Two intervals are
adjacent in the overlap graph when each starts before the other ends.

`GetOverlappingIntervalComponents()` sorts the intervals and sweeps them once,
opening a new component whenever an interval starts at or after every end seen
so far.  The sweep splits the sorted intervals into groups, each connected in
the overlap graph, with no interval of one group overlapping an interval of
another.  When the indices are distinct the groups, read as indices, are the
connected components.

`std::sort` is modelled by its contract: the vector it leaves is a permutation
of its input on which no element compares below an earlier one.
-/

set_option autoImplicit false

namespace OrTools.Sat

/-- Modelled from the spec: `IndexedInterval` is declared in `diffn_util.h`,
which is not under src/; its fields are the three the code reads, in the order
of the sentinel `{-1, kMaxIntegerValue, kMaxIntegerValue}`. -/
structure IndexedInterval where
  index : Int
  start : Int
  «end» : Int
  deriving DecidableEq, Repr

namespace IndexedInterval

/-- Modelled from the spec: `IndexedInterval::ComparatorByStartThenEndThenIndex`
of `diffn_util.h`, the lexicographic order on `(start, end, index)`. -/
def ComparatorByStartThenEndThenIndex (a b : IndexedInterval) : Bool :=
  a.start < b.start || (a.start = b.start && (a.end < b.end || (a.end = b.end && a.index < b.index)))

/-- The intervals overlap: each starts before the other ends. -/
def Overlaps (a b : IndexedInterval) : Prop := a.start < b.end ∧ b.start < a.end

instance (a b : IndexedInterval) : Decidable (a.Overlaps b) := inferInstanceAs (Decidable (_ ∧ _))

theorem Overlaps.symm {a b : IndexedInterval} (h : a.Overlaps b) : b.Overlaps a := ⟨h.2, h.1⟩

/-- An interval the comparator does not put below an earlier one starts no
earlier, and ends no earlier when it starts at the same point. -/
theorem le_of_not_comparator {a b : IndexedInterval}
    (h : ComparatorByStartThenEndThenIndex b a = false) :
    a.start ≤ b.start ∧ (a.start = b.start → a.end ≤ b.end) := by
  simp only [ComparatorByStartThenEndThenIndex, Bool.or_eq_false_iff, Bool.and_eq_false_imp,
    decide_eq_false_iff_not, decide_eq_true_eq] at h
  omega

end IndexedInterval

open IndexedInterval

/-- Adjacent in the overlap graph of the intervals `L`. -/
def Adjacent (L : List IndexedInterval) (a b : IndexedInterval) : Prop := a ∈ L ∧ b ∈ L ∧ a.Overlaps b

/-- Connected in the overlap graph of the intervals `L`. -/
def Connected (L : List IndexedInterval) : IndexedInterval → IndexedInterval → Prop :=
  Relation.ReflTransGen (Adjacent L)

theorem Connected.symm {L : List IndexedInterval} {a b : IndexedInterval} (h : Connected L a b) :
    Connected L b a :=
  Relation.ReflTransGen.symmetric (fun _ _ h => ⟨h.2.1, h.1, h.2.2.symm⟩) h

/-- The vector as `std::sort(…, comparator)` leaves it: a permutation of its
input on which no element compares below an earlier one. -/
def SortedBy (comparator : IndexedInterval → IndexedInterval → Bool)
    (intervals sorted : List IndexedInterval) : Prop :=
  sorted.Perm intervals ∧ sorted.Pairwise fun a b => comparator b a = false

/-! ## `GetOverlappingIntervalComponents()` -/

/-- The loop of `GetOverlappingIntervalComponents()` over the sorted intervals
after the first: `block` is `components->back()` and `endMaxSoFar` is
`end_max_so_far`. -/
def componentsFrom (block : List Int) (endMaxSoFar : Int) : List IndexedInterval → List (List Int)
  | [] => [block]
  | interval :: rest =>
    if interval.start ≥ endMaxSoFar then
      block :: componentsFrom [interval.index] (max endMaxSoFar interval.end) rest
    else componentsFrom (block ++ [interval.index]) (max endMaxSoFar interval.end) rest

/-- `GetOverlappingIntervalComponents(intervals, components)`, on the intervals
as `std::sort` with `ComparatorByStartThenEndThenIndex` leaves them. -/
def getOverlappingIntervalComponents : List IndexedInterval → List (List Int)
  | [] => []
  | [interval] => [[interval.index]]
  | first :: rest => componentsFrom [first.index] first.end rest

/-- `blocks` splits intervals into non-empty groups, each connected in the
overlap graph of `L`, with no interval of one group overlapping an interval of
another. -/
structure ComponentSplit (L : List IndexedInterval) (blocks : List (List IndexedInterval)) : Prop where
  ne_nil : ∀ b ∈ blocks, b ≠ []
  connected : ∀ b ∈ blocks, ∀ x ∈ b, ∀ y ∈ b, Connected L x y
  separated : blocks.Pairwise fun b b' => ∀ x ∈ b, ∀ y ∈ b', ¬ x.Overlaps y

/-- The invariant of the sweep before the intervals `rest`: the current
component `block` is connected, ends by `end_max_so_far` and reaches it, and
what is left comes after it in the order of the sort. -/
structure Sweep (L block rest : List IndexedInterval) (endMaxSoFar : Int) : Prop where
  block_ne : block ≠ []
  end_le : ∀ x ∈ block, x.end ≤ endMaxSoFar
  end_attained : ∃ x ∈ block, x.end = endMaxSoFar
  block_before : ∀ x ∈ block, ∀ y ∈ rest, ComparatorByStartThenEndThenIndex y x = false
  rest_sorted : rest.Pairwise fun a b => ComparatorByStartThenEndThenIndex b a = false
  mem_block : ∀ x ∈ block, x ∈ L
  mem_rest : ∀ y ∈ rest, y ∈ L ∧ y.start ≤ y.end
  connected : ∀ x ∈ block, ∀ y ∈ block, Connected L x y

namespace Sweep

variable {L block rest : List IndexedInterval} {e : Int} {interval : IndexedInterval}

/-- An interval starting before `end_max_so_far` overlaps the interval of the
component that ends there, so joining it keeps the component connected.  An
empty interval at the start of that one would not, but the sort puts it first. -/
theorem join (h : Sweep L block (interval :: rest) e) (hlt : interval.start < e) :
    Sweep L (block ++ [interval]) rest (max e interval.end) := by
  obtain ⟨x, hx, hxe⟩ := h.end_attained
  obtain ⟨hmem, hse⟩ := h.mem_rest interval (List.mem_cons_self _ _)
  have hord := le_of_not_comparator (h.block_before x hx interval (List.mem_cons_self _ _))
  have hadj : Adjacent L x interval := ⟨h.mem_block x hx, hmem, by omega, by omega⟩
  have hjoin : ∀ y ∈ block, Connected L y interval := fun y hy =>
    (h.connected y hy x hx).tail hadj
  refine ⟨by simp, fun y hy => ?_, ?_, fun y hy z hz => ?_, (List.pairwise_cons.mp h.rest_sorted).2,
    fun y hy => ?_, fun y hy => h.mem_rest y (List.mem_cons_of_mem _ hy), fun y hy z hz => ?_⟩
  · rcases List.mem_append.mp hy with hy | hy
    · exact (h.end_le y hy).trans (le_max_left _ _)
    · rw [List.mem_singleton.mp hy]; exact le_max_right _ _
  · rcases le_total e interval.end with hle | hle
    · exact ⟨interval, by simp, (max_eq_right hle).symm⟩
    · exact ⟨x, by simp [hx], by rw [max_eq_left hle, hxe]⟩
  · rcases List.mem_append.mp hy with hy | hy
    · exact h.block_before y hy z (List.mem_cons_of_mem _ hz)
    · rw [List.mem_singleton.mp hy]; exact (List.pairwise_cons.mp h.rest_sorted).1 z hz
  · rcases List.mem_append.mp hy with hy | hy
    · exact h.mem_block y hy
    · rw [List.mem_singleton.mp hy]; exact hmem
  · rcases List.mem_append.mp hy with hy | hy <;> rcases List.mem_append.mp hz with hz | hz
    · exact h.connected y hy z hz
    · rw [List.mem_singleton.mp hz]; exact hjoin y hy
    · rw [List.mem_singleton.mp hy]; exact (hjoin z hz).symm
    · rw [List.mem_singleton.mp hy, List.mem_singleton.mp hz]; exact .refl

/-- An interval starting at or after `end_max_so_far` opens a component of its
own; no interval of the old one overlaps it or anything after it. -/
theorem split (h : Sweep L block (interval :: rest) e) (hge : e ≤ interval.start) :
    Sweep L [interval] rest (max e interval.end) ∧
      ∀ x ∈ block, ∀ y ∈ interval :: rest, ¬ x.Overlaps y := by
  obtain ⟨hmem, hse⟩ := h.mem_rest interval (List.mem_cons_self _ _)
  have hsorted := List.pairwise_cons.mp h.rest_sorted
  refine ⟨⟨by simp, by simp, ⟨interval, by simp, by omega⟩, fun y hy z hz => ?_, hsorted.2,
    by simpa using hmem, fun y hy => h.mem_rest y (List.mem_cons_of_mem _ hy), ?_⟩,
    fun x hx y hy hxy => ?_⟩
  · rw [List.mem_singleton.mp hy]; exact hsorted.1 z hz
  · simp only [List.mem_singleton]; rintro _ rfl _ rfl; exact .refl
  · have hys : interval.start ≤ y.start := by
      rcases List.mem_cons.mp hy with rfl | hy
      · exact le_rfl
      · exact (le_of_not_comparator (hsorted.1 y hy)).1
    have := h.end_le x hx
    exact absurd hxy.2 (by omega)

end Sweep

/-- The sweep from an invariant state splits the current component and the
intervals left into groups as `ComponentSplit` says, and answers their
indices. -/
theorem componentsFrom_split {L : List IndexedInterval} :
    ∀ (rest block : List IndexedInterval) (e : Int), Sweep L block rest e →
      ∃ blocks, componentsFrom (block.map (·.index)) e rest = blocks.map (·.map (·.index)) ∧
        blocks.flatten = block ++ rest ∧ ComponentSplit L blocks
  | [], block, _, h => ⟨[block], rfl, by simp, ⟨by simpa using h.block_ne,
      by simpa using h.connected, List.pairwise_singleton _ _⟩⟩
  | interval :: rest, block, e, h => by
    by_cases hge : e ≤ interval.start
    · obtain ⟨h', hsep⟩ := h.split hge
      obtain ⟨blocks, hout, hflat, hsplit⟩ := componentsFrom_split rest _ _ h'
      refine ⟨block :: blocks, ?_, by simp [hflat], ⟨?_, ?_, ?_⟩⟩
      · simp only [componentsFrom, ge_iff_le, if_pos hge, List.map_cons]
        rw [← hout]; rfl
      · simpa using ⟨h.block_ne, hsplit.ne_nil⟩
      · simpa using ⟨h.connected, hsplit.connected⟩
      · refine List.Pairwise.cons (fun b hb x hx y hy => hsep x hx y ?_) hsplit.separated
        have : y ∈ blocks.flatten := List.mem_flatten.mpr ⟨b, hb, hy⟩
        rwa [hflat] at this
    · obtain ⟨blocks, hout, hflat, hsplit⟩ :=
        componentsFrom_split rest _ _ (h.join (not_le.mp hge))
      refine ⟨blocks, ?_, by simp [hflat], hsplit⟩
      simp only [componentsFrom, ge_iff_le, if_neg hge]
      rw [← hout, List.map_append]; rfl

theorem getOverlappingIntervalComponents_cons (first : IndexedInterval) (rest : List IndexedInterval) :
    getOverlappingIntervalComponents (first :: rest) = componentsFrom [first.index] first.end rest := by
  cases rest <;> rfl

/-- On the intervals as the sort leaves them, the components are the indices of
a split of the intervals as `ComponentSplit` says. -/
theorem getOverlappingIntervalComponents_split {intervals sorted : List IndexedInterval}
    (hsort : SortedBy ComparatorByStartThenEndThenIndex intervals sorted)
    (hse : ∀ x ∈ intervals, x.start ≤ x.end) :
    ∃ blocks, getOverlappingIntervalComponents sorted = blocks.map (·.map (·.index)) ∧
      blocks.flatten.Perm intervals ∧ ComponentSplit intervals blocks := by
  obtain ⟨hperm, hsorted⟩ := hsort
  cases sorted with
  | nil => exact ⟨[], rfl, by simpa using hperm, ⟨by simp, by simp, .nil⟩⟩
  | cons first rest =>
    have hmem : ∀ x ∈ first :: rest, x ∈ intervals := fun x hx => hperm.subset hx
    have h : Sweep intervals [first] rest first.end :=
      ⟨by simp, by simp, by simp, by simpa using (List.pairwise_cons.mp hsorted).1,
        (List.pairwise_cons.mp hsorted).2, by simpa using hmem first (List.mem_cons_self _ _),
        fun y hy => ⟨hmem y (List.mem_cons_of_mem _ hy), hse y (hmem y (List.mem_cons_of_mem _ hy))⟩,
        by simp only [List.mem_singleton]; rintro _ rfl _ rfl; exact .refl⟩
    obtain ⟨blocks, hout, hflat, hsplit⟩ := componentsFrom_split rest [first] first.end h
    exact ⟨blocks, by rw [getOverlappingIntervalComponents_cons, ← hout]; rfl,
      by rw [hflat]; exact hperm, hsplit⟩

/-- Intervals connected in the overlap graph lie in one group of a split that
covers the intervals. -/
theorem ComponentSplit.mem_of_connected {L : List IndexedInterval}
    {blocks : List (List IndexedInterval)} (h : ComponentSplit L blocks)
    (hcover : ∀ z ∈ L, ∃ b ∈ blocks, z ∈ b) {x y : IndexedInterval} (hx : x ∈ L)
    (hxy : Connected L x y) : ∃ b ∈ blocks, x ∈ b ∧ y ∈ b := by
  induction hxy with
  | refl => obtain ⟨b, hb, hxb⟩ := hcover x hx; exact ⟨b, hb, hxb, hxb⟩
  | tail _ hzw ih =>
    obtain ⟨b, hb, hxb, hzb⟩ := ih
    obtain ⟨b', hb', hwb'⟩ := hcover _ hzw.2.1
    by_cases e : b = b'
    · exact ⟨b, hb, hxb, e ▸ hwb'⟩
    · have hsymm : Symmetric fun b b' : List IndexedInterval => ∀ x ∈ b, ∀ y ∈ b', ¬ x.Overlaps y :=
        fun _ _ hr y hy x hx hov => hr x hx y hy hov.symm
      exact absurd hzw.2.2 (h.separated.forall hsymm hb hb' e _ hzb _ hwb')

/-- `GetOverlappingIntervalComponents()` returns the indices of a split of the
intervals into connected, mutually non-overlapping groups, each interval
contributing its own index.  When the indices are distinct, it returns each
index once, in non-empty blocks, and two intervals have their indices in one
block exactly when they are connected in the overlap graph. -/
theorem getOverlappingIntervalComponents_components {intervals sorted : List IndexedInterval}
    (hsort : SortedBy ComparatorByStartThenEndThenIndex intervals sorted)
    (hse : ∀ x ∈ intervals, x.start ≤ x.end) :
    (∃ blocks, getOverlappingIntervalComponents sorted = blocks.map (·.map (·.index)) ∧
      blocks.flatten.Perm intervals ∧ ComponentSplit intervals blocks) ∧
    ((intervals.map (·.index)).Nodup →
      (getOverlappingIntervalComponents sorted).flatten.Perm (intervals.map (·.index)) ∧
      (∀ c ∈ getOverlappingIntervalComponents sorted, c ≠ []) ∧
      ∀ x ∈ intervals, ∀ y ∈ intervals,
        (∃ c ∈ getOverlappingIntervalComponents sorted, x.index ∈ c ∧ y.index ∈ c) ↔
          Connected intervals x y) := by
  obtain ⟨blocks, hout, hflat, hsplit⟩ := getOverlappingIntervalComponents_split hsort hse
  refine ⟨⟨blocks, hout, hflat, hsplit⟩, fun hidx => ?_⟩
  have hinj := List.inj_on_of_nodup_map ((hflat.map (·.index)).nodup_iff.mpr hidx)
  have hin : ∀ z ∈ intervals, z ∈ blocks.flatten := fun z hz => hflat.symm.subset hz
  rw [hout]
  refine ⟨by rw [← List.map_flatten]; exact hflat.map _, fun c hc => ?_, fun x hx y hy => ?_⟩
  · obtain ⟨b, hb, rfl⟩ := List.mem_map.mp hc
    simpa using hsplit.ne_nil b hb
  constructor
  · rintro ⟨c, hc, hxc, hyc⟩
    obtain ⟨b, hb, rfl⟩ := List.mem_map.mp hc
    obtain ⟨x', hx', hxe⟩ := List.mem_map.mp hxc
    obtain ⟨y', hy', hye⟩ := List.mem_map.mp hyc
    have hbf : ∀ z ∈ b, z ∈ blocks.flatten := fun z hz => List.mem_flatten.mpr ⟨b, hb, hz⟩
    rw [← hinj (hbf x' hx') (hin x hx) hxe, ← hinj (hbf y' hy') (hin y hy) hye]
    exact hsplit.connected b hb x' hx' y' hy'
  · intro hxy
    obtain ⟨b, hb, hxb, hyb⟩ := hsplit.mem_of_connected
      (fun z hz => List.mem_flatten.mp (hin z hz)) hx hxy
    exact ⟨_, List.mem_map_of_mem _ hb, List.mem_map_of_mem _ hxb, List.mem_map_of_mem _ hyb⟩

theorem getOverlappingIntervalComponents_components_on_three :
    SortedBy ComparatorByStartThenEndThenIndex [⟨0, 0, 2⟩, ⟨1, 1, 3⟩, ⟨2, 5, 6⟩]
        [⟨0, 0, 2⟩, ⟨1, 1, 3⟩, ⟨2, 5, 6⟩] ∧
      (∀ x ∈ ([⟨0, 0, 2⟩, ⟨1, 1, 3⟩, ⟨2, 5, 6⟩] : List IndexedInterval), x.start ≤ x.end) ∧
      (∃ blocks, getOverlappingIntervalComponents [⟨0, 0, 2⟩, ⟨1, 1, 3⟩, ⟨2, 5, 6⟩] =
          blocks.map (·.map (·.index)) ∧ blocks.flatten.Perm [⟨0, 0, 2⟩, ⟨1, 1, 3⟩, ⟨2, 5, 6⟩] ∧
          ComponentSplit [⟨0, 0, 2⟩, ⟨1, 1, 3⟩, ⟨2, 5, 6⟩] blocks) ∧
      ((([⟨0, 0, 2⟩, ⟨1, 1, 3⟩, ⟨2, 5, 6⟩] : List IndexedInterval).map (·.index)).Nodup →
      (getOverlappingIntervalComponents [⟨0, 0, 2⟩, ⟨1, 1, 3⟩, ⟨2, 5, 6⟩]).flatten.Perm
        (([⟨0, 0, 2⟩, ⟨1, 1, 3⟩, ⟨2, 5, 6⟩] : List IndexedInterval).map (·.index)) ∧
      (∀ c ∈ getOverlappingIntervalComponents [⟨0, 0, 2⟩, ⟨1, 1, 3⟩, ⟨2, 5, 6⟩], c ≠ []) ∧
      ∀ x ∈ ([⟨0, 0, 2⟩, ⟨1, 1, 3⟩, ⟨2, 5, 6⟩] : List IndexedInterval),
        ∀ y ∈ ([⟨0, 0, 2⟩, ⟨1, 1, 3⟩, ⟨2, 5, 6⟩] : List IndexedInterval),
          (∃ c ∈ getOverlappingIntervalComponents [⟨0, 0, 2⟩, ⟨1, 1, 3⟩, ⟨2, 5, 6⟩],
            x.index ∈ c ∧ y.index ∈ c) ↔ Connected [⟨0, 0, 2⟩, ⟨1, 1, 3⟩, ⟨2, 5, 6⟩] x y) :=
  have hsort : SortedBy ComparatorByStartThenEndThenIndex [⟨0, 0, 2⟩, ⟨1, 1, 3⟩, ⟨2, 5, 6⟩]
      [⟨0, 0, 2⟩, ⟨1, 1, 3⟩, ⟨2, 5, 6⟩] := ⟨.refl _, by decide⟩
  ⟨hsort, by decide, getOverlappingIntervalComponents_components hsort (by decide)⟩

example : getOverlappingIntervalComponents [⟨0, 0, 2⟩, ⟨1, 1, 3⟩, ⟨2, 5, 6⟩] = [[0, 1], [2]] := rfl

/-- Two intervals with one index: the index is returned twice. -/
theorem getOverlappingIntervalComponents_repeats_index :
    SortedBy ComparatorByStartThenEndThenIndex [⟨0, 0, 1⟩, ⟨0, 2, 3⟩] [⟨0, 0, 1⟩, ⟨0, 2, 3⟩] ∧
      getOverlappingIntervalComponents [⟨0, 0, 1⟩, ⟨0, 2, 3⟩] = [[0], [0]] :=
  ⟨⟨.refl _, by decide⟩, rfl⟩

end OrTools.Sat

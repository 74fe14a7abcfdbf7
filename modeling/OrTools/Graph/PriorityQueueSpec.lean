import OrTools.Graph.PriorityQueue

/-!
# `PriorityQueueWithRestrictedPush` against a model of its purpose

The model of the queue is the list of the entries it holds, most recently
pushed first; `Pop()` should answer the most recently pushed of the entries of
highest priority and remove it.  `Holds q l` relates the two vectors of the
queue to the model: each is the model's entries of one parity, back first, and
each is sorted.  Under the restriction on `Push()` every operation keeps the
relation and answers as the model does, so every legal sequence of operations
from the empty queue answers what the model answers.
-/

set_option autoImplicit false

namespace OrTools.PriorityQueueWithRestrictedPush

variable {α : Type}

/-- The entries `Push()` sends to `odd_queue_`. -/
def isOdd (x : α × Int) : Bool := x.2 % 2 = 1

/-! ## The model -/

namespace Model

/-- The entry has the highest priority of the list. -/
def IsTop (l : List (α × Int)) (x : α × Int) : Bool := l.all fun y => y.2 ≤ x.2

/-- `Pop()` as its purpose says: the first, that is the most recently pushed, of
the entries of highest priority, removed from the list. -/
def pop (l : List (α × Int)) : Option (α × List (α × Int)) :=
  (l.find? (IsTop l)).map fun x => (x.1, l.eraseP (IsTop l))

/-- `Push(element, priority)` is allowed on an empty queue or at a priority at
least the highest present minus one. -/
def CanPush (l : List (α × Int)) (priority : Int) : Bool := l.all fun y => y.2 - 1 ≤ priority

/-- The entry preceded only by entries of lower priority and followed by none of
higher priority is the one the model pops. -/
theorem pop_split {l₁ l₂ : List (α × Int)} {x : α × Int} (h₁ : ∀ y ∈ l₁, y.2 < x.2)
    (h₂ : ∀ y ∈ l₂, y.2 ≤ x.2) : pop (l₁ ++ x :: l₂) = some (x.1, l₁ ++ l₂) := by
  have hx : IsTop (l₁ ++ x :: l₂) x = true := by
    simp only [IsTop, List.all_eq_true, decide_eq_true_eq, List.mem_append, List.mem_cons]
    rintro y (hy | rfl | hy)
    exacts [Int.le_of_lt (h₁ y hy), Int.le_refl _, h₂ y hy]
  have hl₁ : ∀ y ∈ l₁, ¬ IsTop (l₁ ++ x :: l₂) y = true := fun y hy hyt => by
    simp only [IsTop, List.all_eq_true, decide_eq_true_eq] at hyt
    exact absurd (hyt x (by simp)) (Int.not_le.mpr (h₁ y hy))
  simp [pop, List.find?_eq_none.mpr hl₁, List.eraseP_append_right _ hl₁, hx]

@[simp] theorem pop_nil : pop ([] : List (α × Int)) = none := rfl

end Model

/-! ## The relation between the queue and the model -/

/-- `even_queue_` and `odd_queue_`, back first, are the model's entries of even
and of odd priority, and each is sorted by priority. -/
structure Holds (q : PriorityQueueWithRestrictedPush α) (l : List (α × Int)) : Prop where
  even : q.evenQueue = l.filter fun x => !isOdd x
  odd : q.oddQueue = l.filter isOdd
  even_sorted : q.evenQueue.Pairwise fun x y => y.2 ≤ x.2
  odd_sorted : q.oddQueue.Pairwise fun x y => y.2 ≤ x.2

theorem holds_empty : Holds (empty : PriorityQueueWithRestrictedPush α) [] :=
  ⟨rfl, rfl, .nil, .nil⟩

variable {q : PriorityQueueWithRestrictedPush α} {l : List (α × Int)}

theorem Holds.isEmpty_iff (h : Holds q l) : q.isEmpty = true ↔ l = [] := by
  simp only [isEmpty, h.even, h.odd, Bool.and_eq_true, List.isEmpty_iff, List.filter_eq_nil_iff]
  constructor
  · rintro ⟨he, ho⟩
    exact List.eq_nil_iff_forall_not_mem.mpr fun x hx => by
      cases hxo : isOdd x
      exacts [he x hx (by simp [hxo]), ho x hx hxo]
  · rintro rfl; simp

/-- Under the restriction, the pushed entry goes to the back of its vector and
keeps it sorted: an entry of the same parity present has a priority at most one
above, hence not above. -/
theorem Holds.push (h : Holds q l) {element : α} {priority : Int}
    (hp : Model.CanPush l priority = true) :
    Holds (q.push element priority) ((element, priority) :: l) := by
  simp only [Model.CanPush, List.all_eq_true, decide_eq_true_eq] at hp
  have hle : ∀ y ∈ l, isOdd y = isOdd (element, priority) → y.2 ≤ priority := fun y hy he => by
    have := hp y hy
    simp only [isOdd, decide_eq_decide] at he
    omega
  unfold PriorityQueueWithRestrictedPush.push
  split_ifs with ho
  · have hodd : isOdd (element, priority) = true := by simp [isOdd, ho]
    refine ⟨by simp [h.even, hodd], by simp [h.odd, hodd], h.even_sorted,
      List.pairwise_cons.mpr ⟨fun y hy => ?_, h.odd_sorted⟩⟩
    rw [h.odd, List.mem_filter] at hy
    exact hle y hy.1 (hy.2.trans hodd.symm)
  · have hodd : isOdd (element, priority) = false := by simp [isOdd, ho]
    refine ⟨by simp [h.even, hodd], by simp [h.odd, hodd],
      List.pairwise_cons.mpr ⟨fun y hy => ?_, h.even_sorted⟩, h.odd_sorted⟩
    rw [h.even, List.mem_filter, Bool.not_eq_true'] at hy
    exact hle y hy.1 (hy.2.trans hodd.symm)

/-- The pop of one vector, whose back `x` is above every entry of the other:
the model pops `x` too, and the vector loses its back. -/
theorem pop_of_filter {P : α × Int → Bool} {x : α × Int} {t : List (α × Int)}
    (hP : l.filter P = x :: t) (hs : (x :: t).Pairwise fun x y => y.2 ≤ x.2)
    (hother : ∀ y ∈ l, P y = false → y.2 < x.2) :
    ∃ l', Model.pop l = some (x.1, l') ∧ l'.filter P = t ∧
      l'.filter (fun y => !P y) = l.filter fun y => !P y := by
  obtain ⟨l₁, l₂, rfl, h₁, hx, rfl⟩ := List.filter_eq_cons_iff.mp hP
  have hle : ∀ y ∈ l₂, P y = true → y.2 ≤ x.2 := fun y hy hPy =>
    List.rel_of_pairwise_cons hs (List.mem_filter.mpr ⟨hy, hPy⟩)
  refine ⟨l₁ ++ l₂, Model.pop_split (fun y hy => hother y (by simp [hy]) (by simpa using h₁ y hy))
    (fun y hy => ?_), ?_, ?_⟩
  · cases hPy : P y
    exacts [Int.le_of_lt (hother y (by simp [hy]) hPy), hle y hy hPy]
  · simp [List.filter_append, List.filter_eq_nil_iff.mpr h₁]
  · simp [List.filter_append, hx]

/-- A pop of a non-empty queue answers what the model answers. -/
theorem Holds.pop (h : Holds q l) (hl : l ≠ []) :
    ∃ a q' l', q.pop = some (a, q') ∧ Model.pop l = some (a, l') ∧ Holds q' l' := by
  obtain ⟨even, odd⟩ := q
  have he := h.even
  have ho := h.odd
  have hse := h.even_sorted
  have hso := h.odd_sorted
  simp only at he ho hse hso
  have hbelow : ∀ (x : α × Int) t, (x :: t).Pairwise (fun x y => y.2 ≤ x.2) →
      ∀ y ∈ x :: t, y.2 ≤ x.2 := fun x t hs y hy =>
    (List.mem_cons.mp hy).elim (fun e => e ▸ Int.le_refl _) (List.rel_of_pairwise_cons hs)
  -- an entry of the other parity is below the back of the vector popped
  have hoddx : ∀ y ∈ l, isOdd y = true → y ∈ odd := fun y hy hyo => by
    rw [ho]; exact List.mem_filter.mpr ⟨hy, hyo⟩
  have hevenx : ∀ y ∈ l, isOdd y = false → y ∈ even := fun y hy hyo => by
    rw [he]; exact List.mem_filter.mpr ⟨hy, by simp [hyo]⟩
  rcases even with _ | ⟨⟨e, p⟩, even⟩ <;> rcases odd with _ | ⟨⟨o, p'⟩, odd⟩
  · exact absurd ((Holds.isEmpty_iff h).mp rfl) hl
  · obtain ⟨l', hpop, hodd, heven⟩ := pop_of_filter ho.symm hso fun y hy hyo =>
      absurd (hevenx y hy hyo) (List.not_mem_nil _)
    exact ⟨o, ⟨[], odd⟩, l', rfl, hpop, ⟨he.trans heven.symm, hodd.symm, .nil, hso.of_cons⟩⟩
  · obtain ⟨l', hpop, heven, hodd⟩ := pop_of_filter he.symm hse fun y hy hyo =>
      absurd (hoddx y hy (by simpa using hyo)) (List.not_mem_nil _)
    simp only [Bool.not_not] at hodd
    exact ⟨e, ⟨even, []⟩, l', rfl, hpop, ⟨heven.symm, ho.trans hodd.symm, hse.of_cons, .nil⟩⟩
  · have hpe : isOdd (e, p) = false := by
      have := List.mem_filter.mp (he ▸ List.mem_cons_self _ _ : (e, p) ∈ l.filter fun x => !isOdd x)
      simpa only [Bool.not_eq_true'] using this.2
    have hpo : isOdd (o, p') = true := (List.mem_filter.mp (ho ▸ List.mem_cons_self _ _)).2
    simp only [isOdd, decide_eq_true_eq, decide_eq_false_iff_not] at hpe hpo
    by_cases hlt : p' > p
    · obtain ⟨l', hpop, hodd, heven⟩ := pop_of_filter ho.symm hso fun y hy hyo =>
        Int.lt_of_le_of_lt (hbelow _ _ hse y (hevenx y hy hyo)) hlt
      refine ⟨o, ⟨(e, p) :: even, odd⟩, l', by simp [PriorityQueueWithRestrictedPush.pop, hlt],
        hpop, ⟨he.trans heven.symm, hodd.symm, hse, hso.of_cons⟩⟩
    · obtain ⟨l', hpop, heven, hodd⟩ := pop_of_filter he.symm hse fun y hy hyo => by
        have := hbelow _ _ hso y (hoddx y hy (by simpa using hyo))
        simp only at this ⊢
        omega
      simp only [Bool.not_not] at hodd
      refine ⟨e, ⟨even, (o, p') :: odd⟩, l', by simp [PriorityQueueWithRestrictedPush.pop, hlt],
        hpop, ⟨heven.symm, ho.trans hodd.symm, hse.of_cons, hso⟩⟩

theorem Holds.isEmpty_eq (h : Holds q l) : q.isEmpty = l.isEmpty :=
  Bool.eq_iff_iff.mpr (h.isEmpty_iff.trans List.isEmpty_iff.symm)

/-- The queue holds the model's entries. -/
theorem Holds.mem_entries_iff (h : Holds q l) {x : α × Int} : x ∈ q.entries ↔ x ∈ l := by
  rw [entries, h.even, h.odd, List.mem_append, List.mem_filter, List.mem_filter]
  cases isOdd x <;> simp

/-- A pop answers a queued entry of highest priority, and what is left is again
related to a model. -/
theorem Holds.pop_top (h : Holds q l) {a : α} {q' : PriorityQueueWithRestrictedPush α}
    (hp : q.pop = some (a, q')) :
    ∃ p, (a, p) ∈ q.entries ∧ (∀ y ∈ q.entries, y.2 ≤ p) ∧ ∃ l', Holds q' l' := by
  have hl : l ≠ [] := by
    rintro rfl
    have := (pop_eq_none_iff q).mpr (h.isEmpty_iff.mpr rfl)
    rw [hp] at this
    cases this
  obtain ⟨a', q'', l', hq, hm, h'⟩ := h.pop hl
  obtain ⟨rfl, rfl⟩ := Prod.mk.inj (Option.some.inj (hp.symm.trans hq))
  simp only [Model.pop, Option.map_eq_some', Prod.mk.injEq] at hm
  obtain ⟨x, hx, rfl, -⟩ := hm
  have htop := List.find?_some hx
  simp only [Model.IsTop, List.all_eq_true, decide_eq_true_eq] at htop
  exact ⟨x.2, h.mem_entries_iff.mpr (List.mem_of_find?_eq_some hx),
    fun y hy => htop y (h.mem_entries_iff.mp hy), l', h'⟩

/-! ## Sequences of operations -/

/-- A call on the queue. -/
inductive Op (α : Type) where
  | push (element : α) (priority : Int)
  | pop
  | isEmpty
  | clear
  deriving DecidableEq, Repr

/-- The calls in order, with what `Pop()` and `IsEmpty()` answer; `none` once a
`Pop()` meets an empty queue. -/
def run : List (Op α) → PriorityQueueWithRestrictedPush α →
    Option (List (α ⊕ Bool) × PriorityQueueWithRestrictedPush α)
  | [], q => some ([], q)
  | .push element priority :: ops, q => run ops (q.push element priority)
  | .pop :: ops, q => q.pop.bind fun r => (run ops r.2).map fun o => (.inl r.1 :: o.1, o.2)
  | .isEmpty :: ops, q => (run ops q).map fun o => (.inr q.isEmpty :: o.1, o.2)
  | .clear :: ops, q => run ops q.clear

namespace Model

/-- The calls on the model, with what they should answer. -/
def run : List (Op α) → List (α × Int) → Option (List (α ⊕ Bool) × List (α × Int))
  | [], l => some ([], l)
  | .push element priority :: ops, l => run ops ((element, priority) :: l)
  | .pop :: ops, l => (pop l).bind fun r => (run ops r.2).map fun o => (.inl r.1 :: o.1, o.2)
  | .isEmpty :: ops, l => (run ops l).map fun o => (.inr l.isEmpty :: o.1, o.2)
  | .clear :: ops, _ => run ops []

/-- Every `Push()` of the calls meets the restriction and every `Pop()` finds an
entry. -/
def Legal : List (Op α) → List (α × Int) → Bool
  | [], _ => true
  | .push element priority :: ops, l => CanPush l priority && Legal ops ((element, priority) :: l)
  | .pop :: ops, l => match pop l with
    | none => false
    | some r => Legal ops r.2
  | .isEmpty :: ops, l => Legal ops l
  | .clear :: ops, _ => Legal ops []

end Model

/-- Legal calls on a queue related to the model answer what the model answers
and leave the two related. -/
theorem run_of_holds : ∀ (ops : List (Op α)) {q : PriorityQueueWithRestrictedPush α}
    {l : List (α × Int)}, Holds q l → Model.Legal ops l = true →
    ∃ out q' l', run ops q = some (out, q') ∧ Model.run ops l = some (out, l') ∧ Holds q' l'
  | [], q, l, h, _ => ⟨[], q, l, rfl, rfl, h⟩
  | .push _ _ :: ops, _, _, h, hl => by
    simp only [Model.Legal, Bool.and_eq_true] at hl
    exact run_of_holds ops (h.push hl.1) hl.2
  | .pop :: ops, _, l, h, hl => by
    have hne : l ≠ [] := by rintro rfl; simp [Model.Legal] at hl
    obtain ⟨a, q', l', hq, hm, h'⟩ := h.pop hne
    simp only [Model.Legal, hm] at hl
    obtain ⟨out, q'', l'', hr, hmr, h''⟩ := run_of_holds ops h' hl
    exact ⟨.inl a :: out, q'', l'', by simp [run, hq, hr], by simp [Model.run, hm, hmr], h''⟩
  | .isEmpty :: ops, _, l, h, hl => by
    obtain ⟨out, q', l', hr, hmr, h'⟩ := run_of_holds ops h hl
    exact ⟨.inr l.isEmpty :: out, q', l', by simp [run, hr, h.isEmpty_eq], by simp [Model.run, hmr], h'⟩
  | .clear :: ops, _, _, _, hl => run_of_holds ops holds_empty hl

/-- Every sequence of calls from the empty queue in which each `Push()` meets the
restriction and each `Pop()` a non-empty queue answers what the model answers:
`IsEmpty()` when no entry is left, `Pop()` the most recently pushed entry of
highest priority.  Both vectors stay sorted. -/
theorem run_refines_model (ops : List (Op α)) (hops : Model.Legal ops [] = true) :
    ∃ out q l, run ops empty = some (out, q) ∧ Model.run ops [] = some (out, l) ∧ Holds q l :=
  run_of_holds ops holds_empty hops

theorem run_refines_model_on_two_parities :
    Model.Legal [.push 1 3, .push 2 2, .push 3 3, .pop, .pop, .isEmpty, .pop, .isEmpty] [] = true ∧
      ∃ out q l, run [.push 1 3, .push 2 2, .push 3 3, .pop, .pop, .isEmpty, .pop, .isEmpty] empty =
        some (out, q) ∧ Model.run [.push 1 3, .push 2 2, .push 3 3, .pop, .pop, .isEmpty, .pop,
          .isEmpty] [] = some (out, l) ∧ Holds q l :=
  ⟨by decide, run_refines_model (α := Nat) _ (by decide)⟩

example : run [.push 1 3, .push 2 2, .push 3 3, .pop, .pop, .isEmpty, .pop, .isEmpty] empty =
    some ([.inl 3, .inl 1, .inr false, .inl 2, .inr true], empty) := rfl

end OrTools.PriorityQueueWithRestrictedPush

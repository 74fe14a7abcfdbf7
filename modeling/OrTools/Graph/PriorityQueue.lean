import Mathlib.Order.Basic
import Mathlib.Data.Int.Defs

/-!
# `PriorityQueueWithRestrictedPush`

The highest-label scheduler of the max-flow solver.  Elements are split by the
parity of their priority into two vectors, `even_queue_` and `odd_queue_`; the
restriction on `Push` (a priority at least the highest present minus one) keeps
both sorted, so `Pop` only compares the two backs.  A vector is modelled by a
list whose head is the vector's back.  Priorities are `Int`: the parity test
`priority & 1` of the source is `priority % 2 = 1` on two's-complement
integers, negative ones included.
-/

set_option autoImplicit false

namespace OrTools

/-- `PriorityQueueWithRestrictedPush<Element, IntegerPriority>`. -/
structure PriorityQueueWithRestrictedPush (α : Type) where
  /-- `even_queue_`, back first. -/
  evenQueue : List (α × Int)
  /-- `odd_queue_`, back first. -/
  oddQueue : List (α × Int)
  deriving DecidableEq, Repr

namespace PriorityQueueWithRestrictedPush

variable {α : Type}

/-- The queue built by the default constructor. -/
def empty : PriorityQueueWithRestrictedPush α := ⟨[], []⟩

/-- `IsEmpty()`. -/
def isEmpty (q : PriorityQueueWithRestrictedPush α) : Bool :=
  q.evenQueue.isEmpty && q.oddQueue.isEmpty

/-- `Clear()`. -/
def clear (_q : PriorityQueueWithRestrictedPush α) : PriorityQueueWithRestrictedPush α := empty

/-- `Push(element, priority)`. -/
def push (element : α) (priority : Int) (q : PriorityQueueWithRestrictedPush α) :
    PriorityQueueWithRestrictedPush α :=
  if priority % 2 = 1 then { q with oddQueue := (element, priority) :: q.oddQueue }
  else { q with evenQueue := (element, priority) :: q.evenQueue }

/-- `PopBack(queue)`: the back element and the rest, on a non-empty vector. -/
def popBack : List (α × Int) → Option (α × List (α × Int))
  | [] => none
  | (element, _) :: rest => some (element, rest)

/-- `Pop()`; `none` on an empty queue, where the source only has a `DCHECK`. -/
def pop (q : PriorityQueueWithRestrictedPush α) : Option (α × PriorityQueueWithRestrictedPush α) :=
  match q.evenQueue, q.oddQueue with
  | [], odd => (popBack odd).map fun r => (r.1, ⟨[], r.2⟩)
  | even, [] => (popBack even).map fun r => (r.1, ⟨r.2, []⟩)
  | (e, p) :: even, (o, p') :: odd =>
    if p' > p then some (o, ⟨(e, p) :: even, odd⟩) else some (e, ⟨even, (o, p') :: odd⟩)

/-- The entries held by the queue. -/
def entries (q : PriorityQueueWithRestrictedPush α) : List (α × Int) :=
  q.evenQueue ++ q.oddQueue

@[simp] theorem isEmpty_empty : (empty : PriorityQueueWithRestrictedPush α).isEmpty = true := rfl

@[simp] theorem entries_empty : (empty : PriorityQueueWithRestrictedPush α).entries = [] := rfl

theorem isEmpty_iff_eq_empty (q : PriorityQueueWithRestrictedPush α) :
    q.isEmpty = true ↔ q = empty := by
  obtain ⟨_ | _, _ | _⟩ := q <;> simp [isEmpty, empty]

theorem isEmpty_iff (q : PriorityQueueWithRestrictedPush α) :
    q.isEmpty = true ↔ q.entries = [] := by
  simp [isEmpty, entries]

theorem mem_entries_push (element : α) (priority : Int) (q : PriorityQueueWithRestrictedPush α)
    (x : α × Int) : x ∈ (q.push element priority).entries ↔ x = (element, priority) ∨ x ∈ q.entries := by
  unfold push entries
  split <;> simp [or_left_comm]

/-- A push adds one entry. -/
theorem entries_push_perm (element : α) (priority : Int) (q : PriorityQueueWithRestrictedPush α) :
    (q.push element priority).entries.Perm ((element, priority) :: q.entries) := by
  unfold push entries
  split
  · exact List.perm_middle
  · exact List.Perm.refl _

/-- Pushing the elements of a list, each at its own priority, adds their entries. -/
theorem entries_foldl_push_perm (f : α → Int) :
    ∀ (L : List α) (q : PriorityQueueWithRestrictedPush α),
      (L.foldl (fun q v => q.push v (f v)) q).entries.Perm (L.map (fun v => (v, f v)) ++ q.entries)
  | [], _ => by simp
  | v :: L, q => by
    refine (entries_foldl_push_perm f L _).trans ?_
    refine ((entries_push_perm v (f v) q).append_left _).trans ?_
    simp [List.perm_middle]

theorem pop_eq_none_iff (q : PriorityQueueWithRestrictedPush α) :
    q.pop = none ↔ q.isEmpty = true := by
  obtain ⟨even, odd⟩ := q
  rcases even with _ | ⟨⟨e, p⟩, even⟩ <;> rcases odd with _ | ⟨⟨o, p'⟩, odd⟩ <;>
    simp [pop, popBack, isEmpty]
  split <;> simp

/-- A pop removes one entry and keeps the others. -/
theorem pop_entries {q q' : PriorityQueueWithRestrictedPush α} {a : α}
    (h : q.pop = some (a, q')) :
    ∃ p, q.entries.Perm ((a, p) :: q'.entries) := by
  obtain ⟨even, odd⟩ := q
  rcases even with _ | ⟨⟨e, p⟩, even⟩ <;> rcases odd with _ | ⟨⟨o, p'⟩, odd⟩ <;>
    simp only [pop, popBack, Option.map_none', Option.map_some', reduceCtorEq,
      Option.some.injEq, Prod.mk.injEq] at h
  · obtain ⟨rfl, rfl⟩ := h
    exact ⟨p', by simp [entries]⟩
  · obtain ⟨rfl, rfl⟩ := h
    exact ⟨p, by simp [entries]⟩
  · split at h <;> simp only [Option.some.injEq, Prod.mk.injEq] at h <;> obtain ⟨rfl, rfl⟩ := h
    · exact ⟨p', (List.perm_middle : List.Perm (((e, p) :: even) ++ (o, p') :: odd) _)⟩
    · exact ⟨p, by simp [entries]⟩

end PriorityQueueWithRestrictedPush

end OrTools

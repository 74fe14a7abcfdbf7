import OrTools.Graph.MaxFlow.ExcessReturn

/-!
# The frames of the search

`arc_stack` and `index_branch` of `PushFlowExcessBackToSource()` encode a stack
of frames: for each node of the current branch, the arcs still pending from it
followed by the branch arc the search went down, and on top the pending arcs of
the current node.  `stackOf frames top` and `branchIndices frames 0` rebuild the
two vectors from the frames; the lemmas below translate every vector operation
of the search (push, pop, the backtracking `resize`, `arc_stack[index_branch[i]]`)
into an operation on frames.
-/

set_option autoImplicit false

namespace OrTools.MaxFlow

/-- A frame: the pending arcs of a branch node, then the branch arc taken from it. -/
abbrev DfsFrame := List ArcIndex × ArcIndex

/-- `arc_stack` of a stack of frames with `top` pending on the current node. -/
def stackOf : List DfsFrame → List ArcIndex → List ArcIndex
  | [], top => top
  | f :: frames, top => f.1 ++ f.2 :: stackOf frames top

/-- `index_branch` of a stack of frames whose first arc sits at `offset`. -/
def branchIndices : List DfsFrame → Nat → List Nat
  | [], _ => []
  | f :: frames, offset => (offset + f.1.length) :: branchIndices frames (offset + f.1.length + 1)

variable {frames frames' : List DfsFrame} {top : List ArcIndex}

@[simp] theorem stackOf_nil : stackOf [] top = top := rfl

theorem stackOf_append :
    ∀ frames : List DfsFrame, stackOf (frames ++ frames') top = stackOf frames (stackOf frames' top)
  | [] => rfl
  | f :: frames => by simp [stackOf, stackOf_append frames]

theorem stackOf_append_top (l : List ArcIndex) :
    ∀ frames : List DfsFrame, stackOf frames top ++ l = stackOf frames (top ++ l)
  | [] => rfl
  | f :: frames => by simp [stackOf, stackOf_append_top l frames]

theorem stackOf_snoc (seg : List ArcIndex) (br : ArcIndex) :
    stackOf (frames ++ [(seg, br)]) top = stackOf frames (seg ++ br :: top) := by
  rw [stackOf_append]; rfl

theorem length_stackOf (top : List ArcIndex) :
    ∀ frames : List DfsFrame, (stackOf frames top).length = (stackOf frames []).length + top.length
  | [] => by simp
  | f :: frames => by simp [stackOf, length_stackOf top frames]; omega

theorem mem_stackOf {a : ArcIndex} :
    ∀ frames : List DfsFrame, a ∈ stackOf frames top ↔ (∃ f ∈ frames, a ∈ f.1 ∨ a = f.2) ∨ a ∈ top
  | [] => by simp
  | f :: frames => by simp [stackOf, mem_stackOf frames, or_assoc]

theorem stackOf_eq_nil : stackOf frames top = [] ↔ frames = [] ∧ top = [] := by
  cases frames <;> simp [stackOf]

@[simp] theorem length_branchIndices :
    ∀ (frames : List DfsFrame) (offset : Nat), (branchIndices frames offset).length = frames.length
  | [], _ => rfl
  | f :: frames, offset => by simp [branchIndices, length_branchIndices frames]

theorem branchIndices_append (offset : Nat) :
    ∀ frames : List DfsFrame, branchIndices (frames ++ frames') offset =
      branchIndices frames offset ++ branchIndices frames' (offset + (stackOf frames []).length)
  | [] => rfl
  | f :: frames => by
    rw [List.cons_append, branchIndices, branchIndices, branchIndices_append _ frames]
    simp only [stackOf, List.length_append, List.length_cons]
    rw [show offset + f.1.length + 1 + (stackOf frames []).length =
      offset + (f.1.length + ((stackOf frames []).length + 1)) by omega, List.cons_append]

theorem branchIndices_snoc (seg : List ArcIndex) (br : ArcIndex) :
    branchIndices (frames ++ [(seg, br)]) 0 =
      branchIndices frames 0 ++ [(stackOf frames seg).length] := by
  rw [branchIndices_append, length_stackOf seg]
  simp [branchIndices]

/-- `arc_stack[index_branch[i]]` is the branch arc of frame `i`. -/
theorem getD_stackOf_branchIndices (top pre : List ArcIndex) :
    ∀ (frames : List DfsFrame) (i : Nat), i < frames.length →
      (pre ++ stackOf frames top).getD ((branchIndices frames pre.length).getD i 0) default =
        (frames.getD i ([], default)).2
  | [], _, h => absurd h (Nat.not_lt_zero _)
  | f :: frames, 0, _ => by
    rw [stackOf, branchIndices, List.getD_cons_zero, List.getD_eq_getElem?_getD,
      List.getElem?_append_right (by omega), Nat.add_sub_cancel_left,
      List.getElem?_append_right (le_refl _), Nat.sub_self, List.getElem?_cons_zero]
    rfl
  | f :: frames, i + 1, h => by
    have := getD_stackOf_branchIndices top (pre ++ f.1 ++ [f.2]) frames i (by simpa using h)
    simp only [List.append_assoc, List.singleton_append, List.length_append, List.length_cons,
      List.length_nil] at this
    simpa [stackOf, branchIndices, Nat.add_assoc] using this

/-- Cutting `arc_stack` just below the branch arc of frame `i`. -/
theorem take_stackOf_branchIndices (top pre : List ArcIndex) :
    ∀ (frames : List DfsFrame) (i : Nat), i < frames.length →
      (pre ++ stackOf frames top).take ((branchIndices frames pre.length).getD i 0) =
        pre ++ stackOf (frames.take i) (frames.getD i ([], default)).1
  | [], _, h => absurd h (Nat.not_lt_zero _)
  | f :: frames, 0, _ => by simp [stackOf, branchIndices, ← List.append_assoc]
  | f :: frames, i + 1, h => by
    have := take_stackOf_branchIndices top (pre ++ f.1 ++ [f.2]) frames i (by simpa using h)
    simp only [List.append_assoc, List.singleton_append, List.length_append, List.length_cons,
      List.length_nil] at this
    simpa [stackOf, branchIndices, Nat.add_assoc] using this

theorem take_branchIndices (offset : Nat) :
    ∀ (frames : List DfsFrame) (i : Nat),
      (branchIndices frames offset).take i = branchIndices (frames.take i) offset
  | [], _ => by simp [branchIndices]
  | _ :: _, 0 => rfl
  | f :: frames, i + 1 => by simp [branchIndices, take_branchIndices _ frames i]

theorem getLast?_stackOf_of_ne_nil (h : top ≠ []) :
    ∀ frames : List DfsFrame, (stackOf frames top).getLast? = top.getLast?
  | [] => rfl
  | f :: frames => by
    obtain ⟨b, l, hl⟩ := List.exists_cons_of_ne_nil (mt stackOf_eq_nil.mp (by simp [h]) :
      stackOf frames top ≠ [])
    rw [stackOf, List.getLast?_append_of_ne_nil _ (by simp), hl, List.getLast?_cons_cons, ← hl,
      getLast?_stackOf_of_ne_nil h frames]

theorem getLast?_stackOf_snoc (seg : List ArcIndex) (br : ArcIndex) :
    (stackOf (frames ++ [(seg, br)]) []).getLast? = some br := by
  rw [stackOf_snoc, getLast?_stackOf_of_ne_nil (by simp)]
  simp

theorem dropLast_stackOf (h : top ≠ []) :
    ∀ frames : List DfsFrame, (stackOf frames top).dropLast = stackOf frames top.dropLast
  | [] => rfl
  | f :: frames => by
    rw [stackOf, stackOf, List.dropLast_append_of_ne_nil _ (by simp), List.dropLast_cons_of_ne_nil
      (mt stackOf_eq_nil.mp (by simp [h])), dropLast_stackOf h frames]

theorem dropLast_stackOf_snoc (seg : List ArcIndex) (br : ArcIndex) :
    (stackOf (frames ++ [(seg, br)]) []).dropLast = stackOf frames seg := by
  rw [stackOf_snoc, dropLast_stackOf (by simp)]
  simp

theorem dropLast_branchIndices_snoc (f : DfsFrame) :
    (branchIndices (frames ++ [f]) 0).dropLast = branchIndices frames 0 := by
  obtain ⟨seg, br⟩ := f
  rw [branchIndices_snoc, List.dropLast_concat]

/-- The `DCHECK` before a node is expanded: the top of `arc_stack` is above the
last branch arc. -/
theorem getLast?_branchIndices_lt (h : top ≠ []) :
    (branchIndices frames 0).getLast?.all (· < (stackOf frames top).length - 1) = true := by
  induction frames using List.reverseRecOn with
  | nil => rfl
  | append_singleton frames f _ =>
    obtain ⟨seg, br⟩ := f
    have : top.length ≠ 0 := by simpa using h
    simp [branchIndices_snoc, stackOf_snoc, length_stackOf (seg ++ br :: top),
      length_stackOf seg]
    omega

/-- `arc_stack` around the branch arc of frame `i`. -/
theorem stackOf_split (top : List ArcIndex) {i : Nat} (hi : i < frames.length) :
    stackOf frames top = stackOf (frames.take i) (frames.getD i ([], default)).1 ++
      (frames.getD i ([], default)).2 :: stackOf (frames.drop (i + 1)) top := by
  conv_lhs => rw [← List.take_append_drop i frames, List.drop_eq_getElem_cons hi]
  rw [stackOf_append, stackOf_append_top, List.getD_eq_getElem]
  rfl

end OrTools.MaxFlow

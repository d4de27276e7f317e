import ExtentQuery.Proofs.Sorting.StableSort
import Mathlib.Data.Nat.Basic

/-!
# The stable sort answers

A comparison that contradicts itself can leave the stable sort without an answer.  A
transitive comparison cannot.

* `exists_mergeInward` — merging two ordered runs from both ends;
* `Answers` — a way of sorting that answers every list of items that are in the order in which
  they came;
* `Cut.exists_sortRuns`, `exists_quicksort` — merging runs, and dividing;
* `answers_stableSort` — the stable sort.

**Why the ends meet.**  The only step that can have no answer is a merge from both ends.  If the
comparisons decide about a strict order, there is one way to merge the runs.  What is taken
from the front is the beginning of this merge, and what is taken from the back is the end
of it, so no item is taken twice.
-/

namespace ExtentQuery.Sorting

variable {α : Type} {cmp : Comparison α} {before R : α → α → Prop}
  {sorter : List α → Option (List α)}

/-! ### Merging from both ends -/

section BothEnds

variable {left right : List α}

/-- An item is either taken or left. -/
theorem mem_taken_of_not_left {count : Nat} {z : α} (mem : z ∈ left ++ right)
    (notLeft : z ∉ (mergeSteps cmp count left right).left)
    (notRight : z ∉ (mergeSteps cmp count left right).right) :
    z ∈ (mergeSteps cmp count left right).taken := by
  have somewhere := (mergeSteps_perm cmp count left right).symm.subset mem
  rcases List.mem_append.mp somewhere with taken | rest
  · exact taken
  · rcases List.mem_append.mp rest with inLeft | inRight
    · exact absurd inLeft notLeft
    · exact absurd inRight notRight

theorem nodup_of_pairwise [Std.Irrefl R] {xs : List α} (ordered : xs.Pairwise R) : xs.Nodup :=
  ordered.imp fun {x y} related (same : x = y) => by
    subst same
    exact Std.Irrefl.irrefl x related

variable [IsStrictOrder α R] (decides : ∀ x ∈ left, ∀ y ∈ right, Decides cmp R x y)
  (ordered : left.Pairwise R) (ordered' : right.Pairwise R)

include decides

/-- Runs about which the comparisons decide have no item in common. -/
theorem disjoint_of_decides : List.Disjoint left right := by
  intro z inLeft inRight
  have decided := decides z inLeft z inRight
  by_cases smaller : cmp z z = .lt
  · exact Std.Irrefl.irrefl z (decided.smaller smaller)
  · exact Std.Irrefl.irrefl z (decided.notSmaller smaller)

include ordered ordered'

/-- There is one way to merge two ordered runs. -/
theorem mergeForward_eq_mergeBackward :
    mergeForward cmp left right = mergeBackward cmp left right := by
  refine List.Perm.eq_of_pairwise (fun x y _ _ (first : R x y) (second : R y x) => ?_)
    (pairwise_mergeForward decides ordered ordered')
    (pairwise_mergeBackward decides ordered ordered')
    ((mergeForward_perm cmp left right).trans (mergeBackward_perm cmp left right).symm)
  exact absurd (IsTrans.trans _ _ _ first second) (Std.Irrefl.irrefl x)

/-- No item is taken from the front and from the back. -/
theorem disjoint_taken (le : left.length ≤ right.length) :
    List.Disjoint (mergeSteps cmp left.length left right).taken
      (mergeSteps (flipped cmp) left.length right.reverse left.reverse).taken := by
  have front := mergeSteps_add cmp left.length right.length left right
  have back := mergeSteps_add (flipped cmp) left.length right.length right.reverse left.reverse
  have whole := mergeForward_eq_mergeBackward decides ordered ordered'
  have nodup : (mergeForward cmp left right).Nodup :=
    nodup_of_pairwise (pairwise_mergeForward decides ordered ordered')
  have length := (mergeForward_perm cmp left right).length_eq
  rw [mergeBackward, mergeForward, mergeForward, List.length_reverse, List.length_reverse,
    Nat.add_comm right.length, front, back, List.reverse_append] at whole
  rw [mergeForward, front] at nodup length
  have lengthFront : (mergeSteps cmp left.length left right).taken.length = left.length := by
    rw [length_taken_mergeSteps]
    omega
  have lengthBack : (mergeSteps (flipped cmp) left.length right.reverse left.reverse).taken.length
      = left.length := by
    rw [length_taken_mergeSteps, List.length_reverse, List.length_reverse]
    omega
  -- the front takes the beginning of what the back leaves
  have beginning := congrArg (List.take left.length) whole
  rw [List.take_left' lengthFront, List.take_append_of_le_length (by
    have := congrArg List.length whole
    simp only [List.length_append, List.length_reverse] at this length ⊢
    omega)] at beginning
  intro z inFront inBack
  rw [beginning] at inFront
  rw [whole] at nodup
  exact (List.nodup_append.mp nodup).2.2 z (List.mem_of_mem_take inFront) z
    (List.mem_reverse.mpr inBack) rfl

/-- Merging two ordered runs from both ends answers. -/
theorem exists_mergeInward (le : left.length ≤ right.length) :
    ∃ merged, mergeInward cmp left right = some merged := by
  let front := mergeSteps cmp left.length left right
  let back := mergeSteps (flipped cmp) left.length right.reverse left.reverse
  have apart : List.Disjoint left right := disjoint_of_decides decides
  have takenOnce : List.Disjoint front.taken back.taken :=
    disjoint_taken decides ordered ordered' le
  obtain ⟨leftSuffix, rightSuffix⟩ : front.left <:+ left ∧ front.right <:+ right :=
    mergeSteps_suffixes _ _ _ _
  obtain ⟨rightSuffix', leftSuffix'⟩ : back.left <:+ right.reverse ∧ back.right <:+ left.reverse :=
    mergeSteps_suffixes _ _ _ _
  -- what is not left at one end is taken there
  have leftKept : left ⊆ front.left ++ back.right := by
    intro z mem
    by_contra nowhere
    obtain ⟨notFront, notBack⟩ := not_or.mp (mt List.mem_append.mpr nowhere)
    have notRight : z ∉ right := fun inRight => apart mem inRight
    refine takenOnce (a := z) (mem_taken_of_not_left (List.mem_append_left _ mem) notFront
      fun inRight => notRight (rightSuffix.subset inRight)) ?_
    refine mem_taken_of_not_left (List.mem_append_right _ (List.mem_reverse.mpr mem))
      (fun inRight => notRight ?_) notBack
    exact List.mem_reverse.mp (rightSuffix'.subset inRight)
  have rightKept : right ⊆ front.right ++ back.left := by
    intro z mem
    by_contra nowhere
    obtain ⟨notFront, notBack⟩ := not_or.mp (mt List.mem_append.mpr nowhere)
    have notLeft : z ∉ left := fun inLeft => apart inLeft mem
    refine takenOnce (a := z) (mem_taken_of_not_left (List.mem_append_right _ mem)
      (fun inLeft => notLeft (leftSuffix.subset inLeft)) notFront) ?_
    refine mem_taken_of_not_left (List.mem_append_left _ (List.mem_reverse.mpr mem)) notBack
      (fun inLeft => notLeft ?_)
    exact List.mem_reverse.mp (leftSuffix'.subset inLeft)
  have leftCount := (List.subperm_of_subset (nodup_of_pairwise ordered) leftKept).length_le
  have rightCount := (List.subperm_of_subset (nodup_of_pairwise ordered') rightKept).length_le
  rw [List.length_append] at leftCount rightCount
  refine ⟨_, if_pos ⟨?_, ?_⟩⟩
  · show left.length - front.left.length ≤ back.right.length
    omega
  · show right.length - front.right.length ≤ back.left.length
    omega

end BothEnds

/-! ### A few items -/

/-- Whether a way of sorting answers every list whose items are in the order in which they
came. -/
def Answers (before : α → α → Prop) (sorter : List α → Option (List α)) : Prop :=
  ∀ ⦃xs : List α⦄, xs.Pairwise before → ∃ ys, sorter xs = some ys

section Stable

variable [Std.TransCmp cmp] [IsStrictOrder α before] {xs ys left right : List α}

/-- Merging two sorted lists inwards, one ahead of the other, answers. -/
theorem Sorts.exists_inward (sorted : Sorts cmp before xs left) (sorted' : Sorts cmp before ys right)
    (ahead : Ahead before xs ys) (le : xs.length ≤ ys.length) :
    ∃ merged, mergeInward cmp left right = some merged := by
  rw [← sorted.perm.length_eq, ← sorted'.perm.length_eq] at le
  exact exists_mergeInward (ahead.of_perm sorted.perm sorted'.perm).decides sorted.ordered
    sorted'.ordered le

variable (cmp) in
theorem exists_sortBlock (length : Nat) {half : List α} (came : half.Pairwise before) :
    ∃ parts, sortBlock cmp length half = some parts := by
  unfold sortBlock
  split
  case h_1 a b c d e f g h behind =>
    have came' : ([a, b, c, d] ++ [e, f, g, h]).Pairwise before := came.take (i := 8)
    obtain ⟨first, second, ahead⟩ := List.pairwise_append.mp came'
    obtain ⟨merged, merging⟩ : ∃ merged, mergeInward cmp (sortFour cmp a b c d)
        (sortFour cmp e f g h) = some merged :=
      (sorts_sortFour first).exists_inward (sorts_sortFour second) ahead (by simp)
    exact ⟨_, Option.bind_eq_some_iff.mpr ⟨merged, merging, rfl⟩⟩
  case h_2 => exact ⟨_, rfl⟩
  case h_3 => exact ⟨_, rfl⟩

variable (cmp) in
theorem answers_sortHalf (length : Nat) : Answers before (sortHalf cmp length) := by
  intro half came
  obtain ⟨parts, blocked⟩ := exists_sortBlock cmp length came
  exact ⟨_, Option.bind_eq_some_iff.mpr ⟨parts, blocked, rfl⟩⟩

variable (cmp) in
theorem answers_smallSort (weight : Weight) : Answers before (smallSort weight cmp) := by
  intro xs came
  unfold smallSort
  split
  case isTrue => exact ⟨_, rfl⟩
  case isFalse =>
    obtain ⟨left, sorting⟩ := answers_sortHalf cmp (blockLength weight xs.length)
      (came.take (i := xs.length / 2))
    obtain ⟨right, sorting'⟩ := answers_sortHalf cmp (blockLength weight xs.length)
      (came.drop (i := xs.length / 2))
    obtain ⟨merged, merging⟩ := (stablySorts_sortHalf _ came.take sorting).exists_inward
      (stablySorts_sortHalf _ came.drop sorting') (ahead_take_drop came _)
      (by rw [List.length_take, List.length_drop]; omega)
    exact ⟨merged, Option.bind_eq_some_iff.mpr ⟨left, sorting,
      Option.bind_eq_some_iff.mpr ⟨right, sorting', merging⟩⟩⟩

/-! ### Runs -/

omit [Std.TransCmp cmp] [IsStrictOrder α before] in
theorem Run.Valid.exists_sort {run : Run α} (answers : Answers before sorter)
    (valid : run.Valid cmp before sorter) : ∃ ys, run.sort sorter = some ys := by
  unfold Run.Valid at valid
  unfold Run.sort
  split
  case isTrue => exact ⟨_, rfl⟩
  case isFalse unsorted =>
    rw [if_neg unsorted] at valid
    exact answers valid.1

omit [Std.TransCmp cmp] [IsStrictOrder α before] in
theorem exists_joinRuns {l r : Run α} (answers : Answers before sorter)
    (valid : l.Valid cmp before sorter) (valid' : r.Valid cmp before sorter) :
    ∃ joined, joinRuns cmp sorter l r = some joined := by
  unfold joinRuns
  split
  case isTrue =>
    obtain ⟨left, sorting⟩ := valid.exists_sort answers
    obtain ⟨right, sorting'⟩ := valid'.exists_sort answers
    exact ⟨_, Option.bind_eq_some_iff.mpr ⟨left, sorting,
      Option.bind_eq_some_iff.mpr ⟨right, sorting', rfl⟩⟩⟩
  case isFalse => exact ⟨_, rfl⟩

theorem Cut.exists_joinDeep (answers : Answers before sorter) {depth : Nat}
    {behind : List (Run α)} {pending : List (Run α × Nat)} {run : Run α}
    (cut : Cut cmp before sorter xs ((pending.map Prod.fst).reverse ++ run :: behind)) :
    ∃ joined, Sorting.joinDeep cmp sorter depth run pending = some joined := by
  induction pending generalizing run with
  | nil => exact ⟨_, rfl⟩
  | cons entry pending ih =>
    obtain ⟨left, boundary⟩ := entry
    unfold Sorting.joinDeep
    split
    case isTrue =>
      rw [List.map_cons, List.reverse_cons, List.append_assoc] at cut
      obtain ⟨joined, joining⟩ := exists_joinRuns answers (cut.valid left (by simp))
        (cut.valid run (by simp))
      obtain ⟨last, rest⟩ := ih (cut.join joining)
      exact ⟨last, Option.bind_eq_some_iff.mpr ⟨joined, joining, rest⟩⟩
    case isFalse => exact ⟨_, rfl⟩

theorem Cut.exists_mergeByDepth (answers : Answers before sorter) {total first : Nat}
    {runs : List (Run α)} {pending : List (Run α × Nat)} {run : Run α}
    (cut : Cut cmp before sorter xs ((pending.map Prod.fst).reverse ++ run :: runs)) :
    ∃ last, Sorting.mergeByDepth cmp sorter total first run pending runs = some last := by
  induction runs generalizing first run pending with
  | nil =>
    obtain ⟨joined, joining⟩ := cut.exists_joinDeep answers
    exact ⟨_, Option.bind_eq_some_iff.mpr ⟨joined, joining, rfl⟩⟩
  | cons next runs ih =>
    obtain ⟨⟨joined, rest⟩, joining⟩ := cut.exists_joinDeep answers
    -- whether merging answers does not depend on the depth of a boundary
    have merges : ∀ middle depth, ∃ last, Sorting.mergeByDepth cmp sorter total middle next
        ((joined, depth) :: rest) runs = some last := by
      intro middle depth
      refine ih ?_
      rw [List.map_cons, List.reverse_cons, List.append_assoc]
      exact cut.joinDeep joining
    obtain ⟨last, merging⟩ := merges _ _
    exact ⟨last, Option.bind_eq_some_iff.mpr ⟨(joined, rest), joining, merging⟩⟩

/-- Merging the runs of a list answers. -/
theorem Cut.exists_sortRuns (answers : Answers before sorter) {runs : List (Run α)}
    (cut : Cut cmp before sorter xs runs) : ∃ ys, sortRuns cmp sorter runs = some ys := by
  cases runs with
  | nil => exact ⟨_, rfl⟩
  | cons run runs =>
    have started : Cut cmp before sorter xs
        ((([] : List (Run α × Nat)).map Prod.fst).reverse ++ run :: runs) := cut
    obtain ⟨last, merging⟩ := started.exists_mergeByDepth answers
    have whole : Cut cmp before sorter xs [last] := started.mergeByDepth merging
    obtain ⟨ys, sorting⟩ := (whole.valid last List.mem_cons_self).exists_sort answers
    exact ⟨ys, Option.bind_eq_some_iff.mpr ⟨last, merging, sorting⟩⟩

omit [Std.TransCmp cmp] [IsStrictOrder α before] in
/-- Cutting a list into runs answers, if making a run does. -/
theorem exists_cutRuns {good made : Nat} {make : List α → Option (Run α)}
    (makes : ∀ items, items.Pairwise before → ∃ run, make items = some run)
    (came : xs.Pairwise before) : ∃ runs, cutRuns cmp good made make xs = some runs := by
  induction xs using cutRuns.induct cmp good made with
  | case1 => exact ⟨[], by rw [cutRuns]⟩
  | case2 x xs count falls continued long ih =>
    obtain ⟨runs, cutting⟩ := ih (came.drop (i := count + 1))
    rw [cutRuns, continued]
    simp only [if_pos long]
    exact ⟨_, Option.bind_eq_some_iff.mpr ⟨runs, cutting, rfl⟩⟩
  | case3 x xs count falls continued short ih =>
    obtain ⟨runs, cutting⟩ := ih (came.drop (i := made + 1))
    obtain ⟨run, making⟩ := makes (x :: xs.take made) (came.take (i := made + 1))
    rw [cutRuns, continued]
    simp only [if_neg short]
    exact ⟨_, Option.bind_eq_some_iff.mpr ⟨run, making,
      Option.bind_eq_some_iff.mpr ⟨runs, cutting, rfl⟩⟩⟩

/-! ### Dividing -/

omit [IsStrictOrder α before] in
/-- A quicksort answers, if the ways of sorting to which it leaves lists do. -/
theorem exists_quicksort {finish fallback : List α → Option (List α)}
    (finishes : Answers before finish) (fallsBack : Answers before fallback)
    (limit : Nat) (previous : Option α) :
    Answers before (quicksort finish fallback cmp limit previous) := by
  induction limit generalizing previous with
  | zero =>
    intro xs came
    unfold quicksort
    split
    · exact finishes came
    · exact fallsBack came
  | succ limit ih =>
    intro xs came
    unfold quicksort
    split
    case isTrue => exact finishes came
    case isFalse =>
      split
      case h_1 => exact fallsBack came
      case h_2 d division =>
        have divides := Division.eq_of_at? division
        have filtered : ∀ p : α → Bool, (xs.filter p).Pairwise before :=
          fun p => came.sublist List.filter_sublist
        split
        case isTrue =>
          have came' : (d.greater cmp).Pairwise before := by
            rw [d.greater_eq divides]
            exact filtered _
          obtain ⟨upper, sorting⟩ := ih none came'
          exact ⟨_, Option.bind_eq_some_iff.mpr ⟨upper, sorting, rfl⟩⟩
        case isFalse =>
          have lesser : (d.lesser cmp).Pairwise before := by
            rw [d.lesser_eq divides]
            exact filtered _
          have others : (d.others cmp).Pairwise before := by
            rw [d.others_eq divides]
            exact filtered _
          obtain ⟨upper, sorting'⟩ := ih (some d.pivot) others
          obtain ⟨lower, sorting⟩ := ih previous lesser
          exact ⟨_, Option.bind_eq_some_iff.mpr ⟨upper, sorting',
            Option.bind_eq_some_iff.mpr ⟨lower, sorting, rfl⟩⟩⟩

/-! ### All of it -/

theorem answers_eagerSort (weight : Weight) : Answers before (eagerSort weight cmp) := by
  intro xs came
  let make (items : List α) : Option (Run α) := do
    return ⟨← smallSort weight cmp items, true⟩
  have makes : ∀ items, items.Pairwise before → ∃ run, make items = some run := by
    intro items came
    obtain ⟨sorted, sorting⟩ := answers_smallSort cmp weight came
    exact ⟨_, Option.bind_eq_some_iff.mpr ⟨sorted, sorting, rfl⟩⟩
  obtain ⟨runs, cutting⟩ : ∃ runs, cutRuns cmp (goodRunLength xs.length) (undividedLimit - 1)
      make xs = some runs := exists_cutRuns makes came
  obtain ⟨ys, joining⟩ := (Cut.of_eager came cutting).exists_sortRuns fun xs _ => ⟨xs, rfl⟩
  exact ⟨ys, Option.bind_eq_some_iff.mpr ⟨runs, cutting, joining⟩⟩

theorem answers_dividingSort (weight : Weight) : Answers before (dividingSort weight cmp) :=
  fun _ came =>
    exists_quicksort (answers_smallSort cmp weight) (answers_eagerSort weight) _ none came

theorem answers_adaptiveSort (weight : Weight) : Answers before (adaptiveSort weight cmp) := by
  intro xs came
  obtain ⟨runs, cutting⟩ : ∃ runs, cutRuns cmp (goodRunLength xs.length)
      (goodRunLength xs.length - 1) (fun items => some ⟨items, false⟩) xs = some runs :=
    exists_cutRuns (fun items _ => ⟨_, rfl⟩) came
  obtain ⟨ys, joining⟩ :=
    (Cut.of_adaptive came cutting).exists_sortRuns (answers_dividingSort weight)
  exact ⟨ys, Option.bind_eq_some_iff.mpr ⟨runs, cutting, joining⟩⟩

/-- The stable sort answers for every transitive comparison. -/
theorem answers_stableSort (weight : Weight) : Answers before (stableSort weight cmp) := by
  intro xs came
  unfold stableSort
  split
  · exact ⟨_, rfl⟩
  · split
    · exact answers_eagerSort weight came
    · exact answers_adaptiveSort weight came

end Stable

/-- Positions are sorted by every transitive comparison. -/
theorem exists_stablePositions (weight : Weight) (length : Nat) (cmp : Comparison Nat)
    [Std.TransCmp cmp] : ∃ order, stablePositions weight length cmp = some order :=
  answers_stableSort weight List.pairwise_lt_range

end ExtentQuery.Sorting

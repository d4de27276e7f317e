import ExtentQuery.Sorting.Runs

/-!
# Merging two runs

Two runs are merged from the front, from the back, or from both ends at once.

* `mergeSteps` — takes a number of items from two runs;
* `mergeForward` — merges from the front, and on a tie takes from the left run;
* `mergeBackward` — merges from the back, and on a tie takes from the right run;
* `mergeInward` — merges half of the items from the front and half from the back.

**From the back is from the front.**  A merge from the back takes the greater one of the
two last items.  That is a merge from the front of the reversed runs, the right one
first, under the reversed comparison (`flipped`).

**When the ends do not meet.**  For a transitive comparison the two halves of an inward
merge take every item exactly once.  For any other comparison they may both take an item
and both leave another; then there is no result.
-/

namespace ExtentQuery.Sorting

variable {α : Type}

/-- A comparison with its operands exchanged. -/
def flipped (cmp : Comparison α) : Comparison α := fun x y => cmp y x

/-- A merge that has been interrupted: what was taken, in order, and what is left of both
runs. -/
structure Merging (α : Type) where
  taken : List α
  left : List α
  right : List α

namespace Merging

/-- The merge that took one more item at the beginning. -/
def after (x : α) (m : Merging α) : Merging α :=
  { m with taken := x :: m.taken }

end Merging

/-- Takes `count` items from two runs: the head of the right run if it is strictly
smaller than the head of the left run, and else the head of the left run. -/
def mergeSteps (cmp : Comparison α) : (count : Nat) → (left right : List α) → Merging α
  | 0, left, right => ⟨[], left, right⟩
  | _ + 1, [], [] => ⟨[], [], []⟩
  | count + 1, x :: left, [] => (mergeSteps cmp count left []).after x
  | count + 1, [], y :: right => (mergeSteps cmp count [] right).after y
  | count + 1, x :: left, y :: right =>
    if cmp y x = .lt then (mergeSteps cmp count (x :: left) right).after y
    else (mergeSteps cmp count left (y :: right)).after x

/-- Merges two runs from the front. -/
def mergeForward (cmp : Comparison α) (left right : List α) : List α :=
  (mergeSteps cmp (left.length + right.length) left right).taken

/-- Merges two runs from the back. -/
def mergeBackward (cmp : Comparison α) (left right : List α) : List α :=
  (mergeForward (flipped cmp) right.reverse left.reverse).reverse

/-- Merges two runs from both ends.  The left run is as long as the right one, or one
item shorter; each end takes as many items as the left run has, and an item in the middle
that neither of them took stays there.  There is no result if one end took what the other
one took, too. -/
def mergeInward (cmp : Comparison α) (left right : List α) : Option (List α) :=
  let front := mergeSteps cmp left.length left right
  let back := mergeSteps (flipped cmp) left.length right.reverse left.reverse
  let leftFrom := left.length - front.left.length
  let rightFrom := right.length - front.right.length
  let leftTo := back.right.length
  let rightTo := back.left.length
  if leftFrom ≤ leftTo ∧ rightFrom ≤ rightTo then
    some (front.taken ++ (left.take leftTo).drop leftFrom
      ++ (right.take rightTo).drop rightFrom ++ back.taken.reverse)
  else none

@[simp] theorem mergeForward_nil_left (cmp : Comparison α) (right : List α) :
    mergeForward cmp [] right = right := by
  have all : ∀ right : List α, (mergeSteps cmp right.length [] right).taken = right := by
    intro right
    induction right with
    | nil => rfl
    | cons y right ih => exact congrArg (y :: ·) ih
  simpa [mergeForward] using all right

end ExtentQuery.Sorting

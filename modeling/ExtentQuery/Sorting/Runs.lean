/-!
# Merging runs

A run is a list that is already in order.  Merging takes, again and again, the head that
comes first among the heads of all runs.

* `leading` — which head comes first.  The heads are compared from the first run to the
  last, and a later head wins only if it is strictly smaller, so ties go to the earliest
  run;
* `mergeRuns` — the merge of any number of runs.

**Comparisons need not be transitive.**  Sort keys are not always related transitively,
because an integer is rounded before it is compared with a floating-point number.  For
such keys the result of a sort depends on which comparisons are made, and the definitions
here fix them: the current best head against the next one, in the order of the runs.
-/

namespace ExtentQuery.Sorting

/-- A comparison of two items. -/
abbrev Comparison (α : Type) := α → α → Ordering

variable {α : Type}

/-- Continues the search for the leading head: `best` leads among the runs before
position `i`. -/
def leadingFrom (cmp : Comparison α) (best : Option (Nat × α)) (i : Nat) :
    List (Option α) → Option (Nat × α)
  | [] => best
  | none :: heads => leadingFrom cmp best (i + 1) heads
  | some head :: heads =>
    match best with
    | none => leadingFrom cmp (some (i, head)) (i + 1) heads
    | some (j, other) =>
      if cmp head other = .lt then leadingFrom cmp (some (i, head)) (i + 1) heads
      else leadingFrom cmp (some (j, other)) (i + 1) heads

/-- The head that comes first and the position of its run; `none` if every run is at its
end. -/
def leading (cmp : Comparison α) (heads : List (Option α)) : Option (Nat × α) :=
  leadingFrom cmp none 0 heads

/-- Takes the leading head `count` times, or until every run is at its end. -/
def takeLeading (cmp : Comparison α) : (count : Nat) → List (List α) → List α
  | 0, _ => []
  | count + 1, runs =>
    match leading cmp (runs.map List.head?) with
    | none => []
    | some (i, head) => head :: takeLeading cmp count (runs.modify i List.tail)

/-- Merges runs into one. -/
def mergeRuns (cmp : Comparison α) (runs : List (List α)) : List α :=
  takeLeading cmp runs.flatten.length runs

@[simp] theorem mergeRuns_nil (cmp : Comparison α) : mergeRuns cmp [] = [] := rfl

end ExtentQuery.Sorting

import ExtentQuery.Sorting.TwoRuns

/-!
# Merging natural runs

A list is cut into runs, and the runs are merged.

* `cutRuns` — finds what is in order already.  A stretch that rises, or falls strictly
  and is turned round, is a run if it is long enough; elsewhere a run of a fixed length is
  made by whoever calls;
* `mergeDepth` — how deep in a balanced tree of merges the boundary between two
  neighbouring runs lies;
* `mergeByDepth` — merges neighbours so that deep boundaries disappear first.

**Runs that are not sorted yet.**  A run may be left unsorted.  Two such neighbours are
joined without being merged, and sorted when they meet a sorted one or at the end, because
a long unsorted stretch can be sorted at once.
-/

namespace ExtentQuery.Sorting

variable {α : Type}

/-- A stretch of a list. -/
structure Run (α : Type) where
  items : List α
  sorted : Bool

/-! ### Cutting a list -/

/-- How many items at the beginning of a list each relate to the one before them; the
first one relates to `x`. -/
def chainLength (relates : α → α → Bool) (x : α) : List α → Nat
  | [] => 0
  | y :: ys => if relates x y then chainLength relates y ys + 1 else 0

/-- How many items continue the run that begins with `x`, and whether it falls. -/
def continuation (cmp : Comparison α) (x : α) : List α → Nat × Bool
  | [] => (0, false)
  | y :: ys =>
    if cmp y x = .lt then (chainLength (fun a b => cmp b a = .lt) y ys + 1, true)
    else (chainLength (fun a b => cmp b a ≠ .lt) y ys + 1, false)

/-- The run of the first `count + 1` items of a list, turned round if it falls. -/
def naturalRun (x : α) (xs : List α) (count : Nat) (falls : Bool) : Run α :=
  let items := x :: xs.take count
  ⟨if falls then items.reverse else items, true⟩

/-- Cuts a list into runs.  Natural runs of at least `goodLength` items are kept, and all
others are made by `make` from `madeLength + 1` items. -/
def cutRuns (cmp : Comparison α) (goodLength madeLength : Nat)
    (make : List α → Option (Run α)) : List α → Option (List (Run α))
  | [] => some []
  | x :: xs =>
    let (count, falls) := continuation cmp x xs
    if goodLength ≤ count + 1 then do
      let runs ← cutRuns cmp goodLength madeLength make (xs.drop count)
      return naturalRun x xs count falls :: runs
    else do
      let run ← make (x :: xs.take madeLength)
      let runs ← cutRuns cmp goodLength madeLength make (xs.drop madeLength)
      return run :: runs
termination_by xs => xs.length
decreasing_by all_goals simp only [List.length_drop, List.length_cons]; omega

/-! ### Merging runs -/

/-- The number of leading zeros among the 64 binary digits of a number. -/
def leadingZeros (n : Nat) : Nat :=
  if n = 0 then 64 else 63 - n.log2

/-- The depth of the boundary at `middle` between the runs from `first` and up to `last`
in a list of `total` items.  The centres of both runs are measured in binary fractions of
the whole, and the depth is the number of digits that they share. -/
def mergeDepth (total first middle last : Nat) : Nat :=
  let scale := (1 <<< 62 + total - 1) / total
  leadingZeros ((scale * (first + middle)) ^^^ (scale * (middle + last)))

/-- Merges two sorted runs, from the side of the shorter one. -/
def mergePair (cmp : Comparison α) (left right : List α) : List α :=
  if left.length ≤ right.length then mergeForward cmp left right
  else mergeBackward cmp left right

/-- The items of a run in order. -/
def Run.sort (sorter : List α → Option (List α)) (run : Run α) : Option (List α) :=
  if run.sorted then some run.items else sorter run.items

/-- Joins two neighbouring runs. -/
def joinRuns (cmp : Comparison α) (sorter : List α → Option (List α)) (left right : Run α) :
    Option (Run α) :=
  if left.sorted || right.sorted then do
    return ⟨mergePair cmp (← left.sort sorter) (← right.sort sorter), true⟩
  else some ⟨left.items ++ right.items, false⟩

/-- Joins a run with those before it whose boundaries are at least `depth` deep; the
nearest one comes first, with the depth of the boundary behind it. -/
def joinDeep (cmp : Comparison α) (sorter : List α → Option (List α)) (depth : Nat) :
    (run : Run α) → (pending : List (Run α × Nat)) →
    Option (Run α × List (Run α × Nat))
  | run, [] => some (run, [])
  | run, (left, boundary) :: pending =>
    if depth ≤ boundary then do
      joinDeep cmp sorter depth (← joinRuns cmp sorter left run) pending
    else some (run, (left, boundary) :: pending)

/-- Joins all runs of a list of `total` items: those in `pending`, the run `run` that
begins at `first`, and `runs` behind it. -/
def mergeByDepth (cmp : Comparison α) (sorter : List α → Option (List α)) (total : Nat) :
    (first : Nat) → (run : Run α) → (pending : List (Run α × Nat)) → (runs : List (Run α)) →
    Option (Run α)
  | _, run, pending, [] => do
    return (← joinDeep cmp sorter 0 run pending).1
  | first, run, pending, next :: runs => do
    let middle := first + run.items.length
    let depth := mergeDepth total first middle (middle + next.items.length)
    let (joined, rest) ← joinDeep cmp sorter depth run pending
    mergeByDepth cmp sorter total middle next ((joined, depth) :: rest) runs

/-- Joins the runs of a list into a sorted one. -/
def sortRuns (cmp : Comparison α) (sorter : List α → Option (List α)) :
    List (Run α) → Option (List α)
  | [] => some []
  | run :: runs => do
    let total := ((run :: runs).flatMap (·.items)).length
    (← mergeByDepth cmp sorter total 0 run [] runs).sort sorter

end ExtentQuery.Sorting

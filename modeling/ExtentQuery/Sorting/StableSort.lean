import ExtentQuery.Sorting.NaturalRuns
import ExtentQuery.Sorting.Quicksort

/-!
# Stable sort

A sort that keeps items that compare as equal in their order, and that takes advantage of
what is in order already.

* Lists of up to `insertionLimit` items are sorted by insertion.
* Lists of up to `eagerLimit` items are cut into runs, which are sorted at once where they
  are not natural, and merged (`eagerSort`).
* In longer lists, stretches without natural runs are left to a quicksort (`adaptiveSort`).

**Comparisons that contradict themselves.**  For a comparison that is not transitive the
result depends on which items are compared, and there may be none (`mergeInward`).
-/

namespace ExtentQuery.Sorting

variable {α : Type}

/-- The longest lists that are sorted by insertion. -/
def insertionLimit : Nat := 20

/-- The longest lists in which every run is sorted when it is found. -/
def eagerLimit : Nat := 64

/-- An approximation to the square root of a number, by one step from a power of two. -/
def approximateRoot (n : Nat) : Nat :=
  let shift := (1 + (n ||| 1).log2) / 2
  ((1 <<< shift) + (n >>> shift)) / 2

/-- How long a natural run has to be in a list of a given length: half of a short list,
64 items of a longer one, and about the square root of a long one. -/
def goodRunLength (total : Nat) : Nat :=
  if total ≤ 4096 then min (total - total / 2) 64 else approximateRoot total

/-- Sorts a list by merging runs, which are sorted when they are found. -/
def eagerSort (weight : Weight) (cmp : Comparison α) (xs : List α) : Option (List α) := do
  let make (items : List α) : Option (Run α) :=
    return ⟨← smallSort weight cmp items, true⟩
  sortRuns cmp some (← cutRuns cmp (goodRunLength xs.length) (undividedLimit - 1) make xs)

/-- Sorts a list by dividing it, at most twice as often as it could be halved. -/
def dividingSort (weight : Weight) (cmp : Comparison α) (xs : List α) : Option (List α) :=
  quicksort (smallSort weight cmp) (eagerSort weight cmp) cmp (2 * (xs.length ||| 1).log2)
    none xs

/-- Sorts a list by merging natural runs with stretches that are sorted by dividing. -/
def adaptiveSort (weight : Weight) (cmp : Comparison α) (xs : List α) :
    Option (List α) := do
  let good := goodRunLength xs.length
  sortRuns cmp (dividingSort weight cmp)
    (← cutRuns cmp good (good - 1) (fun items => some ⟨items, false⟩) xs)

/-- Sorts a list and keeps items that compare as equal in their order. -/
def stableSort (weight : Weight) (cmp : Comparison α) (xs : List α) : Option (List α) :=
  if xs.length ≤ insertionLimit then some (insertionSort cmp xs)
  else if xs.length ≤ eagerLimit then eagerSort weight cmp xs
  else adaptiveSort weight cmp xs

/-- The positions below `length` in the order of a stable sort. -/
def stablePositions (weight : Weight) (length : Nat) (cmp : Comparison Nat) :
    Option (List Nat) :=
  stableSort weight cmp (List.range length)

end ExtentQuery.Sorting

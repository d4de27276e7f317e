import ExtentQuery.Sorting.HeapSort
import ExtentQuery.Sorting.MergeSort
import ExtentQuery.Sorting.StableSort

/-!
# Methods of sorting in memory

Three methods sort in memory, and all of them keep the order of items with equal keys.
Each one answers the positions `0, 1, …` of the items in sorted order.  The stable sort
notices some comparisons that contradict themselves, and then has no answer.
-/

namespace ExtentQuery.Sorting

/-- A way to sort in memory. -/
inductive Method where
  | merge
  | stable
  | heap
deriving DecidableEq, Repr, Inhabited

namespace Method

/-- How many runs the merge sort merges at a time. -/
def fanIn : Nat := 4

/-- The positions below `length` in sorted order. -/
def positions (method : Method) (length : Nat) (cmp : Comparison Nat) :
    Option (List Nat) :=
  match method with
  | merge => some (mergeSort fanIn length cmp)
  | stable => stablePositions .light length cmp
  | heap => some (heapSort length cmp)

/-- The name of a method in settings. -/
def name : Method → String
  | merge => "merge"
  | stable => "stable"
  | heap => "heap"

/-- The method with a name. -/
def ofName? (name : String) : Option Method :=
  [merge, stable, heap].find? (·.name == name)

end Method

end ExtentQuery.Sorting

import ExtentQuery.Sorting.Runs

/-!
# Bottom-up merge sort

The sort starts with one run for each item.  A pass puts neighbouring runs into groups
(`groups`) and merges each group into one run (`mergePass`); passes are repeated until
there is a single run.  How many runs a group has, the fan-in, is at least two, so every
pass leaves fewer runs than it found.
-/

namespace ExtentQuery.Sorting

variable {α : Type}

/-- Cuts a list into groups of `size + 1` items; the last group may be shorter. -/
def groups (size : Nat) : List α → List (List α)
  | [] => []
  | x :: xs => (x :: xs.take size) :: groups size (xs.drop size)
termination_by xs => xs.length
decreasing_by
  simp only [List.length_drop, List.length_cons]
  omega

/-- No group is empty, so there are at most as many groups as items. -/
theorem length_groups_le (size : Nat) (xs : List α) : (groups size xs).length ≤ xs.length := by
  fun_induction groups size xs with
  | case1 => exact Nat.le_refl _
  | case2 x xs ih =>
    simp only [List.length_cons, List.length_drop] at ih ⊢
    omega

/-- Groups of two or more are fewer than the items. -/
theorem length_groups_lt (size : Nat) {xs : List α} (several : 1 < xs.length) :
    (groups (size + 1) xs).length < xs.length := by
  match xs, several with
  | x :: y :: rest, _ =>
    have bound := length_groups_le (size + 1) ((y :: rest).drop (size + 1))
    rw [groups]
    simp only [List.length_cons, List.length_drop] at bound ⊢
    omega

/-- Merges each group of `extra + 2` neighbouring runs into one. -/
def mergePass (cmp : Comparison α) (extra : Nat) (runs : List (List α)) : List (List α) :=
  (groups (extra + 1) runs).map (mergeRuns cmp)

/-- Repeats passes until at most one run is left. -/
def mergePasses (cmp : Comparison α) (extra : Nat) (runs : List (List α)) : List (List α) :=
  if _several : 1 < runs.length then mergePasses cmp extra (mergePass cmp extra runs)
  else runs
termination_by runs.length
decreasing_by
  simp only [mergePass, List.length_map]
  exact length_groups_lt extra _several

/-- The positions below `length` in the order of a bottom-up merge sort.  A fan-in below
two counts as two. -/
def mergeSort (fanIn length : Nat) (cmp : Comparison Nat) : List Nat :=
  (mergePasses cmp (fanIn - 2) ((List.range length).map fun i => [i])).flatten

end ExtentQuery.Sorting

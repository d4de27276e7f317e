import ExtentQuery.Sorting.Runs

/-!
# Insertion sort

Each item moves towards the front past the items that it is strictly smaller than, so
items that compare as equal keep their order.

The sorted part is kept in reverse, so that an item is compared with the items before it
from the nearest one on.
-/

namespace ExtentQuery.Sorting

variable {α : Type}

/-- Inserts an item into a list in reverse order, behind the items it is strictly smaller
than. -/
def insertReverse (cmp : Comparison α) (x : α) : List α → List α
  | [] => [x]
  | y :: ys => if cmp x y = .lt then y :: insertReverse cmp x ys else x :: y :: ys

/-- Inserts items into a sorted list, one after the other. -/
def insertEach (cmp : Comparison α) (sorted xs : List α) : List α :=
  (xs.foldl (fun reversed x => insertReverse cmp x reversed) sorted.reverse).reverse

/-- Sorts by insertion. -/
def insertionSort (cmp : Comparison α) (xs : List α) : List α :=
  insertEach cmp [] xs

theorem insertReverse_perm (cmp : Comparison α) (x : α) (xs : List α) :
    (insertReverse cmp x xs).Perm (x :: xs) := by
  induction xs with
  | nil => exact .refl _
  | cons y ys ih =>
    unfold insertReverse
    split
    · exact (ih.cons y).trans (.swap x y ys)
    · exact .refl _

/-- Inserting neither loses nor invents an item. -/
theorem insertEach_perm (cmp : Comparison α) (sorted xs : List α) :
    (insertEach cmp sorted xs).Perm (sorted ++ xs) := by
  have inserted : ∀ xs reversed : List α,
      (xs.foldl (fun reversed x => insertReverse cmp x reversed) reversed).Perm
        (reversed ++ xs) := by
    intro xs
    induction xs with
    | nil => exact fun reversed => by simp
    | cons x xs ih =>
      intro reversed
      refine (ih _).trans ?_
      exact ((insertReverse_perm cmp x reversed).append_right xs).trans List.perm_middle.symm
  exact (List.reverse_perm _).trans
    ((inserted xs sorted.reverse).trans ((List.reverse_perm sorted).append_right xs))

/-- Sorting by insertion neither loses nor invents an item. -/
theorem insertionSort_perm (cmp : Comparison α) (xs : List α) :
    (insertionSort cmp xs).Perm xs :=
  insertEach_perm cmp [] xs

end ExtentQuery.Sorting

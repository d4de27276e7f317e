import ExtentQuery.Sorting.SmallSort

/-!
# Stable quicksort

The list is divided by a pivot into what is smaller and what is not, both in their old
order, and both parts are sorted in turn.

* `pivotPosition` — an item near the middle, found by comparing a few;
* `lesser`, `others`, `equals`, `greater` — the parts of a list around a pivot;
* `quicksort` — divides until the parts are short enough for another sort.

**Many equal items.**  A pivot that is no greater than the one the list was divided by
before, or than any other item, has many equals or is the least item.  Then the list is
divided into what is not greater than the pivot, which needs no more sorting, and what is
greater.

**Bad pivots.**  The number of divisions on top of one another is limited; what is still
too long when the limit is reached is left to the fallback.
-/

namespace ExtentQuery.Sorting

variable {α : Type}

/-! ### Choosing a pivot -/

/-- The position of the middle one among three items, when `less` compares positions. -/
def medianOfThree (less : Nat → Nat → Bool) (a b c : Nat) : Nat :=
  if less a b = less a c then
    if less b c = less a b then b else c
  else a

/-- A position near the middle of three sections that begin at `a`, `b` and `c`.  A
section of at least eight items is represented by the middle of three sections of its
own, and a shorter one by its first item. -/
def middlePosition (less : Nat → Nat → Bool) (a b c length : Nat) : Nat :=
  if _long : 8 ≤ length then
    let part := length / 8
    medianOfThree less
      (middlePosition less a (a + 4 * part) (a + 7 * part) part)
      (middlePosition less b (b + 4 * part) (b + 7 * part) part)
      (middlePosition less c (c + 4 * part) (c + 7 * part) part)
  else medianOfThree less a b c
termination_by length
decreasing_by all_goals omega

/-- The position of the pivot of a list. -/
def pivotPosition (cmp : Comparison α) (xs : List α) : Nat :=
  let items := xs.toArray
  let less (i j : Nat) : Bool :=
    match items[i]?, items[j]? with
    | some x, some y => cmp x y == .lt
    | _, _ => false
  let part := items.size / 8
  middlePosition less 0 (4 * part) (7 * part) part

/-! ### Dividing a list -/

/-- A list around one of its items. -/
structure Division (α : Type) where
  before : List α
  pivot : α
  after : List α

namespace Division

/-- A list divided at a position. -/
def at? (xs : List α) (position : Nat) : Option (Division α) :=
  match xs.drop position with
  | [] => none
  | pivot :: after => some ⟨xs.take position, pivot, after⟩

/-- What is smaller than the pivot. -/
def lesser (d : Division α) (cmp : Comparison α) : List α :=
  (d.before ++ d.after).filter fun x => cmp x d.pivot = .lt

/-- The pivot and what is not smaller than it. -/
def others (d : Division α) (cmp : Comparison α) : List α :=
  (d.before.filter fun x => cmp x d.pivot ≠ .lt)
    ++ d.pivot :: d.after.filter fun x => cmp x d.pivot ≠ .lt

/-- The pivot and what is not greater than it. -/
def equals (d : Division α) (cmp : Comparison α) : List α :=
  (d.before.filter fun x => cmp d.pivot x ≠ .lt)
    ++ d.pivot :: d.after.filter fun x => cmp d.pivot x ≠ .lt

/-- What is greater than the pivot. -/
def greater (d : Division α) (cmp : Comparison α) : List α :=
  (d.before ++ d.after).filter fun x => cmp d.pivot x = .lt

/-- Whether the pivot is not greater than the one that the list was divided by before. -/
def repeats (d : Division α) (cmp : Comparison α) (previous : Option α) : Bool :=
  previous.any fun p => cmp p d.pivot ≠ .lt

end Division

/-- The longest list that a quicksort does not divide. -/
def undividedLimit : Nat := 32

/-- Sorts a list by dividing it at most `limit` times over.  Lists that are not divided
any more are left to `finish`, and lists that should be to `fallback`; `previous` is the
pivot that everything in the list is known not to be smaller than. -/
def quicksort (finish fallback : List α → Option (List α)) (cmp : Comparison α) :
    (limit : Nat) → (previous : Option α) → List α → Option (List α)
  | 0, _, xs => if xs.length ≤ undividedLimit then finish xs else fallback xs
  | limit + 1, previous, xs =>
    if xs.length ≤ undividedLimit then finish xs
    else
      match Division.at? xs (pivotPosition cmp xs) with
      | none => fallback xs
      | some d =>
        if d.repeats cmp previous || (d.lesser cmp).isEmpty then do
          let upper ← quicksort finish fallback cmp limit none (d.greater cmp)
          return d.equals cmp ++ upper
        else do
          let upper ← quicksort finish fallback cmp limit (some d.pivot) (d.others cmp)
          let lower ← quicksort finish fallback cmp limit previous (d.lesser cmp)
          return lower ++ upper

end ExtentQuery.Sorting

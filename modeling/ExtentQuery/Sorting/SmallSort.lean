import ExtentQuery.Sorting.Insertion
import ExtentQuery.Sorting.TwoRuns

/-!
# Sorting a few items

A short list is cut into two halves, both are sorted, and they are merged from both ends.
Half a list is sorted by insertion behind its first items, the block, which are put in
order at once:

* four items take five comparisons (`sortFour`);
* eight items are two times four, merged from both ends;
* a half that is too short for either has a block of one item.

**Light and heavy items.**  Blocks of eight are used only for items that are cheap to
move.  The two kinds of items (`Weight`) are sorted alike by every transitive comparison.
-/

namespace ExtentQuery.Sorting

variable {α : Type}

/-- Whether items are cheap to move. -/
inductive Weight where
  | light
  | heavy
deriving DecidableEq, Repr, Inhabited

/-- Puts two items in order. -/
def sortTwo (cmp : Comparison α) (x y : α) : α × α :=
  if cmp y x = .lt then (y, x) else (x, y)

/-- Puts four items in order: both pairs first, then the least and the greatest of all
four, and at last the two that remain. -/
def sortFour (cmp : Comparison α) (w x y z : α) : List α :=
  let (a, b) := sortTwo cmp w x
  let (c, d) := sortTwo cmp y z
  let between (least left right greatest : α) : List α :=
    let (low, high) := sortTwo cmp left right
    [least, low, high, greatest]
  match decide (cmp c a = .lt), decide (cmp d b = .lt) with
  | false, false => between a b c d
  | false, true => between a c d b
  | true, false => between c a b d
  | true, true => between c a d b

/-- How many items at the beginning of half a list are put in order at once, for a list
of `total` items. -/
def blockLength (weight : Weight) (total : Nat) : Nat :=
  if weight = .light ∧ 16 ≤ total then 8
  else if 8 ≤ total then 4
  else 1

/-- The block of `length` items at the beginning of half a list, put in order, and the
items behind it. -/
def sortBlock (cmp : Comparison α) : (length : Nat) → (half : List α) →
    Option (List α × List α)
  | 8, a :: b :: c :: d :: e :: f :: g :: h :: behind => do
    return (← mergeInward cmp (sortFour cmp a b c d) (sortFour cmp e f g h), behind)
  | 4, a :: b :: c :: d :: behind => some (sortFour cmp a b c d, behind)
  | _, half => some (half.take 1, half.drop 1)

/-- Half a list, sorted behind a block of `length` items. -/
def sortHalf (cmp : Comparison α) (length : Nat) (half : List α) : Option (List α) := do
  let (block, behind) ← sortBlock cmp length half
  return insertEach cmp block behind

/-- Sorts a short list. -/
def smallSort (weight : Weight) (cmp : Comparison α) (xs : List α) : Option (List α) :=
  if xs.length < 2 then some xs
  else do
    let length := blockLength weight xs.length
    let left ← sortHalf cmp length (xs.take (xs.length / 2))
    let right ← sortHalf cmp length (xs.drop (xs.length / 2))
    mergeInward cmp left right

end ExtentQuery.Sorting

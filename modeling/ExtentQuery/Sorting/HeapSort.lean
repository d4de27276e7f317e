import ExtentQuery.Sorting.Runs

/-!
# Heap sort

The positions to be sorted stand in a vector that is arranged as a heap: the item at `i`
does not precede the items at `2 * i + 1` and `2 * i + 2`.  The greatest item is then at
the root.  Moving it behind the heap and sinking what took its place (`sink`), again
and again, leaves the vector in order.

**Stability.**  A heap sort does not keep equal items in their order.  Items that compare
as equal are therefore ordered by their positions (`byPosition`), which makes all items
different.
-/

namespace ExtentQuery.Sorting

/-- A comparison of positions in which no two positions are equal. -/
def byPosition (cmp : Comparison Nat) : Comparison Nat := fun i j =>
  (cmp i j).then (compare i j)

/-- The greater one of the children of `root` that lie before `stop`, of which the first
one does. -/
def greaterChild {n : Nat} (cmp : Comparison Nat) (heap : Vector Nat n) (root stop : Nat)
    (inside : stop ≤ n) (first : 2 * root + 1 < stop) :
    { child : Nat // child < stop ∧ root < child } :=
  if second : 2 * root + 2 < stop then
    if cmp heap[2 * root + 1] heap[2 * root + 2] = .lt then ⟨2 * root + 2, second, by omega⟩
    else ⟨2 * root + 1, first, by omega⟩
  else ⟨2 * root + 1, first, by omega⟩

/-- Sinks the item at `root` among the items before `stop` until no child of it is
greater. -/
def sink {n : Nat} (cmp : Comparison Nat) (heap : Vector Nat n) (root stop : Nat)
    (inside : stop ≤ n) : Vector Nat n :=
  if first : 2 * root + 1 < stop then
    let child := greaterChild cmp heap root stop inside first
    have below : child.1 < n := Nat.lt_of_lt_of_le child.2.1 inside
    have rootBelow : root < n := Nat.lt_trans child.2.2 below
    if cmp heap[root] heap[child.1] = .lt then
      sink cmp (heap.swap root child.1) child.1 stop inside
    else heap
  else heap
termination_by stop - root
decreasing_by
  have := (greaterChild cmp heap root stop inside first).2
  omega

/-- Sinks the items before `count`, the last one first. -/
def buildHeap {n : Nat} (cmp : Comparison Nat) : (count : Nat) → Vector Nat n → Vector Nat n
  | 0, heap => heap
  | count + 1, heap => buildHeap cmp count (sink cmp heap count n (Nat.le_refl n))

/-- Moves the greatest items one after the other behind the first `count` items. -/
def drainHeap {n : Nat} (cmp : Comparison Nat) : (count : Nat) → count ≤ n → Vector Nat n →
    Vector Nat n
  | 0, _, heap => heap
  | 1, _, heap => heap
  | count + 2, inside, heap =>
    drainHeap cmp (count + 1) (by omega)
      (sink cmp (heap.swap 0 (count + 1)) 0 (count + 1) (by omega))

/-- The positions below `length` in the order of a heap sort. -/
def heapSort (length : Nat) (cmp : Comparison Nat) : List Nat :=
  let heap := buildHeap (byPosition cmp) (length / 2) (Vector.range length)
  (drainHeap (byPosition cmp) length (Nat.le_refl _) heap).toList

end ExtentQuery.Sorting

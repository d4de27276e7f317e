import ExtentQuery.Proofs.Sorting.HeapSort
import ExtentQuery.Proofs.Sorting.Locality

/-!
# What the heap sort reads

The definition of the heap sort carries the proofs that every place it looks at is there.  Here
the same steps are taken on an array whose length nothing is known about, and every access may
fail.

* `heapSort?` — the heap sort with checked accesses, `heapSort?_eq` — no access fails, and the
  answer is that of the heap sort;
* `heapSort_congr` — the heap sort asks the comparison about positions below the length only.

**Why sinking ends.**  A child stands behind its parent, whether or not there is an item at either
place.  So `sink?` comes to an end by itself, and only its accesses can fail.
-/

namespace ExtentQuery.Sorting

/-! ### Checked accesses -/

/-- Exchanges the items at two places, if both are there. -/
def exchange? (heap : Array Nat) (i j : Nat) : Option (Array Nat) :=
  if inside : i < heap.size ∧ j < heap.size then some (heap.swap i j inside.1 inside.2) else none

/-- The greater one of the children of `root` before `stop`, of which there is a first one. -/
def greaterChild? (cmp : Comparison Nat) (heap : Array Nat) (root stop : Nat) :
    Option { child : Nat // root < child } :=
  if 2 * root + 2 < stop then do
    let first ← heap[2 * root + 1]?
    let second ← heap[2 * root + 2]?
    return if cmp first second = .lt then ⟨2 * root + 2, by omega⟩ else ⟨2 * root + 1, by omega⟩
  else some ⟨2 * root + 1, by omega⟩

/-- Sinks the item at `root` among the items before `stop`. -/
def sink? (cmp : Comparison Nat) (heap : Array Nat) (root stop : Nat) : Option (Array Nat) :=
  if 2 * root + 1 < stop then do
    let child ← greaterChild? cmp heap root stop
    let item ← heap[root]?
    let greater ← heap[child.1]?
    if cmp item greater = .lt then sink? cmp (← exchange? heap root child.1) child.1 stop
    else some heap
  else some heap
termination_by stop - root
decreasing_by
  have := child.2
  omega

/-- Sinks the items before `count`, the last one first. -/
def buildHeap? (cmp : Comparison Nat) (count : Nat) (heap : Array Nat) : Option (Array Nat) :=
  (List.range count).reverse.foldlM (fun heap root => sink? cmp heap root heap.size) heap

/-- Moves the greatest items one after the other behind the first `count` items. -/
def drainHeap? (cmp : Comparison Nat) (count : Nat) (heap : Array Nat) : Option (Array Nat) :=
  (List.range' 1 (count - 1)).reverse.foldlM
    (fun heap stop => do sink? cmp (← exchange? heap 0 stop) 0 stop) heap

/-- The positions below `length` in the order of a heap sort, if no access fails. -/
def heapSort? (length : Nat) (cmp : Comparison Nat) : Option (List Nat) := do
  let heap ← buildHeap? (byPosition cmp) (length / 2) (Array.range length)
  return (← drainHeap? (byPosition cmp) length heap).toList

/-! ### No access fails -/

variable {n : Nat} {cmp cmp' : Comparison Nat} {heap : Vector Nat n} {root stop : Nat}

theorem exchange?_eq {i j : Nat} (inside : i < n) (inside' : j < n) :
    exchange? heap.toArray i j = some (heap.swap i j).toArray := by
  rw [exchange?, dif_pos ⟨by simpa using inside, by simpa using inside'⟩]
  simp

theorem getElem?_toArray {i : Nat} (inside : i < n) : heap.toArray[i]? = some heap[i] := by
  simp [inside]

theorem greaterChild?_eq (inside : stop ≤ n) (first : 2 * root + 1 < stop) :
    greaterChild? cmp heap.toArray root stop
      = some ⟨(greaterChild cmp heap root stop inside first).1,
          (greaterChild cmp heap root stop inside first).2.2⟩ := by
  unfold greaterChild? greaterChild
  split
  case isTrue second =>
    rw [getElem?_toArray (Nat.lt_of_lt_of_le first inside),
      getElem?_toArray (Nat.lt_of_lt_of_le second inside)]
    simp only [bind, Option.bind_some, pure]
    split <;> rfl
  case isFalse => rfl

theorem sink?_eq (inside : stop ≤ n) :
    sink? cmp heap.toArray root stop = some (sink cmp heap root stop inside).toArray := by
  fun_induction sink cmp heap root stop inside with
  | case1 heap root first child below rootBelow smaller ih =>
    rw [sink?, if_pos first, greaterChild?_eq inside first]
    simp only [bind, Option.bind_some]
    rw [getElem?_toArray rootBelow, getElem?_toArray below]
    simp only [Option.bind_some]
    rw [if_pos smaller, exchange?_eq rootBelow below]
    exact ih
  | case2 heap root first child below rootBelow notSmaller =>
    rw [sink?, if_pos first, greaterChild?_eq inside first]
    simp only [bind, Option.bind_some]
    rw [getElem?_toArray rootBelow, getElem?_toArray below]
    simp only [Option.bind_some]
    rw [if_neg notSmaller]
  | case3 heap root childless => rw [sink?, if_neg childless]

theorem buildHeap?_eq (count : Nat) :
    buildHeap? cmp count heap.toArray = some (buildHeap cmp count heap).toArray := by
  induction count generalizing heap with
  | zero => rfl
  | succ count ih =>
    have last : sink? cmp heap.toArray count heap.toArray.size
        = some (sink cmp heap count n (Nat.le_refl n)).toArray := by
      rw [Vector.size_toArray]
      exact sink?_eq (Nat.le_refl n)
    rw [buildHeap?, List.range_succ, List.reverse_append, List.reverse_singleton,
      List.singleton_append, List.foldlM_cons, last]
    exact ih

theorem drainHeap?_eq {count : Nat} (inside : count ≤ n) :
    drainHeap? cmp count heap.toArray = some (drainHeap cmp count inside heap).toArray := by
  fun_induction drainHeap cmp count inside heap with
  | case1 => rfl
  | case2 => rfl
  | case3 count inside heap ih =>
    have stops : (List.range' 1 (count + 2 - 1)).reverse
        = (count + 1) :: (List.range' 1 (count + 1 - 1)).reverse := by
      have last : List.range' 1 (count + 1) = List.range' 1 count ++ [1 + 1 * count] :=
        List.range'_concat
      rw [Nat.one_mul, Nat.add_comm 1 count] at last
      exact (congrArg List.reverse last).trans List.reverse_concat
    rw [drainHeap?, stops, List.foldlM_cons, exchange?_eq (by omega) (by omega)]
    simp only [bind, Option.bind_some]
    rw [sink?_eq (by omega)]
    exact ih

/-- The heap sort comes to an end without an access to a place that is not there. -/
theorem heapSort?_eq (length : Nat) (cmp : Comparison Nat) :
    heapSort? length cmp = some (heapSort length cmp) := by
  have started : Array.range length = (Vector.range length).toArray := rfl
  rw [heapSort?, started, buildHeap?_eq]
  simp only [bind, Option.bind_some]
  rw [drainHeap?_eq (Nat.le_refl length)]
  rfl

/-! ### Which comparisons are asked for -/

variable {length : Nat}

/-- Whether the items of a heap are positions below a length. -/
def ItemsBelow (heap : Vector Nat n) (length : Nat) : Prop :=
  ∀ (i : Nat) (inside : i < n), heap[i] < length

theorem ItemsBelow.swap (items : ItemsBelow heap length) {i j : Nat} (inside : i < n)
    (inside' : j < n) : ItemsBelow (heap.swap i j) length := by
  intro k inside''
  rw [Vector.getElem_swap]
  split
  · exact items j inside'
  · split
    · exact items i inside
    · exact items k inside''

theorem ItemsBelow.of_perm {heap' : Vector Nat n} (items : ItemsBelow heap length)
    (perm : heap'.Perm heap) : ItemsBelow heap' length := by
  intro i inside
  obtain ⟨j, inside', same⟩ := Vector.mem_iff_getElem.mp
    (perm.mem_iff.mp (Vector.getElem_mem inside))
  exact same ▸ items j inside'

theorem greaterChild_congr (agree : AgreeBelow cmp cmp' length) (items : ItemsBelow heap length)
    (inside : stop ≤ n) (first : 2 * root + 1 < stop) :
    greaterChild cmp heap root stop inside first
      = greaterChild cmp' heap root stop inside first := by
  unfold greaterChild
  split
  case isTrue second =>
    rw [agree _ (items _ (Nat.lt_of_lt_of_le first inside)) _
      (items _ (Nat.lt_of_lt_of_le second inside))]
  case isFalse => rfl

theorem sink_congr (agree : AgreeBelow cmp cmp' length) (items : ItemsBelow heap length)
    (inside : stop ≤ n) :
    sink cmp heap root stop inside = sink cmp' heap root stop inside := by
  fun_induction sink cmp heap root stop inside with
  | case1 heap root first child below rootBelow smaller ih =>
    have compared := agree _ (items root rootBelow) _ (items child.1 below)
    rw [ih (items.swap rootBelow below), sink.eq_def cmp' heap, dif_pos first]
    simp only [← greaterChild_congr agree items inside first]
    rw [if_pos (compared ▸ smaller)]
  | case2 heap root first child below rootBelow notSmaller =>
    have compared := agree _ (items root rootBelow) _ (items child.1 below)
    rw [sink.eq_def cmp' heap, dif_pos first]
    simp only [← greaterChild_congr agree items inside first]
    rw [if_neg (compared ▸ notSmaller)]
  | case3 heap root childless => rw [sink, dif_neg childless]

theorem buildHeap_congr (agree : AgreeBelow cmp cmp' length) (items : ItemsBelow heap length)
    (count : Nat) : buildHeap cmp count heap = buildHeap cmp' count heap := by
  induction count generalizing heap with
  | zero => rfl
  | succ count ih =>
    rw [buildHeap, buildHeap, ← sink_congr agree items]
    exact ih (items.of_perm (sink_perm cmp heap count n _))

theorem drainHeap_congr (agree : AgreeBelow cmp cmp' length) (items : ItemsBelow heap length)
    {count : Nat} (inside : count ≤ n) :
    drainHeap cmp count inside heap = drainHeap cmp' count inside heap := by
  fun_induction drainHeap cmp count inside heap with
  | case1 => rfl
  | case2 => rfl
  | case3 count inside heap ih =>
    have swapped : ItemsBelow (heap.swap 0 (count + 1)) length := items.swap (by omega) (by omega)
    rw [drainHeap, ← sink_congr agree swapped]
    exact ih (swapped.of_perm (sink_perm cmp _ 0 (count + 1) _))

/-- The heap sort of positions looks at the comparisons of these positions only. -/
theorem heapSort_congr (agree : AgreeBelow cmp cmp' length) :
    heapSort length cmp = heapSort length cmp' := by
  have total : AgreeBelow (byPosition cmp) (byPosition cmp') length := by
    intro i insideI j insideJ
    rw [byPosition, byPosition, agree i insideI j insideJ]
  have items : ItemsBelow (Vector.range length) length := by
    intro i inside
    rw [Vector.getElem_range]
    exact inside
  rw [heapSort, heapSort, buildHeap_congr total items]
  rw [drainHeap_congr total (items.of_perm (buildHeap_perm (byPosition cmp') (length / 2) _))]

end ExtentQuery.Sorting

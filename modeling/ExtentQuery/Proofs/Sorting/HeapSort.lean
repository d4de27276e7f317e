import ExtentQuery.Proofs.Sorting.Permutations
import Mathlib.Data.Nat.Basic

/-!
# The heap sort is a stable sort

* `HeapFrom` — from some place on, no item of a heap is smaller than an item below it;
* `HeapBut`, `HeapBut.sink` — one item that may be smaller sinks to where it belongs;
* `heapFrom_buildHeap` — arranging a heap;
* `Drained`, `Drained.drainHeap` — what stands behind the heap is in order;
* `sorts_heapSort` — positions in the order of a heap sort.

**The item that sinks** may be smaller than what is below it.  What is above it is not
(`HeapBut.across`), so the greater child can take its place.
-/

namespace ExtentQuery.Sorting

variable {n : Nat} {cmp : Comparison Nat} {heap : Vector Nat n} {low stop root : Nat}

/-! ### Heaps -/

/-- Whether a place of a heap is directly below another one. -/
def IsChild (parent child : Nat) : Prop :=
  child = 2 * parent + 1 ∨ child = 2 * parent + 2

/-- Whether, of the places before an end, those from a given one on hold nothing smaller than
what is directly below them. -/
def HeapFrom (cmp : Comparison Nat) (heap : Vector Nat n) (low stop : Nat) : Prop :=
  ∀ (i c : Nat) (inside : i < n) (inside' : c < n), low ≤ i → IsChild i c → c < stop →
    cmp heap[i] heap[c] ≠ .lt

/-- Whether this holds, but for one place, whose item may be smaller than those below it; these are
not greater than what is above that place. -/
structure HeapBut (cmp : Comparison Nat) (heap : Vector Nat n) (low stop hole : Nat) : Prop where
  ordered : ∀ (i c : Nat) (inside : i < n) (inside' : c < n), low ≤ i → i ≠ hole → IsChild i c →
    c < stop → cmp heap[i] heap[c] ≠ .lt
  across : ∀ (p c : Nat) (inside : p < n) (inside' : c < n), low ≤ p → IsChild p hole →
    IsChild hole c → c < stop → cmp heap[p] heap[c] ≠ .lt

theorem greaterChild_isChild {inside : stop ≤ n} {first : 2 * root + 1 < stop} :
    IsChild root (greaterChild cmp heap root stop inside first).1 := by
  unfold greaterChild
  split
  · split
    · exact .inr rfl
    · exact .inl rfl
  · exact .inl rfl

section Transitive

variable [Std.TransCmp cmp]

theorem not_lt_trans {x y z : Nat} (first : cmp x y ≠ .lt) (second : cmp y z ≠ .lt) :
    cmp x z ≠ .lt := by
  intro smaller
  exact first (Std.TransCmp.lt_of_lt_of_isLE smaller (isLE_of_not_lt second))

theorem not_lt_of_lt {x y : Nat} (smaller : cmp x y = .lt) : cmp y x ≠ .lt :=
  fun smaller' => not_lt_self x (Std.TransCmp.lt_trans smaller smaller')

/-- The greater child is not smaller than any child. -/
theorem greaterChild_not_lt {inside : stop ≤ n} {first : 2 * root + 1 < stop} {c : Nat}
    (inside' : c < n) (isChild : IsChild root c) (below : c < stop)
    (inside'' : (greaterChild cmp heap root stop inside first).1 < n) :
    cmp heap[(greaterChild cmp heap root stop inside first).1] heap[c] ≠ .lt := by
  revert inside''
  unfold greaterChild
  split
  case isTrue second =>
    split
    case isTrue smaller =>
      intro _
      rcases isChild with rfl | rfl
      · exact not_lt_of_lt smaller
      · exact not_lt_self _
    case isFalse notSmaller =>
      intro _
      rcases isChild with rfl | rfl
      · exact not_lt_self _
      · exact notSmaller
  case isFalse single =>
    intro _
    rcases isChild with rfl | rfl
    · exact not_lt_self _
    · exact absurd below single

/-- An item that is smaller than the greater one of its children changes places with it. -/
theorem HeapBut.swap {child : Nat} (but : HeapBut cmp heap low stop root) (fromLow : low ≤ root)
    (isChild : IsChild root child) (before : child < stop) (below : child < n)
    (rootBelow : root < n) (smaller : cmp heap[root] heap[child] = .lt)
    (greatest : ∀ (c : Nat) (inside : c < n), IsChild root c → c < stop →
      cmp heap[child] heap[c] ≠ .lt) :
    HeapBut cmp (heap.swap root child) low stop child where
  ordered i c inside inside' fromLow' notHole isChild' before' := by
    have cNotRoot : i = root → c ≠ root := by unfold IsChild at isChild'; omega
    have oneParent : c = child → i = root := by unfold IsChild at isChild isChild'; omega
    rw [Vector.getElem_swap, Vector.getElem_swap]
    by_cases atRoot : i = root
    · subst atRoot
      rw [if_pos rfl, if_neg (cNotRoot rfl)]
      split
      · exact not_lt_of_lt smaller
      · exact greatest c inside' isChild' before'
    · rw [if_neg atRoot, if_neg notHole, if_neg (mt oneParent atRoot)]
      split
      case isTrue above =>
        subst above
        exact but.across i child inside below fromLow' isChild' isChild before
      case isFalse => exact but.ordered i c inside inside' fromLow' atRoot isChild' before'
  across p c inside inside' fromLow' above isChild' before' := by
    have oneParent : p = root := by unfold IsChild at isChild above; omega
    have apart : child ≠ root ∧ c ≠ root ∧ c ≠ child ∧ low ≤ child := by
      unfold IsChild at isChild isChild'
      omega
    obtain ⟨notRoot, cNotRoot, cNotChild, childFromLow⟩ := apart
    subst oneParent
    rw [Vector.getElem_swap, Vector.getElem_swap, if_pos rfl, if_neg cNotRoot, if_neg cNotChild]
    exact but.ordered child c below inside' childFromLow notRoot isChild' before'

/-- Sinking an item arranges the heap. -/
theorem HeapBut.sink {inside : stop ≤ n} (but : HeapBut cmp heap low stop root)
    (fromLow : low ≤ root) : HeapFrom cmp (Sorting.sink cmp heap root stop inside) low stop := by
  fun_induction Sorting.sink cmp heap root stop inside with
  | case1 heap root first child below rootBelow smaller ih =>
    refine ih (but.swap fromLow greaterChild_isChild child.2.1 below rootBelow smaller
      fun c inside' isChild before => ?_) (Nat.le_trans fromLow (Nat.le_of_lt child.2.2))
    exact greaterChild_not_lt inside' isChild before below
  | case2 heap root first child below rootBelow notSmaller =>
    intro i c inside' inside'' fromLow' isChild before
    by_cases atRoot : i = root
    · subst atRoot
      exact not_lt_trans notSmaller (greaterChild_not_lt inside'' isChild before below)
    · exact but.ordered i c inside' inside'' fromLow' atRoot isChild before
  | case3 heap root childless =>
    intro i c inside' inside'' fromLow' isChild before
    refine but.ordered i c inside' inside'' fromLow' (fun atRoot => childless ?_) isChild before
    unfold IsChild at isChild
    omega

/-- Every place without a child is arranged, and the others are arranged from the last one on. -/
theorem heapFrom_buildHeap {count : Nat} (arranged : HeapFrom cmp heap count n) :
    HeapFrom cmp (buildHeap cmp count heap) 0 n := by
  induction count generalizing heap with
  | zero => exact arranged
  | succ count ih =>
    refine ih (HeapBut.sink ⟨fun i c inside inside' fromCount notHole isChild before => ?_,
      fun p c _ _ fromCount above _ _ => ?_⟩ (Nat.le_refl count))
    · exact arranged i c inside inside' (by omega) isChild before
    · -- nothing from this place on is above it
      unfold IsChild at above
      omega

/-- The root of a heap holds a greatest item. -/
theorem HeapFrom.root_not_lt (arranged : HeapFrom cmp heap 0 stop) (nonempty : 0 < n) {i : Nat}
    (inside : i < n) (before : i < stop) : cmp heap[0] heap[i] ≠ .lt := by
  induction i using Nat.strong_induction_on with
  | _ i ih =>
    cases i with
    | zero => exact not_lt_self _
    | succ i =>
      have parentInside : i / 2 < n := by omega
      have isChild : IsChild (i / 2) (i + 1) := by
        unfold IsChild
        omega
      exact not_lt_trans (ih (i / 2) (by omega) parentInside (by omega))
        (arranged (i / 2) (i + 1) parentInside inside (Nat.zero_le _) isChild before)

end Transitive

/-! ### Taking the greatest items -/

/-- Sinking changes nothing behind the end of the heap. -/
theorem sink_getElem_of_le {inside : stop ≤ n} {j : Nat} (inside' : j < n) (behind : stop ≤ j) :
    (sink cmp heap root stop inside)[j] = heap[j] := by
  fun_induction sink cmp heap root stop inside with
  | case1 heap root first child below rootBelow smaller ih =>
    have childBefore := child.2
    rw [ih, Vector.getElem_swap, if_neg (by omega), if_neg (by omega)]
  | case2 => rfl
  | case3 => rfl

variable (cmp heap root) in
/-- Sinking moves items within the heap. -/
theorem exists_of_sink (inside : stop ≤ n) {i : Nat} (inside' : i < n) (before : i < stop) :
    ∃ (k : Nat) (inside'' : k < n), k < stop ∧ (sink cmp heap root stop inside)[i] = heap[k] := by
  fun_induction sink cmp heap root stop inside with
  | case1 heap root first child below rootBelow smaller ih =>
    obtain ⟨k, inside'', here, same⟩ := ih
    have childBefore := child.2
    rw [same, Vector.getElem_swap]
    split
    · exact ⟨child, below, by omega, rfl⟩
    · split
      · exact ⟨root, rootBelow, by omega, rfl⟩
      · exact ⟨k, inside'', here, rfl⟩
  | case2 => exact ⟨i, inside', before, rfl⟩
  | case3 => exact ⟨i, inside', before, rfl⟩

/-- Whether the first places are a heap, and every later one holds nothing smaller than any place
before it. -/
structure Drained (cmp : Comparison Nat) (heap : Vector Nat n) (count : Nat) : Prop where
  arranged : HeapFrom cmp heap 0 count
  ordered : ∀ (i j : Nat) (inside : i < n) (inside' : j < n), i < j → count ≤ j →
    cmp heap[j] heap[i] ≠ .lt

section Transitive

variable [Std.TransCmp cmp]

/-- The greatest item of the heap goes behind it. -/
theorem Drained.step {count : Nat} (inside : count + 1 < n) (drained : Drained cmp heap (count + 2)) :
    Drained cmp (sink cmp (heap.swap 0 (count + 1) (Nat.zero_lt_of_lt inside) inside) 0 (count + 1)
      (Nat.le_of_lt inside)) (count + 1) where
  arranged := by
    refine HeapBut.sink ⟨fun i c inside' inside'' _ notRoot isChild before => ?_,
      fun p c _ _ _ above _ _ => ?_⟩ (Nat.le_refl 0)
    · have apart : c ≠ 0 ∧ c ≠ count + 1 ∧ i ≠ count + 1 := by
        unfold IsChild at isChild
        omega
      rw [Vector.getElem_swap, Vector.getElem_swap, if_neg notRoot, if_neg apart.2.2,
        if_neg apart.1, if_neg apart.2.1]
      exact drained.arranged i c inside' inside'' (Nat.zero_le _) isChild (by omega)
    · unfold IsChild at above
      omega
  ordered i j inside' inside'' earlier behind := by
    -- the items before `j` are among those that were there
    have among : ∃ (k : Nat) (inside : k < n), k < j ∧
        (sink cmp (heap.swap 0 (count + 1)) 0 (count + 1) (by omega))[i] = (heap.swap 0 (count + 1))[k] := by
      by_cases before : i < count + 1
      · obtain ⟨k, inside, here, same⟩ := exists_of_sink cmp
          (heap.swap 0 (count + 1)) 0 (show count + 1 ≤ n by omega) inside' before
        exact ⟨k, inside, by omega, same⟩
      · exact ⟨i, inside', earlier, sink_getElem_of_le inside' (by omega)⟩
    obtain ⟨k, inside, here, same⟩ := among
    rw [same, sink_getElem_of_le inside'' behind, Vector.getElem_swap, Vector.getElem_swap,
      if_neg (show j ≠ 0 by omega)]
    by_cases last : j = count + 1
    · -- the greatest item has just been moved here
      subst last
      rw [if_pos rfl, if_neg (show k ≠ count + 1 by omega)]
      split
      · exact drained.arranged.root_not_lt (by omega) inside'' (by omega)
      · exact drained.arranged.root_not_lt (by omega) inside (by omega)
    · rw [if_neg last]
      split
      · exact drained.ordered (count + 1) j (by omega) inside'' (by omega) (by omega)
      · split
        · exact drained.ordered 0 j (by omega) inside'' (by omega) (by omega)
        · exact drained.ordered k j inside inside'' here (by omega)

theorem Drained.drainHeap {count : Nat} (inside : count ≤ n) (drained : Drained cmp heap count) :
    Drained cmp (Sorting.drainHeap cmp count inside heap) 1 := by
  fun_induction Sorting.drainHeap cmp count inside heap with
  | case1 inside heap =>
    exact ⟨fun i c _ _ _ isChild before => by unfold IsChild at isChild; omega,
      fun i j inside inside' earlier _ => drained.ordered i j inside inside' earlier (Nat.zero_le _)⟩
  | case2 => exact drained
  | case3 count inside heap ih => exact ih (drained.step inside)

end Transitive

/-! ### Positions -/

instance (cmp : Comparison Nat) [Std.TransCmp cmp] : Std.TransCmp (byPosition cmp) :=
  inferInstanceAs (Std.TransCmp (compareLex cmp compare))

/-- A comparison in which no two positions are equal puts the positions in the order of a stable
sort. -/
theorem leads_of_byPosition [Std.TransCmp cmp] {i j : Nat} (notSmaller : byPosition cmp j i ≠ .lt)
    (apart : i ≠ j) : Leads cmp (· < ·) i j := by
  have notGreater : byPosition cmp i j ≠ .gt :=
    fun greater => notSmaller (Std.OrientedCmp.gt_iff_lt.mp greater)
  unfold byPosition at notGreater
  cases compared : cmp i j with
  | lt => exact .inl compared
  | gt =>
    rw [compared] at notGreater
    exact absurd rfl notGreater
  | eq =>
    rw [compared] at notGreater
    have le : i ≤ j := Nat.not_lt.mp (mt Nat.compare_eq_gt.mpr notGreater)
    exact .inr ⟨compared, Nat.lt_of_le_of_ne le apart⟩

/-- The positions in the order of a heap sort are those of a stable sort. -/
theorem sorts_heapSort (length : Nat) (cmp : Comparison Nat) [Std.TransCmp cmp] :
    Sorts cmp (· < ·) (List.range length) (heapSort length cmp) where
  perm := heapSort_perm length cmp
  ordered := by
    have leaves : HeapFrom (byPosition cmp) (Vector.range length) (length / 2) length := by
      intro i c _ _ fromHalf isChild before
      unfold IsChild at isChild
      omega
    have drained : Drained (byPosition cmp)
        (buildHeap (byPosition cmp) (length / 2) (Vector.range length)) length :=
      ⟨heapFrom_buildHeap leaves, fun i j _ inside' _ behind => absurd inside' (Nat.not_lt.mpr behind)⟩
    have ordered := (drained.drainHeap (Nat.le_refl length)).ordered
    have nodup : (heapSort length cmp).Nodup :=
      (heapSort_perm length cmp).nodup_iff.mpr List.nodup_range
    refine List.pairwise_iff_getElem.mpr fun i j inside inside' earlier => ?_
    have apart : (heapSort length cmp)[i] ≠ (heapSort length cmp)[j] :=
      List.pairwise_iff_getElem.mp nodup i j inside inside' earlier
    refine leads_of_byPosition ?_ apart
    unfold heapSort at inside inside' ⊢
    rw [Vector.length_toList] at inside inside'
    exact ordered i j inside inside' earlier (by omega)

end ExtentQuery.Sorting

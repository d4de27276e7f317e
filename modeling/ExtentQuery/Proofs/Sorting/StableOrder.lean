import ExtentQuery.Proofs.Sorting.Answering
import ExtentQuery.Proofs.Sorting.HeapBounds
import Mathlib

/-!
# The order in which positions are sorted

Whatever the comparison says, the merge sort and the heap sort answer each position once.  If it
is a total preorder of the positions that there are, there is one stable order of them, and all
methods answer it.

* `PreordersBelow` — total preorders of the positions below a length, and
  `PreordersBelow.exists_transCmp` — each of them is part of a transitive comparison;
* `Sorts.unique` — there is one stable order;
* `mergeSort_inOrder`, `heapSort_inOrder` — the merge sort and the heap sort answer it.

**Only below the length.**  A comparison of positions reads keys, and there are as many keys as
positions.  So nothing is asked of it where there is no key.
-/

namespace ExtentQuery.Sorting

variable {cmp cmp' : Comparison Nat} {length : Nat} {xs ys : List Nat}

/-! ### Total preorders of positions -/

/-- Whether a comparison is a total preorder of the positions below a length. -/
structure PreordersBelow (cmp : Comparison Nat) (length : Nat) : Prop where
  swap : ∀ i < length, ∀ j < length, cmp i j = (cmp j i).swap
  trans : ∀ i < length, ∀ j < length, ∀ k < length,
    (cmp i j).isLE = true → (cmp j k).isLE = true → (cmp i k).isLE = true

/-- A comparison in which every position from the length on passes for the last one. -/
def clamped (cmp : Comparison Nat) (last : Nat) : Comparison Nat := fun i j =>
  cmp (min i last) (min j last)

theorem PreordersBelow.transCmp_clamped {last : Nat} (preorders : PreordersBelow cmp (last + 1)) :
    Std.TransCmp (clamped cmp last) where
  eq_swap := preorders.swap _ (by omega) _ (by omega)
  isLE_trans := preorders.trans _ (by omega) _ (by omega) _ (by omega)

/-- A total preorder of the positions below a length is what some transitive comparison says of
them. -/
theorem PreordersBelow.exists_transCmp (preorders : PreordersBelow cmp length) :
    ∃ cmp' : Comparison Nat, Std.TransCmp cmp' ∧ AgreeBelow cmp cmp' length := by
  cases length with
  | zero => exact ⟨compare, inferInstance, fun _ none => absurd none (Nat.not_lt_zero _)⟩
  | succ last =>
    refine ⟨clamped cmp last, preorders.transCmp_clamped, fun i inside j inside' => ?_⟩
    rw [clamped, Nat.min_eq_left (Nat.le_of_lt_succ inside),
      Nat.min_eq_left (Nat.le_of_lt_succ inside')]

/-! ### The stable order -/

theorem leads_iff {x y : Nat} :
    Leads cmp (· < ·) x y ↔ cmp x y ≠ .gt ∧ (cmp x y = .eq → x < y) := by
  unfold Leads
  cases cmp x y <;> simp

/-- What is sorted by one comparison is sorted by every comparison that agrees with it. -/
theorem Sorts.of_agree (sorted : Sorts cmp' (· < ·) (List.range length) ys)
    (agree : AgreeBelow cmp cmp' length) : Sorts cmp (· < ·) (List.range length) ys where
  perm := sorted.perm
  ordered := by
    refine sorted.ordered.imp_of_mem fun {x y} mem mem' leads => ?_
    have inside : ∀ {z}, z ∈ ys → z < length :=
      fun mem => List.mem_range.mp (sorted.perm.mem_iff.mp mem)
    rw [Leads, agree x (inside mem) y (inside mem')]
    exact leads

/-- There is one stable order of positions. -/
theorem Sorts.unique (first : Sorts cmp (· < ·) (List.range length) xs)
    (second : Sorts cmp (· < ·) (List.range length) ys)
    (swap : ∀ i < length, ∀ j < length, cmp i j = (cmp j i).swap) : xs = ys := by
  refine List.Perm.eq_of_pairwise (fun x y mem mem' leads leads' => ?_)
    first.ordered second.ordered (first.perm.trans second.perm.symm)
  have inside : x < length := List.mem_range.mp (first.perm.mem_iff.mp mem)
  have inside' : y < length := List.mem_range.mp (second.perm.mem_iff.mp mem')
  obtain ⟨notGreater, tie⟩ := leads_iff.mp leads
  obtain ⟨notGreater', tie'⟩ := leads_iff.mp leads'
  rw [swap x inside y inside'] at notGreater tie
  -- neither comes first by its key, and not both come first by their positions
  cases compared : cmp y x with
  | lt => rw [compared] at notGreater; exact absurd rfl notGreater
  | gt => exact absurd compared notGreater'
  | eq =>
    rw [compared] at tie
    exact absurd (Nat.lt_trans (tie rfl) (tie' compared)) (Nat.lt_irrefl x)

theorem Sorts.inOrder (sorted : Sorts cmp (· < ·) xs ys) :
    ys.Pairwise fun x y => cmp x y ≠ .gt ∧ (cmp x y = .eq → x < y) :=
  sorted.ordered.imp leads_iff.mp

namespace PreordersBelow

theorem sorts_mergeSort (preorders : PreordersBelow cmp length) (fanIn : Nat) :
    Sorts cmp (· < ·) (List.range length) (mergeSort fanIn length cmp) := by
  obtain ⟨cmp', transitive, agree⟩ := preorders.exists_transCmp
  rw [mergeSort_congr agree]
  exact (Sorting.sorts_mergeSort fanIn length cmp').of_agree agree

theorem sorts_heapSort (preorders : PreordersBelow cmp length) :
    Sorts cmp (· < ·) (List.range length) (heapSort length cmp) := by
  obtain ⟨cmp', transitive, agree⟩ := preorders.exists_transCmp
  rw [heapSort_congr agree]
  exact (Sorting.sorts_heapSort length cmp').of_agree agree

theorem exists_sorts_stablePositions (preorders : PreordersBelow cmp length) (weight : Weight) :
    ∃ order, stablePositions weight length cmp = some order ∧
      Sorts cmp (· < ·) (List.range length) order := by
  obtain ⟨cmp', transitive, agree⟩ := preorders.exists_transCmp
  rw [stablePositions_congr agree]
  obtain ⟨order, found⟩ := exists_stablePositions weight length cmp'
  exact ⟨order, found, (stablySorts_stableSort weight List.pairwise_lt_range found).of_agree agree⟩

end PreordersBelow

/-! ### The merge sort -/

/-- **The merge sort is the stable sort.**  Whatever the comparison says, it answers every
position below the length once, and a fan-in of zero or one counts as two.  If the comparison is a
total preorder of these positions, no position comes behind a greater one, and of two that
compare as equal the lower one comes first. -/
theorem mergeSort_inOrder (fanIn length : Nat) (cmp : Comparison Nat) :
    (mergeSort fanIn length cmp).Perm (List.range length) ∧
      mergeSort fanIn length cmp = mergeSort (max fanIn 2) length cmp ∧
      (PreordersBelow cmp length →
        (mergeSort fanIn length cmp).Pairwise
          fun x y => cmp x y ≠ .gt ∧ (cmp x y = .eq → x < y)) := by
  refine ⟨mergeSort_perm fanIn length cmp, ?_, fun preorders =>
    (preorders.sorts_mergeSort fanIn).inOrder⟩
  have extra : max fanIn 2 - 2 = fanIn - 2 := by omega
  rw [mergeSort, mergeSort, extra]

/-- Positions by their remainders, three runs at a time, and a comparison that contradicts itself
behind the last position. -/
theorem mergeSort_inOrder_remainders :
    let cmp : Comparison Nat := fun i j => if i < 7 ∧ j < 7 then compare (i % 3) (j % 3) else .lt
    PreordersBelow cmp 7 ∧ mergeSort 3 7 cmp = [0, 3, 6, 1, 4, 2, 5] ∧
      (mergeSort 3 7 cmp).Pairwise fun x y => cmp x y ≠ .gt ∧ (cmp x y = .eq → x < y) := by
  intro cmp
  have preorders : PreordersBelow cmp 7 := ⟨by decide, by decide⟩
  exact ⟨preorders, by decide +kernel, (mergeSort_inOrder 3 7 cmp).2.2 preorders⟩

/-! ### The heap sort -/

/-- **The heap sort is the stable sort.**  Whatever the comparison says, it comes to an end without
an access to a place that is not there, and it answers every position below the length once.  If
the comparison is a total preorder of these positions, no position comes behind a greater one,
of two that compare as equal the lower one comes first, and the other methods answer the
same. -/
theorem heapSort_inOrder (length : Nat) (cmp : Comparison Nat) :
    heapSort? length cmp = some (heapSort length cmp) ∧
      (heapSort length cmp).Perm (List.range length) ∧
      (PreordersBelow cmp length →
        ((heapSort length cmp).Pairwise fun x y => cmp x y ≠ .gt ∧ (cmp x y = .eq → x < y)) ∧
          (∀ fanIn, mergeSort fanIn length cmp = heapSort length cmp) ∧
          ∀ weight, stablePositions weight length cmp = some (heapSort length cmp)) := by
  refine ⟨heapSort?_eq length cmp, heapSort_perm length cmp, fun preorders => ?_⟩
  have sorted := preorders.sorts_heapSort
  refine ⟨sorted.inOrder, fun fanIn => ?_, fun weight => ?_⟩
  · exact (preorders.sorts_mergeSort fanIn).unique sorted preorders.swap
  · obtain ⟨order, found, ordered⟩ := preorders.exists_sorts_stablePositions weight
    rw [found, ordered.unique sorted preorders.swap]

/-- Positions by their remainders, and a comparison that contradicts itself behind the last
position. -/
theorem heapSort_inOrder_remainders :
    let cmp : Comparison Nat := fun i j => if i < 5 ∧ j < 5 then compare (i % 3) (j % 3) else .lt
    PreordersBelow cmp 5 ∧ heapSort 5 cmp = [0, 3, 1, 4, 2] ∧
      ((heapSort 5 cmp).Pairwise fun x y => cmp x y ≠ .gt ∧ (cmp x y = .eq → x < y)) ∧
      (∀ fanIn, mergeSort fanIn 5 cmp = heapSort 5 cmp) ∧
      ∀ weight, stablePositions weight 5 cmp = some (heapSort 5 cmp) := by
  intro cmp
  have preorders : PreordersBelow cmp 5 := ⟨by decide, by decide⟩
  exact ⟨preorders, by decide +kernel, (heapSort_inOrder 5 cmp).2.2 preorders⟩

end ExtentQuery.Sorting

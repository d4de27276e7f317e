import ExtentQuery.Proofs.Sorting.Runs
import ExtentQuery.Proofs.Sorting.StableSort
import ExtentQuery.Sorting.Method
import ExtentQuery.Sorting.RankedMerge

/-!
# Sorting and merging neither lose nor invent an item

This holds of every comparison, also of one that contradicts itself: no sort looks up an
item by what a comparison says, it only moves the items that it has.

* `Permutes` — a way of sorting that answers permutations, if it answers;
* `permutes_stableSort`, `mergeSort_perm`, `heapSort_perm` — the three sorts;
* `mergeRuns_perm` — merging any number of runs.

**What a transitive comparison would add** is the order of the answer, and that there is an
answer at all.
-/

namespace ExtentQuery.Sorting

variable {α : Type} {cmp : Comparison α} {sorter : List α → Option (List α)} {xs ys : List α}

/-- Whether a way of sorting, if it answers, answers a permutation of the list. -/
def Permutes (sorter : List α → Option (List α)) : Prop :=
  ∀ ⦃xs ys : List α⦄, sorter xs = some ys → ys.Perm xs

/-! ### A few items -/

theorem sortTwo_perm (cmp : Comparison α) (x y : α) :
    [(sortTwo cmp x y).1, (sortTwo cmp x y).2].Perm [x, y] := by
  unfold sortTwo
  split
  · exact .swap x y []
  · exact .refl _

theorem joinPairs_perm (cmp : Comparison α) (a b c d : α) :
    (joinPairs cmp a b c d).Perm [a, b, c, d] := by
  -- the least one, the two between, and the greatest one, in any order
  have between : ∀ least left right greatest : α,
      [least, (sortTwo cmp left right).1, (sortTwo cmp left right).2, greatest].Perm
        [least, left, right, greatest] := fun least left right greatest =>
    ((sortTwo_perm cmp left right).append_right [greatest]).cons least
  have cabd : [c, a, b, d].Perm [a, b, c, d] := (perm_third c a b [d]).symm
  have acdb : [a, c, d, b].Perm [a, b, c, d] := (perm_third b c d []).cons a
  unfold joinPairs
  split
  · exact between a b c d
  · exact (between a c d b).trans acdb
  · exact (between c a b d).trans cabd
  · exact (between c a d b).trans ((((List.Perm.swap b d []).cons a).cons c).trans cabd)

theorem sortFour_perm (cmp : Comparison α) (w x y z : α) :
    (sortFour cmp w x y z).Perm [w, x, y, z] := by
  rw [sortFour_eq]
  exact (joinPairs_perm cmp _ _ _ _).trans ((sortTwo_perm cmp w x).append (sortTwo_perm cmp y z))

theorem sortBlock_perm {length : Nat} {half block behind : List α}
    (found : sortBlock cmp length half = some (block, behind)) :
    (block ++ behind).Perm half := by
  unfold sortBlock at found
  split at found
  case h_1 a b c d e f g h behind =>
    obtain ⟨merged, merging, made⟩ := Option.bind_eq_some_iff.mp found
    cases made
    have parts := (sortFour_perm cmp a b c d).append (sortFour_perm cmp e f g h)
    exact ((mergeInward_perm merging).trans parts).append_right behind
  case h_2 a b c d behind =>
    cases found
    exact (sortFour_perm cmp a b c d).append_right behind
  case h_3 =>
    cases found
    rw [List.take_append_drop]

theorem permutes_sortHalf (cmp : Comparison α) (length : Nat) : Permutes (sortHalf cmp length) := by
  intro half ys found
  obtain ⟨⟨block, behind⟩, blocked, made⟩ := Option.bind_eq_some_iff.mp found
  cases made
  exact (insertEach_perm cmp block behind).trans (sortBlock_perm blocked)

theorem permutes_smallSort (weight : Weight) (cmp : Comparison α) :
    Permutes (smallSort weight cmp) := by
  intro xs ys found
  unfold smallSort at found
  split at found
  case isTrue =>
    cases found
    exact .refl _
  case isFalse =>
    obtain ⟨left, sorting, found⟩ := Option.bind_eq_some_iff.mp found
    obtain ⟨right, sorting', merging⟩ := Option.bind_eq_some_iff.mp found
    have halves := (permutes_sortHalf cmp _ sorting).append (permutes_sortHalf cmp _ sorting')
    rw [List.take_append_drop] at halves
    exact (mergeInward_perm merging).trans halves

/-! ### Runs -/

theorem naturalRun_perm (x : α) (xs : List α) (count : Nat) (falls : Bool) :
    (naturalRun x xs count falls).items.Perm (x :: xs.take count) := by
  unfold naturalRun
  cases falls with
  | true => exact List.reverse_perm _
  | false => exact .refl _

theorem perm_of_cutRuns {good made : Nat} {make : List α → Option (Run α)}
    (makes : ∀ items run, make items = some run → run.items.Perm items) {runs : List (Run α)}
    (found : cutRuns cmp good made make xs = some runs) : (runs.flatMap Run.items).Perm xs := by
  induction xs using cutRuns.induct cmp good made generalizing runs with
  | case1 =>
    rw [cutRuns] at found
    cases found
    exact .refl _
  | case2 x xs count falls continued long ih =>
    rw [cutRuns, continued] at found
    simp only [if_pos long] at found
    obtain ⟨rest, cutting, joined⟩ := Option.bind_eq_some_iff.mp found
    cases joined
    have whole := (naturalRun_perm x xs count falls).append (ih cutting)
    rwa [List.cons_append, List.take_append_drop] at whole
  | case3 x xs count falls continued short ih =>
    rw [cutRuns, continued] at found
    simp only [if_neg short] at found
    obtain ⟨run, making, found⟩ := Option.bind_eq_some_iff.mp found
    obtain ⟨rest, cutting, joined⟩ := Option.bind_eq_some_iff.mp found
    cases joined
    have whole := (makes _ run making).append (ih cutting)
    rwa [List.cons_append, List.take_append_drop] at whole

theorem Permutes.run (permutes : Permutes sorter) {run : Run α}
    (found : run.sort sorter = some ys) : ys.Perm run.items := by
  unfold Run.sort at found
  split at found
  · cases found
    exact .refl _
  · exact permutes found

theorem Permutes.joinRuns (permutes : Permutes sorter) {left right joined : Run α}
    (found : Sorting.joinRuns cmp sorter left right = some joined) :
    joined.items.Perm (left.items ++ right.items) := by
  unfold Sorting.joinRuns at found
  split at found
  · obtain ⟨ls, sorting, found⟩ := Option.bind_eq_some_iff.mp found
    obtain ⟨rs, sorting', made⟩ := Option.bind_eq_some_iff.mp found
    cases made
    exact (mergePair_perm ls rs).trans ((permutes.run sorting).append (permutes.run sorting'))
  · cases found
    exact .refl _

theorem Permutes.joinDeep (permutes : Permutes sorter) {depth : Nat} {run run' : Run α}
    {pending pending' : List (Run α × Nat)}
    (found : Sorting.joinDeep cmp sorter depth run pending = some (run', pending')) :
    (run'.items ++ (pending'.map Prod.fst).flatMap Run.items).Perm
      (run.items ++ (pending.map Prod.fst).flatMap Run.items) := by
  induction pending generalizing run with
  | nil =>
    cases found
    exact .refl _
  | cons entry pending ih =>
    obtain ⟨left, boundary⟩ := entry
    unfold Sorting.joinDeep at found
    split at found
    case isTrue =>
      obtain ⟨joined, joining, found⟩ := Option.bind_eq_some_iff.mp found
      refine (ih found).trans ?_
      rw [List.map_cons, List.flatMap_cons, ← List.append_assoc]
      exact ((permutes.joinRuns joining).trans List.perm_append_comm).append_right _
    case isFalse =>
      cases found
      exact .refl _

theorem Permutes.mergeByDepth (permutes : Permutes sorter) {total first : Nat} {run last : Run α}
    {pending : List (Run α × Nat)} {runs : List (Run α)}
    (found : Sorting.mergeByDepth cmp sorter total first run pending runs = some last) :
    last.items.Perm
      (run.items ++ (pending.map Prod.fst).flatMap Run.items ++ runs.flatMap Run.items) := by
  induction runs generalizing first run pending with
  | nil =>
    obtain ⟨⟨joined, rest⟩, joining, made⟩ := Option.bind_eq_some_iff.mp found
    cases made
    have whole := permutes.joinDeep joining
    obtain rfl := joinDeep_zero joining
    rwa [List.map_nil, List.flatMap_nil, List.append_nil, ← List.append_nil (_ ++ _)] at whole
  | cons next runs ih =>
    obtain ⟨⟨joined, rest⟩, joining, found⟩ := Option.bind_eq_some_iff.mp found
    refine (ih found).trans ?_
    have deep := (permutes.joinDeep joining).append_right (next.items ++ runs.flatMap Run.items)
    rw [List.flatMap_cons]
    refine List.Perm.trans ?_ deep
    rw [List.map_cons, List.flatMap_cons, ← List.append_assoc _ next.items]
    exact (List.perm_append_comm).append_right _

theorem Permutes.sortRuns (permutes : Permutes sorter) {runs : List (Run α)}
    (found : Sorting.sortRuns cmp sorter runs = some ys) : ys.Perm (runs.flatMap Run.items) := by
  cases runs with
  | nil =>
    cases found
    exact .refl _
  | cons run runs =>
    obtain ⟨last, merging, sorting⟩ := Option.bind_eq_some_iff.mp found
    have whole := permutes.mergeByDepth merging
    rw [List.map_nil, List.flatMap_nil, List.append_nil] at whole
    exact (permutes.run sorting).trans whole

/-! ### Dividing -/

namespace Division

variable (d : Division α) (p : α → Bool)

/-- What satisfies a condition, and then the pivot and what does not. -/
theorem perm_split :
    ((d.before ++ d.after).filter p
      ++ (d.before.filter (fun x => !p x) ++ d.pivot :: d.after.filter fun x => !p x)).Perm
        (d.before ++ d.pivot :: d.after) := by
  have before := List.filter_append_perm p d.before
  have after := List.filter_append_perm p d.after
  rw [List.filter_append]
  classical
  refine List.perm_iff_count.mpr fun a => ?_
  have countBefore := before.count_eq a
  have countAfter := after.count_eq a
  simp only [List.count_append, List.count_cons] at countBefore countAfter ⊢
  omega

theorem lesser_perm (cmp : Comparison α) :
    (d.lesser cmp ++ d.others cmp).Perm (d.before ++ d.pivot :: d.after) := by
  simpa only [lesser, others, decide_not] using d.perm_split fun x => cmp x d.pivot = .lt

theorem greater_perm (cmp : Comparison α) :
    (d.equals cmp ++ d.greater cmp).Perm (d.before ++ d.pivot :: d.after) := by
  refine List.perm_append_comm.trans ?_
  simpa only [greater, equals, decide_not] using d.perm_split fun x => cmp d.pivot x = .lt

end Division

theorem permutes_quicksort {finish fallback : List α → Option (List α)}
    (finishes : Permutes finish) (fallsBack : Permutes fallback) (limit : Nat)
    (previous : Option α) : Permutes (quicksort finish fallback cmp limit previous) := by
  intro xs ys found
  induction limit generalizing previous xs ys with
  | zero =>
    unfold quicksort at found
    split at found
    · exact finishes found
    · exact fallsBack found
  | succ limit ih =>
    unfold quicksort at found
    split at found
    case isTrue => exact finishes found
    case isFalse =>
      split at found
      case h_1 => exact fallsBack found
      case h_2 d division =>
        rw [Division.eq_of_at? division]
        split at found
        case isTrue =>
          obtain ⟨upper, sorting, made⟩ := Option.bind_eq_some_iff.mp found
          cases made
          exact ((ih none sorting).append_left _).trans (d.greater_perm cmp)
        case isFalse =>
          obtain ⟨upper, sorting', found⟩ := Option.bind_eq_some_iff.mp found
          obtain ⟨lower, sorting, made⟩ := Option.bind_eq_some_iff.mp found
          cases made
          exact ((ih previous sorting).append (ih (some d.pivot) sorting')).trans
            (d.lesser_perm cmp)

/-! ### The stable sort -/

theorem permutes_eagerSort (weight : Weight) (cmp : Comparison α) :
    Permutes (eagerSort weight cmp) := by
  intro xs ys found
  obtain ⟨runs, cutting, joining⟩ := Option.bind_eq_some_iff.mp found
  have nothing : Permutes (some : List α → Option (List α)) := by
    rintro xs _ ⟨⟩
    exact .refl _
  refine (nothing.sortRuns joining).trans (perm_of_cutRuns (fun items run making => ?_) cutting)
  obtain ⟨sorted, sorting, made⟩ := Option.bind_eq_some_iff.mp making
  cases made
  exact permutes_smallSort weight cmp sorting

theorem permutes_dividingSort (weight : Weight) (cmp : Comparison α) :
    Permutes (dividingSort weight cmp) := fun _ _ found =>
  permutes_quicksort (permutes_smallSort weight cmp) (permutes_eagerSort weight cmp) _ none found

theorem permutes_adaptiveSort (weight : Weight) (cmp : Comparison α) :
    Permutes (adaptiveSort weight cmp) := by
  intro xs ys found
  obtain ⟨runs, cutting, joining⟩ := Option.bind_eq_some_iff.mp found
  refine ((permutes_dividingSort weight cmp).sortRuns joining).trans
    (perm_of_cutRuns (fun items run making => ?_) cutting)
  cases making
  exact .refl _

/-- Whatever the stable sort answers is a permutation of the list. -/
theorem permutes_stableSort (weight : Weight) (cmp : Comparison α) :
    Permutes (stableSort weight cmp) := by
  intro xs ys found
  unfold stableSort at found
  split at found
  · cases found
    exact insertionSort_perm cmp xs
  · split at found
    · exact permutes_eagerSort weight cmp found
    · exact permutes_adaptiveSort weight cmp found

/-! ### Merging any number of runs -/

section AnyOrder

/-- Every comparison decides about the relation that relates everything. -/
theorem decides_any (cmp : Comparison α) (x y : α) : Decides cmp (fun _ _ => True) x y :=
  ⟨fun _ => trivial, fun _ => trivial⟩

instance isTrans_true : IsTrans α fun _ _ => True :=
  ⟨fun _ _ _ _ _ => trivial⟩

/-- The head that leads is one of the heads, whichever comparison is used. -/
theorem getElem?_of_leading {heads : List (Option α)} {i : Nat} {head : α}
    (found : leading cmp heads = some (i, head)) : heads[i]? = some (some head) := by
  obtain ⟨among, -, -⟩ := leadingFrom_spec (R := fun _ _ => True)
    (List.pairwise_of_forall fun _ _ x _ y _ => decides_any cmp x y)
    (fun b none => absurd none (Option.not_mem_none b)) found
  obtain ⟨n, position, at_n⟩ := among.resolve_left nofun
  rw [Nat.zero_add] at position
  exact position ▸ at_n

/-- The head that leads is the head of a run. -/
theorem exists_of_leading {runs : List (List α)} {i : Nat} {head : α}
    (found : leading cmp (runs.map List.head?) = some (i, head)) :
    ∃ tail, runs[i]? = some (head :: tail) :=
  leading_head (getElem?_of_leading found)

/-- Taking heads again and again takes every item, whichever heads lead. -/
theorem takeLeading_perm (cmp : Comparison α) {count : Nat} {runs : List (List α)}
    (enough : runs.flatten.length ≤ count) : (takeLeading cmp count runs).Perm runs.flatten :=
  (takeLeading_spec (R := fun _ _ => True) enough
    (fun _ _ => List.pairwise_of_forall fun _ _ => trivial)
    (List.pairwise_of_forall fun _ _ x _ y _ => decides_any cmp x y)).1

end AnyOrder

theorem mergeRuns_perm (cmp : Comparison α) (runs : List (List α)) :
    (mergeRuns cmp runs).Perm runs.flatten :=
  takeLeading_perm cmp (Nat.le_refl _)

/-! ### Merge sort -/

theorem flatten_groups (size : Nat) (xs : List α) : (groups size xs).flatten = xs := by
  fun_induction groups size xs with
  | case1 => rfl
  | case2 x xs ih => rw [List.flatten_cons, ih, List.cons_append, List.take_append_drop]

theorem mergePass_perm (cmp : Comparison α) (extra : Nat) (runs : List (List α)) :
    (mergePass cmp extra runs).flatten.Perm runs.flatten := by
  have merged : ∀ groups : List (List (List α)),
      (groups.map (mergeRuns cmp)).flatten.Perm groups.flatten.flatten := by
    intro groups
    induction groups with
    | nil => exact .refl _
    | cons group groups ih =>
      rw [List.map_cons, List.flatten_cons, List.flatten_cons, List.flatten_append]
      exact (mergeRuns_perm cmp group).append ih
  have whole := merged (groups (extra + 1) runs)
  rwa [flatten_groups] at whole

theorem mergePasses_perm (cmp : Comparison α) (extra : Nat) (runs : List (List α)) :
    (mergePasses cmp extra runs).flatten.Perm runs.flatten := by
  induction runs using mergePasses.induct cmp extra with
  | case1 runs several ih =>
    rw [mergePasses, dif_pos several]
    exact ih.trans (mergePass_perm cmp extra runs)
  | case2 runs single =>
    rw [mergePasses, dif_neg single]

/-- A merge sort answers every position once. -/
theorem mergeSort_perm (fanIn length : Nat) (cmp : Comparison Nat) :
    (mergeSort fanIn length cmp).Perm (List.range length) := by
  have started : ((List.range length).map fun i => [i]).flatten = List.range length := by
    rw [← List.flatMap_def, List.flatMap_singleton']
  have whole := mergePasses_perm cmp (fanIn - 2) ((List.range length).map fun i => [i])
  rwa [started] at whole

/-! ### Heap sort -/

theorem sink_perm {n : Nat} (cmp : Comparison Nat) (heap : Vector Nat n) (root stop : Nat)
    (inside : stop ≤ n) : (sink cmp heap root stop inside).Perm heap := by
  fun_induction sink cmp heap root stop inside with
  | case1 heap root first child below rootBelow smaller ih =>
    exact ih.trans (Vector.swap_perm rootBelow below)
  | case2 => exact .rfl
  | case3 => exact .rfl

theorem buildHeap_perm {n : Nat} (cmp : Comparison Nat) (count : Nat) (heap : Vector Nat n) :
    (buildHeap cmp count heap).Perm heap := by
  induction count generalizing heap with
  | zero => exact .rfl
  | succ count ih => exact (ih _).trans (sink_perm cmp heap count n _)

theorem drainHeap_perm {n : Nat} (cmp : Comparison Nat) (count : Nat) (inside : count ≤ n)
    (heap : Vector Nat n) : (drainHeap cmp count inside heap).Perm heap := by
  fun_induction drainHeap cmp count inside heap with
  | case1 => exact .rfl
  | case2 => exact .rfl
  | case3 count inside heap ih =>
    exact ih.trans ((sink_perm cmp _ 0 (count + 1) _).trans (Vector.swap_perm _ _))

/-- A heap sort answers every position once. -/
theorem heapSort_perm (length : Nat) (cmp : Comparison Nat) :
    (heapSort length cmp).Perm (List.range length) := by
  have whole := (drainHeap_perm (byPosition cmp) length (Nat.le_refl _) _).trans
    (buildHeap_perm (byPosition cmp) (length / 2) (Vector.range length))
  have listed := whole.toList
  rwa [Vector.toList_range] at listed

end ExtentQuery.Sorting

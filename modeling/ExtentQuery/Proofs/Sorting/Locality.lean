import ExtentQuery.Proofs.Sorting.Keys
import ExtentQuery.Proofs.Sorting.MergeSort

/-!
# Sorting looks at nothing but the items

What a sort answers depends on the comparisons of the items it is given, and on nothing else
that the comparison would say.

* `through` — a comparison of names by what they stand for;
* `follows_stableSort`, `mergePasses_map` — sorting the images of items is sorting the items by
  their images;
* `stablePositions_congr`, `mergeSort_congr` — comparisons that agree on the positions below a
  length sort them alike.

**Why names.**  Positions below a length are the images of a finite type.  On that type two
comparisons that agree below the length are equal, so nothing has to be said about which
items a step of a sort has in its hands.
-/

namespace ExtentQuery.Sorting

variable {α β : Type} (f : α → β) (cmp : Comparison β)

/-- Compares items by their images. -/
def through : Comparison α := fun x y => cmp (f x) (f y)

/-! ### Insertion -/

theorem insertReverse_map (x : α) (xs : List α) :
    insertReverse cmp (f x) (xs.map f) = (insertReverse (through f cmp) x xs).map f := by
  induction xs with
  | nil => rfl
  | cons y ys ih =>
    rw [List.map_cons, insertReverse, ih, insertReverse, through]
    split <;> rfl

theorem insertEach_map (sorted xs : List α) :
    insertEach cmp (sorted.map f) (xs.map f) = (insertEach (through f cmp) sorted xs).map f := by
  have inserted : ∀ xs reversed : List α,
      (xs.map f).foldl (fun sorted x => insertReverse cmp x sorted) (reversed.map f)
        = (xs.foldl (fun sorted x => insertReverse (through f cmp) x sorted) reversed).map f := by
    intro xs
    induction xs with
    | nil => exact fun _ => rfl
    | cons x xs ih =>
      intro reversed
      rw [List.map_cons, List.foldl_cons, insertReverse_map, ih, List.foldl_cons]
  rw [insertEach, ← List.map_reverse, inserted, ← List.map_reverse, insertEach]

theorem insertionSort_map (xs : List α) :
    insertionSort cmp (xs.map f) = (insertionSort (through f cmp) xs).map f :=
  insertEach_map f cmp [] xs

/-! ### Two runs -/

/-- The images of an interrupted merge. -/
def Merging.map (m : Merging α) : Merging β :=
  ⟨m.taken.map f, m.left.map f, m.right.map f⟩

theorem mergeSteps_map (count : Nat) (left right : List α) :
    mergeSteps cmp count (left.map f) (right.map f)
      = (mergeSteps (through f cmp) count left right).map f := by
  fun_induction mergeSteps (through f cmp) count left right with
  | case1 => rfl
  | case2 => rfl
  | case3 count x left ih => exact congrArg (Merging.after (f x)) ih
  | case4 count y right ih => exact congrArg (Merging.after (f y)) ih
  | case5 count x left y right smaller ih =>
    rw [through] at smaller
    rw [List.map_cons, List.map_cons, mergeSteps, if_pos smaller]
    exact congrArg (Merging.after (f y)) ih
  | case6 count x left y right notSmaller ih =>
    rw [through] at notSmaller
    rw [List.map_cons, List.map_cons, mergeSteps, if_neg notSmaller]
    exact congrArg (Merging.after (f x)) ih

theorem mergeForward_map (left right : List α) :
    mergeForward cmp (left.map f) (right.map f)
      = (mergeForward (through f cmp) left right).map f := by
  simp only [mergeForward, List.length_map, mergeSteps_map, Merging.map]

theorem mergeBackward_map (left right : List α) :
    mergeBackward cmp (left.map f) (right.map f)
      = (mergeBackward (through f cmp) left right).map f := by
  rw [mergeBackward, ← List.map_reverse, ← List.map_reverse, mergeForward_map f (flipped cmp),
    ← List.map_reverse]
  rfl

theorem mergeInward_map (left right : List α) :
    mergeInward cmp (left.map f) (right.map f)
      = (mergeInward (through f cmp) left right).map (List.map f) := by
  have front := mergeSteps_map f cmp left.length left right
  have back : mergeSteps (flipped cmp) left.length (right.reverse.map f) (left.reverse.map f)
      = (mergeSteps (flipped (through f cmp)) left.length right.reverse left.reverse).map f :=
    mergeSteps_map f (flipped cmp) left.length right.reverse left.reverse
  simp only [mergeInward, ← List.map_reverse, List.length_map, front, back, Merging.map]
  split
  case isTrue => simp only [Option.map_some, List.map_append, List.map_take, List.map_drop]
  case isFalse => rfl

/-! ### A few items -/

theorem sortTwo_map (x y : α) :
    sortTwo cmp (f x) (f y) = (sortTwo (through f cmp) x y).map f f := by
  rw [sortTwo, sortTwo, through]
  split <;> rfl

theorem joinPairs_map (a b c d : α) :
    joinPairs cmp (f a) (f b) (f c) (f d) = (joinPairs (through f cmp) a b c d).map f := by
  have low : cmp (f c) (f a) = through f cmp c a := rfl
  have high : cmp (f d) (f b) = through f cmp d b := rfl
  simp only [joinPairs, sortTwo_map, low, high]
  split <;> rfl

theorem sortFour_map (w x y z : α) :
    sortFour cmp (f w) (f x) (f y) (f z) = (sortFour (through f cmp) w x y z).map f := by
  rw [sortFour_eq, sortTwo_map, sortTwo_map, sortFour_eq]
  exact joinPairs_map f cmp _ _ _ _

/-- The images of a block and of the items behind it. -/
def mapBlock : Option (List α × List α) → Option (List β × List β) :=
  Option.map (Prod.map (List.map f) (List.map f))

theorem sortBlock_map (length : Nat) (half : List α) :
    sortBlock cmp length (half.map f) = mapBlock f (sortBlock (through f cmp) length half) := by
  by_cases eight : length = 8
  · subst eight
    rcases half with _ | ⟨a, _ | ⟨b, _ | ⟨c, _ | ⟨d, _ | ⟨e, _ | ⟨g, _ | ⟨h, _ | ⟨i, behind⟩⟩⟩⟩⟩⟩⟩⟩
    case cons.cons.cons.cons.cons.cons.cons.cons =>
      simp only [List.map_cons, sortBlock, sortFour_map, mergeInward_map, mapBlock]
      cases mergeInward (through f cmp) (sortFour (through f cmp) a b c d)
        (sortFour (through f cmp) e g h i) <;> rfl
    all_goals rfl
  · by_cases four : length = 4
    · subst four
      rcases half with _ | ⟨a, _ | ⟨b, _ | ⟨c, _ | ⟨d, behind⟩⟩⟩⟩
      case cons.cons.cons.cons =>
        simp only [List.map_cons, sortBlock, sortFour_map, mapBlock]
        rfl
      all_goals rfl
    · rw [sortBlock.eq_3 _ _ _ (by simp [eight]) (by simp [four]),
        sortBlock.eq_3 _ _ _ (by simp [eight]) (by simp [four]), ← List.map_take, ← List.map_drop]
      rfl

theorem sortHalf_map (length : Nat) (half : List α) :
    sortHalf cmp length (half.map f) = (sortHalf (through f cmp) length half).map (List.map f) := by
  rw [sortHalf, sortBlock_map, sortHalf]
  cases sortBlock (through f cmp) length half with
  | none => rfl
  | some parts => exact congrArg some (insertEach_map f cmp parts.1 parts.2)

theorem smallSort_map (weight : Weight) (xs : List α) :
    smallSort weight cmp (xs.map f) = (smallSort weight (through f cmp) xs).map (List.map f) := by
  simp only [smallSort, List.length_map, ← List.map_take, ← List.map_drop, sortHalf_map]
  split
  case isTrue => rfl
  case isFalse =>
    cases sortHalf (through f cmp) (blockLength weight xs.length) (xs.take (xs.length / 2)) with
    | none => rfl
    | some left =>
      cases sortHalf (through f cmp) (blockLength weight xs.length) (xs.drop (xs.length / 2)) with
      | none => rfl
      | some right => exact mergeInward_map f cmp left right

/-! ### Natural runs -/

theorem chainLength_map (relates : β → β → Bool) (x : α) (xs : List α) :
    chainLength relates (f x) (xs.map f) = chainLength (fun a b => relates (f a) (f b)) x xs := by
  induction xs generalizing x with
  | nil => rfl
  | cons y ys ih => rw [List.map_cons, chainLength, ih, chainLength]

theorem continuation_map (x : α) (xs : List α) :
    continuation cmp (f x) (xs.map f) = continuation (through f cmp) x xs := by
  cases xs with
  | nil => rfl
  | cons y ys =>
    simp only [List.map_cons, continuation, chainLength_map]
    rfl

/-- The images of a run. -/
def Run.map (run : Run α) : Run β :=
  ⟨run.items.map f, run.sorted⟩

theorem naturalRun_map (x : α) (xs : List α) (count : Nat) (falls : Bool) :
    naturalRun (f x) (xs.map f) count falls = (naturalRun x xs count falls).map f := by
  cases falls with
  | true => simp [naturalRun, Run.map]
  | false => simp [naturalRun, Run.map]

theorem cutRuns_map {make : List β → Option (Run β)} {make' : List α → Option (Run α)}
    (makes : ∀ items, make (items.map f) = (make' items).map (Run.map f)) (good made : Nat)
    (xs : List α) : cutRuns cmp good made make (xs.map f)
      = (cutRuns (through f cmp) good made make' xs).map (List.map (Run.map f)) := by
  induction xs using cutRuns.induct (through f cmp) good made with
  | case1 =>
    rw [List.map_nil, cutRuns, cutRuns]
    rfl
  | case2 x xs count falls continued long ih =>
    rw [List.map_cons, cutRuns, cutRuns, continuation_map, continued]
    simp only [if_pos long, ← List.map_drop, ih, naturalRun_map]
    cases cutRuns (through f cmp) good made make' (xs.drop count) <;> rfl
  | case3 x xs count falls continued short ih =>
    rw [List.map_cons, cutRuns, cutRuns, continuation_map, continued]
    simp only [if_neg short, ← List.map_drop, ← List.map_take, ← List.map_cons, ih, makes]
    cases make' (x :: xs.take made) with
    | none => rfl
    | some run => cases cutRuns (through f cmp) good made make' (xs.drop made) <;> rfl

/-! ### Merging natural runs -/

theorem mergePair_map (left right : List α) :
    mergePair cmp (left.map f) (right.map f) = (mergePair (through f cmp) left right).map f := by
  simp only [mergePair, List.length_map, mergeForward_map, mergeBackward_map]
  split <;> rfl

/-- Whether a way of sorting sorts the images as another one sorts the items. -/
def Follows (sorter : List β → Option (List β)) (sorter' : List α → Option (List α)) : Prop :=
  ∀ xs, sorter (xs.map f) = (sorter' xs).map (List.map f)

variable {f} {sorter : List β → Option (List β)} {sorter' : List α → Option (List α)}

theorem Follows.run (follows : Follows f sorter sorter') (run : Run α) :
    (run.map f).sort sorter = (run.sort sorter').map (List.map f) := by
  cases sorted : run.sorted with
  | true => simp [Run.sort, Run.map, sorted]
  | false => simpa [Run.sort, Run.map, sorted] using follows run.items

theorem Follows.joinRuns (follows : Follows f sorter sorter') (left right : Run α) :
    Sorting.joinRuns cmp sorter (left.map f) (right.map f)
      = (Sorting.joinRuns (through f cmp) sorter' left right).map (Run.map f) := by
  have sorted : (left.map f).sorted = left.sorted ∧ (right.map f).sorted = right.sorted :=
    ⟨rfl, rfl⟩
  simp only [Sorting.joinRuns, sorted, follows.run]
  split
  case isTrue =>
    cases left.sort sorter' with
    | none => rfl
    | some ls =>
      cases right.sort sorter' with
      | none => rfl
      | some rs =>
        have merged := mergePair_map f cmp ls rs
        exact congrArg (fun items => some (⟨items, true⟩ : Run β)) merged
  case isFalse =>
    have items : left.items.map f ++ right.items.map f = (left.items ++ right.items).map f :=
      List.map_append.symm
    exact congrArg (fun items => some (⟨items, false⟩ : Run β)) items

/-- The images of runs that wait to be joined. -/
def mapPending (f : α → β) : List (Run α × Nat) → List (Run β × Nat) :=
  List.map (Prod.map (Run.map f) id)

theorem Follows.joinDeep (follows : Follows f sorter sorter') (depth : Nat) (run : Run α)
    (pending : List (Run α × Nat)) :
    Sorting.joinDeep cmp sorter depth (run.map f) (mapPending f pending)
      = (Sorting.joinDeep (through f cmp) sorter' depth run pending).map
          (Prod.map (Run.map f) (mapPending f)) := by
  induction pending generalizing run with
  | nil => rfl
  | cons entry pending ih =>
    obtain ⟨left, boundary⟩ := entry
    rw [mapPending, List.map_cons, Prod.map_apply, id_eq, Sorting.joinDeep, Sorting.joinDeep,
      follows.joinRuns]
    split
    case isTrue =>
      cases Sorting.joinRuns (through f cmp) sorter' left run with
      | none => rfl
      | some joined => exact ih joined
    case isFalse => rfl

theorem Follows.mergeByDepth (follows : Follows f sorter sorter') (total first : Nat)
    (run : Run α) (pending : List (Run α × Nat)) (runs : List (Run α)) :
    Sorting.mergeByDepth cmp sorter total first (run.map f) (mapPending f pending)
        (runs.map (Run.map f))
      = (Sorting.mergeByDepth (through f cmp) sorter' total first run pending runs).map
          (Run.map f) := by
  have length (run : Run α) : (run.map f).items.length = run.items.length := List.length_map _
  induction runs generalizing first run pending with
  | nil =>
    rw [List.map_nil, Sorting.mergeByDepth, Sorting.mergeByDepth, follows.joinDeep]
    cases Sorting.joinDeep (through f cmp) sorter' 0 run pending <;> rfl
  | cons next runs ih =>
    rw [List.map_cons, Sorting.mergeByDepth, Sorting.mergeByDepth]
    simp only [length, follows.joinDeep]
    cases Sorting.joinDeep (through f cmp) sorter' (mergeDepth total first
        (first + run.items.length) (first + run.items.length + next.items.length)) run pending with
    | none => rfl
    | some joined => exact ih _ next ((joined.1, _) :: joined.2)

theorem Follows.sortRuns (follows : Follows f sorter sorter') (runs : List (Run α)) :
    Sorting.sortRuns cmp sorter (runs.map (Run.map f))
      = (Sorting.sortRuns (through f cmp) sorter' runs).map (List.map f) := by
  cases runs with
  | nil => rfl
  | cons run runs =>
    have total : (((run :: runs).map (Run.map f)).flatMap (·.items)).length
        = ((run :: runs).flatMap (·.items)).length := by
      simp only [List.length_flatMap, List.map_map]
      congr 1
      exact List.map_congr_left fun run _ => List.length_map _
    rw [List.map_cons] at total ⊢
    rw [Sorting.sortRuns, Sorting.sortRuns, total]
    have merged := follows.mergeByDepth cmp (((run :: runs).flatMap (·.items)).length) 0 run [] runs
    simp only [mapPending, List.map_nil] at merged
    rw [merged]
    cases Sorting.mergeByDepth (through f cmp) sorter'
        (((run :: runs).flatMap (·.items)).length) 0 run [] runs with
    | none => rfl
    | some last => exact follows.run last

/-! ### Dividing -/

theorem pivotPosition_map (f : α → β) (xs : List α) :
    pivotPosition cmp (xs.map f) = pivotPosition (through f cmp) xs := by
  simp only [pivotPosition, List.size_toArray, List.length_map, List.getElem?_toArray,
    List.getElem?_map]
  congr 1
  funext i j
  cases xs[i]? with
  | none => rfl
  | some => cases xs[j]? <;> rfl

namespace Division

/-- The images of a divided list. -/
def map (f : α → β) (d : Division α) : Division β :=
  ⟨d.before.map f, f d.pivot, d.after.map f⟩

theorem at?_map (f : α → β) (xs : List α) (position : Nat) :
    at? (xs.map f) position = (at? xs position).map (map f) := by
  simp only [at?, ← List.map_drop, ← List.map_take]
  cases xs.drop position <;> rfl

variable (f : α → β) (d : Division α)

theorem lesser_map : (d.map f).lesser cmp = (d.lesser (through f cmp)).map f := by
  simp only [lesser, map, ← List.map_append, List.filter_map]
  rfl

theorem others_map : (d.map f).others cmp = (d.others (through f cmp)).map f := by
  simp only [others, map, List.filter_map, List.map_append, List.map_cons]
  rfl

theorem equals_map : (d.map f).equals cmp = (d.equals (through f cmp)).map f := by
  simp only [equals, map, List.filter_map, List.map_append, List.map_cons]
  rfl

theorem greater_map : (d.map f).greater cmp = (d.greater (through f cmp)).map f := by
  simp only [greater, map, ← List.map_append, List.filter_map]
  rfl

theorem repeats_map (previous : Option α) :
    (d.map f).repeats cmp (previous.map f) = d.repeats (through f cmp) previous := by
  cases previous <;> rfl

end Division

theorem follows_quicksort {finish fallback : List β → Option (List β)}
    {finish' fallback' : List α → Option (List α)} (finishes : Follows f finish finish')
    (fallsBack : Follows f fallback fallback') (limit : Nat) (previous : Option α) :
    Follows f (quicksort finish fallback cmp limit (previous.map f))
      (quicksort finish' fallback' (through f cmp) limit previous) := by
  intro xs
  induction limit generalizing previous xs with
  | zero =>
    rw [quicksort, quicksort, List.length_map]
    split
    case isTrue => exact finishes xs
    case isFalse => exact fallsBack xs
  | succ limit ih =>
    rw [quicksort, quicksort, List.length_map, pivotPosition_map, Division.at?_map]
    split
    case isTrue => exact finishes xs
    case isFalse =>
      cases Division.at? xs (pivotPosition (through f cmp) xs) with
      | none => exact fallsBack xs
      | some d =>
        simp only [Option.map_some, Division.repeats_map, Division.lesser_map, List.isEmpty_map,
          Division.equals_map, Division.others_map, Division.greater_map]
        split
        case isTrue =>
          have upper := ih none (d.greater (through f cmp))
          rw [Option.map_none] at upper
          rw [upper]
          cases quicksort finish' fallback' (through f cmp) limit none
            (d.greater (through f cmp)) with
          | none => rfl
          | some upper => exact congrArg some List.map_append.symm
        case isFalse =>
          have upper := ih (some d.pivot) (d.others (through f cmp))
          have pivot : (d.map f).pivot = f d.pivot := rfl
          rw [Option.map_some] at upper
          rw [pivot, upper, ih previous (d.lesser (through f cmp))]
          cases quicksort finish' fallback' (through f cmp) limit (some d.pivot)
            (d.others (through f cmp)) with
          | none => rfl
          | some upper =>
            cases quicksort finish' fallback' (through f cmp) limit previous
              (d.lesser (through f cmp)) with
            | none => rfl
            | some lower => exact congrArg some List.map_append.symm

/-! ### The stable sort -/

variable (f)

theorem follows_smallSort (weight : Weight) :
    Follows f (smallSort weight cmp) (smallSort weight (through f cmp)) :=
  smallSort_map f cmp weight

theorem follows_eagerSort (weight : Weight) :
    Follows f (eagerSort weight cmp) (eagerSort weight (through f cmp)) := by
  intro xs
  have nothing : Follows f some some := fun _ => rfl
  simp only [eagerSort, List.length_map]
  have makes : ∀ items : List α,
      (do return (⟨← smallSort weight cmp (items.map f), true⟩ : Run β))
        = (do return (⟨← smallSort weight (through f cmp) items, true⟩ : Run α)).map
            (Run.map f) := by
    intro items
    rw [smallSort_map]
    cases smallSort weight (through f cmp) items <;> rfl
  rw [cutRuns_map f cmp makes]
  cases cutRuns (through f cmp) (goodRunLength xs.length) (undividedLimit - 1) (fun items => do
    return ⟨← smallSort weight (through f cmp) items, true⟩) xs with
  | none => rfl
  | some runs => exact nothing.sortRuns cmp runs

theorem follows_dividingSort (weight : Weight) :
    Follows f (dividingSort weight cmp) (dividingSort weight (through f cmp)) := by
  intro xs
  rw [dividingSort, List.length_map]
  exact follows_quicksort cmp (follows_smallSort f cmp weight) (follows_eagerSort f cmp weight)
    (2 * (xs.length ||| 1).log2) none xs

theorem follows_adaptiveSort (weight : Weight) :
    Follows f (adaptiveSort weight cmp) (adaptiveSort weight (through f cmp)) := by
  intro xs
  simp only [adaptiveSort, List.length_map]
  have makes : ∀ items : List α, some (⟨items.map f, false⟩ : Run β)
      = (some (⟨items, false⟩ : Run α)).map (Run.map f) :=
    fun _ => rfl
  rw [cutRuns_map f cmp makes]
  cases cutRuns (through f cmp) (goodRunLength xs.length) (goodRunLength xs.length - 1)
    (fun items => some ⟨items, false⟩) xs with
  | none => rfl
  | some runs => exact (follows_dividingSort f cmp weight).sortRuns cmp runs

/-- Sorting the images of items is sorting the items by their images. -/
theorem follows_stableSort (weight : Weight) :
    Follows f (stableSort weight cmp) (stableSort weight (through f cmp)) := by
  intro xs
  simp only [stableSort, List.length_map]
  split
  case isTrue => exact congrArg some (insertionSort_map f cmp xs)
  case isFalse =>
    split
    case isTrue => exact follows_eagerSort f cmp weight xs
    case isFalse => exact follows_adaptiveSort f cmp weight xs

/-! ### Merging any number of runs -/

theorem modify_tail_map (runs : List (List α)) (i : Nat) :
    (runs.map (List.map f)).modify i List.tail = (runs.modify i List.tail).map (List.map f) := by
  induction runs generalizing i with
  | nil => rw [List.map_nil, List.modify_nil, List.modify_nil, List.map_nil]
  | cons run runs ih =>
    cases i with
    | zero => simp only [List.map_cons, List.modify_zero_cons, List.map_tail]
    | succ i => simp only [List.map_cons, List.modify_succ_cons, ih]

theorem takeLeading_map (count : Nat) (runs : List (List α)) :
    takeLeading cmp count (runs.map (List.map f))
      = (takeLeading (through f cmp) count runs).map f := by
  induction count generalizing runs with
  | zero => rfl
  | succ count ih =>
    have heads : (runs.map (List.map f)).map List.head?
        = (runs.map List.head?).map (Option.map f) := by
      rw [List.map_map, List.map_map]
      exact List.map_congr_left fun run _ => List.head?_map
    have agrees : ∀ x y, cmp (f x) (f y) = through f cmp x y := fun _ _ => rfl
    have first := leadingFrom_map f agrees none 0 (runs.map List.head?)
    rw [Option.map_none] at first
    rw [takeLeading, takeLeading, leading, leading, heads, first]
    cases leadingFrom (through f cmp) none 0 (runs.map List.head?) with
    | none => rfl
    | some leader =>
      have rest := ih (runs.modify leader.1 List.tail)
      rw [← modify_tail_map] at rest
      exact congrArg (f leader.2 :: ·) rest

theorem mergeRuns_map (runs : List (List α)) :
    mergeRuns cmp (runs.map (List.map f)) = (mergeRuns (through f cmp) runs).map f := by
  rw [mergeRuns, takeLeading_map, ← List.map_flatten, List.length_map, mergeRuns]

theorem groups_map {γ δ : Type} (g : γ → δ) (size : Nat) (xs : List γ) :
    groups size (xs.map g) = (groups size xs).map (List.map g) := by
  fun_induction groups size xs with
  | case1 => rw [List.map_nil, groups]; rfl
  | case2 x xs ih => rw [List.map_cons, groups, ← List.map_take, ← List.map_drop, ih]; rfl

theorem mergePass_map (extra : Nat) (runs : List (List α)) :
    mergePass cmp extra (runs.map (List.map f))
      = (mergePass (through f cmp) extra runs).map (List.map f) := by
  rw [mergePass, groups_map, mergePass, List.map_map, List.map_map]
  exact List.map_congr_left fun group _ => mergeRuns_map f cmp group

theorem mergePasses_map (extra : Nat) (runs : List (List α)) :
    mergePasses cmp extra (runs.map (List.map f))
      = (mergePasses (through f cmp) extra runs).map (List.map f) := by
  induction runs using mergePasses.induct (through f cmp) extra with
  | case1 runs several ih =>
    rw [mergePasses, List.length_map, dif_pos several, mergePass_map, ih,
      mergePasses.eq_def (through f cmp) extra runs, dif_pos several]
  | case2 runs single =>
    rw [mergePasses, List.length_map, dif_neg single, mergePasses, dif_neg single]

/-! ### Positions -/

section Positions

variable {cmp cmp' : Comparison Nat} {length : Nat}

/-- Whether two comparisons say the same of the positions below a length. -/
def AgreeBelow (cmp cmp' : Comparison Nat) (length : Nat) : Prop :=
  ∀ i < length, ∀ j < length, cmp i j = cmp' i j

theorem AgreeBelow.through_eq (agree : AgreeBelow cmp cmp' length) :
    through (Fin.val : Fin length → Nat) cmp = through Fin.val cmp' := by
  funext i j
  exact agree i i.isLt j j.isLt

theorem range_eq_map (length : Nat) :
    List.range length = (List.finRange length).map Fin.val := by
  simp

/-- The stable sort of positions looks at the comparisons of these positions only. -/
theorem stablePositions_congr (agree : AgreeBelow cmp cmp' length) (weight : Weight) :
    stablePositions weight length cmp = stablePositions weight length cmp' := by
  rw [stablePositions, stablePositions, range_eq_map, follows_stableSort, follows_stableSort,
    agree.through_eq]

/-- So does the merge sort. -/
theorem mergeSort_congr (agree : AgreeBelow cmp cmp' length) (fanIn : Nat) :
    mergeSort fanIn length cmp = mergeSort fanIn length cmp' := by
  have singletons : (List.range length).map (fun i => [i])
      = ((List.finRange length).map fun i => [i]).map (List.map Fin.val) := by
    rw [range_eq_map, List.map_map, List.map_map]
    rfl
  rw [mergeSort, mergeSort, singletons, mergePasses_map, mergePasses_map, agree.through_eq]

end Positions

end ExtentQuery.Sorting

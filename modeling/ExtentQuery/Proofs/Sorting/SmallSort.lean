import ExtentQuery.Proofs.Sorting.TwoRuns
import ExtentQuery.Sorting.SmallSort

/-!
# Sorting a few items is stable

Short lists are sorted by insertion, or half by half behind a block that is put in order
at once.

* `Sorts`, `StablySorts` — a list sorted stably, and a way of sorting that does nothing else;
* `Ahead` — lists one of which came before the other;
* `sorts_sortFour`, `sorts_sortBlock` — the blocks;
* `stablySorts_smallSort`, `stablySorts_insertionSort` — the two ways of sorting.

**Five comparisons for four items.**  Two pairs are put in order first.  The least of all is
the least of one pair, and the greatest of all is the greatest of one pair.  If both come
from the same pair, the comparison of the other two is made again and answers as before
(`decides_of_leads`).
-/

namespace ExtentQuery.Sorting

variable {α : Type} {cmp : Comparison α} {before : α → α → Prop}

/-- Whether a list holds the items of another one in the order of a stable sort. -/
structure Sorts (cmp : Comparison α) (before : α → α → Prop) (xs ys : List α) : Prop where
  perm : ys.Perm xs
  ordered : ys.Pairwise (Leads cmp before)

/-- Whether a way of sorting, if it answers, sorts every list stably whose items are in the
order in which they came. -/
def StablySorts (cmp : Comparison α) (before : α → α → Prop)
    (sorter : List α → Option (List α)) : Prop :=
  ∀ ⦃xs ys : List α⦄, xs.Pairwise before → sorter xs = some ys → Sorts cmp before xs ys

/-- Whether every item of one list came before every item of another one. -/
def Ahead (before : α → α → Prop) (xs ys : List α) : Prop :=
  ∀ x ∈ xs, ∀ y ∈ ys, before x y

theorem ahead_take_drop {xs : List α} (came : xs.Pairwise before) (n : Nat) :
    Ahead before (xs.take n) (xs.drop n) := by
  rw [← List.take_append_drop n xs] at came
  exact (List.pairwise_append.mp came).2.2

theorem Ahead.of_perm {xs xs' ys ys' : List α} (ahead : Ahead before xs ys)
    (perm : xs'.Perm xs) (perm' : ys'.Perm ys) : Ahead before xs' ys' :=
  fun x mem y mem' => ahead x (perm.subset mem) y (perm'.subset mem')

theorem sortTwo_cases {R : α → α → Prop} {x y : α} (decides : Decides cmp R x y) :
    sortTwo cmp x y = (x, y) ∧ R x y ∨ sortTwo cmp x y = (y, x) ∧ R y x := by
  unfold sortTwo
  split
  case isTrue smaller => exact .inr ⟨rfl, decides.smaller smaller⟩
  case isFalse notSmaller => exact .inl ⟨rfl, decides.notSmaller notSmaller⟩

/-- Puts two ordered pairs in order: the least and the greatest item first, then the two
that remain. -/
def joinPairs (cmp : Comparison α) (a b c d : α) : List α :=
  let between (least left right greatest : α) : List α :=
    [least, (sortTwo cmp left right).1, (sortTwo cmp left right).2, greatest]
  match decide (cmp c a = .lt), decide (cmp d b = .lt) with
  | false, false => between a b c d
  | false, true => between a c d b
  | true, false => between c a b d
  | true, true => between c a d b

theorem sortFour_eq (w x y z : α) :
    sortFour cmp w x y z
      = joinPairs cmp (sortTwo cmp w x).1 (sortTwo cmp w x).2
          (sortTwo cmp y z).1 (sortTwo cmp y z).2 :=
  rfl

/-- An item at the beginning of a list that is moved to the third place. -/
theorem perm_third (a b c : α) (rest : List α) : (b :: c :: a :: rest).Perm (a :: b :: c :: rest) :=
  ((List.Perm.swap a c rest).cons b).trans (.swap a b (c :: rest))

section Stable

variable [Std.TransCmp cmp] [IsStrictOrder α before] {xs ys : List α}

omit [IsStrictOrder α before] in
theorem Ahead.decides (ahead : Ahead before xs ys) :
    ∀ x ∈ xs, ∀ y ∈ ys, Decides cmp (Leads cmp before) x y :=
  fun x mem y mem' => decides_of_before (ahead x mem y mem')

/-! ### A few items -/

theorem pairwise_four {p q r s : α} (pq : Leads cmp before p q) (qr : Leads cmp before q r)
    (rs : Leads cmp before r s) : [p, q, r, s].Pairwise (Leads cmp before) :=
  List.isChain_iff_pairwise.mp (.cons_cons pq (.cons_cons qr (.cons_cons rs (.singleton s))))

theorem sorts_joinPairs {a b c d : α} (ab : Leads cmp before a b) (cd : Leads cmp before c d)
    (ahead : Ahead before [a, b] [c, d]) :
    Sorts cmp before [a, b, c, d] (joinPairs cmp a b c d) := by
  have ac : before a c := ahead a (by simp) c (by simp)
  have ad : before a d := ahead a (by simp) d (by simp)
  have bc : before b c := ahead b (by simp) c (by simp)
  have bd : before b d := ahead b (by simp) d (by simp)
  have cabd : [c, a, b, d].Perm [a, b, c, d] := (perm_third c a b [d]).symm
  have acdb : [a, c, d, b].Perm [a, b, c, d] := (perm_third b c d []).cons a
  have cadb : [c, a, d, b].Perm [a, b, c, d] := (((List.Perm.swap b d []).cons a).cons c).trans cabd
  unfold joinPairs
  by_cases ca : cmp c a = .lt <;> by_cases db : cmp d b = .lt <;>
    simp only [ca, db, decide_true, decide_false]
  · -- the least is the third one, the greatest is the second one
    have decides : Decides cmp (Leads cmp before) a d := decides_of_before ad
    rcases sortTwo_cases decides with ⟨eq, ad⟩ | ⟨eq, da⟩ <;> rw [eq]
    · exact ⟨cadb, pairwise_four (.inl ca) ad (.inl db)⟩
    · exact ⟨((List.Perm.swap a d [b]).cons c).trans cadb, pairwise_four cd da ab⟩
  · -- the third one and the last one
    rcases sortTwo_cases (decides_of_leads ab) with ⟨eq, -⟩ | ⟨-, ba⟩
    · rw [eq]
      exact ⟨cabd, pairwise_four (.inl ca) ab (leads_of_before bd db)⟩
    · exact absurd (IsTrans.trans _ _ _ ab ba) (Std.Irrefl.irrefl a)
  · -- the first one and the second one
    rcases sortTwo_cases (decides_of_leads cd) with ⟨eq, -⟩ | ⟨-, dc⟩
    · rw [eq]
      exact ⟨acdb, pairwise_four (leads_of_before ac ca) cd (.inl db)⟩
    · exact absurd (IsTrans.trans _ _ _ cd dc) (Std.Irrefl.irrefl c)
  · -- the first one and the last one
    have decides : Decides cmp (Leads cmp before) b c := decides_of_before bc
    rcases sortTwo_cases decides with ⟨eq, bc⟩ | ⟨eq, cb⟩ <;> rw [eq]
    · exact ⟨.refl _, pairwise_four ab bc cd⟩
    · exact ⟨(List.Perm.swap b c [d]).cons a,
        pairwise_four (leads_of_before ac ca) cb (leads_of_before bd db)⟩

theorem sorts_sortFour {w x y z : α} (came : [w, x, y, z].Pairwise before) :
    Sorts cmp before [w, x, y, z] (sortFour cmp w x y z) := by
  have first : Ahead before [w, x] [y, z] := ahead_take_drop came 2
  have wx : Decides cmp (Leads cmp before) w x :=
    decides_of_before ((List.pairwise_cons.mp came).1 x (by simp))
  have yz : Decides cmp (Leads cmp before) y z :=
    decides_of_before (ahead_take_drop came 3 y (by simp) z (by simp))
  have pair : [x, w].Perm [w, x] := .swap w x []
  have pair' : [z, y].Perm [y, z] := .swap y z []
  rw [sortFour_eq]
  rcases sortTwo_cases wx with ⟨eq, ab⟩ | ⟨eq, ab⟩ <;>
    rcases sortTwo_cases yz with ⟨eq', cd⟩ | ⟨eq', cd⟩ <;>
    rw [eq, eq']
  · exact sorts_joinPairs ab cd first
  · have sorted := sorts_joinPairs ab cd (first.of_perm (.refl _) pair')
    exact ⟨sorted.perm.trans (pair'.append_left [w, x]), sorted.ordered⟩
  · have sorted := sorts_joinPairs ab cd (first.of_perm pair (.refl _))
    exact ⟨sorted.perm.trans (pair.append_right [y, z]), sorted.ordered⟩
  · have sorted := sorts_joinPairs ab cd (first.of_perm pair pair')
    exact ⟨sorted.perm.trans (pair.append pair'), sorted.ordered⟩

/-- Merging two sorted lists inwards, one ahead of the other. -/
theorem Sorts.inward {left right merged : List α} (sorted : Sorts cmp before xs left)
    (sorted' : Sorts cmp before ys right) (ahead : Ahead before xs ys)
    (le : xs.length ≤ ys.length) (le' : ys.length ≤ xs.length + 1)
    (found : mergeInward cmp left right = some merged) :
    Sorts cmp before (xs ++ ys) merged where
  perm := (mergeInward_perm found).trans (sorted.perm.append sorted'.perm)
  ordered := by
    rw [← sorted.perm.length_eq, ← sorted'.perm.length_eq] at le le'
    exact pairwise_mergeInward (ahead.of_perm sorted.perm sorted'.perm).decides sorted.ordered
      sorted'.ordered le le' found

/-- The block of half a list is the sorted beginning of it. -/
theorem sorts_sortBlock {length : Nat} {half block behind : List α}
    (came : half.Pairwise before) (found : sortBlock cmp length half = some (block, behind)) :
    ∃ n, Sorts cmp before (half.take n) block ∧ behind = half.drop n := by
  unfold sortBlock at found
  split at found
  case h_1 a b c d e f g h behind =>
    obtain ⟨merged, merging, made⟩ := Option.bind_eq_some_iff.mp found
    cases made
    have came' : ([a, b, c, d] ++ [e, f, g, h]).Pairwise before := came.take (i := 8)
    obtain ⟨first, second, ahead⟩ := List.pairwise_append.mp came'
    exact ⟨8, (sorts_sortFour first).inward (sorts_sortFour second) ahead (by simp) (by simp)
      merging, rfl⟩
  case h_2 a b c d behind =>
    cases found
    exact ⟨4, sorts_sortFour (came.take (i := 4)), rfl⟩
  case h_3 =>
    cases found
    refine ⟨1, ⟨.refl _, ?_⟩, rfl⟩
    cases half with
    | nil => exact .nil
    | cons x rest => exact List.pairwise_singleton _ x

theorem stablySorts_sortHalf (length : Nat) :
    StablySorts cmp before (sortHalf cmp length) := by
  intro half ys came found
  obtain ⟨⟨block, behind⟩, blocked, made⟩ := Option.bind_eq_some_iff.mp found
  cases made
  obtain ⟨n, sorted, rfl⟩ := sorts_sortBlock came blocked
  have ahead : Ahead before block (half.drop n) :=
    (ahead_take_drop came n).of_perm sorted.perm (.refl _)
  refine ⟨?_, pairwise_insertEach sorted.ordered ahead.decides ?_⟩
  · have whole := (insertEach_perm cmp block (half.drop n)).trans (sorted.perm.append_right _)
    rwa [List.take_append_drop] at whole
  · exact came.drop.imp decides_of_before

theorem stablySorts_smallSort (weight : Weight) :
    StablySorts cmp before (smallSort weight cmp) := by
  intro xs ys came found
  unfold smallSort at found
  split at found
  case isTrue few =>
    cases found
    exact ⟨.refl _, pairwise_of_length_le_one (Nat.le_of_lt_succ few)⟩
  case isFalse =>
    obtain ⟨left, sorting, found⟩ := Option.bind_eq_some_iff.mp found
    obtain ⟨right, sorting', merging⟩ := Option.bind_eq_some_iff.mp found
    have sorted := stablySorts_sortHalf _ came.take sorting
    have sorted' := stablySorts_sortHalf _ came.drop sorting'
    have merged := sorted.inward sorted' (ahead_take_drop came _)
      (by rw [List.length_take, List.length_drop]; omega)
      (by rw [List.length_take, List.length_drop]; omega) merging
    rwa [List.take_append_drop] at merged

theorem stablySorts_insertionSort : StablySorts cmp before fun xs => some (insertionSort cmp xs) := by
  rintro xs _ came ⟨⟩
  exact ⟨insertionSort_perm cmp xs,
    pairwise_insertEach .nil (fun _ => nofun) (came.imp decides_of_before)⟩

end Stable

end ExtentQuery.Sorting

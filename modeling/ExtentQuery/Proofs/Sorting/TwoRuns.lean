import ExtentQuery.Sorting.Insertion
import ExtentQuery.Sorting.TwoRuns
import Mathlib.Data.List.Perm.Basic
import Mathlib.Order.RelClasses

/-!
# Stable order, and what merging and inserting make of it

A stable sort puts smaller items first and keeps items that compare as equal in their
order.  Where the items come from is given by a relation `before`, so that one definition
serves positions in a list and entities of several listings alike.

* `Leads` — the strict order in which a stable sort lists the items;
* `Decides` — what a single comparison of two items says about an order if the first one
  is preferred on a tie;
* `pairwise_mergeForward`, `pairwise_mergeBackward`, `mergeInward_perm` and
  `pairwise_mergeInward` — merging two ordered runs, from the front, from the back, and from
  both ends;
* `pairwise_insertEach` — inserting items one after the other.

**Comparisons decide.**  An algorithm never looks at `before`.  It only compares, and it
relies on the item that it prefers on a tie to be the earlier one.  `Decides` is this
reliance: the statements about merging and inserting hold for every transitive relation
about which the comparisons that are made decide.
-/

namespace ExtentQuery.Sorting

variable {α : Type} {cmp : Comparison α} {before R : α → α → Prop}

/-- Whether a stable sort lists an item before another one: it is smaller, or they compare
as equal and it came first. -/
def Leads (cmp : Comparison α) (before : α → α → Prop) (x y : α) : Prop :=
  cmp x y = .lt ∨ cmp x y = .eq ∧ before x y

/-- Whether a comparison of two items decides how they are related, if the first one is
preferred on a tie. -/
structure Decides (cmp : Comparison α) (R : α → α → Prop) (x y : α) : Prop where
  smaller : cmp y x = .lt → R y x
  notSmaller : cmp y x ≠ .lt → R x y

/-! ### The order of a stable sort -/

section Transitive

variable [Std.TransCmp cmp] {x y z : α}

theorem Leads.not_lt (leads : Leads cmp before x y) : cmp y x ≠ .lt := by
  have swapped : cmp y x = (cmp x y).swap := Std.OrientedCmp.eq_swap
  rw [swapped]
  rcases leads with smaller | ⟨equal, -⟩
  · rw [smaller]
    decide
  · rw [equal]
    decide

/-- Of two items that compare as not greater, the earlier one leads. -/
theorem leads_of_before (earlier : before x y) (notGreater : cmp y x ≠ .lt) :
    Leads cmp before x y := by
  cases compared : cmp x y with
  | lt => exact .inl compared
  | eq => exact .inr ⟨compared, earlier⟩
  | gt => exact absurd (Std.OrientedCmp.gt_iff_lt.mp compared) notGreater

theorem decides_of_before (earlier : before x y) : Decides cmp (Leads cmp before) x y :=
  ⟨.inl, leads_of_before earlier⟩

/-- A comparison of two items whose order is known decides nothing else. -/
theorem decides_of_leads (leads : Leads cmp before x y) : Decides cmp (Leads cmp before) x y :=
  ⟨fun smaller => absurd smaller leads.not_lt, fun _ => leads⟩

instance [IsTrans α before] : IsTrans α (Leads cmp before) where
  trans _ _ _ first second := by
    rcases first with smaller | ⟨equal, earlier⟩ <;>
      rcases second with smaller' | ⟨equal', earlier'⟩
    · exact .inl (Std.TransCmp.lt_trans smaller smaller')
    · exact .inl (Std.TransCmp.lt_of_lt_of_eq smaller equal')
    · exact .inl (Std.TransCmp.lt_of_eq_of_lt equal smaller')
    · exact .inr ⟨Std.TransCmp.eq_trans equal equal', IsTrans.trans _ _ _ earlier earlier'⟩

instance [IsStrictOrder α before] : IsStrictOrder α (Leads cmp before) where
  irrefl x leads := by
    rcases leads with smaller | ⟨-, earlier⟩
    · have same : cmp x x = .eq := Std.ReflCmp.compare_self
      rw [same] at smaller
      cases smaller
    · exact Std.Irrefl.irrefl x earlier

/-- If the items are told apart in the end, they are told apart in the first place. -/
instance [IsStrictTotalOrder α before] : IsStrictTotalOrder α (Leads cmp before) where
  trichotomous x y notFirst notSecond := by
    cases compared : cmp x y with
    | lt => exact absurd (.inl compared) notFirst
    | gt => exact absurd (.inl (Std.OrientedCmp.gt_iff_lt.mp compared)) notSecond
    | eq =>
      refine Std.Trichotomous.trichotomous (r := before) x y
        (fun earlier => notFirst (.inr ⟨compared, earlier⟩))
        fun later => notSecond (.inr ⟨Std.OrientedCmp.eq_symm compared, later⟩)

end Transitive

/-! ### Taking items from two runs -/

theorem mergeSteps_nil (count : Nat) :
    mergeSteps cmp count [] [] = ⟨[], [], []⟩ := by
  cases count <;> rfl

/-- Taking items neither loses nor invents one. -/
theorem mergeSteps_perm (cmp : Comparison α) (count : Nat) (left right : List α) :
    ((mergeSteps cmp count left right).taken
      ++ ((mergeSteps cmp count left right).left ++ (mergeSteps cmp count left right).right)).Perm
        (left ++ right) := by
  induction count, left, right using mergeSteps.induct cmp with
  | case1 left right => exact .refl _
  | case2 count => simp only [mergeSteps_nil, List.append_nil, List.Perm.refl]
  | case3 count x left ih => rw [mergeSteps]; exact ih.cons x
  | case4 count y right ih => rw [mergeSteps]; exact ih.cons y
  | case5 count x left y right smaller ih =>
    rw [mergeSteps, if_pos smaller]
    exact (ih.cons y).trans List.perm_middle.symm
  | case6 count x left y right notSmaller ih =>
    rw [mergeSteps, if_neg notSmaller]
    exact ih.cons x

/-- What is left of the two runs is the end of each. -/
theorem mergeSteps_suffixes (cmp : Comparison α) (count : Nat) (left right : List α) :
    (mergeSteps cmp count left right).left <:+ left ∧
      (mergeSteps cmp count left right).right <:+ right := by
  induction count, left, right using mergeSteps.induct cmp with
  | case1 left right => exact ⟨List.suffix_rfl, List.suffix_rfl⟩
  | case2 count => simp only [mergeSteps_nil, List.suffix_rfl, and_self]
  | case3 count x left ih =>
    rw [mergeSteps]
    exact ih.imp_left (·.trans (List.suffix_cons x left))
  | case4 count y right ih =>
    rw [mergeSteps]
    exact ih.imp_right (·.trans (List.suffix_cons y right))
  | case5 count x left y right smaller ih =>
    rw [mergeSteps, if_pos smaller]
    exact ih.imp_right (·.trans (List.suffix_cons y right))
  | case6 count x left y right notSmaller ih =>
    rw [mergeSteps, if_neg notSmaller]
    exact ih.imp_left (·.trans (List.suffix_cons x left))

theorem length_taken_mergeSteps (cmp : Comparison α) (count : Nat) (left right : List α) :
    (mergeSteps cmp count left right).taken.length = min count (left.length + right.length) := by
  induction count, left, right using mergeSteps.induct cmp with
  | case1 left right => exact (Nat.zero_min _).symm
  | case2 count => rw [mergeSteps]; exact (Nat.min_zero _).symm
  | case3 count x left ih =>
    rw [mergeSteps, Merging.after, List.length_cons, ih]
    simp only [List.length_cons, List.length_nil]
    omega
  | case4 count y right ih =>
    rw [mergeSteps, Merging.after, List.length_cons, ih]
    simp only [List.length_cons, List.length_nil]
    omega
  | case5 count x left y right smaller ih =>
    rw [mergeSteps, if_pos smaller, Merging.after, List.length_cons, ih]
    simp only [List.length_cons]
    omega
  | case6 count x left y right notSmaller ih =>
    rw [mergeSteps, if_neg notSmaller, Merging.after, List.length_cons, ih]
    simp only [List.length_cons]
    omega

/-- A merge that is interrupted can be resumed. -/
theorem mergeSteps_add (cmp : Comparison α) (count more : Nat) (left right : List α) :
    (mergeSteps cmp (count + more) left right).taken
      = (mergeSteps cmp count left right).taken
        ++ (mergeSteps cmp more (mergeSteps cmp count left right).left
            (mergeSteps cmp count left right).right).taken := by
  induction count, left, right using mergeSteps.induct cmp with
  | case1 left right => rw [Nat.zero_add, mergeSteps, List.nil_append]
  | case2 count => simp only [mergeSteps_nil, List.append_nil]
  | case3 count x left ih =>
    rw [Nat.succ_add, mergeSteps, mergeSteps]
    exact congrArg (x :: ·) ih
  | case4 count y right ih =>
    rw [Nat.succ_add, mergeSteps, mergeSteps]
    exact congrArg (y :: ·) ih
  | case5 count x left y right smaller ih =>
    rw [Nat.succ_add, mergeSteps, mergeSteps, if_pos smaller, if_pos smaller]
    exact congrArg (y :: ·) ih
  | case6 count x left y right notSmaller ih =>
    rw [Nat.succ_add, mergeSteps, mergeSteps, if_neg notSmaller, if_neg notSmaller]
    exact congrArg (x :: ·) ih

theorem mem_of_mem_taken {count : Nat} {left right : List α} {z : α}
    (taken : z ∈ (mergeSteps cmp count left right).taken) : z ∈ left ∨ z ∈ right :=
  List.mem_append.mp ((mergeSteps_perm cmp count left right).subset (List.mem_append_left _ taken))

/-- The items that are taken from two ordered runs are in order, if the comparisons of an
item of the left run with one of the right run decide. -/
theorem pairwise_mergeSteps [IsTrans α R] {left right : List α} (count : Nat)
    (decides : ∀ x ∈ left, ∀ y ∈ right, Decides cmp R x y)
    (ordered : left.Pairwise R) (ordered' : right.Pairwise R) :
    (mergeSteps cmp count left right).taken.Pairwise R := by
  induction count, left, right using mergeSteps.induct cmp with
  | case1 left right => exact .nil
  | case2 count => rw [mergeSteps]; exact .nil
  | case3 count x left ih =>
    obtain ⟨first, rest⟩ := List.pairwise_cons.mp ordered
    rw [mergeSteps]
    refine List.pairwise_cons.mpr ⟨fun z taken => ?_, ih (fun _ _ _ => nofun) rest .nil⟩
    exact first z ((mem_of_mem_taken taken).resolve_right List.not_mem_nil)
  | case4 count y right ih =>
    obtain ⟨first, rest⟩ := List.pairwise_cons.mp ordered'
    rw [mergeSteps]
    refine List.pairwise_cons.mpr ⟨fun z taken => ?_, ih (fun _ => nofun) .nil rest⟩
    exact first z ((mem_of_mem_taken taken).resolve_left List.not_mem_nil)
  | case5 count x left y right smaller ih =>
    obtain ⟨first, rest⟩ := List.pairwise_cons.mp ordered'
    have leads : R y x := (decides x List.mem_cons_self y List.mem_cons_self).smaller smaller
    rw [mergeSteps, if_pos smaller]
    refine List.pairwise_cons.mpr ⟨fun z taken => ?_,
      ih (fun x mem y mem' => decides x mem y (.tail _ mem')) ordered rest⟩
    rcases mem_of_mem_taken taken with inLeft | inRight
    · rcases List.mem_cons.mp inLeft with rfl | later
      · exact leads
      · exact IsTrans.trans _ _ _ leads ((List.pairwise_cons.mp ordered).1 z later)
    · exact first z inRight
  | case6 count x left y right notSmaller ih =>
    obtain ⟨first, rest⟩ := List.pairwise_cons.mp ordered
    have leads : R x y := (decides x List.mem_cons_self y List.mem_cons_self).notSmaller notSmaller
    rw [mergeSteps, if_neg notSmaller]
    refine List.pairwise_cons.mpr ⟨fun z taken => ?_,
      ih (fun x mem y mem' => decides x (.tail _ mem) y mem') rest ordered'⟩
    rcases mem_of_mem_taken taken with inLeft | inRight
    · exact first z inLeft
    · rcases List.mem_cons.mp inRight with rfl | later
      · exact leads
      · exact IsTrans.trans _ _ _ leads ((List.pairwise_cons.mp ordered').1 z later)

/-! ### From one end -/

section OneEnd

variable {left right : List α}

theorem mergeForward_perm (cmp : Comparison α) (left right : List α) :
    (mergeForward cmp left right).Perm (left ++ right) := by
  have whole := mergeSteps_perm cmp (left.length + right.length) left right
  have taken := length_taken_mergeSteps cmp (left.length + right.length) left right
  have nothing : (mergeSteps cmp (left.length + right.length) left right).left
      ++ (mergeSteps cmp (left.length + right.length) left right).right = [] := by
    have lengths := whole.length_eq
    rw [← List.length_eq_zero_iff]
    simp only [List.length_append] at lengths ⊢
    omega
  rw [nothing, List.append_nil] at whole
  exact whole

theorem pairwise_mergeForward [IsTrans α R]
    (decides : ∀ x ∈ left, ∀ y ∈ right, Decides cmp R x y)
    (ordered : left.Pairwise R) (ordered' : right.Pairwise R) :
    (mergeForward cmp left right).Pairwise R :=
  pairwise_mergeSteps _ decides ordered ordered'

theorem mergeBackward_perm (cmp : Comparison α) (left right : List α) :
    (mergeBackward cmp left right).Perm (left ++ right) := by
  refine (List.reverse_perm _).trans ((mergeForward_perm _ _ _).trans ?_)
  exact ((List.reverse_perm _).append (List.reverse_perm _)).trans List.perm_append_comm

/-- Seen from the back, the comparisons decide about the order from the back. -/
theorem decides_flipped (decides : ∀ x ∈ left, ∀ y ∈ right, Decides cmp R x y) :
    ∀ y ∈ right.reverse, ∀ x ∈ left.reverse,
      Decides (flipped cmp) (fun a b => R b a) y x := by
  intro y mem' x mem
  have decided := decides x (List.mem_reverse.mp mem) y (List.mem_reverse.mp mem')
  exact ⟨decided.smaller, decided.notSmaller⟩

theorem isTrans_flip [IsTrans α R] : IsTrans α fun a b => R b a :=
  ⟨fun _ _ _ first second => IsTrans.trans _ _ _ second first⟩

theorem pairwise_mergeBackward [IsTrans α R]
    (decides : ∀ x ∈ left, ∀ y ∈ right, Decides cmp R x y)
    (ordered : left.Pairwise R) (ordered' : right.Pairwise R) :
    (mergeBackward cmp left right).Pairwise R := by
  have : IsTrans α fun a b => R b a := isTrans_flip
  exact List.pairwise_reverse.mpr (pairwise_mergeForward (decides_flipped decides)
    (List.pairwise_reverse.mpr ordered') (List.pairwise_reverse.mpr ordered))

end OneEnd

/-! ### From both ends -/

section BothEnds

variable {left right merged : List α}

/-- What is left in the middle when the ends have taken their items. -/
def middle (left : List α) (takenFront takenBack : Nat) : List α :=
  (left.take takenBack).drop takenFront

/-- A run falls into what the front has taken, the middle, and what the back has taken. -/
theorem append_middle (left : List α) {m n : Nat} (le : m ≤ n) :
    left.take m ++ middle left m n ++ left.drop n = left := by
  have front : left.take m = (left.take n).take m := by rw [List.take_take, Nat.min_eq_left le]
  rw [front, middle, List.take_append_drop, List.take_append_drop]

/-- The parts of an inward merge: what both ends have taken, and what they leave of both
runs. -/
structure Inward (cmp : Comparison α) (left right merged : List α) where
  front : Merging α
  back : Merging α
  leftFrom : Nat
  leftTo : Nat
  rightFrom : Nat
  rightTo : Nat
  front_eq : front = mergeSteps cmp left.length left right
  back_eq : back = mergeSteps (flipped cmp) left.length right.reverse left.reverse
  leftFront : front.left = left.drop leftFrom
  rightFront : front.right = right.drop rightFrom
  leftBack : back.right.reverse = left.take leftTo
  rightBack : back.left.reverse = right.take rightTo
  left_le : leftFrom ≤ leftTo
  right_le : rightFrom ≤ rightTo
  merged_eq : merged = front.taken ++ (middle left leftFrom leftTo
    ++ middle right rightFrom rightTo) ++ back.taken.reverse

theorem exists_inward (found : mergeInward cmp left right = some merged) :
    Nonempty (Inward cmp left right merged) := by
  unfold mergeInward at found
  simp only at found
  split at found
  case isTrue apart =>
    refine ⟨⟨mergeSteps cmp left.length left right,
      mergeSteps (flipped cmp) left.length right.reverse left.reverse, _, _, _, _, rfl, rfl,
      ?_, ?_, ?_, ?_, apart.1, apart.2, ?_⟩⟩
    · exact List.suffix_iff_eq_drop.mp (mergeSteps_suffixes _ _ _ _).1
    · exact List.suffix_iff_eq_drop.mp (mergeSteps_suffixes _ _ _ _).2
    · have suffix := (mergeSteps_suffixes (flipped cmp) left.length right.reverse left.reverse).2
      have fromFront := List.prefix_iff_eq_take.mp (List.reverse_prefix.mpr suffix)
      rwa [List.reverse_reverse, List.length_reverse] at fromFront
    · have suffix := (mergeSteps_suffixes (flipped cmp) left.length right.reverse left.reverse).1
      have fromFront := List.prefix_iff_eq_take.mp (List.reverse_prefix.mpr suffix)
      rwa [List.reverse_reverse, List.length_reverse] at fromFront
    · rw [← Option.some.inj found, middle, middle, List.append_assoc _ _ (List.drop _ _)]
  case isFalse => cases found

namespace Inward

/-- What the front has taken is the beginning of both runs. -/
theorem front_perm (parts : Inward cmp left right merged) : parts.front.taken.Perm
    (left.take parts.leftFrom ++ right.take parts.rightFrom) := by
  have whole := mergeSteps_perm cmp left.length left right
  rw [← parts.front_eq, parts.leftFront, parts.rightFront] at whole
  rw [← List.perm_append_right_iff (left.drop parts.leftFrom ++ right.drop parts.rightFrom)]
  refine whole.trans ?_
  classical
  refine List.perm_iff_count.mpr fun a => ?_
  have l := congrArg (List.count a) (List.take_append_drop parts.leftFrom left)
  have r := congrArg (List.count a) (List.take_append_drop parts.rightFrom right)
  simp only [List.count_append] at l r ⊢
  omega

/-- What the back has taken is the end of both runs. -/
theorem back_perm (parts : Inward cmp left right merged) : parts.back.taken.Perm
    (left.drop parts.leftTo ++ right.drop parts.rightTo) := by
  have whole := mergeSteps_perm (flipped cmp) left.length right.reverse left.reverse
  rw [← parts.back_eq] at whole
  classical
  refine List.perm_iff_count.mpr fun a => ?_
  have counts := whole.count_eq a
  have l := congrArg (List.count a) (List.take_append_drop parts.leftTo left)
  have r := congrArg (List.count a) (List.take_append_drop parts.rightTo right)
  rw [← parts.leftBack] at l
  rw [← parts.rightBack] at r
  simp only [List.count_append, List.count_reverse] at counts l r ⊢
  omega

theorem perm (parts : Inward cmp left right merged) : merged.Perm (left ++ right) := by
  classical
  refine List.perm_iff_count.mpr fun a => ?_
  have front := parts.front_perm.count_eq a
  have back := parts.back_perm.count_eq a
  have l := congrArg (List.count a) (append_middle left parts.left_le)
  have r := congrArg (List.count a) (append_middle right parts.right_le)
  rw [parts.merged_eq]
  simp only [List.count_append, List.count_reverse] at front back l r ⊢
  omega

end Inward

theorem mergeInward_perm (found : mergeInward cmp left right = some merged) :
    merged.Perm (left ++ right) := by
  obtain ⟨parts⟩ := exists_inward found
  exact parts.perm

theorem pairwise_of_length_le_one {xs : List α} (short : xs.length ≤ 1) : xs.Pairwise R := by
  cases xs with
  | nil => exact .nil
  | cons x rest =>
    obtain rfl := List.length_eq_zero_iff.mp (Nat.le_zero.mp (Nat.le_of_succ_le_succ short))
    exact List.pairwise_singleton R x

/-- An inward merge of two ordered runs, the left one as long as the right one or one item
shorter, is in order.  Each end merges as a whole merge would, so what one end has taken is
in order with all the rest; and there is at most one item in the middle. -/
theorem pairwise_mergeInward [IsStrictOrder α R]
    (decides : ∀ x ∈ left, ∀ y ∈ right, Decides cmp R x y)
    (ordered : left.Pairwise R) (ordered' : right.Pairwise R)
    (le : left.length ≤ right.length) (le' : right.length ≤ left.length + 1)
    (found : mergeInward cmp left right = some merged) : merged.Pairwise R := by
  obtain ⟨parts⟩ := exists_inward found
  have perm := parts.perm
  have forward := pairwise_mergeForward decides ordered ordered'
  have backward := pairwise_mergeBackward decides ordered ordered'
  have lengths := perm.length_eq
  -- the whole merge, begun as the front does
  have front : mergeForward cmp left right = parts.front.taken
      ++ (mergeSteps cmp right.length parts.front.left parts.front.right).taken := by
    rw [parts.front_eq]
    exact mergeSteps_add cmp left.length right.length left right
  -- the whole merge, begun as the back does
  have back : mergeBackward cmp left right
      = (mergeSteps (flipped cmp) right.length parts.back.left parts.back.right).taken.reverse
        ++ parts.back.taken.reverse := by
    rw [parts.back_eq, ← List.reverse_append, ← mergeSteps_add, mergeBackward, mergeForward,
      List.length_reverse, List.length_reverse, Nat.add_comm]
  have takenFront : parts.front.taken.length = left.length := by
    rw [parts.front_eq, length_taken_mergeSteps]
    omega
  have takenBack : parts.back.taken.length = left.length := by
    rw [parts.back_eq, length_taken_mergeSteps, List.length_reverse, List.length_reverse]
    omega
  rw [front] at forward
  rw [back] at backward
  obtain ⟨frontOrdered, -, frontFirst⟩ := List.pairwise_append.mp forward
  obtain ⟨-, backOrdered, backLast⟩ := List.pairwise_append.mp backward
  have permFront := perm.trans (mergeForward_perm cmp left right).symm
  have permBack := perm.trans (mergeBackward_perm cmp left right).symm
  rw [parts.merged_eq] at lengths permFront permBack ⊢
  rw [front, List.append_assoc, List.perm_append_left_iff] at permFront
  rw [back, List.perm_append_right_iff] at permBack
  rw [List.append_assoc]
  refine List.pairwise_append.mpr ⟨frontOrdered, List.pairwise_append.mpr ⟨?_, backOrdered, ?_⟩, ?_⟩
  · -- one item or none
    have short : (middle left parts.leftFrom parts.leftTo
        ++ middle right parts.rightFrom parts.rightTo).length ≤ 1 := by
      simp only [List.length_append, List.length_reverse] at lengths ⊢
      omega
    exact pairwise_of_length_le_one short
  · intro x inMiddle y taken
    exact backLast x (permBack.subset (List.mem_append_right _ inMiddle)) y taken
  · intro x taken y later
    exact frontFirst x taken y (permFront.subset later)

end BothEnds

/-! ### Inserting -/

/-- An item that is inserted into an ordered list in reverse, all of whose items a
comparison prefers to it on a tie, keeps the order. -/
theorem pairwise_insertReverse [IsTrans α R] {x : α} {reversed : List α}
    (decides : ∀ y ∈ reversed, Decides cmp R y x)
    (ordered : reversed.Pairwise fun a b => R b a) :
    (insertReverse cmp x reversed).Pairwise fun a b => R b a := by
  induction reversed with
  | nil => exact List.pairwise_singleton _ _
  | cons y ys ih =>
    obtain ⟨first, rest⟩ := List.pairwise_cons.mp ordered
    have here := decides y List.mem_cons_self
    unfold insertReverse
    split
    case isTrue smaller =>
      refine List.pairwise_cons.mpr ⟨fun z inserted => ?_,
        ih (fun y mem => decides y (.tail _ mem)) rest⟩
      rcases List.mem_cons.mp ((insertReverse_perm cmp x ys).subset inserted) with rfl | mem
      · exact here.smaller smaller
      · exact first z mem
    case isFalse notSmaller =>
      have leads : R y x := here.notSmaller notSmaller
      refine List.pairwise_cons.mpr ⟨fun z mem => ?_, ordered⟩
      rcases List.mem_cons.mp mem with rfl | later
      · exact leads
      · exact IsTrans.trans _ _ _ (first z later) leads

/-- Items that are inserted one after the other into an ordered list keep the order, if each
of them came after all items before it. -/
theorem pairwise_insertEach [IsTrans α R] {sorted xs : List α} (ordered : sorted.Pairwise R)
    (decides : ∀ y ∈ sorted, ∀ x ∈ xs, Decides cmp R y x)
    (decides' : xs.Pairwise (Decides cmp R)) : (insertEach cmp sorted xs).Pairwise R := by
  suffices inserted : ∀ xs reversed : List α, reversed.Pairwise (fun a b => R b a) →
      (∀ y ∈ reversed, ∀ x ∈ xs, Decides cmp R y x) → xs.Pairwise (Decides cmp R) →
      (xs.foldl (fun reversed x => insertReverse cmp x reversed) reversed).Pairwise
        fun a b => R b a by
    refine List.pairwise_reverse.mpr (inserted xs _ (List.pairwise_reverse.mpr ordered) ?_ decides')
    exact fun y mem => decides y (List.mem_reverse.mp mem)
  intro xs
  induction xs with
  | nil => exact fun _ ordered _ _ => ordered
  | cons x xs ih =>
    intro reversed ordered decides decides'
    obtain ⟨first, rest⟩ := List.pairwise_cons.mp decides'
    have step := pairwise_insertReverse (fun y mem => decides y mem x List.mem_cons_self) ordered
    refine ih _ step (fun y inserted z mem => ?_) rest
    rcases List.mem_cons.mp ((insertReverse_perm cmp x reversed).subset inserted) with rfl | before
    · exact first z mem
    · exact decides y before z (.tail _ mem)

end ExtentQuery.Sorting

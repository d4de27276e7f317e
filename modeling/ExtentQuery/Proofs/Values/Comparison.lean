import ExtentQuery.Proofs.Sorting.Keys
import ExtentQuery.Proofs.Values.Rounding

/-!
# How far values are compared transitively

Values of one kind are compared transitively, and so are values of different kinds, but for one
thing: two different integers may be rounded to one double, which then equals both of them.

* `Value.Blurs` — a double and two integers that it does not tell apart;
* `Value.compareAt_eq_gt_iff` — numbers are compared transitively up to blurring, by any place
  of doubles that rounding keeps in order;
* `Value.compare?_eq_gt_iff`, `Value.sortCompare_eq_gt_iff` — so are values of every kind, in
  predicates and for sorting;
* `Value.orders_up_to_blurring` — what this makes of the comparison of sort keys.

**Numbers of two kinds.**  Of three numbers in order, the outer two are in order as well unless
they are integers, the one between them is a double, and both integers are rounded to it.  Then
they are compared with it by their rounded values, which are equal, and with each other as they
are.
-/

namespace ExtentQuery.Value

variable {a b c : Value}

/-- Whether a double is what two different integers, a lower and a higher one, are both rounded
to. -/
def Blurs (double low high : Value) : Prop :=
  ∃ m n : Int64, low = int m ∧ high = int n ∧ m.toInt < n.toInt ∧
    double = float (Double.ofInt m.toInt) ∧ Double.ofInt m.toInt = Double.ofInt n.toInt

/-! ### Numbers -/

/-- Whether a value is an integer or a double. -/
inductive IsNumber : Value → Prop where
  | int (n : Int64) : IsNumber (.int n)
  | float (x : Double) : IsNumber (.float x)

/-- The double that a number is compared by, unless it is compared with another integer. -/
def rounded : Value → Double
  | int n => .ofInt n.toInt
  | float x => x
  | _ => default

/-- The comparison of numbers by the place of the doubles that they are rounded to.  Integers
are compared with each other as they are. -/
def compareAt (place : Double → Int) : Value → Value → Ordering
  | int m, int n => compare m.toInt n.toInt
  | a, b => compare (place a.rounded) (place b.rounded)

/-- Numbers are compared transitively, up to two integers that are rounded to the place of the
number between them. -/
theorem compareAt_eq_gt_iff {place : Double → Int}
    (mono : ∀ m n : Int64, m.toInt ≤ n.toInt →
      place (.ofInt m.toInt) ≤ place (.ofInt n.toInt))
    (number : a.IsNumber) (number' : b.IsNumber) (number'' : c.IsNumber)
    (first : compareAt place a b ≠ .gt) (second : compareAt place b c ≠ .gt) :
    compareAt place a c = .gt ↔
      ∃ m n x, c = int m ∧ a = int n ∧ b = float x ∧ m.toInt < n.toInt ∧
        place x = place (.ofInt m.toInt) ∧ place x = place (.ofInt n.toInt) := by
  cases number <;> cases number' <;> cases number'' <;>
    simp only [compareAt, rounded, ne_eq, Int.compare_eq_gt, Int.not_lt] at first second ⊢
  case int.float.int n x m =>
    constructor
    · intro below
      have rounding := mono m n (Int.le_of_lt below)
      exact ⟨m, n, x, rfl, rfl, rfl, below, by omega, by omega⟩
    · rintro ⟨m, n, x, ⟨⟩, ⟨⟩, ⟨⟩, below, -, -⟩
      exact below
  -- otherwise the outer two are in order, because rounding keeps the order
  all_goals refine ⟨fun below => absurd below (Int.not_lt.mpr ?_), ?_⟩
  all_goals try (rintro ⟨_, _, _, ⟨⟩, ⟨⟩, ⟨⟩, -⟩)
  case int.int.int => exact Int.le_trans first second
  case int.int.float m n x => exact Int.le_trans (mono m n first) second
  case float.int.int x m n => exact Int.le_trans first (mono m n second)
  all_goals exact Int.le_trans first second

theorem sortCompare_eq_compareAt (number : a.IsNumber) (number' : b.IsNumber) :
    a.sortCompare b = compareAt Double.totalRank a b := by
  cases number <;> cases number' <;> rfl

theorem compare?_eq_compareAt (number : a.IsNumber) (number' : b.IsNumber) :
    a.compare? b =
      if a.rounded.isNaN || b.rounded.isNaN then none else some (compareAt Double.rank a b) := by
  cases number <;> cases number' <;> try rfl
  case int.int m n =>
    simp only [rounded, Double.isNaN_ofInt (Double.small_toInt _), Bool.or_self,
      Bool.false_eq_true, if_false]
    rfl

/-! ### Kinds -/

theorem isNumber_of_rank (number : a.rank = 1) : a.IsNumber := by
  cases a with
  | int n => exact .int n
  | float x => exact .float x
  | _ => cases number

/-- A value of a lower kind comes first. -/
theorem sortCompare_of_rank_lt (lower : a.rank < b.rank) : a.sortCompare b = .lt := by
  cases a <;> cases b <;> first | rfl | (simp only [rank] at lower; omega)

theorem rank_le_of_sortCompare (order : a.sortCompare b ≠ .gt) : a.rank ≤ b.rank := by
  by_contra higher
  refine order ?_
  rw [sortCompare_eq_swap, sortCompare_of_rank_lt (Nat.not_le.mp higher)]
  rfl

theorem Blurs.rank_eq (blurs : Blurs b c a) : a.rank = 1 := by
  obtain ⟨m, n, -, rfl, -⟩ := blurs
  rfl

/-! ### Values of every kind -/

/-- **Sorting compares values transitively up to blurring.**  Of three values in order, the outer
two are out of order exactly if the one between them blurs them. -/
theorem sortCompare_eq_gt_iff (first : a.sortCompare b ≠ .gt) (second : b.sortCompare c ≠ .gt) :
    a.sortCompare c = .gt ↔ Blurs b c a := by
  have below := rank_le_of_sortCompare first
  have below' := rank_le_of_sortCompare second
  rcases Nat.lt_or_eq_of_le (Nat.le_trans below below') with lower | same
  · rw [sortCompare_of_rank_lt lower]
    refine ⟨nofun, ?_⟩
    rintro ⟨m, n, rfl, rfl, -⟩
    exact absurd lower (Nat.lt_irrefl 1)
  by_cases number : a.rank = 1
  · -- three numbers, and their total order tells all doubles apart
    have isNumber := isNumber_of_rank number
    have isNumber' : b.IsNumber := isNumber_of_rank (by omega)
    have isNumber'' : c.IsNumber := isNumber_of_rank (by omega)
    rw [sortCompare_eq_compareAt isNumber isNumber'] at first
    rw [sortCompare_eq_compareAt isNumber' isNumber''] at second
    rw [sortCompare_eq_compareAt isNumber isNumber'', compareAt_eq_gt_iff
      (fun m n => Double.totalRank_ofInt_mono (Double.small_toInt m) (Double.small_toInt n))
      isNumber isNumber' isNumber'' first second]
    constructor
    · rintro ⟨m, n, x, rfl, rfl, rfl, lower, at_m, at_n⟩
      obtain rfl := Double.totalRank_inj.mp at_m
      exact ⟨m, n, rfl, rfl, lower, rfl, Double.totalRank_inj.mp at_n⟩
    · rintro ⟨m, n, rfl, rfl, lower, rfl, alike⟩
      exact ⟨m, n, _, rfl, rfl, rfl, lower, rfl, congrArg _ alike⟩
  · -- values of one kind that is not a kind of numbers
    have noFloat : ∀ {v : Value}, v.rank = a.rank → v.kind ≠ .float := by
      intro v sameRank isFloat
      cases v <;> cases isFloat
      exact number sameRank.symm
    have ordered := isLE_sortCompare_trans (.inr rfl) (noFloat rfl) (noFloat (by omega))
      (noFloat (by omega)) (Ordering.isLE_iff_ne_gt.mpr first) (Ordering.isLE_iff_ne_gt.mpr second)
    exact ⟨fun above => absurd above (Ordering.isLE_iff_ne_gt.mp ordered),
      fun blurs => absurd blurs.rank_eq number⟩

theorem compare?_eq_swap (a b : Value) : a.compare? b = (b.compare? a).map Ordering.swap := by
  cases a <;> cases b <;> simp only [compare?, Double.compare?, Option.map_some, Option.map_none]
  case bool.bool | int.int | text.text | instant.instant =>
    exact congrArg some Std.OrientedCmp.eq_swap
  all_goals
    rw [Bool.or_comm]
    split
    · rfl
    · exact congrArg some Std.OrientedCmp.eq_swap

/-- Whether a value is comparable with another one and not above it. -/
def AtMost (a b : Value) : Prop :=
  ∃ order, a.compare? b = some order ∧ order ≠ .gt

theorem AtMost.rank_eq (atMost : a.AtMost b) : a.rank = b.rank := by
  obtain ⟨order, compared, -⟩ := atMost
  cases a <;> cases b <;> first | rfl | cases compared

/-- Numbers are comparable unless one of them is a not-a-number. -/
theorem IsNumber.atMost_iff (number : a.IsNumber) (number' : b.IsNumber) :
    a.AtMost b ↔ a.rounded.isNaN = false ∧ b.rounded.isNaN = false ∧
      compareAt Double.rank a b ≠ .gt := by
  unfold AtMost
  rw [compare?_eq_compareAt number number']
  cases a.rounded.isNaN <;> cases b.rounded.isNaN <;> simp

/-- Values of one kind that is not a kind of numbers are compared transitively. -/
theorem AtMost.trans_of_kind (noNumber : a.rank ≠ 1) (first : a.AtMost b) (second : b.AtMost c) :
    a.AtMost c := by
  obtain ⟨order, compared, below⟩ := first
  obtain ⟨order', compared', below'⟩ := second
  cases a with
  | int | float => exact absurd rfl noNumber
  | bool | text | instant =>
    cases b <;> cases compared
    cases c <;> cases compared'
    exact ⟨_, rfl, Ordering.isLE_iff_ne_gt.mp (Std.TransCmp.isLE_trans
      (Ordering.isLE_iff_ne_gt.mpr below) (Ordering.isLE_iff_ne_gt.mpr below'))⟩

/-- **Predicates compare values transitively up to blurring.**  If a value is between two others,
these are in order unless it blurs them. -/
theorem AtMost.trans_iff (first : a.AtMost b) (second : b.AtMost c) :
    a.AtMost c ↔ ¬ Blurs b c a := by
  by_cases noNumber : a.rank ≠ 1
  · exact ⟨fun _ blurs => noNumber blurs.rank_eq, fun _ => first.trans_of_kind noNumber second⟩
  have number := isNumber_of_rank (not_not.mp noNumber)
  have number' : b.IsNumber := isNumber_of_rank (first.rank_eq ▸ not_not.mp noNumber)
  have number'' : c.IsNumber :=
    isNumber_of_rank (second.rank_eq ▸ first.rank_eq ▸ not_not.mp noNumber)
  obtain ⟨defined, -, below⟩ := (number.atMost_iff number').mp first
  obtain ⟨-, defined'', below'⟩ := (number'.atMost_iff number'').mp second
  have above := compareAt_eq_gt_iff
    (fun m n => Double.rank_ofInt_mono (Double.small_toInt m) (Double.small_toInt n))
    number number' number'' below below'
  rw [number.atMost_iff number'', ne_eq, above]
  constructor
  · rintro ⟨-, -, ordered⟩ ⟨m, n, rfl, rfl, lower, rfl, alike⟩
    exact ordered ⟨m, n, _, rfl, rfl, rfl, lower, rfl, congrArg _ alike⟩
  · refine fun clear => ⟨defined, defined'', ?_⟩
    rintro ⟨m, n, x, rfl, rfl, rfl, lower, at_m, at_n⟩
    -- the two zeros share a place, but no two integers are rounded to it
    obtain ⟨rfl, alike⟩ := Double.eq_ofInt_of_rank (Double.small_toInt m) (Double.small_toInt n)
      (Int.ne_of_lt lower) at_m at_n
    exact clear ⟨m, n, rfl, rfl, lower, rfl, alike⟩

/-- Two integers are equal to a double that blurs them. -/
theorem Blurs.compare?_eq {double low high : Value} (blurs : Blurs double low high) :
    low.compare? double = some .eq ∧ high.compare? double = some .eq := by
  obtain ⟨m, n, rfl, rfl, -, rfl, alike⟩ := blurs
  have equal : ∀ k : Int64, (int k).compare? (float (.ofInt k.toInt)) = some .eq := by
    intro k
    simp only [compare?, Double.compare?, Double.isNaN_ofInt (Double.small_toInt k), Bool.or_self,
      Bool.false_eq_true, if_false, Int.compare_eq_eq.mpr rfl]
  exact ⟨equal m, alike ▸ equal n⟩

theorem Blurs.sortCompare_eq {double low high : Value} (blurs : Blurs double low high) :
    low.sortCompare double = .eq ∧ high.sortCompare double = .eq := by
  obtain ⟨m, n, rfl, rfl, -, rfl, alike⟩ := blurs
  have equal : ∀ k : Int64, (int k).sortCompare (float (.ofInt k.toInt)) = .eq := fun k =>
    Int.compare_eq_eq.mpr rfl
  exact ⟨equal m, alike ▸ equal n⟩

/-! ### Sort keys -/

theorem compareKeys_false (a b : Option Value) : compareKeys false a b = compareKeys true b a :=
  (compareKeys_eq_swap true b a).symm

/-- Whether sort keys are there, and the first one blurs the others. -/
def BlursKeys (double low high : Option Value) : Prop :=
  ∃ u v w, double = some u ∧ low = some v ∧ high = some w ∧ Blurs u v w

/-- An absent key is the greatest, so keys are compared like values. -/
theorem compareKeys_true_eq_gt_iff {a b c : Option Value} (first : compareKeys true a b ≠ .gt)
    (second : compareKeys true b c ≠ .gt) : compareKeys true a c = .gt ↔ BlursKeys b c a := by
  cases c with
  | none => cases a <;> exact ⟨nofun, fun ⟨_, _, _, _, absent, _⟩ => nomatch absent⟩
  | some w =>
    cases b with
    | none => exact absurd rfl second
    | some v =>
      cases a with
      | none => exact absurd rfl first
      | some u =>
        refine (sortCompare_eq_gt_iff first second).trans
          ⟨fun blurs => ⟨v, w, u, rfl, rfl, rfl, blurs⟩, ?_⟩
        rintro ⟨_, _, _, ⟨⟩, ⟨⟩, ⟨⟩, blurs⟩
        exact blurs

/-- Upwards, two keys that are blurred equal the one between them, and are out of order. -/
theorem BlursKeys.compareKeys_true {double low high : Option Value}
    (blurs : BlursKeys double low high) :
    (compareKeys true high double).isLE = true ∧ (compareKeys true double low).isLE = true ∧
      compareKeys true high low = .gt := by
  obtain ⟨u, v, w, rfl, rfl, rfl, inner⟩ := blurs
  obtain ⟨low, high⟩ := inner.sortCompare_eq
  have upper : compareKeys true (some w) (some u) = .eq := high
  have lower : compareKeys true (some u) (some v) = .eq := by
    rw [compareKeys_eq_swap]
    exact congrArg Ordering.swap low
  have outer := (compareKeys_true_eq_gt_iff (by rw [upper]; nofun) (by rw [lower]; nofun)).mpr
    ⟨u, v, w, rfl, rfl, rfl, inner⟩
  rw [upper, lower]
  exact ⟨rfl, rfl, outer⟩

/-- **Sort keys are compared transitively up to blurring**, in both directions. -/
theorem compareKeys_eq_gt_iff {ascending : Bool} {a b c : Option Value}
    (first : compareKeys ascending a b ≠ .gt) (second : compareKeys ascending b c ≠ .gt) :
    compareKeys ascending a c = .gt ↔ if ascending then BlursKeys b c a else BlursKeys b a c := by
  cases ascending with
  | true => exact compareKeys_true_eq_gt_iff first second
  | false =>
    -- downwards the three are met in the opposite order
    rw [compareKeys_false] at first second ⊢
    exact compareKeys_true_eq_gt_iff second first

/-- **How far the order of sort keys goes.**  Exchanging two values, or two keys in a direction,
turns their comparison around.  If three of them are in order, the outer two are out of order
exactly if they are integers that the one between them blurs. -/
theorem orders_up_to_blurring (a b c : Value) (ascending : Bool) (x y z : Option Value) :
    b.sortCompare a = (a.sortCompare b).swap ∧
    (a.sortCompare b ≠ .gt → b.sortCompare c ≠ .gt → (a.sortCompare c = .gt ↔ Blurs b c a)) ∧
    compareKeys ascending y x = (compareKeys ascending x y).swap ∧
    (compareKeys ascending x y ≠ .gt → compareKeys ascending y z ≠ .gt →
      (compareKeys ascending x z = .gt ↔ if ascending then BlursKeys y z x else BlursKeys y x z)) :=
  ⟨sortCompare_eq_swap b a, sortCompare_eq_gt_iff, compareKeys_eq_swap ascending y x,
    compareKeys_eq_gt_iff⟩

/-- From an integer over a double to a greater integer, and downwards from nothing over a text to
an integer. -/
theorem orders_up_to_blurring_downwards :
    (int 3).sortCompare (float (.ofInt 4)) ≠ .gt ∧ (float (.ofInt 4)).sortCompare (int 5) ≠ .gt ∧
      (int 3).sortCompare (int 5) ≠ .gt ∧
      compareKeys false none (some (text "a")) ≠ .gt ∧
      compareKeys false (some (text "a")) (some (int 3)) ≠ .gt ∧
      compareKeys false none (some (int 3)) ≠ .gt := by
  obtain ⟨-, values, -, keys⟩ := orders_up_to_blurring (int 3) (float (.ofInt 4)) (int 5) false
    none (some (text "a")) (some (int 3))
  refine ⟨by decide, by decide, fun above => ?_, by decide, by decide, fun above => ?_⟩
  · obtain ⟨m, n, ⟨⟩, ⟨⟩, lower, -⟩ := (values (by decide) (by decide)).mp above
    exact absurd lower (by decide)
  · obtain ⟨_, _, _, -, absent, -⟩ := (keys (by decide) (by decide)).mp above
    cases absent

/-- Two integers beyond 2⁵³ that one double equals are still told apart. -/
theorem sortCompare_intransitive :
    ¬ ∀ a b c : Value, a.sortCompare b ≠ .gt → b.sortCompare c ≠ .gt → a.sortCompare c ≠ .gt :=
  fun transitive =>
    transitive (int 9007199254740993) (float ⟨0x4340000000000000⟩) (int 9007199254740992)
      (by decide) (by decide) (by decide)

end ExtentQuery.Value

namespace ExtentQuery.Sorting

open Value (BlursKeys)

/-- **Which keys can be sorted by.**  The comparison by a key is a total preorder exactly if no
key blurs two others. -/
theorem transCmp_byKey_iff {α : Type} {key : α → Option Value} {ascending : Bool} :
    Std.TransCmp (byKey ascending key) ↔ ∀ x y z, ¬ BlursKeys (key x) (key y) (key z) := by
  constructor
  · rintro transitive x y z blurs
    obtain ⟨high, low, outer⟩ := blurs.compareKeys_true
    cases ascending with
    | true =>
      have ordered : (byKey true key z y).isLE = true := transitive.isLE_trans high low
      exact absurd outer (Ordering.isLE_iff_ne_gt.mp ordered)
    | false =>
      rw [← Value.compareKeys_false] at high low outer
      have ordered : (byKey false key y z).isLE = true := transitive.isLE_trans low high
      exact absurd outer (Ordering.isLE_iff_ne_gt.mp ordered)
  · intro clear
    refine { eq_swap := Value.compareKeys_eq_swap ascending _ _, isLE_trans := ?_ }
    intro x y z first second
    refine Ordering.isLE_iff_ne_gt.mpr fun above => ?_
    have blurs := (Value.compareKeys_eq_gt_iff (Ordering.isLE_iff_ne_gt.mp first)
      (Ordering.isLE_iff_ne_gt.mp second)).mp above
    split at blurs
    · exact clear y z x blurs
    · exact clear y x z blurs

end ExtentQuery.Sorting

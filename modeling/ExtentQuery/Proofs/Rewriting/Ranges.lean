import ExtentQuery.Proofs.Values.Comparison
import ExtentQuery.Query.Pattern

/-!
# The common range of two ranges

Two ranges over one property become their common range when their bounds are comparable.  The
greater lower bound and the smaller upper bound are picked by the same comparison that later
decides which values lie between them.

* `Value.within_iff` — what lies between two bounds;
* `Value.atMost_lower_iff`, `Value.atMost_upper_iff` — what one of two bounds admits, once it has
  been picked;
* `Transformation.within_commonRange` — what the common range admits.

**Bounds that are equal.**  Of two bounds that compare as equal, the left one is kept.  If this is
a double and the other one an integer that is rounded to it, the common range admits all integers
that are rounded to it, also those on the other side of the integer.
-/

namespace ExtentQuery

namespace Value

variable {a b c d : Value}

/-- A value that lies between two bounds is comparable with both, not below the one and not
above the other. -/
theorem within_iff (x low high : Value) :
    x.within low high = true ↔ low.AtMost x ∧ x.AtMost high := by
  unfold within AtMost
  rw [Bool.and_eq_true, compare?_eq_swap low x]
  cases x.compare? low with
  | none => simp
  | some below =>
    cases x.compare? high with
    | none => simp
    | some above => cases below <;> cases above <;> simp [Ordering.isGE, Ordering.isLE]

theorem atMost_of_not_lt (comparable : (a.compare? b).isSome) (notBelow : a.compare? b ≠ some .lt) :
    b.AtMost a := by
  obtain ⟨order, compared⟩ := Option.isSome_iff_exists.mp comparable
  refine ⟨order.swap, by rw [compare?_eq_swap, compared]; rfl, fun above => notBelow ?_⟩
  rw [compared, Ordering.swap_eq_gt.mp above]

theorem atMost_of_not_gt (comparable : (a.compare? b).isSome) (notAbove : a.compare? b ≠ some .gt) :
    a.AtMost b := by
  obtain ⟨order, compared⟩ := Option.isSome_iff_exists.mp comparable
  exact ⟨order, compared, fun above => notAbove (above ▸ compared)⟩

/-- A double that blurs an integer equals it, whichever of them comes first. -/
theorem Blurs.eq_compare? {double low high : Value} (blurs : Blurs double low high) :
    double.compare? low = some .eq ∧ double.compare? high = some .eq := by
  rw [compare?_eq_swap double low, compare?_eq_swap double high, blurs.compare?_eq.1,
    blurs.compare?_eq.2]
  exact ⟨rfl, rfl⟩

/-- **The greater of two lower bounds** admits what both admit, and integers below the second
bound that the first one blurs with it. -/
theorem atMost_lower_iff (comparable : (a.compare? c).isSome) (x : Value) :
    (if a.compare? c = some .lt then c else a).AtMost x ↔
      a.AtMost x ∧ (c.AtMost x ∨ Blurs a x c) := by
  split
  case isTrue lower =>
    have below : a.AtMost c := ⟨.lt, lower, nofun⟩
    constructor
    · intro above
      refine ⟨(below.trans_iff above).mpr fun blurs => ?_, .inl above⟩
      cases lower.symm.trans blurs.compare?_eq.2
    · rintro ⟨-, above | blurs⟩
      · exact above
      · cases lower.symm.trans blurs.eq_compare?.2
  case isFalse notLower =>
    have below := atMost_of_not_lt comparable notLower
    refine ⟨fun above => ⟨above, ?_⟩, And.left⟩
    by_cases blurs : Blurs a x c
    · exact .inr blurs
    · exact .inl ((below.trans_iff above).mpr blurs)

/-- **The smaller of two upper bounds** admits what both admit, and integers above the second
bound that the first one blurs with it. -/
theorem atMost_upper_iff (comparable : (b.compare? d).isSome) (x : Value) :
    x.AtMost (if b.compare? d = some .gt then d else b) ↔
      x.AtMost b ∧ (x.AtMost d ∨ Blurs b d x) := by
  split
  case isTrue higher =>
    have above : d.AtMost b := by
      refine ⟨.lt, ?_, nofun⟩
      rw [compare?_eq_swap, higher]
      rfl
    constructor
    · intro below
      refine ⟨(below.trans_iff above).mpr fun blurs => ?_, .inl below⟩
      cases higher.symm.trans blurs.compare?_eq.1
    · rintro ⟨-, below | blurs⟩
      · exact below
      · cases higher.symm.trans blurs.eq_compare?.1
  case isFalse notHigher =>
    have above := atMost_of_not_gt comparable notHigher
    refine ⟨fun below => ⟨below, ?_⟩, And.left⟩
    by_cases blurs : Blurs b d x
    · exact .inr blurs
    · exact .inl ((below.trans_iff above).mpr blurs)

/-- An integer below a bound that is blurred with it does not reach the bound. -/
theorem Blurs.not_atMost {double low high : Value} (blurs : Blurs double low high) :
    ¬ high.AtMost low := by
  rintro ⟨order, compared, below⟩
  obtain ⟨m, n, rfl, rfl, lower, -⟩ := blurs
  cases compared
  exact below (Int.compare_eq_gt.mpr lower)

end Value

/-! ### The common range -/

open Value (Blurs)

variable {property : String} {a b c d : Value}

theorem Transformation.accepts_commonRange :
    commonRange.accepts (.inter (.between property a b) (.between property c d)) = true ↔
      (a.compare? c).isSome ∧ (b.compare? d).isSome := by
  simp only [accepts, beq_self_eq_true, Bool.true_and, Bool.and_eq_true]

/-- **What the common range admits.**  If two ranges over one property are merged, the common range
admits whatever lies in both of them, and nothing outside the first one.  A value that it admits
lies outside the second one exactly if it is an integer that a bound of the first range, a double,
blurs with a bound of the second one, an integer. -/
theorem Transformation.within_commonRange
    (accepted :
      commonRange.accepts (.inter (.between property a b) (.between property c d)) = true) :
    ∃ low high,
      commonRange.convert (.inter (.between property a b) (.between property c d))
        = .between property low high ∧
      ∀ x : Value,
        (x.within a b = true → x.within c d = true → x.within low high = true) ∧
        (x.within low high = true → x.within a b = true ∧
          (x.within c d = true ↔ ¬ Blurs a x c ∧ ¬ Blurs b d x)) := by
  obtain ⟨lower, upper⟩ := accepts_commonRange.mp accepted
  refine ⟨_, _, if_pos (beq_self_eq_true property), fun x => ?_⟩
  rw [Value.within_iff, Value.within_iff, Value.within_iff, Value.atMost_lower_iff lower,
    Value.atMost_upper_iff upper]
  constructor
  · rintro ⟨above, below⟩ ⟨above', below'⟩
    exact ⟨⟨above, .inl above'⟩, ⟨below, .inl below'⟩⟩
  · rintro ⟨⟨above, above'⟩, ⟨below, below'⟩⟩
    refine ⟨⟨above, below⟩, ?_, ?_⟩
    · rintro ⟨inside, inside'⟩
      exact ⟨fun blurs => blurs.not_atMost inside, fun blurs => blurs.not_atMost inside'⟩
    · rintro ⟨clear, clear'⟩
      exact ⟨above'.resolve_right clear, below'.resolve_right clear'⟩

/-- Sizes from one to five and from two and a half to nine. -/
theorem Transformation.within_commonRange_sizes :
    commonRange.accepts (.inter (.between "size" (.int 1) (.int 5))
        (.between "size" (.float ⟨0x4004000000000000⟩) (.int 9))) = true ∧
      ∀ x : Value, x.within (.float ⟨0x4004000000000000⟩) (.int 5) = true ↔
        x.within (.int 1) (.int 5) = true ∧
          x.within (.float ⟨0x4004000000000000⟩) (.int 9) = true := by
  have accepted : commonRange.accepts (.inter (.between "size" (.int 1) (.int 5))
      (.between "size" (.float ⟨0x4004000000000000⟩) (.int 9))) = true := by decide
  refine ⟨accepted, fun x => ?_⟩
  obtain ⟨low, high, converted, admits⟩ := Transformation.within_commonRange accepted
  obtain ⟨rfl, rfl⟩ : low = .float ⟨0x4004000000000000⟩ ∧ high = .int 5 := by
    cases converted
    decide
  -- no bound of the first range is a double
  have clear : ∀ {n : Int64} {u v : Value}, ¬ Blurs (.int n) u v :=
    fun ⟨_, _, _, _, _, isFloat, _⟩ => nomatch isFloat
  constructor
  · intro inside
    obtain ⟨first, second⟩ := (admits x).2 inside
    exact ⟨first, second.mpr ⟨clear, clear⟩⟩
  · exact fun ⟨first, second⟩ => (admits x).1 first second

/-- From 2⁵³ as a double and from 2⁵³ + 1 as an integer on: the common range admits the integer
2⁵³, which the second range does not. -/
theorem Transformation.commonRange_blurred :
    ¬ ∀ (property : String) (a b c d low high x : Value),
      commonRange.accepts (.inter (.between property a b) (.between property c d)) = true →
        commonRange.convert (.inter (.between property a b) (.between property c d))
            = .between property low high →
          (x.within low high = true ↔ x.within a b = true ∧ x.within c d = true) := by
  intro intersects
  have both := (intersects "size" (.float ⟨0x4340000000000000⟩) (.int 9007199254740999)
    (.int 9007199254740993) (.int 9007199254740999) (.float ⟨0x4340000000000000⟩)
    (.int 9007199254740999) (.int 9007199254740992) (by decide) (by decide)).mp (by decide)
  exact absurd both.2 (by decide)

end ExtentQuery

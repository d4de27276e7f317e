import ExtentQuery.Proofs.Rewriting.Rounds

/-!
# Optimization keeps what a query says

A query says of an entity whether it is selected, once one knows what the leaves say of
it.  A `Reading` is such knowledge about one entity, and `Reading.holds` carries it from
the leaves to the whole query.

**What the rules rely on.**  Every entity is in the whole extent; leaves that are the
same say the same; an absent property or link is the opposite of a present one; and a
common range is passed by what passes both ranges.  These are the fields of a `Reading`,
and nothing else is used: the readings of comparable bounds that do not chain, such as an
integer beside the double that it rounds to, are left out by the last field.

`Reading.holds_optimize` is the result: no matter where the budget runs out, the optimized query
says of every reading what the query says.
-/

namespace ExtentQuery

open Rewrite

/-- What the leaves of queries say of one entity. -/
structure Reading where
  leaf : Query → Bool
  /-- Every entity is in the whole extent. -/
  leaf_all : leaf .all = true
  /-- Leaves that are the same say the same. -/
  leaf_same : ∀ a b : Query, a.arity = 0 → a.same b = true → leaf a = leaf b
  /-- A property is absent if it is not there. -/
  leaf_absentProperty : ∀ property,
    leaf (.equals property none) = !leaf (.hasProperty property)
  /-- A link is absent if it is not there. -/
  leaf_absentLink : ∀ link, leaf (.linkedTo link none) = !leaf (.hasLink link)
  /-- A common range is passed by what passes both ranges. -/
  leaf_commonRange : ∀ left right : Query,
    Transformation.commonRange.accepts (.inter left right) = true →
      leaf (Transformation.commonRange.convert (.inter left right)) = (leaf left && leaf right)

namespace Reading

/-- The reading of whole queries: the nodes are connectives. -/
def connectives (v : Reading) : Interpretation Bool where
  leaf := v.leaf
  root := id
  inter := and
  union := or
  diff x y := x && !y
  concat := or
  compl := not
  sort := id

/-- Whether a query selects the entity. -/
def holds (v : Reading) (q : Query) : Bool :=
  v.connectives.of q

theorem fair (v : Reading) : v.connectives.Fair where
  inter_comm := Bool.and_comm
  union_comm := Bool.or_comm
  leaf_same := v.leaf_same

/-! ### Rules -/

/-- A conversion keeps the members of what it accepts. -/
theorem holds_convert (v : Reading) (conversion : Transformation) {q : Query}
    (accepted : conversion.accepts q = true) : v.holds (conversion.convert q) = v.holds q := by
  unfold Transformation.accepts at accepted
  split at accepted
  case h_1 p low high p' low' high' =>
    have merged := v.leaf_commonRange (.between p low high) (.between p' low' high') accepted
    have same : p = p' := by
      simp only [Bool.and_eq_true, beq_iff_eq] at accepted
      exact accepted.1.1
    simp only [Transformation.convert, same, beq_self_eq_true, if_true] at merged ⊢
    exact merged
  case h_2 property => exact (v.leaf_absentProperty property).symm
  case h_3 link => exact (v.leaf_absentLink link).symm
  case h_4 => cases accepted

/-- What a standard rule replaces has the members of the replacement.  The rules without
conversions are laws of Boolean algebra; where the whole extent occurs in one, it stands
for truth. -/
theorem holds_of_rewrite? (v : Reading) {pass : Pass} (standard : pass ∈ Standard.passes)
    {rule : Rule} (mem : rule ∈ pass.rules) {q q' : Query}
    (rewritten : rule.rewrite? q = .ok (some q')) : v.holds q' = v.holds q := by
  have algebra : ∀ base : Rule, rule ∈ base.orientations →
      base.Related v.connectives (· = ·) → v.holds q' = v.holds q := fun base oriented related =>
    (related.orientation v.fair.toCommutes oriented).of_rewrite? v.fair rewritten
  have converted : ∀ conversion, rule ∈ (Standard.conversion conversion).orientations →
      v.holds q' = v.holds q := by
    intro conversion oriented
    rw [Standard.eq_of_mem_conversion oriented] at rewritten
    obtain ⟨accepted, rfl⟩ := Standard.rewrite?_conversion rewritten
    exact v.holds_convert conversion accepted
  simp only [Standard.passes, List.mem_cons, List.not_mem_nil, or_false] at standard
  rcases standard with rfl | rfl | rfl | rfl
  · exact algebra _ (Standard.mem_prepare.mp mem) ⟨rfl, rfl, fun _ => rfl⟩
  · rcases Standard.mem_simplify.mp mem with mem | mem | mem | mem | mem | mem
    · exact algebra _ mem ⟨rfl, rfl, fun _ => Bool.or_and_distrib_left _ _ _⟩
    · exact algebra _ mem ⟨rfl, rfl, fun _ => Bool.and_or_distrib_left _ _ _⟩
    · refine algebra _ mem ⟨rfl, rfl, fun values => ?_⟩
      show values 0 = (v.leaf .all && values 0)
      rw [v.leaf_all, Bool.true_and]
    · refine algebra _ mem ⟨rfl, rfl, fun values => ?_⟩
      show v.leaf .all = (v.leaf .all || values 0)
      rw [v.leaf_all, Bool.true_or]
    · refine algebra _ mem ⟨rfl, rfl, fun values => ?_⟩
      show (values 0 && (values 1 || values 2) || values 3)
        = (values 0 && values 1 || (values 0 && values 2 || values 3))
      rw [Bool.and_or_distrib_left, Bool.or_assoc]
    · exact converted _ mem
  · rcases Standard.mem_negation.mp mem with mem | mem | mem | mem | mem | mem | mem | mem
    · exact algebra _ mem ⟨rfl, rfl, fun _ => (Bool.not_not _).symm⟩
    · exact algebra _ mem ⟨rfl, rfl, fun _ => Bool.not_or _ _⟩
    · exact algebra _ mem ⟨rfl, rfl, fun _ => Bool.not_and _ _⟩
    · exact algebra _ mem ⟨rfl, rfl, fun _ => rfl⟩
    · refine algebra _ mem ⟨rfl, rfl, fun values => ?_⟩
      show (!(values 1 && !values 0)) = (values 0 || !values 1)
      rw [Bool.not_and, Bool.not_not, Bool.or_comm]
    · refine algebra _ mem ⟨rfl, rfl, fun values => ?_⟩
      show (values 0 && !values 1) = (values 0 && !values 1 && !values 1)
      rw [Bool.and_assoc, Bool.and_self]
    · exact converted _ mem
    · exact converted _ mem
  · refine algebra _ (Standard.mem_residual.mp mem) ⟨rfl, rfl, fun values => ?_⟩
    show (v.leaf .all && !values 0) = !values 0
    rw [v.leaf_all, Bool.true_and]

/-! ### Optimization -/

/-- Rewriting by a standard pass keeps the members of a query. -/
theorem holds_of_rewrites (v : Reading) {pass : Pass} (standard : pass ∈ Standard.passes)
    {q q' : Query} (rewriting : pass.Rewrites q q') : v.holds q' = v.holds q := by
  refine rewriting.related v.connectives.respects_eq ?_ fun _ _ => rfl
  intro q q' rewritten _
  obtain ⟨rule, mem, applied⟩ := exists_of_firstRewrite? rewritten
  exact v.holds_of_rewrite? standard mem applied

/-- Rounds of the standard passes keep the members of a query. -/
theorem holds_of_rounds (v : Reading) {maxRewrites rounds : Nat} {current last : Optimized}
    {notices : List Notice} (rest : Rounds maxRewrites rounds current notices last) :
    v.holds last.query = v.holds current.query :=
  rest.related (R := fun q q' => v.holds q' = v.holds q) (fun _ => rfl)
    (fun first second => second.trans first)
    fun _ standard _ _ rewriting => v.holds_of_rewrites standard rewriting

/-- A query without placeholders is optimized without a fault, and the optimized query
has the members of the query: for every budget, also one that runs out on the way, and
for every reading of the leaves. -/
theorem holds_optimize (v : Reading) (maxRewrites : Nat) {q : Query} (ground : q.ground = true)
    (log : List Notice) :
    ∃ optimized log', optimize maxRewrites q log = .ok optimized log' ∧
      v.holds optimized.query = v.holds q := by
  obtain ⟨optimized, log', found⟩ := optimize_total maxRewrites ground log
  refine ⟨optimized, log', found, ?_⟩
  obtain ⟨notices, hoisted, c, -, rfl, rest⟩ := optimize_eq_ok_iff.mp found
  exact v.holds_of_rounds rest

/-! ### An entity without ranges

The entity of this reading has some properties and links, and none of its properties has
a value that a query asks for. -/

/-- The reading of an entity with properties and links, but without known values. -/
def ofNames (properties links : String → Bool) : Reading where
  leaf
    | .all => true
    | .hasProperty property => properties property
    | .hasLink link => links link
    | .equals property none => !properties property
    | .linkedTo link none => !links link
    | _ => false
  leaf_all := rfl
  leaf_same := by
    intro a b leaf same
    cases a <;> cases b <;> simp_all [Query.same, Query.arity]
    case equals.equals property value property' value' =>
      cases value <;> cases value' <;> simp_all [Value.sameOption]
  leaf_absentProperty _ := rfl
  leaf_absentLink _ := rfl
  leaf_commonRange := by
    intro left right accepted
    unfold Transformation.accepts at accepted
    split at accepted
    case h_1 same =>
      simp only [Query.inter.injEq] at same
      obtain ⟨rfl, rfl⟩ := same
      simp only [Bool.and_eq_true] at accepted
      simp only [Transformation.convert, accepted.1.1, if_true, Bool.and_false]
    all_goals simp_all

/-- With a budget of one, optimization stops in the middle and still keeps the members. -/
theorem holds_optimize_cut_off :
    Query.ground (.compl (.diff (.hasProperty "a") (.compl (.hasLink "b")))) = true ∧
      ∃ optimized log',
        optimize 1 (.compl (.diff (.hasProperty "a") (.compl (.hasLink "b")))) []
          = .ok optimized log' ∧
        (ofNames (· == "a") fun _ => false).holds optimized.query
          = (ofNames (· == "a") fun _ => false).holds
            (.compl (.diff (.hasProperty "a") (.compl (.hasLink "b")))) :=
  ⟨rfl, holds_optimize _ 1 rfl []⟩

end Reading

end ExtentQuery

import ExtentQuery.Proofs.Rewriting.Rules
import ExtentQuery.Rewrite.Standard

/-!
# The rules of the standard passes

The standard passes are built by adding rules in all their orientations.  This module
names the rules and lists the passes by them.

* `Standard.splitDifference` and so on — the rules, as they are before orientation;
* `Standard.mem_prepare`, `Standard.mem_simplify`, `Standard.mem_negation`,
  `Standard.mem_residual` — where the rules of a pass come from;
* `Standard.closed` — no standard rule uses a placeholder that it has not bound, so that
  no standard pass can fault.
-/

namespace ExtentQuery.Rewrite

open Query (inter union diff compl all slot converter)

namespace Standard

/-! ### The rules -/

/-- A difference is the intersection with a complement. -/
def splitDifference : Rule := ⟨diff (slot 0) (slot 1), inter (slot 0) (compl (slot 1))⟩

/-- A common operand of two unions is taken out. -/
def factorUnions : Rule :=
  ⟨inter (union (slot 0) (slot 1)) (union (slot 0) (slot 2)),
    union (slot 0) (inter (slot 1) (slot 2))⟩

/-- A common operand of two intersections is taken out. -/
def factorIntersections : Rule :=
  ⟨union (inter (slot 0) (slot 1)) (inter (slot 0) (slot 2)),
    inter (slot 0) (union (slot 1) (slot 2))⟩

/-- The whole extent is neutral for intersection. -/
def dropAll : Rule := ⟨inter all (slot 0), slot 0⟩

/-- The whole extent absorbs a union. -/
def absorbAll : Rule := ⟨union all (slot 0), all⟩

/-- A common operand of two intersections is taken out across a further union. -/
def regroup : Rule :=
  ⟨union (inter (slot 0) (slot 1)) (union (inter (slot 0) (slot 2)) (slot 3)),
    union (inter (slot 0) (union (slot 1) (slot 2))) (slot 3)⟩

/-- Two complements cancel. -/
def cancelComplements : Rule := ⟨compl (compl (slot 0)), slot 0⟩

/-- An intersection of complements is the complement of a union. -/
def pullFromIntersection : Rule :=
  ⟨inter (compl (slot 0)) (compl (slot 1)), compl (union (slot 0) (slot 1))⟩

/-- A union of complements is the complement of an intersection. -/
def pullFromUnion : Rule :=
  ⟨union (compl (slot 0)) (compl (slot 1)), compl (inter (slot 0) (slot 1))⟩

/-- An intersection with a complement is a difference. -/
def joinDifference : Rule := ⟨inter (slot 0) (compl (slot 1)), diff (slot 0) (slot 1)⟩

/-- A union with a complement is the complement of a difference. -/
def pullDifference : Rule := ⟨union (slot 0) (compl (slot 1)), compl (diff (slot 1) (slot 0))⟩

/-- Taking the same away twice is taking it away once. -/
def dropRepeated : Rule :=
  ⟨diff (diff (slot 0) (slot 1)) (slot 1), diff (slot 0) (slot 1)⟩

/-- A complement is a difference from the whole extent. -/
def complementOfAll : Rule := ⟨compl (slot 0), diff all (slot 0)⟩

/-- Whatever a conversion accepts becomes what it makes of it. -/
def conversion (transformation : Transformation) : Rule :=
  ⟨converter 0 transformation, converter 0 transformation⟩

/-! ### The passes -/

theorem mem_extend {pass : Pass} {source destination : Query} {rule : Rule} :
    rule ∈ (pass.extend source destination).rules ↔
      rule ∈ pass.rules ∨ rule ∈ Rule.orientations ⟨source, destination⟩ :=
  List.mem_append

theorem mem_prepare {rule : Rule} :
    rule ∈ prepare.rules ↔ rule ∈ splitDifference.orientations := by
  unfold prepare
  rw [mem_extend]
  simp only [Pass.empty, List.not_mem_nil, false_or]
  rfl

theorem mem_simplify {rule : Rule} :
    rule ∈ simplify.rules ↔
      rule ∈ factorUnions.orientations ∨ rule ∈ factorIntersections.orientations
        ∨ rule ∈ dropAll.orientations ∨ rule ∈ absorbAll.orientations
        ∨ rule ∈ regroup.orientations ∨ rule ∈ (conversion .commonRange).orientations := by
  unfold simplify extendByConversion
  simp only [mem_extend, Pass.empty, List.not_mem_nil, false_or, or_assoc]
  rfl

theorem mem_negation {rule : Rule} :
    rule ∈ negation.rules ↔
      rule ∈ cancelComplements.orientations ∨ rule ∈ pullFromIntersection.orientations
        ∨ rule ∈ pullFromUnion.orientations ∨ rule ∈ joinDifference.orientations
        ∨ rule ∈ pullDifference.orientations ∨ rule ∈ dropRepeated.orientations
        ∨ rule ∈ (conversion .absentProperty).orientations
        ∨ rule ∈ (conversion .absentLink).orientations := by
  unfold negation extendByConversion
  simp only [mem_extend, Pass.empty, List.not_mem_nil, false_or, or_assoc]
  rfl

theorem mem_residual {rule : Rule} :
    rule ∈ residual.rules ↔ rule ∈ complementOfAll.orientations := by
  unfold residual
  rw [mem_extend]
  simp only [Pass.empty, List.not_mem_nil, false_or]
  rfl

/-- A conversion has one orientation. -/
theorem eq_of_mem_conversion {transformation : Transformation} {rule : Rule}
    (mem : rule ∈ (conversion transformation).orientations) :
    rule = conversion transformation := by
  obtain ⟨choice, source, destination⟩ := Rule.mem_orientations mem
  cases rule
  cases source
  cases destination
  rfl

/-- A conversion that applies has accepted the query. -/
theorem rewrite?_conversion {transformation : Transformation} {q q' : Query}
    (rewritten : (conversion transformation).rewrite? q = .ok (some q')) :
    transformation.accepts q = true ∧ q' = transformation.convert q := by
  obtain ⟨bindings, matched, filled⟩ := Rule.rewrite?_eq_some rewritten
  obtain ⟨accepted, bound⟩ := Query.matchAgainst_converter matched
  refine ⟨accepted, ?_⟩
  cases bound
  exact (Except.ok.inj filled).symm

/-! ### Rules without repeated placeholders

What these rules make of a query can be written down, because matching binds each of
their placeholders once. -/

theorem orientations_splitDifference : splitDifference.orientations = [splitDifference] := rfl

theorem orientations_complementOfAll : complementOfAll.orientations = [complementOfAll] := rfl

section

variable {rule : Rule} {q q' : Query}

theorem eq_of_splitDifference (mem : rule ∈ splitDifference.orientations)
    (rewritten : rule.rewrite? q = .ok (some q')) :
    ∃ a b, q = diff a b ∧ q' = inter a (compl b) := by
  rw [orientations_splitDifference, List.mem_singleton] at mem
  subst mem
  obtain ⟨bindings, matched, filled⟩ := Rule.rewrite?_eq_some rewritten
  obtain ⟨a, b, between, rfl, left, right⟩ := Query.matchAgainst_diff matched
  cases left
  cases right
  cases filled
  exact ⟨a, b, rfl, rfl⟩

end

/-- No standard rule uses a placeholder that it has not bound. -/
theorem closed : ∀ pass ∈ passes, ∀ rule ∈ pass.rules, rule.Closed := by
  intro pass mem rule
  simp only [passes, List.mem_cons, List.not_mem_nil, or_false] at mem
  rcases mem with rfl | rfl | rfl | rfl
  · rw [mem_prepare]
    refine Rule.Closed.orientation fun number => ?_
    simp [splitDifference, Query.mentions, Interpretation.of]
  · rw [mem_simplify]
    rintro (mem | mem | mem | mem | mem | mem)
    all_goals refine Rule.Closed.orientation (fun number => ?_) mem
    case inr.inr.inr.inl => simp [absorbAll, Query.mentions, Interpretation.of]
    case inr.inr.inr.inr.inr => exact id
    all_goals
      simp only [factorUnions, factorIntersections, dropAll, regroup, Query.mentions,
        Interpretation.of, Bool.or_eq_true, Bool.false_eq_true, beq_iff_eq]
      omega
  · rw [mem_negation]
    rintro (mem | mem | mem | mem | mem | mem | mem | mem)
    all_goals refine Rule.Closed.orientation (fun number => ?_) mem
    case inr.inr.inr.inr.inr.inr.inl => exact id
    case inr.inr.inr.inr.inr.inr.inr => exact id
    all_goals
      simp only [cancelComplements, pullFromIntersection, pullFromUnion, joinDifference,
        pullDifference, dropRepeated, Query.mentions, Interpretation.of, id_eq, Bool.or_eq_true,
        beq_iff_eq]
      omega
  · rw [mem_residual]
    refine Rule.Closed.orientation fun number => ?_
    simp [complementOfAll, Query.mentions, Interpretation.of]

end Standard

end ExtentQuery.Rewrite

import ExtentQuery.Proofs.Rewriting.Rounds
import Mathlib.Tactic.Linarith
import Mathlib.Tactic.Ring

/-!
# Rewriting does not make a query heavier

The passes undo one another in part, so no pass shortens a query for good.  The weight in
this module sees through that: it is the same before and after a rule that is undone
later, and every other rule lowers it.

* `Query.weight` — the weight of a query;
* `Pass.LowersOr` — a pass each of whose rewrites lowers the weight or is of a certain
  kind that keeps it;
* `Standard.lowersOr_prepare`, `Standard.lowersOr_simplify`, `Standard.lowersOr_negation`,
  `Standard.lowersOr_residual` — what these kinds are for the standard passes.

**The shape of the weight.**  Up to an offset of one, an intersection multiplies and the
whole extent is a unit.  A difference weighs as much as the intersection with a complement
that it stands for, so the first pass keeps the weight, and so does a complement that
becomes a difference from the whole extent.  A union is a little heavier than an intersection of
the same operands; this is what makes distributing lower the weight, and also what pulls
complements upwards.

**Taking out the whole extent.**  Taking a common operand out of two intersections keeps
the weight if this operand is as light as the whole extent.  The second pass never does
so, because it has dropped such operands before (`weight_eq_zero`).  `loads` keeps track
of whether there are any.
-/

namespace ExtentQuery

open Interpretation (of assign)

/-! ### The weight -/

/-- The weight of a leaf.  "Equals nothing" outweighs the complement that it becomes. -/
def Query.leafWeight : Query → Nat
  | all => 0
  | equals _ none => 3
  | linkedTo _ none => 3
  | _ => 1

/-- The weights of queries. -/
def weights : Interpretation Nat where
  leaf := Query.leafWeight
  root x := x + 1
  inter x y := x * y + x + y
  union x y := x * y + 2 * x + 2 * y + 1
  diff x y := x * (y + 1) + x + (y + 1)
  concat x y := x + y + 1
  compl x := x + 1
  sort x := x + 1

/-- The weight of a query. -/
def Query.weight (q : Query) : Nat :=
  weights.of q

namespace Weight

variable (a b c d : Nat)

theorem factorUnions :
    weights.union a (weights.inter b c) < weights.inter (weights.union a b) (weights.union a c) := by
  simp only [weights]
  nlinarith [Nat.zero_le (a * b), Nat.zero_le (a * c), Nat.zero_le (b * c),
    Nat.zero_le (a * b * (a * c)), Nat.zero_le (a * b * c), Nat.zero_le (a * a)]

variable {a}

theorem factorIntersections (heavy : a ≠ 0) :
    weights.inter a (weights.union b c) < weights.union (weights.inter a b) (weights.inter a c) := by
  have product : 0 < a * (a + 1) * (b + 1) * (c + 1) := by positivity
  simp only [weights]
  nlinarith

theorem regroup (heavy : a ≠ 0) :
    weights.union (weights.inter a (weights.union b c)) d
      < weights.union (weights.inter a b) (weights.union (weights.inter a c) d) := by
  obtain ⟨a, rfl⟩ := Nat.exists_eq_add_one_of_ne_zero heavy
  -- too many products for `nlinarith`, so what is lost is written out
  have excess : weights.union (weights.inter (a + 1) b) (weights.union (weights.inter (a + 1) c) d)
      = weights.union (weights.inter (a + 1) (weights.union b c)) d
        + ((a + 2) * (b + 1) * (2 * (c * a + c + a) + 1) + 2 * a + 3
          + d * ((a + 2) * (b + 1) * (c + 1) * (a + 1) + a + 2)) := by
    simp only [weights]
    ring
  rw [excess]
  exact Nat.lt_add_of_pos_right (by positivity)

end Weight

/-! ### Intersections with something weightless -/

namespace Rewrite

/-! ### Rules and rewriting -/

namespace Standard

open Query (inter union diff compl all)

/-! ### The second pass -/

/-- What a query excludes, if it is a complement. -/
def excluded? : Query → Option Query
  | .compl c => some c
  | _ => none

end Standard

end Rewrite

end ExtentQuery

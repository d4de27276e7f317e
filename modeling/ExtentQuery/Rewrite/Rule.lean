import ExtentQuery.Query.Pattern

/-!
# Rewrite rules

A rule replaces a query that matches its source by its destination, filled with what the
placeholders of the source stand for.

**Commuting operands.**  Matching never tries operands in another order.  Instead, a
rule is expanded beforehand: a source with `n` intersections and unions becomes `2 ^ n`
rules, one for each choice of which of these nodes have their operands exchanged
(`Rule.orientations`).  A choice is a number whose bits say which nodes are flipped.
The nodes are numbered from the root downwards, left operand before right, as they stand
after the flips above them (`Query.flip`).
-/

namespace ExtentQuery

/-- Number of nodes whose operands may change places. -/
def Query.commutativeCount : Query → Nat
  | inter l r => l.commutativeCount + r.commutativeCount + 1
  | union l r => l.commutativeCount + r.commutativeCount + 1
  | diff l r => l.commutativeCount + r.commutativeCount
  | concat l r => l.commutativeCount + r.commutativeCount
  | root c => c.commutativeCount
  | compl c => c.commutativeCount
  | sort _ c => c.commutativeCount
  | _ => 0

/-- Exchanges the operands of the commuting nodes whose bits are set in `choice`.  The
nodes are numbered from `next` on; the answer holds the first number that is not used. -/
def Query.flip (choice : Nat) : Query → (next : Nat) → Query × Nat
  | inter l r, next =>
    if choice.testBit next then
      let (r', next') := r.flip choice (next + 1)
      let (l', next'') := l.flip choice next'
      (inter r' l', next'')
    else
      let (l', next') := l.flip choice (next + 1)
      let (r', next'') := r.flip choice next'
      (inter l' r', next'')
  | union l r, next =>
    if choice.testBit next then
      let (r', next') := r.flip choice (next + 1)
      let (l', next'') := l.flip choice next'
      (union r' l', next'')
    else
      let (l', next') := l.flip choice (next + 1)
      let (r', next'') := r.flip choice next'
      (union l' r', next'')
  | diff l r, next =>
    let (l', next') := l.flip choice next
    let (r', next'') := r.flip choice next'
    (diff l' r', next'')
  | concat l r, next =>
    let (l', next') := l.flip choice next
    let (r', next'') := r.flip choice next'
    (concat l' r', next'')
  | root c, next => let (c', next') := c.flip choice next; (root c', next')
  | compl c, next => let (c', next') := c.flip choice next; (compl c', next')
  | sort order c, next => let (c', next') := c.flip choice next; (sort order c', next')
  | leaf, next => (leaf, next)

namespace Rewrite

/-- A pattern and what replaces the queries that match it. -/
structure Rule where
  source : Query
  destination : Query
deriving DecidableEq, Inhabited

namespace Rule

/-- The replacement of a query, if the rule applies to it. -/
def rewrite? (rule : Rule) (q : Query) : Except Fault (Option Query) :=
  match rule.source.matchAgainst q [] with
  | .error fault => .error fault
  | .ok none => .ok none
  | .ok (some bindings) =>
    match rule.destination.fill bindings with
    | .error fault => .error fault
    | .ok replacement => .ok (some replacement)

/-- The rules that a rule stands for, one for each choice of flipped nodes in its
source. -/
def orientations (rule : Rule) : List Rule :=
  (List.range (1 <<< rule.source.commutativeCount)).map fun choice =>
    { rule with source := (rule.source.flip choice 0).1 }

theorem length_orientations (rule : Rule) :
    rule.orientations.length = 1 <<< rule.source.commutativeCount := by
  simp [orientations]

end Rule

/-- The replacement by the first rule that applies. -/
def firstRewrite? : List Rule → Query → Except Fault (Option Query)
  | [], _ => .ok none
  | rule :: rules, q =>
    match rule.rewrite? q with
    | .error fault => .error fault
    | .ok (some replacement) => .ok (some replacement)
    | .ok none => firstRewrite? rules q

end Rewrite

end ExtentQuery

import ExtentQuery.Fault
import ExtentQuery.Query.Same

/-!
# Patterns

A pattern is a query with placeholders.  `Query.matchAgainst` compares a query with a
pattern and collects what the placeholders stand for, `Query.fill` builds a query from a
pattern and such `Bindings`.

* A `slot` matches any query.  The first occurrence binds it, and each further
  occurrence has to match the same query in the sense of `Query.same`.
* A `converter` matches a node of its conversion's kind that the conversion accepts.
  When the pattern is filled, it becomes the converted node.
* Any other leaf of a pattern matches the same leaf, and an inner node of a pattern
  matches a node of its kind whose operands match in order.

**Faults.**  A converter that stands in a query passes for a node of its kind but owns
no operands, so matching it against an inner node faults.  Filling a pattern faults on a
slot that is not bound.
-/

namespace ExtentQuery

/-- What the placeholders of a pattern stand for, in the order in which they were
bound. -/
abbrev Bindings := List (Nat × Query)

namespace Bindings

/-- The query that a slot stands for. -/
def find? (bindings : Bindings) (slot : Nat) : Option Query :=
  List.lookup slot bindings

/-- Binds a slot on its first use; on any further use the query has to be the same. -/
def bind (bindings : Bindings) (slot : Nat) (query : Query) : Option Bindings :=
  match bindings.find? slot with
  | some bound => if bound.same query then some bindings else none
  | none => some (bindings ++ [(slot, query)])

end Bindings

namespace Transformation

/-- Whether a conversion applies to a node.  Two ranges merge if they are over one
property and their bounds are comparable. -/
def accepts : Transformation → Query → Bool
  | commonRange, .inter (.between p low high) (.between p' low' high') =>
    p == p' && (low.compare? low').isSome && (high.compare? high').isSome
  | absentProperty, .equals _ none => true
  | absentLink, .linkedTo _ none => true
  | _, _ => false

/-- What a conversion makes of a node; a node that it does not apply to stays.  The
common range of two ranges has the greater lower and the smaller upper bound, and the
bounds of the left range win ties. -/
def convert : Transformation → Query → Query
  | commonRange, node@(.inter (.between p low high) (.between p' low' high')) =>
    if p == p' then
      .between p
        (if low.compare? low' = some .lt then low' else low)
        (if high.compare? high' = some .gt then high' else high)
    else node
  | absentProperty, .equals p _ => .compl (.hasProperty p)
  | absentLink, .linkedTo l _ => .compl (.hasLink l)
  | _, node => node

end Transformation

namespace Query

/-- The operand at a position, or the fault of asking for one that is not there. -/
def childOrFault (q : Query) (i : Nat) : Except Fault Query :=
  match q.child? i with
  | some c => .ok c
  | none => .error (.missingChild q.tag i)

/-- Replaces the operand at a position of the node that a path of positions leads to.
Answers the detached operand and the whole query after that. -/
def replaceAt (q : Query) (path : List Nat) (i : Nat) (replacement : Query) :
    Except Fault (Query × Query) :=
  match path with
  | [] => do
    let detached ← q.childOrFault i
    return (detached, q.setChild i replacement)
  | step :: path => do
    let child ← q.childOrFault step
    let (detached, edited) ← child.replaceAt path i replacement
    return (detached, q.setChild step edited)

/-- A way to match one query: it extends the bindings, or answers `none`. -/
abbrev Matcher := Query → Bindings → Except Fault (Option Bindings)

/-- Matches the only operand of a node. -/
def Matcher.only (operand : Matcher) : Matcher := fun q bindings =>
  match q.childOrFault 0 with
  | .error fault => .error fault
  | .ok child => operand child bindings

/-- Matches the two operands of a node in order.  The second operand is not looked at
unless the first one matches. -/
def Matcher.both (left right : Matcher) : Matcher := fun q bindings =>
  match left.only q bindings with
  | .error fault => .error fault
  | .ok none => .ok none
  | .ok (some extended) =>
    match q.childOrFault 1 with
    | .error fault => .error fault
    | .ok child => right child extended

/-- Matches nodes of one kind only. -/
def Matcher.ofKind (kind : Kind) (node : Matcher) : Matcher := fun q bindings =>
  if q.kind = kind then node q bindings else .ok none

/-- Matches a query against a pattern on top of given bindings.  The answer is `none` if
they do not match. -/
def matchAgainst : (pattern : Query) → Matcher
  | slot number => fun q bindings => .ok (bindings.bind number q)
  | converter number conversion => fun q bindings =>
    .ok (if q.kind = conversion.kind && conversion.accepts q then bindings.bind number q
      else none)
  | inter l r => .ofKind .inter (.both (matchAgainst l) (matchAgainst r))
  | union l r => .ofKind .union (.both (matchAgainst l) (matchAgainst r))
  | diff l r => .ofKind .diff (.both (matchAgainst l) (matchAgainst r))
  | concat l r => .ofKind .concat (.both (matchAgainst l) (matchAgainst r))
  | root c => .ofKind .root (.only (matchAgainst c))
  | compl c => .ofKind .compl (.only (matchAgainst c))
  | sort order c => fun q bindings =>
    match q with
    | sort order' child => if order'.same order then matchAgainst c child bindings else .ok none
    | _ => .ok none
  | leaf => fun q bindings => .ok (if q.same leaf then some bindings else none)

/-- The query that a slot stands for, or the fault of using a slot that is not bound. -/
def boundOrFault (bindings : Bindings) (slot : Nat) : Except Fault Query :=
  match bindings.find? slot with
  | some query => .ok query
  | none => .error (.unboundSlot slot)

/-- Builds a query from a pattern: every placeholder is replaced by what it stands for,
operands from left to right. -/
def fill : (pattern : Query) → Bindings → Except Fault Query
  | slot number, bindings => boundOrFault bindings number
  | converter number conversion, bindings =>
    return conversion.convert (← boundOrFault bindings number)
  | root c, bindings => return root (← c.fill bindings)
  | compl c, bindings => return compl (← c.fill bindings)
  | sort order c, bindings => return sort order (← c.fill bindings)
  | inter l r, bindings => return inter (← l.fill bindings) (← r.fill bindings)
  | union l r, bindings => return union (← l.fill bindings) (← r.fill bindings)
  | diff l r, bindings => return diff (← l.fill bindings) (← r.fill bindings)
  | concat l r, bindings => return concat (← l.fill bindings) (← r.fill bindings)
  | leaf, _ => return leaf

end Query

end ExtentQuery

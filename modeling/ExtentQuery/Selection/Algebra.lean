import ExtentQuery.Selection

/-!
# Operations on selections

Four operations combine two selections.  Each one takes the cheapest way that is open:

* an operand that is known to be empty, or the same operand twice, decides the result;
* two queries that are not evaluated yet become one query, which is not evaluated either
  (`Engine.joinQueries`), if they filter the same selection and their types permit it;
* every entity of the type of the other operand decides the result;
* else both operands are evaluated and the rows combined (`Engine.combineEvaluated`).

A concatenation never becomes one query, because a query over a hierarchy may be answered
type by type.

`Engine.followLink` follows a link from every entity of a selection.
-/

namespace ExtentQuery.Engine

open Effect

/-- Evaluates two selections and combines their rows. -/
def combineEvaluated (engine : Engine) (operation : SetOperation) (left right : Selection) :
    Effect Selection := do
  let l ← left.evaluate engine
  let r ← right.evaluate engine
  return .rows (← engine.combine operation l r)

/-- Whether two deferred selections filter the same selection, or none. -/
def sameSource : Option Selection → Option Selection → Bool
  | none, none => true
  | some a, some b => a.same b
  | _, _ => false

/-- The type over which an operation on two queries can be one query. -/
def joinedType? (engine : Engine) (operation : SetOperation) (left right : String) :
    Option String :=
  match operation with
  | .inter => engine.narrowerType? left right
  | .union => if left = right then some left else none
  | .diff => if engine.metadata.isSubtype left right then some left else none
  | .concat => none

/-- The query for an operation on two queries. -/
def joinedQuery : SetOperation → Query → Query → Query
  | .inter => .inter
  | .union => .union
  | .diff => .diff
  | .concat => .concat

/-- Joins two selections that are not evaluated yet into one that is not either. -/
def joinQueries (engine : Engine) (operation : SetOperation) (left right : Selection) :
    Option (Effect Selection) := do
  let l ← left.deferral?
  let r ← right.deferral?
  if sameSource l.source r.source then
    let type ← engine.joinedType? operation l.type r.type
    return Selection.defer type (joinedQuery operation l.query r.query) l.source
  else none

/-- Whether two selections are known to be of the same type. -/
def sameKnownType (left right : Selection) : Bool :=
  match left.knownType?, right.knownType? with
  | some a, some b => a == b
  | _, _ => false

/-- Joins two selections, or else lets the extent of a type decide, or else evaluates
them. -/
def combineDeferred (engine : Engine) (operation : SetOperation) (left right : Selection)
    (decided : Option Selection) : Effect Selection :=
  match engine.joinQueries operation left right with
  | some joined => joined
  | none =>
    match decided with
    | some selection => pure selection
    | none => engine.combineEvaluated operation left right

/-- The entities of both selections, in the order of the left one. -/
def inter (engine : Engine) (left right : Selection) : Effect Selection :=
  if left.same right then pure left
  else if left.knownEmpty || right.knownEmpty then pure .none
  else engine.combineDeferred .inter left right
    (if !sameKnownType left right then none
     else if right.isExtent then some left
     else if left.isExtent then some right
     else none)

/-- The entities of either selection. -/
def union (engine : Engine) (left right : Selection) : Effect Selection :=
  if left.same right || right.knownEmpty then pure left
  else if left.knownEmpty then pure right
  else engine.combineDeferred .union left right
    (if !sameKnownType left right then none
     else if left.isExtent then some left
     else if right.isExtent then some right
     else none)

/-- The left selection followed by the right one. -/
def concat (engine : Engine) (left right : Selection) : Effect Selection :=
  if right.knownEmpty then pure left
  else if left.knownEmpty then pure right
  else engine.combineEvaluated .concat left right

/-- The entities of the left selection that are not in the right one, in the order of the
left one. -/
def diff (engine : Engine) (left right : Selection) : Effect Selection :=
  if left.same right || left.knownEmpty then pure .none
  else if right.knownEmpty then pure left
  else engine.combineDeferred .diff left right
    (if sameKnownType left right && right.isExtent then some .none else none)

/-- The different entities that `targetsOf` finds from those of a selection, in the order
in which they are found. -/
def follow (engine : Engine) (source : Selection) (link : String)
    (targetsOf : Store → EntityId → Except Fault (List EntityId)) : Effect Selection := do
  let rows ← source.evaluate engine
  let targets ← rows.mapM fun id => reading (targetsOf · id)
  let selection ← Selection.ofIds targets.flatten.eraseDups
  match source.knownType?.bind (engine.metadata.association · link) with
  | some far => Selection.ofType far.targetType selection
  | none => return selection

/-- The different first targets of a link. -/
def followLink (engine : Engine) (source : Selection) (link : String) : Effect Selection :=
  engine.follow source link fun store id => return (← store.link id link).toList

/-- The different targets of a link. -/
def followLinks (engine : Engine) (source : Selection) (link : String) : Effect Selection :=
  engine.follow source link fun store id => store.links id link

end ExtentQuery.Engine

import ExtentQuery.Engine.Sort

/-!
# Evaluating queries

A query over a type selects from the entities of the type and of all its subtypes.

* `Engine.evaluateType` — a query over exactly one type: leaves become look-ups of the
  backend, and inner nodes become operations on rows;
* `Engine.evaluate` — a query over a type and its subtypes;
* `Engine.answer` — the same, after the query has been optimized.

**Type by type, or all at once.**  A query all of whose parts look at one type at a time
is evaluated for each type of the hierarchy, and the results are put together
(`Engine.evaluateEach`).  A query that contains a concatenation, a sort or a leaf that ranges
over every type is taken apart first: its operands are evaluated over the hierarchy, and
their results are combined.  The two ways differ for a difference whose right operand
ranges over every type, and for the order of sorted and concatenated results.

**Queries within queries.**  Entities linked into the answer of another query are found
by answering that query first.  How nested queries are answered is a parameter of the
evaluation; `Engine.answerWithin` ties the knot for a number of levels, and
`Query.levels` is a number that suffices.
-/

namespace ExtentQuery

/-- A number of levels that suffices to answer a query.  A nested query is written out in
full in the canonical text of the query that contains it, so its own text is shorter. -/
def Query.levels (q : Query) : Nat :=
  q.canonical.length + 2

namespace Engine

open Effect
open Rewrite (Optimized)

/-- Answers a query over a type that occurs within another query. -/
abbrev Nested := (type : String) → Query → Effect Rows

/-- The entities of one type that have a property, be it a value or a blob. -/
def having (engine : Engine) (type property : String) : Effect Rows := do
  match engine.metadata.storage type property with
  | .blob => return .native (← engine.backend.hasBlob type property)
  | .primitive => return .native (← engine.backend.hasProperty type property)

/-- The entities of one type with a link to any entity that a nested query selects. -/
def linkedIntoNested (engine : Engine) (nested : Nested) (type link : String)
    (targets : Query) (targetType : String) : Effect Rows := do
  engine.linkedToAny type link (← nested targetType targets)

/-- The rows of one type with a link to any entity that a nested query selects. -/
def narrowByNested (engine : Engine) (nested : Nested) (type : String) (source : Rows)
    (link : String) (targets : Query) (targetType : String) : Effect Rows :=
  if source.knownEmpty then pure .empty
  else do engine.narrowByLinks type link source (← nested targetType targets)

/-- Evaluates a query over exactly one type. -/
def evaluateType (engine : Engine) (nested : Nested) : Query → String → Effect Rows
  | .root c, type => engine.evaluateType nested c type
  | .all, type => return .native (← engine.backend.all type)
  | .linksFrom source link, _ => return .native (← engine.backend.linkTargets source link)
  | .equals property (some value), type =>
    return .native (← engine.backend.equal type property value)
  | .equals property none, type => do
    let all ← engine.backend.all type
    engine.combine .diff (.native all) (← engine.having type property)
  | .between property low high, type =>
    return .native (← engine.backend.between type property low high)
  | .startsWith property start, type =>
    return .native (← engine.backend.startsWith type property start)
  | .hasProperty property, type => engine.having type property
  | .linkedTo link (some target), type =>
    return .native (← engine.backend.linkedTo type link target)
  | .linkedTo link none, type => do
    let all ← engine.backend.all type
    let linked ← engine.backend.hasLink type link
    engine.combine .diff (.native all) (.native linked)
  | .hasLink link, type => return .native (← engine.backend.hasLink type link)
  | .linkedInto link targets targetType, type =>
    engine.linkedIntoNested nested type link targets targetType
  | .inter l r, type =>
    match r.linkedTargets?, l.linkedTargets? with
    | some (link, targets, targetType), _ => do
      let source ← engine.evaluateType nested l type
      engine.narrowByNested nested type source link targets targetType
    | none, some (link, targets, targetType) => do
      let source ← engine.evaluateType nested r type
      engine.narrowByNested nested type source link targets targetType
    | none, none => do
      let left ← engine.evaluateType nested l type
      let right ← engine.evaluateType nested r type
      engine.combine .inter left right
  | .union l r, type => do
    let left ← engine.evaluateType nested l type
    let right ← engine.evaluateType nested r type
    engine.combine .union left right
  | .diff l r, type => do
    let left ← engine.evaluateType nested l type
    if left.knownEmpty then return .empty
    let right ← engine.evaluateType nested r type
    engine.combine .diff left right
  | .concat l r, type => do
    let left ← engine.evaluateType nested l type
    let right ← engine.evaluateType nested r type
    engine.combine .concat left right
  | .compl c, type => do
    let all ← engine.backend.all type
    let excluded ← engine.evaluateType nested c type
    engine.combine .diff (.native all) excluded
  | .sort order c, type => do
    let source ← engine.evaluateType nested c type
    engine.sort (nested type .all) type order (some source)
  | .custom leaf, type =>
    if leaf.spansTypes then Rows.ofIds leaf.members
    else do
      let extent ← (← engine.backend.all type).collect
      Rows.ofIds (leaf.members.filter extent.contains)
  | .slot number, _ => throw (.placeholder (Query.slot number).canonical)
  | .converter number conversion, _ =>
    throw (.placeholder (Query.converter number conversion).canonical)

/-- Evaluates an intersection over exactly one type whose second operand may be a query
for what is linked into other entities; such an operand is answered last, and only for
the entities that the first one selects. -/
def narrowByQuery (engine : Engine) (nested : Nested) (type : String) (other linked : Query) :
    Effect Rows := do
  match linked.linkedTargets? with
  | some (link, targets, targetType) =>
    let source ← engine.evaluateType nested other type
    engine.narrowByNested nested type source link targets targetType
  | none =>
    let left ← engine.evaluateType nested other type
    let right ← engine.evaluateType nested linked type
    engine.combine .inter left right

/-- Puts the parts of a hierarchy together.  If all of them are in the order of
identities, so is the result; otherwise they follow one another. -/
def joinParts (engine : Engine) : List Rows → Effect Rows
  | [] => pure .empty
  | first :: rest =>
    let operation := if (first :: rest).all Rows.inIdOrder then .union else .concat
    rest.foldlM (fun rows part => engine.combine operation rows part) first

/-- Evaluates a query for each type of a hierarchy and puts the results together. -/
def evaluateEach (engine : Engine) (nested : Nested) (q : Query) (type : String) : Effect Rows := do
  let parts ← (type :: engine.metadata.closure type).mapM fun each =>
    engine.evaluateType nested q each
  engine.joinParts parts

/-- Evaluates a query over a type and its subtypes. -/
def evaluate (engine : Engine) (nested : Nested) (q : Query) (type : String) : Effect Rows :=
  if q.spansTypes then engine.evaluateType nested q type
  else if q.typeLocal then engine.evaluateEach nested q type
  else
    match q with
    | .root c => engine.evaluate nested c type
    | .inter l r => do
      let left ← engine.evaluate nested l type
      let right ← engine.evaluate nested r type
      engine.combine .inter left right
    | .union l r => do
      let left ← engine.evaluate nested l type
      let right ← engine.evaluate nested r type
      engine.combine .union left right
    | .diff l r => do
      let left ← engine.evaluate nested l type
      if left.knownEmpty then return .empty
      let right ← engine.evaluate nested r type
      engine.combine .diff left right
    | .concat l r => do
      let left ← engine.evaluate nested l type
      let right ← engine.evaluate nested r type
      engine.combine .concat left right
    | .compl c => do
      let all ← engine.evaluateEach nested .all type
      let excluded ← engine.evaluate nested c type
      engine.combine .diff all excluded
    | .sort order c => do
      let source ← engine.evaluate nested c type
      engine.sort (nested type .all) type order (some source)
    | leaf => engine.evaluateEach nested leaf type

/-- Evaluates an optimized query over a type and its subtypes, and applies its sort
steps.  The first step sorts the whole extent if the query selects all of it. -/
def answerOptimized (engine : Engine) (nested : Nested) (type : String)
    (optimized : Optimized) : Effect Rows := do
  let (body, orders) := optimized.steps
  let rows ← match body, orders with
    | .all, order :: orders => engine.sortExtent (nested type .all) type (order :: orders)
    | body, orders => do
      let rows ← engine.evaluate nested body type
      engine.sortRows (nested type .all) type orders rows
  countWork .instantiation
  return rows

/-- Optimizes and evaluates a query with at most `levels` levels of nested queries. -/
def answerWithin (engine : Engine) : (levels : Nat) → Nested
  | 0, _, _ => throw .endlessDescent
  | levels + 1, type, q => do
    let optimized ← engine.optimize q
    engine.answerOptimized (engine.answerWithin levels) type optimized

/-- The entities of a type and its subtypes that a query selects. -/
def answer (engine : Engine) (type : String) (q : Query) : Effect Rows :=
  engine.answerWithin q.levels type q

/-- The entities of a type and its subtypes. -/
def all (engine : Engine) (type : String) : Effect Rows :=
  engine.answer type .all

end Engine

end ExtentQuery

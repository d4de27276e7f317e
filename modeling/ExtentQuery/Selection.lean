import ExtentQuery.Engine.Evaluate

/-!
# Selections

A selection is a set of entities that may not have been computed yet.

* `Selection.rows` — entities that are there;
* `Selection.deferred` — the answer of a query, not evaluated yet;
* `Selection.filtered` — the part of another selection that a query selects, not
  evaluated yet;
* `Selection.typed` — a selection whose entities are known to be of a type.

A deferred selection keeps its query, so that operations on selections can join queries
instead of evaluating them.  It is optimized the first time it is evaluated, and its
optimized query is kept with its stamp.

**One question about one type.**  Filtering a deferred selection by a query over the same
type needs no second evaluation, so the two queries become one (`Query.andThen`).

**Filtering by what is left.**  When a filtered selection is evaluated and its source is
itself deferred, over a type or a subtype of the filtering query's type or the other way
round, the two queries are joined and answered as one query over the narrower type
(`Engine.joinWithSource`).  All other sources are evaluated and intersected with the
answer of the query.
-/

namespace ExtentQuery

open Effect
open Rewrite (Optimized)

/-- A set of entities, perhaps not computed yet. -/
inductive Selection where
  | rows (rows : Rows)
  | deferred (stamp : Nat) (type : String) (query : Query)
  | filtered (stamp : Nat) (type : String) (query : Query) (source : Selection)
  | typed (stamp : Nat) (type : String) (inner : Selection)
deriving DecidableEq, Inhabited

namespace Selection

/-- The selection of no entity. -/
def none : Selection := rows .empty

/-- The query of a selection that is not evaluated yet, with its type and the selection
that it filters. -/
structure Deferral where
  stamp : Nat
  type : String
  query : Query
  source : Option Selection

/-- What a selection that is not evaluated yet waits for. -/
def deferral? : Selection → Option Deferral
  | deferred stamp type query => some ⟨stamp, type, query, .none⟩
  | filtered stamp type query source => some ⟨stamp, type, query, some source⟩
  | _ => .none

/-- The type that the entities are known to have without an evaluation. -/
def knownType? : Selection → Option String
  | rows _ => .none
  | deferred _ type _ => some type
  | filtered _ type _ _ => some type
  | typed _ type _ => some type

/-- Whether this is every entity of a type, not evaluated yet. -/
def isExtent : Selection → Bool
  | deferred _ _ .all => true
  | _ => false

/-- Whether there is known to be no entity. -/
def knownEmpty : Selection → Bool
  | rows r => r.knownEmpty
  | _ => false

/-- Whether the entities are known to be in the order of their identities. -/
def inIdOrder : Selection → Bool
  | rows r => r.inIdOrder
  | deferred .. => false
  | filtered .. => false
  | typed _ _ inner => inner.inIdOrder

/-- The guess at the size of a selection that is not evaluated yet. -/
def unknownSize : Nat := UInt64.size - 1

/-- A guess at the number of entities that costs nothing. -/
def rough : Selection → Nat
  | rows r => r.rough
  | deferred .. => unknownSize
  | filtered .. => unknownSize
  | typed _ _ inner => inner.rough

/-- The listing, if the selection is one of the backend's listings. -/
def listing? : Selection → Option Listing
  | rows (.native listing) => some listing
  | _ => .none

/-- Whether two are the very same selection; it does not matter what they contain. -/
def same : Selection → Selection → Bool
  | rows a, rows b => a.same b
  | typed a _ _, typed b _ _ => a == b
  | a, b =>
    match a.deferral?, b.deferral? with
    | some a, some b => a.stamp == b.stamp
    | _, _ => false

/-! ### Building selections -/

/-- A query over a type, not evaluated yet. -/
def ofQuery (type : String) (query : Query) : Effect Selection :=
  return deferred (← freshStamp) type query

/-- The part of a selection that a query over a type selects, not evaluated yet. -/
def filter (source : Selection) (type : String) (query : Query) : Effect Selection := do
  let stamp ← freshStamp
  match source with
  | deferred _ sourceType outer =>
    if sourceType = type then return deferred stamp type (outer.andThen query)
    return filtered stamp type query source
  | filtered _ sourceType outer inner =>
    if sourceType = type then return filtered stamp type (outer.andThen query) inner
    return filtered stamp type query source
  | source => return filtered stamp type query source

/-- A query over a type, filtering a selection if one is given. -/
def defer (type : String) (query : Query) : Option Selection → Effect Selection
  | .none => ofQuery type query
  | some source => source.filter type query

/-- The selection of some entities. -/
def ofIds (ids : List EntityId) : Effect Selection :=
  return rows (← Rows.ofIds ids)

/-- A selection whose entities are known to be of a type. -/
def ofType (type : String) (inner : Selection) : Effect Selection :=
  return typed (← freshStamp) type inner

end Selection

/-! ### Evaluating selections -/

namespace Engine

/-- The optimized query of a deferred selection, which is computed once. -/
def optimizeOnce (engine : Engine) (stamp : Nat) (q : Query) : Effect Optimized := do
  match (← get).memo.lookup stamp with
  | some optimized => return optimized
  | none =>
    let optimized ← engine.optimize q
    modify fun s => { s with memo := (stamp, optimized) :: s.memo }
    return optimized

/-- The narrower one of two types, if one is a subtype of the other. -/
def narrowerType? (engine : Engine) (a b : String) : Option String :=
  if engine.metadata.isSubtype a b then some a
  else if engine.metadata.isSubtype b a then some b
  else none

/-- The query, with its type, that filters the answer of a deferred source. -/
def joinWithSource (engine : Engine) (type : String) (body : Query) :
    Selection → Option (String × Query)
  | .deferred _ sourceType outer =>
    (engine.narrowerType? sourceType type).map fun narrower => (narrower, .inter outer body)
  | _ => none

/-- The rows of a source that an optimized query selects. -/
def filterRows (engine : Engine) (nested : Nested) (type : String) (body : Query)
    (source : Rows) : Effect Rows := do
  let unfiltered ← engine.evaluate nested body type
  countWork .instantiation
  engine.combine .inter source unfiltered

/-- How the filtering of a source begins, before any sort step: either the rows are found
at once, or finding them is left to whoever wants the rows. -/
inductive Beginning where
  | now (rows : Effect Rows)
  | later (rows : Effect Rows)

/-- The beginning for a source and the query that filters it. -/
def beginFilter (engine : Engine) (nested : Nested) (type : String) (body : Query)
    (source : Selection) (sourceRows : Effect Rows) : Beginning :=
  if body = .all then .later sourceRows
  else if source.knownEmpty then .now (pure .empty)
  else
    match engine.joinWithSource type body source with
    | some (narrower, joined) => .later (engine.answer narrower joined)
    | none => .now do engine.filterRows nested type body (← sourceRows)

/-- Applies sort steps to what a filter begins with.  Without any, rows that are found
later are found after the filter is done. -/
def finishFilter (engine : Engine) (nested : Nested) (type : String) :
    Beginning → List SortStep → Effect Rows
  | .later start, [] => do
    countWork .instantiation
    start
  | .later start, orders => do
    let rows ← engine.sortRows (nested type .all) type orders (← start)
    countWork .instantiation
    return rows
  | .now start, orders => do
    let rows ← engine.sortRows (nested type .all) type orders (← start)
    countWork .instantiation
    return rows

end Engine

/-- The entities of a selection. -/
def Selection.evaluate (engine : Engine) : Selection → Effect Rows
  | rows r => pure r
  | typed _ _ inner => inner.evaluate engine
  | deferred stamp type query => do
    let optimized ← engine.optimizeOnce stamp query
    engine.answerOptimized (engine.answerWithin query.levels) type optimized
  | filtered stamp type query source => do
    let nested := engine.answerWithin query.levels
    let optimized ← engine.optimizeOnce stamp query
    let (body, orders) := optimized.steps
    engine.finishFilter nested type
      (engine.beginFilter nested type body source (source.evaluate engine)) orders

end ExtentQuery

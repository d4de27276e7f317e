import ExtentQuery.Backend
import ExtentQuery.Metadata
import ExtentQuery.Rows
import ExtentQuery.Settings

/-!
# The engine

An engine answers queries through a backend, with the help of what is known about types
and under the settings of its owner.

* `Engine.combine` — a set operation on rows;
* `Engine.optimize` — the optimized form of a query, remembered if possible;
* `Engine.linkedToAny` — the entities with a link to any of some rows.

**Operations on rows.**  Rows that are known to be empty decide an operation at once.
Two listings are left to the backend, and everything else is computed in memory.
-/

namespace ExtentQuery

open Effect
open Rewrite (Optimized)

/-- What is needed to answer queries. -/
structure Engine where
  backend : Backend
  metadata : Metadata
  settings : Settings

namespace Engine

/-- What an operation yields if the rows that are known to be empty decide it. -/
def shortcut? (operation : SetOperation) (left right : Rows) : Option Rows :=
  match operation, left.knownEmpty, right.knownEmpty with
  | .inter, true, _ => some .empty
  | .inter, _, true => some .empty
  | .diff, true, _ => some .empty
  | .diff, false, true => some left
  | .union, false, true => some left
  | .union, true, _ => some right
  | .concat, false, true => some left
  | .concat, true, _ => some right
  | _, _, _ => none

/-- An operation that nothing decides at once. -/
def combineNow (engine : Engine) (operation : SetOperation) : Rows → Rows → Effect Rows
  | .native left, .native right => return .native (← engine.backend.combine operation left right)
  | left, right => do
    let l ← left.collect
    let r ← right.collect
    Rows.ofIds (operation.apply l r)

/-- The result of a set operation on rows. -/
def combine (engine : Engine) (operation : SetOperation) (left right : Rows) : Effect Rows :=
  match shortcut? operation left right with
  | some rows => pure rows
  | none => do
    let rows ← engine.combineNow operation left right
    countWork .setOperation
    return rows

/-- Optimizes a query and remembers the result. -/
def optimizeNow (engine : Engine) (q : Query) : Effect Optimized := do
  match (Rewrite.optimize engine.settings.maxRewrites q).run [] with
  | .error fault notices =>
    notices.forM report
    throw fault
  | .ok optimized notices =>
    notices.forM report
    modify fun s => { s with cache := s.cache.store q optimized }
    return optimized

/-- The optimized form of a query, from the cache if it is there. -/
def optimize (engine : Engine) (q : Query) : Effect Optimized := do
  let found ← modifyGet fun (s : State) =>
    let (found, cache) := s.cache.find q
    (found, { s with cache })
  let optimized ← match found with
    | some optimized => pure optimized
    | none => engine.optimizeNow q
  countWork .optimization
  return optimized

/-- The entities of a type with a link to any of some entities, one after the other. -/
def linkedToEach (engine : Engine) (type link : String) (targets : Rows) : Effect Rows :=
  targets.foldM (fun rows target => do
    let linked ← engine.backend.linkedTo type link target
    engine.combine .union rows (.native linked)) .empty

/-- The entities of a type with a link to any of some entities. -/
def linkedToAny (engine : Engine) (type link : String) : Rows → Effect Rows
  | .empty => pure .empty
  | .native targets => do
    let all ← engine.backend.all type
    match ← engine.backend.searchLinks all targets link with
    | some found => return .native found
    | none => engine.linkedToEach type link (.native targets)
  | targets => engine.linkedToEach type link targets

/-- Reports where a shortcut and the direct way disagree: in the number of entities or
else at the first place where the entities differ. -/
def compareWays (link : String) (shortcut direct : List EntityId) : Effect Unit :=
  if shortcut.length ≠ direct.length then
    report (.linksMismatchInSize link shortcut.length direct.length)
  else
    match (shortcut.zip direct).zipIdx.find? fun entry => entry.1.1 != entry.1.2 with
    | some ((found, expected), position) =>
      report (.linksMismatchAt link position found expected)
    | none => pure ()

/-- Compares the answer of the links shortcut with the direct way, if the settings ask
for it. -/
def traceLinks (engine : Engine) (type link : String) (source targets found : Rows) :
    Effect Unit := do
  if engine.settings.comparesShortcut then
    let linked ← engine.linkedToAny type link targets
    let direct ← engine.combine .inter source linked
    let shortcut ← found.collect
    compareWays link shortcut (← direct.collect)

/-- The rows of `source`, of a type, with a link to any of some entities. -/
def narrowByLinks (engine : Engine) (type link : String) (source targets : Rows) :
    Effect Rows := do
  let found ← match source, targets with
    | .native s, .native t => engine.backend.searchLinks s t link
    | _, _ => pure none
  match found with
  | some listing =>
    engine.traceLinks type link source targets (.native listing)
    return .native listing
  | none =>
    let linked ← engine.linkedToAny type link targets
    engine.combine .inter source linked

end Engine

end ExtentQuery

import ExtentQuery.Engine
import ExtentQuery.Sorting.RankedMerge
import ExtentQuery.Store.Key

/-!
# Sorting rows

A backend sorts the entities of one concrete type by a property.  Everything else about
sorting is put together here.

* `Engine.sortTypes` — a type and its subtypes, each sorted by the backend, merged;
* `Engine.sortProperty` — rows by a property;
* `Engine.sortLinked` — rows by a property behind a link;
* `Engine.sortKeyed` — rows by a supplied key.

**Outside the hierarchy.**  Rows may hold entities that do not belong to the hierarchy
that is sorted.  They go where entities without a key go — to the end, or to the front
when descending — in the order in which the rows list them (`withLeftOver`).

**Targets first.**  Listed rows can be sorted by a property behind a link without reading
the link of each of them: the targets are sorted, and the backend orders the rows after
them.  This is worth it only for many rows and few targets, and a backend may be unable
to do it; in all other cases the rows are sorted in memory.
-/

namespace ExtentQuery

/-- The entries of a list that are left over when each entry of another list covers one
of them, the first one that is not covered yet. -/
def leftOver : (source covered : List EntityId) → List EntityId
  | [], _ => []
  | id :: source, covered =>
    if covered.contains id then leftOver source (covered.erase id)
    else id :: leftOver source covered

/-- A sorted list with the entries of its source that it lacks. -/
def withLeftOver (source sorted : List EntityId) (ascending : Bool) : List EntityId :=
  let rest := leftOver source sorted
  if ascending then sorted ++ rest else rest ++ sorted

namespace Engine

open Effect

/-- Merges the sorted parts of a hierarchy. -/
def mergeParts (engine : Engine) (property : String) (ascending : Bool)
    (parts : List Listing) : Effect Listing := do
  countWork .merge
  engine.backend.merge parts (.property property) ascending

/-- The entities of a type and of its subtypes, from a listing or from their whole
extents, sorted by a property.  At most `levels` generations of subtypes are visited. -/
def sortTypesWithin (engine : Engine) : (levels : Nat) → (type property : String) →
    Option Listing → (ascending : Bool) → Effect Listing
  | 0, _, _, _, _ => throw .endlessDescent
  | levels + 1, type, property, source, ascending => do
    let own ← engine.backend.sortType type property source ascending
    match engine.metadata.directSubtypes type with
    | [] => return own
    | subtypes =>
      let parts ← subtypes.mapM fun subtype =>
        engine.sortTypesWithin levels subtype property source ascending
      engine.mergeParts property ascending (own :: parts)

/-- The entities of a type and of its subtypes sorted by a property.  A hierarchy without
cycles has no more generations than subtypes. -/
def sortTypes (engine : Engine) (type property : String) (source : Option Listing)
    (ascending : Bool) : Effect Listing :=
  engine.sortTypesWithin (engine.metadata.subtypeNames.length + 1) type property source ascending

/-- Sorts a list in memory. -/
def sortList (engine : Engine) (ids : List EntityId) (key : SortKey)
    (ascending : Bool) : Effect (List EntityId) := do
  let sorted ← reading fun store =>
    Sorting.sortRanked engine.settings.sort.method.positions (key.read store) ascending ids
  countWork .memorySort
  return sorted

/-- The entries of a list in the order of an extent, each as often as the list has it. -/
def inOrderOf (extent ids : List EntityId) : List EntityId :=
  extent.eraseDups.flatMap fun id => List.replicate (ids.count id) id

/-- Sorts a list by reading the whole sorted extent. -/
def sortByExtent (engine : Engine) (type property : String) (ids : List EntityId)
    (ascending : Bool) : Effect Rows := do
  let listing ← engine.sortTypes type property none ascending
  let extent ← listing.collect
  Rows.ofIds (withLeftOver ids (inOrderOf extent ids) ascending)

/-- Sorts listed rows; the backend does it unless some of the rows are outside the
hierarchy. -/
def sortListing (engine : Engine) (type property : String) (source : Listing)
    (ascending : Bool) : Effect Rows := do
  let sorted ← engine.sortTypes type property (some source) ascending
  let sortedSize ← sorted.size
  let size ← source.size
  if sortedSize = size then return .native sorted
  let ids ← source.collect
  Rows.ofIds (withLeftOver ids (← sorted.collect) ascending)

/-- Sorts rows by a property, or the whole extent of a type and its subtypes. -/
def sortProperty (engine : Engine) (type property : String) (source : Option Rows)
    (ascending : Bool) : Effect Rows :=
  match source with
  | none => return .native (← engine.sortTypes type property none ascending)
  | some .empty => pure .empty
  | some (.native listing) => engine.sortListing type property listing ascending
  | some (.computed _ ids) =>
    if ids.length ≤ engine.settings.sort.maxInMemory then do
      Rows.ofIds (← engine.sortList ids (.property property) ascending)
    else engine.sortByExtent type property ids ascending

/-- Sorts rows in memory by a key. -/
def sortKeyed (engine : Engine) (source : Rows) (key : SortKey) (ascending : Bool) :
    Effect Rows :=
  match source with
  | .empty => pure .empty
  | rows => do Rows.ofIds (← engine.sortList (← rows.collect) key ascending)

/-- The entities of a type and of its subtypes that have a property. -/
def withProperty (engine : Engine) (type property : String) : Effect Listing := do
  let own ← engine.backend.hasProperty type property
  (engine.metadata.closure type).foldlM (fun keyed subtype => do
    let part ← engine.backend.hasProperty subtype property
    engine.backend.combine .union keyed part) own

/-- Asks the backend to order listed rows after their sorted targets. -/
def sortByTargets (engine : Engine) (targetType property link : String)
    (far : Option Association) (source : Listing) (ascending : Bool) :
    Effect (Option Listing) := do
  let keyed ← engine.withProperty targetType property
  let targets ← engine.sortTypes targetType property (some keyed) ascending
  if engine.settings.sort.maxTargetsForLinkSort < targets.rough then return none
  let sorted ← engine.backend.orderByTargets
    { source, targets, link, ascending
      multiple := far.any (·.cardinality == .multiple)
      opposite := far.bind (·.opposite) }
  countWork .linkSort
  return sorted

/-- Sorts rows, of a type, by a property of the entities behind a link. -/
def sortLinked (engine : Engine) (targetType property type link : String)
    (source : Rows) (ascending : Bool) : Effect Rows := do
  let sorted ← match source with
    | .native listing =>
      if engine.settings.sort.minEntriesForLinkSort ≤ listing.rough then
        engine.sortByTargets targetType property link (engine.metadata.association type link)
          listing ascending
      else pure none
    | _ => pure none
  match sorted with
  | some listing => return .native listing
  | none => engine.sortKeyed source (.linkedProperty property link ascending) ascending

/-- Applies a sort step to rows of a type.  Without rows, it sorts the whole extent of
the type and its subtypes, for which `extent` answers if the backend does not. -/
def sort (engine : Engine) (extent : Effect Rows) (type : String) (order : SortStep)
    (source : Option Rows) : Effect Rows :=
  match order with
  | .property name ascending => engine.sortProperty type name source ascending
  | .linkedProperty targetType property link ascending => do
    let rows ← source.elim extent pure
    engine.sortLinked targetType property type link rows ascending
  | .key _ _ key ascending => do
    let rows ← source.elim extent pure
    engine.sortKeyed rows key ascending

/-- Applies sort steps to rows of a type, one after the other. -/
def sortRows (engine : Engine) (extent : Effect Rows) (type : String)
    (orders : List SortStep) (rows : Rows) : Effect Rows :=
  orders.foldlM (fun rows order => engine.sort extent type order (some rows)) rows

/-- Applies sort steps to the whole extent of a type and its subtypes. -/
def sortExtent (engine : Engine) (extent : Effect Rows) (type : String) :
    List SortStep → Effect Rows
  | [] => extent
  | order :: orders => do
    engine.sortRows extent type orders (← engine.sort extent type order none)

end Engine

end ExtentQuery

import ExtentQuery.Backend
import ExtentQuery.Sorting.RankedMerge
import ExtentQuery.Sorting.StableSort
import ExtentQuery.Store.Key

/-!
# The backend of the store

The reference backend answers every request from the store itself.

**Order of effects.**  A call is counted before anything else, also if it fails.  A store
that is told to fail does so next, and only then is the type looked up; set operations,
merges and the two shortcuts never fail this way.  An intersection or a difference
iterates its right operand first, because it looks the left one up in it.

**Order of entities.**  The listings of look-ups are in the order of identities.  An
intersection or a difference is so if its left operand is, and a union if both operands
are.
-/

namespace ExtentQuery.Backend.Memory

open Effect
open Sorting (sortRanked mergeRanked)

/-- A snapshot of some entities. -/
def snapshot (ids : List EntityId) (inIdOrder : Bool) : Effect Listing :=
  return ⟨← freshStamp, .snapshot inIdOrder, ids, none, ids.length⟩

/-- Fails if the store is told to. -/
def check : Effect Unit :=
  reading fun store =>
    match store.failure with
    | some message => .error (.backend message)
    | none => .ok ()

/-- The entities of a type whose records satisfy a condition. -/
def lookUp (call : Call) (type : String) (keep : Record → Bool) : Effect Listing := do
  countCall call
  check
  snapshot (← reading (·.scan type keep)) true

/-- The targets of a link of one entity; reading them is not counted. -/
def linkTargets (id : EntityId) (link : String) : Effect Listing := do
  snapshot (← reading (·.links id link)) false

/-- The entities of `source` with a link to any of `targets`. -/
def searchLinks (source targets : Listing) (link : String) : Effect (Option Listing) := do
  countCall .searchLinks
  if !(← get).store.searchesLinks then return none
  let wanted ← targets.collect
  let marked ← source.mapM fun id => do
    let record ← reading (·.record id)
    return (id, (record.targets link).any wanted.contains)
  return some (← snapshot ((marked.filter (·.2)).map (·.1)) source.inIdOrder)

/-- The call that a set operation counts as. -/
def callOf : SetOperation → Call
  | .inter => .inter
  | .union => .union
  | .diff => .diff
  | .concat => .concat

/-- The result of a set operation. -/
def combine (operation : SetOperation) (left right : Listing) : Effect Listing := do
  countCall (callOf operation)
  match operation with
  | .union =>
    let l ← left.collect
    let r ← right.collect
    if left.inIdOrder && right.inIdOrder then snapshot (SetOperation.unionById l r) true
    else snapshot (SetOperation.union.apply l r) false
  | .concat =>
    let l ← left.collect
    let r ← right.collect
    snapshot (SetOperation.concat.apply l r) false
  | restriction =>
    let r ← right.collect
    let l ← left.collect
    snapshot (restriction.apply l r) left.inIdOrder

/-- The entities of exactly one type, from a listing or from its whole extent. -/
def extentOf (type : String) : Option Listing → Effect (List EntityId)
  | none => reading (·.scan type fun _ => true)
  | some source => do
    let typeId ← reading (·.typeId type)
    return (← source.collect).filter fun id => id.typeId == typeId

/-- The entities of exactly one type sorted by a property. -/
def sortType (type property : String) (source : Option Listing) (ascending : Bool) :
    Effect Listing := do
  countCall .sort
  check
  let ids ← extentOf type source
  let sorted ← reading fun store =>
    sortRanked (Sorting.stablePositions .heavy) ((SortKey.property property).read store)
      ascending ids
  snapshot sorted false

/-- The position of an entity in a list; of several positions, the last one. -/
def rank? (ids : List EntityId) (id : EntityId) : Option Nat :=
  (ids.reverse.idxOf? id).map fun fromEnd => ids.length - 1 - fromEnd

/-- The least position among the ordered targets that a target of an entity has. -/
def firstRank (targets : List EntityId) (record : Record) (link : String) : Option Nat :=
  ((record.targets link).filterMap (rank? targets)).min?

/-- Orders entities that were given ranks: the ranked ones by rank, and those without a
rank behind them or, when descending, before them. -/
def arrangeRanked (ascending : Bool) (ranked : List (EntityId × Option Nat)) :
    List EntityId :=
  let linked := ranked.filterMap fun entry => entry.2.map fun rank => (rank, entry.1)
  let unlinked := (ranked.filter (·.2.isNone)).map (·.1)
  let sorted := (linked.mergeSort fun a b => a.1 ≤ b.1).map (·.2)
  if ascending then sorted ++ unlinked else unlinked ++ sorted

/-- The entities in the order of their targets. -/
def orderByTargets (request : TargetOrder) : Effect (Option Listing) := do
  countCall .orderByTargets
  if !(← get).store.ordersByTargets then return none
  let targets ← request.targets.collect
  let ranked ← request.source.mapM fun id => do
    let record ← reading (·.record id)
    return (id, firstRank targets record request.link)
  return some (← snapshot (arrangeRanked request.ascending ranked) false)

/-- Listings that are sorted by a key, merged into one. -/
def merge (listings : List Listing) (key : SortKey) (ascending : Bool) :
    Effect Listing := do
  countCall .merge
  listings.forM Listing.start
  let merged ← reading fun store =>
    mergeRanked (key.read store) ascending (listings.map Listing.items)
  snapshot merged false

end Memory

/-- The reference backend. -/
def memory : Backend where
  all type := Memory.lookUp .all type fun _ => true
  equal type property value := Memory.lookUp .equal type fun record =>
    (record.property property).any fun v => v.compare? value == some .eq
  startsWith type property start := Memory.lookUp .filter type fun record =>
    match record.property property with
    | some (.text s) => start.toList.isPrefixOf s.toList
    | _ => false
  between type property low high := Memory.lookUp .filter type fun record =>
    (record.property property).any fun v => v.within low high
  hasProperty type property := Memory.lookUp .filter type fun record =>
    (record.property property).isSome
  hasBlob type blob := Memory.lookUp .filter type fun record => record.hasBlob blob
  linkedTo type link target := Memory.lookUp .filter type fun record =>
    (record.targets link).contains target
  hasLink type link := Memory.lookUp .filter type fun record =>
    !(record.targets link).isEmpty
  linkTargets := Memory.linkTargets
  searchLinks := Memory.searchLinks
  combine := Memory.combine
  sortType := Memory.sortType
  orderByTargets := Memory.orderByTargets
  merge := Memory.merge

end ExtentQuery.Backend

import ExtentQuery.EntityId
import ExtentQuery.Fault
import ExtentQuery.Sorting.Runs
import ExtentQuery.Value

/-!
# Merging sorted listings of entities

The entities of several sources, each sorted by the same key, are merged into one list.
A source is a list of items to be read one after the other, and reading an item may
fault; so may reading the key of an entity.

**Order of reading.**  First the head of every source is read, from the first source to
the last.  After an entity has gone to the output, the next item of its source is read at
once.  The first fault in this order ends the merge.
-/

namespace ExtentQuery.Sorting

/-- Reads the sort key of an entity. -/
abbrev KeyReader := EntityId → Except Fault (Option Value)

/-- An entity with its sort key. -/
structure Ranked where
  key : Option Value
  id : EntityId
deriving DecidableEq, Inhabited

/-- A source whose head has been read. -/
structure Source where
  head : Option Ranked
  rest : List (Except Fault EntityId)

/-- Reads the head of a source. -/
def Source.read (key : KeyReader) : List (Except Fault EntityId) → Except Fault Source
  | [] => .ok ⟨none, []⟩
  | .error fault :: _ => .error fault
  | .ok id :: rest => return ⟨some ⟨← key id, id⟩, rest⟩

/-- Compares entities by their keys. -/
def Ranked.compare (ascending : Bool) (a b : Ranked) : Ordering :=
  Value.compareKeys ascending a.key b.key

/-- Takes the leading head `count` times, or until every source is at its end. -/
def takeRanked (key : KeyReader) (ascending : Bool) :
    (count : Nat) → List Source → Except Fault (List EntityId)
  | 0, _ => .ok []
  | count + 1, sources =>
    match leading (Ranked.compare ascending) (sources.map Source.head) with
    | none => .ok []
    | some (i, head) => do
      let next ← Source.read key ((sources[i]?.map Source.rest).getD [])
      return head.id :: (← takeRanked key ascending count (sources.set i next))

/-- Merges sources that are sorted by a key in a direction. -/
def mergeRanked (key : KeyReader) (ascending : Bool)
    (sources : List (List (Except Fault EntityId))) : Except Fault (List EntityId) := do
  let heads ← sources.mapM (Source.read key)
  takeRanked key ascending sources.flatten.length heads

/-- Sorts entities by a key with the comparisons that a method makes. -/
def sortRanked (positions : Nat → Comparison Nat → Option (List Nat)) (key : KeyReader)
    (ascending : Bool) (ids : List EntityId) : Except Fault (List EntityId) := do
  let keys := (← ids.mapM key).toArray
  let items := ids.toArray
  let cmp : Comparison Nat := fun i j =>
    Value.compareKeys ascending (keys[i]?.join) (keys[j]?.join)
  match positions ids.length cmp with
  | some order => return order.filterMap (items[·]?)
  | none => throw .inconsistentOrder

end ExtentQuery.Sorting

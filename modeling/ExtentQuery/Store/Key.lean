import ExtentQuery.Store
import ExtentQuery.SortStep

/-!
# Reading sort keys

What a `SortKey` reads from an entity of a store.

**Several targets.**  A key behind a link with several targets is the value that comes
first in the direction of the key.  Targets without the property do not count, so an
entity all of whose targets lack it has no key, like an entity without targets.
-/

namespace ExtentQuery

/-- Whether one value comes before another in a direction. -/
def Value.precedes (ascending : Bool) (a b : Value) : Bool :=
  a.sortCompare b == (if ascending then .lt else .gt)

/-- The value that comes first in a direction; of equal ones, the earliest. -/
def Value.first (ascending : Bool) : Option Value → List Value → Option Value
  | best, [] => best
  | none, v :: rest => first ascending (some v) rest
  | some best, v :: rest =>
    first ascending (some (if v.precedes ascending best then v else best)) rest

/-- An integer negated; the other values as they are. -/
def Value.negated : Value → Value
  | .int n => .int (-n)
  | v => v

namespace SortKey

/-- Reads a key of an entity. -/
def read (store : Store) : SortKey → EntityId → Except Fault (Option Value)
  | property name, id => store.property id name
  | linkedProperty name link ascending, id => do
    let targets ← store.links id link
    let values ← targets.mapM (store.property · name)
    return Value.first ascending none (values.filterMap fun v => v)
  | negatedProperty name, id => return (← store.property id name).map Value.negated
  | localId, id => .ok (some (.int (Int64.ofNat id.localId)))
  | absent, _ => .ok none
  | failing message, _ => .error (.backend message)

end SortKey

end ExtentQuery

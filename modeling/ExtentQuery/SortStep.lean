import ExtentQuery.EntityId
import ExtentQuery.Text.Counted

/-!
# Sort orders

One step of a sort names what an entity is ranked by and in which direction.

* `SortStep.property` ranks by a property of the entity itself;
* `SortStep.linkedProperty` ranks by a property of the entities behind a link;
* `SortStep.key` ranks by a `SortKey` that the caller supplies.

**Supplied keys have an identity of their own.**  Two supplied keys are the same only if
they carry the same number, whatever they compute and in whichever direction they sort.
A query that is sorted by one is therefore never remembered: its canonical text would
have to stand for the computation, and it stands for the number only.
-/

namespace ExtentQuery

/-- What a supplied key reads from an entity. -/
inductive SortKey where
  /-- A property of the entity. -/
  | property (name : String)
  /-- A property of the entities behind a link; of several values, the one that comes
  first in the given direction. -/
  | linkedProperty (name link : String) (ascending : Bool)
  /-- A property of the entity, integers negated. -/
  | negatedProperty (name : String)
  /-- The number of the entity within its type. -/
  | localId
  /-- No key at all. -/
  | absent
  /-- A read that always fails with this message. -/
  | failing (message : String)
deriving DecidableEq, Repr, Inhabited

/-- Key and direction of one sort step. -/
inductive SortStep where
  /-- By a property of the entity. -/
  | property (name : String) (ascending : Bool)
  /-- By a property of the entities, of the type `targetType`, behind `link`. -/
  | linkedProperty (targetType property link : String) (ascending : Bool)
  /-- By a supplied key, identified by its number. -/
  | key (number : Nat) (label : String) (key : SortKey) (ascending : Bool)
deriving DecidableEq, Repr, Inhabited

namespace SortStep

/-- The direction of the step. -/
def ascending : SortStep → Bool
  | property _ asc => asc
  | linkedProperty _ _ _ asc => asc
  | key _ _ _ asc => asc

/-- Whether a query sorted this way may be remembered under its canonical text. -/
def cacheable : SortStep → Bool
  | key .. => false
  | _ => true

/-- Equality of steps; supplied keys are compared by their number alone. -/
def same : SortStep → SortStep → Bool
  | property name asc, property name' asc' => name == name' && asc == asc'
  | linkedProperty type prop link asc, linkedProperty type' prop' link' asc' =>
    type == type' && prop == prop' && link == link' && asc == asc'
  | key number .., key number' .. => number == number'
  | _, _ => false

/-- The direction as canonical texts write it. -/
def direction (ascending : Bool) : String :=
  if ascending then "asc" else "desc"

/-- The part of a query's canonical text that writes a sort step. -/
def canonical : SortStep → String
  | property name asc => "p:" ++ direction asc ++ ":" ++ Text.counted name
  | linkedProperty type prop link asc =>
    "l:" ++ direction asc ++ ":" ++ Text.counted type ++ Text.counted prop ++ Text.counted link
  | key number _ _ asc => "g:" ++ direction asc ++ ":" ++ toString number

end SortStep

end ExtentQuery

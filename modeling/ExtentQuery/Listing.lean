import ExtentQuery.State

/-!
# Listings

A listing is a sequence of entities that a backend hands out.  It can be iterated any
number of times, and it was fixed when it was made: later changes of the store do not
show in it.

* `Listing` — the sequence, with what is known about it without iterating it;
* `Listing.collect`, `Listing.mapM`, `Listing.foldM` — one iteration over it;
* `Listing.size`, `Listing.isEmpty` — questions that may cost an iteration.

**Iterations are counted** by the store that the listing comes from.  Some listings
answer their size without being iterated (`Listing.knowsSize`), the others are iterated
to find it out.

**A listing may end in a fault.**  The fault comes after the last entity, so whoever
reads the first few entities does not meet it.
-/

namespace ExtentQuery

/-- Where a listing comes from. -/
inductive Listing.Origin where
  /-- Taken by the store itself; such a listing knows its size, and whether it is in the
  order of identities. -/
  | snapshot (inIdOrder : Bool)
  /-- Taken by the store and handed on by someone who can only iterate it. -/
  | view
  /-- Made outside the store. -/
  | standalone
deriving DecidableEq, Repr, Inhabited

/-- A sequence of entities handed out by a backend. -/
structure Listing where
  /-- Tells this listing from every other one. -/
  stamp : Nat
  origin : Listing.Origin
  ids : List EntityId
  /-- The fault in which an iteration ends, if it does. -/
  failure : Option Fault
  /-- A guess at the size that costs nothing. -/
  rough : Nat
deriving DecidableEq, Repr, Inhabited

namespace Listing

/-- Whether the entities are known to be in the order of their identities. -/
def inIdOrder (listing : Listing) : Bool :=
  match listing.origin with
  | .snapshot sorted => sorted
  | _ => false

/-- Whether the size is known without an iteration. -/
def knowsSize (listing : Listing) : Bool :=
  match listing.origin with
  | .snapshot _ => true
  | _ => false

/-- Starts an iteration. -/
def start (listing : Listing) : Effect Unit :=
  match listing.origin with
  | .standalone => pure ()
  | _ => Effect.countCall .iteration

/-- Ends an iteration. -/
def finish (listing : Listing) : Effect Unit :=
  match listing.failure with
  | none => pure ()
  | some fault => throw fault

/-- Iterates a listing to its end. -/
def collect (listing : Listing) : Effect (List EntityId) := do
  listing.start
  listing.finish
  return listing.ids

/-- Iterates a listing and computes something from each entity. -/
def mapM {α : Type} (listing : Listing) (f : EntityId → Effect α) : Effect (List α) := do
  listing.start
  let results ← listing.ids.mapM f
  listing.finish
  return results

/-- Iterates a listing and carries a result along. -/
def foldM {α : Type} (listing : Listing) (f : α → EntityId → Effect α) (a : α) :
    Effect α := do
  listing.start
  let result ← listing.ids.foldlM f a
  listing.finish
  return result

/-- The items that an iteration meets: the entities, and the fault at the end. -/
def items (listing : Listing) : List (Except Fault EntityId) :=
  listing.ids.map .ok ++ (listing.failure.map .error).toList

/-- The first `count` entities, or the fault met among them. -/
def take (listing : Listing) (count : Nat) : Effect (List EntityId) := do
  listing.start
  Effect.ofExcept ((listing.items.take count).mapM id)

/-- The number of entities. -/
def size (listing : Listing) : Effect Nat := do
  if listing.knowsSize then return listing.ids.length
  return (← listing.collect).length

/-- Whether there is no entity. -/
def isEmpty (listing : Listing) : Effect Bool := do
  if listing.knowsSize then return listing.ids.isEmpty
  return (← listing.take 1).isEmpty

end Listing

end ExtentQuery

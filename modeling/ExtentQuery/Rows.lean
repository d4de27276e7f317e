import ExtentQuery.Listing

/-!
# Rows

The answer of an evaluated query: nothing, a listing of the backend, or a list of
entities that was computed in memory.

**Nothing is known to be nothing.**  `Rows.empty` is told from a listing that happens to
have no entity, because an operation can take a shortcut on the first but has to iterate
the second.  A list in memory is never without entities (`Rows.ofIds`).
-/

namespace ExtentQuery

/-- The entities that answer a query. -/
inductive Rows where
  /-- Known to be none. -/
  | empty
  /-- Listed by the backend. -/
  | native (listing : Listing)
  /-- Computed in memory. -/
  | computed (stamp : Nat) (ids : List EntityId)
deriving DecidableEq, Repr, Inhabited

namespace Rows

/-- The rows of a list of entities. -/
def ofIds : List EntityId → Effect Rows
  | [] => pure empty
  | ids => return computed (← Effect.freshStamp) ids

/-- Whether there are known to be none. -/
def knownEmpty : Rows → Bool
  | empty => true
  | _ => false

/-- Whether the entities are known to be in the order of their identities. -/
def inIdOrder : Rows → Bool
  | empty => true
  | native listing => listing.inIdOrder
  | computed .. => false

/-- The entities. -/
def collect : Rows → Effect (List EntityId)
  | empty => pure []
  | native listing => listing.collect
  | computed _ ids => pure ids

/-- Iterates the entities and computes something from each. -/
def mapM {α : Type} (f : EntityId → Effect α) : Rows → Effect (List α)
  | empty => pure []
  | native listing => listing.mapM f
  | computed _ ids => ids.mapM f

/-- Iterates the entities and carries a result along. -/
def foldM {α : Type} (f : α → EntityId → Effect α) (a : α) : Rows → Effect α
  | empty => pure a
  | native listing => listing.foldM f a
  | computed _ ids => ids.foldlM f a

/-- The first `count` entities. -/
def take (count : Nat) : Rows → Effect (List EntityId)
  | empty => pure []
  | native listing => listing.take count
  | computed _ ids => pure (ids.take count)

/-- The number of entities. -/
def size : Rows → Effect Nat
  | empty => pure 0
  | native listing => listing.size
  | computed _ ids => pure ids.length

/-- Whether there is no entity. -/
def isEmpty : Rows → Effect Bool
  | empty => pure true
  | native listing => listing.isEmpty
  | computed _ ids => pure ids.isEmpty

/-- A guess at the number of entities that costs nothing. -/
def rough : Rows → Nat
  | empty => 0
  | native listing => listing.rough
  | computed _ ids => ids.length

/-- Whether two are the very same rows; it does not matter what they contain. -/
def same : Rows → Rows → Bool
  | empty, empty => true
  | native a, native b => a.stamp == b.stamp
  | computed a _, computed b _ => a == b
  | _, _ => false

end Rows

end ExtentQuery

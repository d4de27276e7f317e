/-!
# Faults

Everything that can go wrong while queries are matched, rewritten and answered, as one
type with a constructor for each cause.  The wording of a fault lives in
`Fault.message` alone.

The first three faults come from the store and reach the caller unchanged.  The others
are breaches of contract by whoever built a query, a rule or a cache: a child that a node
does not have, a rule whose source has too many orientations or whose destination uses a
slot that the source never bound, a pattern placeholder handed over for evaluation, sort
keys whose comparison contradicts itself, a cache beyond the address space, and a
hierarchy of types without an end.
-/

namespace ExtentQuery

/-- Reason why a query could not be matched, rewritten or answered. -/
inductive Fault where
  /-- The entity does not exist. -/
  | notFound
  /-- The store knows no such entity type. -/
  | unknownType (name : String)
  /-- The store failed to read. -/
  | backend (message : String)
  /-- A node with this tag has no child at this index. -/
  | missingChild (tag : String) (index : Nat)
  /-- The destination of a rule uses a slot that its source did not bind. -/
  | unboundSlot (slot : Nat)
  /-- The source of a rule has more commuting nodes than can be numbered. -/
  | tooManyOrientations
  /-- A placeholder, given by its canonical text, stands where a query is evaluated. -/
  | placeholder (canonical : String)
  /-- The comparison of sort keys is not that of an order. -/
  | inconsistentOrder
  /-- A cache with more shards than there is room for. -/
  | tooManyShards
  /-- A cache whose shards have more entries than there is room for. -/
  | shardTooLarge
  /-- Queries nested in one another, or subtypes below one another, without an end. -/
  | endlessDescent
deriving DecidableEq, Repr, Inhabited

/-- The wording of a fault. -/
def Fault.message : Fault → String
  | notFound => "not found"
  | unknownType name => "unknown entity type '" ++ name ++ "'"
  | backend message => "backend: " ++ message
  | missingChild tag index => tag ++ " node has no child at index " ++ toString index
  | unboundSlot slot => "rewrite destination uses unbound wildcard slot " ++ toString slot
  | tooManyOrientations => "attempt to shift left with overflow"
  | placeholder canonical => "pattern placeholder " ++ canonical ++ " cannot be instantiated"
  | inconsistentOrder =>
    "user-provided comparison function does not correctly implement a total order"
  | tooManyShards => "capacity overflow"
  | shardTooLarge => "Hash table capacity overflow"
  | endlessDescent => "the evaluation descends without an end"

/-- What a computation in two steps that succeeds has gone through. -/
theorem exists_of_bind_eq_ok {α β : Type} {x : Except Fault α} {f : α → Except Fault β} {b : β}
    (found : x >>= f = .ok b) : ∃ a, x = .ok a ∧ f a = .ok b := by
  cases x with
  | error => cases found
  | ok a => exact ⟨a, rfl, found⟩

end ExtentQuery

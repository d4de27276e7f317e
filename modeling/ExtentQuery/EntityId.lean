/-!
# Entity identities

A stored entity is identified by its concrete type and a number within that type.  The
order of identities — type first, number second — is the order in which a store lists
the extent of a type, and the order that a listing sorted by identity promises.
-/

namespace ExtentQuery

/-- Identity of a stored entity. -/
structure EntityId where
  /-- Number of the concrete type, in order of registration. -/
  typeId : Nat
  /-- Number of the entity within its type. -/
  localId : Nat
deriving DecidableEq, Repr, Inhabited

namespace EntityId

/-- Type first, number within the type second. -/
def compare (a b : EntityId) : Ordering :=
  (Ord.compare a.typeId b.typeId).then (Ord.compare a.localId b.localId)

instance : Ord EntityId := ⟨EntityId.compare⟩

/-- The written form: both numbers with a hyphen between them. -/
def text (id : EntityId) : String :=
  toString id.typeId ++ "-" ++ toString id.localId

instance : ToString EntityId := ⟨text⟩

end EntityId

end ExtentQuery

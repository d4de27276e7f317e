import ExtentQuery.Metadata

/-!
# Schemas

A schema is built up by registering facts one by one, and `Schema.metadata` answers from
what was registered.

**Inheritance.**  A link or a blob that is registered for a type also applies to its
subtypes.  It is looked up along the chain of parents (`Schema.ancestors`), which follows
the parent that was registered first and stops where it would repeat a type.

**Registering again.**  A link that is registered twice keeps the latest far end.  A
subtype that is registered twice below one parent is listed twice.
-/

namespace ExtentQuery

/-- Registered facts about types. -/
structure Schema where
  /-- Pairs of a parent and a direct subtype, in order of registration. -/
  subtypes : List (String × String)
  /-- Far ends by type and link, the latest registration first. -/
  associations : List ((String × String) × Association)
  /-- Types and properties that are stored as blobs. -/
  blobs : List (String × String)
deriving DecidableEq, Inhabited

namespace Schema

/-- A schema without facts. -/
def empty : Schema := ⟨[], [], []⟩

/-- Registers a direct subtype. -/
def addSubtype (s : Schema) (parent child : String) : Schema :=
  { s with subtypes := s.subtypes ++ [(parent, child)] }

/-- Registers the far end of a link. -/
def addAssociation (s : Schema) (type link : String) (far : Association) : Schema :=
  { s with associations := ((type, link), far) :: s.associations }

/-- Registers a link that does not lead back. -/
def addLink (s : Schema) (type link target : String) (cardinality : Cardinality) : Schema :=
  s.addAssociation type link ⟨target, cardinality, none⟩

/-- Registers two links that lead back along one another, the near one first. -/
def addPair (s : Schema) (near : String × String × Cardinality)
    (far : String × String × Cardinality) : Schema :=
  let (nearType, nearLink, nearCardinality) := near
  let (farType, farLink, farCardinality) := far
  (s.addAssociation nearType nearLink ⟨farType, nearCardinality, some farLink⟩).addAssociation
    farType farLink ⟨nearType, farCardinality, some nearLink⟩

/-- Registers a property as a blob. -/
def addBlob (s : Schema) (type property : String) : Schema :=
  { s with blobs := (type, property) :: s.blobs }

/-- The direct subtypes of a type, in order of registration. -/
def childrenOf (s : Schema) (type : String) :
    List { name : String // name ∈ s.subtypes.map (·.2) } :=
  (s.subtypes.attach.filter (·.1.1 = type)).map fun pair =>
    ⟨pair.1.2, List.mem_map_of_mem pair.2⟩

/-- The parent of a type that was registered first. -/
def parentOf (s : Schema) (type : String) : Option String :=
  (s.subtypes.find? (·.2 = type)).map (·.1)

/-- Continues a chain of parents.  A chain cannot be longer than the list of registered
pairs, because it never repeats a parent. -/
def ancestorsFrom (s : Schema) (type : String) : (fuel : Nat) → (current : String) →
    (chain : List String) → List String
  | 0, _, chain => chain
  | fuel + 1, current, chain =>
    match s.parentOf current with
    | none => chain
    | some parent =>
      if parent ∈ chain ∨ parent = type then chain
      else s.ancestorsFrom type fuel parent (chain ++ [parent])

/-- The parent of a type, the parent of that parent, and so on. -/
def ancestors (s : Schema) (type : String) : List String :=
  s.ancestorsFrom type s.subtypes.length type []

/-- The far end of a link, registered for a type or for one of its ancestors. -/
def association (s : Schema) (type link : String) : Option Association :=
  (type :: s.ancestors type).findSome? fun owner => s.associations.lookup (owner, link)

/-- A property is a blob if it is registered as one for a type or for one of its
ancestors. -/
def storage (s : Schema) (type property : String) : PropertyStorage :=
  if (type :: s.ancestors type).any fun owner => s.blobs.contains (owner, property) then .blob
  else .primitive

/-- The facts that a schema knows. -/
def metadata (s : Schema) : Metadata where
  subtypeNames := s.subtypes.map (·.2)
  subtypes := s.childrenOf
  association := s.association
  storage := s.storage

end Schema

end ExtentQuery

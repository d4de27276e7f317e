import ExtentQuery.EntityId
import ExtentQuery.Fault
import ExtentQuery.Value

/-!
# The entity store

A store holds a table for each registered entity type, and a table holds the records of
its entities.  Both are numbered by position, so an `EntityId` is a pair of positions and
the entities of one table, read from front to back, are in the order of their identities.

* `Record` — the properties, blobs and links of one entity;
* `Table`, `Store` — the records of a type, and the tables;
* `Store.register`, `Store.create`, `Store.setProperty`, `Store.setBlob`,
  `Store.addLink` — what changes a store;
* `Store.property`, `Store.link`, `Store.links`, `Store.scan` — what reads it.

**Links have one direction.**  Adding a link changes the record of its source only.  The
target has to exist, and so has the source; an entity is never removed, so a link never
loses its target.

**Switches.**  A store can be told to fail, and to do without two capabilities that a
backend may lack (`searchesLinks`, `ordersByTargets`).  The switches do not affect the readers in
this module; what reads through a backend observes them.
-/

namespace ExtentQuery

/-- What is stored about an entity. -/
structure Record where
  properties : List (String × Value)
  blobs : List String
  links : List (String × List EntityId)
deriving DecidableEq, Repr, Inhabited

namespace Record

/-- A record without properties, blobs and links. -/
def empty : Record := ⟨[], [], []⟩

/-- The value of a property. -/
def property (record : Record) (name : String) : Option Value :=
  record.properties.lookup name

/-- Whether the entity has a blob. -/
def hasBlob (record : Record) (name : String) : Bool :=
  record.blobs.contains name

/-- The targets of a link, in the order in which they were added. -/
def targets (record : Record) (link : String) : List EntityId :=
  (record.links.lookup link).getD []

/-- Sets a property. -/
def setProperty (record : Record) (name : String) (value : Value) : Record :=
  { record with
    properties := (name, value) :: record.properties.filter fun entry => entry.1 != name }

/-- Adds a blob. -/
def setBlob (record : Record) (name : String) : Record :=
  if record.hasBlob name then record else { record with blobs := name :: record.blobs }

/-- Adds a target at the end of a link. -/
def addTarget (record : Record) (link : String) (target : EntityId) : Record :=
  { record with
    links := (link, record.targets link ++ [target])
      :: record.links.filter fun entry => entry.1 != link }

end Record

/-- The records of the entities of one type. -/
structure Table where
  typeName : String
  records : Array Record
deriving DecidableEq, Repr, Inhabited

/-- An entity store. -/
structure Store where
  tables : Array Table
  /-- The message with which reads of extents fail, if they are to fail. -/
  failure : Option String
  /-- Whether the store can find the entities that are linked to given ones. -/
  searchesLinks : Bool
  /-- Whether the store can order entities by their targets. -/
  ordersByTargets : Bool
deriving DecidableEq, Repr, Inhabited

namespace Store

/-- A store without types. -/
def empty : Store := ⟨#[], none, true, true⟩

/-! ### Types and entities -/

/-- The number of a type. -/
def typeId? (store : Store) (type : String) : Option Nat :=
  store.tables.findIdx? fun table => table.typeName == type

/-- The number of a type, or a fault. -/
def typeId (store : Store) (type : String) : Except Fault Nat :=
  match store.typeId? type with
  | some id => .ok id
  | none => .error (.unknownType type)

/-- Registers a type, unless it is registered already, and answers its number. -/
def register (store : Store) (type : String) : Nat × Store :=
  match store.typeId? type with
  | some id => (id, store)
  | none => (store.tables.size, { store with tables := store.tables.push ⟨type, #[]⟩ })

/-- Creates an entity of a type, which is registered if need be. -/
def create (store : Store) (type : String) : EntityId × Store :=
  let (typeId, registered) := store.register type
  let localId := (registered.tables[typeId]?.map (·.records.size)).getD 0
  (⟨typeId, localId⟩,
    { registered with
      tables := registered.tables.modify typeId fun table =>
        { table with records := table.records.push .empty } })

/-- The record of an entity, if there is one. -/
def record? (store : Store) (id : EntityId) : Option Record := do
  (← store.tables[id.typeId]?).records[id.localId]?

/-- The record of an entity, or a fault. -/
def record (store : Store) (id : EntityId) : Except Fault Record :=
  match store.record? id with
  | some record => .ok record
  | none => .error .notFound

/-- Changes the record of an entity. -/
def update (store : Store) (id : EntityId) (change : Record → Record) :
    Except Fault Store := do
  let record ← store.record id
  return { store with
    tables := store.tables.modify id.typeId fun table =>
      { table with records := table.records.setIfInBounds id.localId (change record) } }

/-- Sets a property of an entity. -/
def setProperty (store : Store) (id : EntityId) (name : String) (value : Value) :
    Except Fault Store :=
  store.update id (·.setProperty name value)

/-- Gives an entity a blob. -/
def setBlob (store : Store) (id : EntityId) (name : String) : Except Fault Store :=
  store.update id (·.setBlob name)

/-- Adds a target to a link of an entity. -/
def addLink (store : Store) (id : EntityId) (link : String) (target : EntityId) :
    Except Fault Store := do
  let _ ← store.record target
  store.update id (·.addTarget link target)

/-- Number of types. -/
def typeCount (store : Store) : Nat := store.tables.size

/-- Number of entities. -/
def entityCount (store : Store) : Nat :=
  store.tables.foldl (fun count table => count + table.records.size) 0

/-! ### Reading -/

/-- The value of a property of an entity. -/
def property (store : Store) (id : EntityId) (name : String) : Except Fault (Option Value) :=
  return (← store.record id).property name

/-- The targets of a link of an entity. -/
def links (store : Store) (id : EntityId) (link : String) : Except Fault (List EntityId) :=
  return (← store.record id).targets link

/-- The first target of a link of an entity. -/
def link (store : Store) (id : EntityId) (link : String) : Except Fault (Option EntityId) :=
  return (← store.links id link).head?

/-- The entities of one table whose records satisfy a condition. -/
def scanTable (typeId : Nat) (table : Table) (keep : Record → Bool) : List EntityId :=
  (table.records.toList.zipIdx.filter fun entry => keep entry.1).map fun entry =>
    ⟨typeId, entry.2⟩

/-- The entities of exactly one type whose records satisfy a condition, in the order of
their identities. -/
def scan (store : Store) (type : String) (keep : Record → Bool) :
    Except Fault (List EntityId) := do
  let typeId ← store.typeId type
  return (store.tables[typeId]?.map (scanTable typeId · keep)).getD []

end Store

end ExtentQuery

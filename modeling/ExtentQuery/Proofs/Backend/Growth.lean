import ExtentQuery.Proofs.Caching.Entries
import ExtentQuery.Proofs.Evaluation.Faults
import ExtentQuery.Proofs.Evaluation.Traces

/-!
# What changes of a store keep

A store only grows: types and entities are added, and what is known about an entity changes, but
none is removed.  A link is added only to a target that exists, so the targets of all links exist
at any time.

* `Store.record?_register`, `Store.record?_create`, `Store.record?_update` — which records there
  are after a change;
* `Store.Grows`, `Store.Closed` — stores one of which has all entities of the other, and stores
  whose links lead to entities;
* `Change`, `Change.closed`, `Change.grows` — the changes of a store, whether they succeed or
  fault, and what they keep.
-/

namespace ExtentQuery

open Effect

namespace Store

variable {store store' : Store} {id : EntityId} {change : Record → Record}

/-! ### Records -/

theorem record?_eq (store : Store) (id : EntityId) :
    store.record? id = store.tables[id.typeId]?.bind (·.records[id.localId]?) :=
  rfl

/-- A new type has no entities. -/
theorem record?_register (store : Store) (type : String) (id : EntityId) :
    (store.register type).2.record? id = store.record? id := by
  unfold register
  split
  case h_1 => rfl
  case h_2 =>
    simp only [record?_eq, Array.getElem?_push]
    split
    case isTrue last => simp [last]
    case isFalse => rfl

/-- The number of a registered type belongs to a table. -/
theorem exists_table_register (store : Store) (type : String) :
    ∃ table, (store.register type).2.tables[(store.register type).1]? = some table := by
  unfold register
  split
  case h_1 number found =>
    obtain ⟨inside, -⟩ := Array.findIdx?_eq_some_iff_getElem.mp found
    exact ⟨_, Array.getElem?_eq_getElem inside⟩
  case h_2 => exact ⟨_, Array.getElem?_push_size⟩

/-- One entity is added, without properties, blobs and links. -/
theorem record?_create (store : Store) (type : String) (id : EntityId) :
    (store.create type).2.record? id
      = if id = (store.create type).1 then some .empty else store.record? id := by
  obtain ⟨table, here⟩ := store.exists_table_register type
  obtain ⟨typeId, localId⟩ := id
  rw [← store.record?_register type]
  simp only [create, record?_eq, Array.getElem?_modify, here, Option.map_some, Option.getD_some,
    EntityId.mk.injEq]
  -- within the table of the type, the new entity comes behind the last one
  by_cases sameType : (store.register type).1 = typeId
  · subst sameType
    simp only [here, if_true, true_and, Option.map_some, Option.bind_some, Array.getElem?_push]
  · rw [if_neg sameType, if_neg fun same => sameType same.1.symm]

/-- The record of one entity is changed. -/
theorem record?_update (changed : store.update id change = .ok store') :
    ∃ record, store.record? id = some record ∧
      ∀ other, store'.record? other
        = if other = id then some (change record) else store.record? other := by
  unfold update at changed
  cases read : store.record id with
  | error fault =>
    rw [read] at changed
    cases changed
  | ok record =>
    rw [read] at changed
    cases changed
    have found := record_eq_ok.mp read
    refine ⟨record, found, fun ⟨typeId, localId⟩ => ?_⟩
    obtain ⟨table, here, at_local⟩ := Option.bind_eq_some_iff.mp found
    obtain ⟨inside, -⟩ := Array.getElem?_eq_some_iff.mp at_local
    obtain ⟨typeId', localId'⟩ := id
    simp only [record?_eq, Array.getElem?_modify, EntityId.mk.injEq]
    by_cases sameType : typeId' = typeId
    · subst sameType
      simp only [here, if_true, true_and, Option.map_some, Option.bind_some,
        Array.getElem?_setIfInBounds, inside, eq_comm (a := localId')]
    · rw [if_neg sameType, if_neg fun same => sameType same.1.symm]

/-! ### Growth -/

/-- Whether a store has all entities of another one. -/
def Grows (store store' : Store) : Prop :=
  ∀ id, store.Exists id → store'.Exists id

theorem Grows.refl (store : Store) : store.Grows store :=
  fun _ existing => existing

/-- Whether the targets of all links exist. -/
def Closed (store : Store) : Prop :=
  ∀ ⦃id record⦄, store.record? id = some record →
    ∀ link, ∀ target ∈ record.targets link, store.Exists target

theorem closed_empty : empty.Closed :=
  fun _ _ found => nomatch found

theorem grows_register (store : Store) (type : String) : store.Grows (store.register type).2 := by
  intro id existing
  rwa [Exists, record?_register]

theorem Closed.register (closed : store.Closed) (type : String) :
    (store.register type).2.Closed := by
  intro id record found link target mem
  rw [record?_register] at found
  exact store.grows_register type target (closed found link target mem)

theorem grows_create (store : Store) (type : String) : store.Grows (store.create type).2 := by
  intro id existing
  rw [Exists, record?_create]
  split
  · rfl
  · exact existing

theorem Closed.create (closed : store.Closed) (type : String) : (store.create type).2.Closed := by
  intro id record found link target mem
  rw [record?_create] at found
  split at found
  case isTrue =>
    cases found
    cases mem
  case isFalse => exact store.grows_create type target (closed found link target mem)

theorem grows_update (changed : store.update id change = .ok store') : store.Grows store' := by
  obtain ⟨record, -, records⟩ := record?_update changed
  intro other existing
  rw [Exists, records]
  split
  · rfl
  · exact existing

/-- A change of a record keeps a store closed, if it adds links to entities only. -/
theorem Closed.update (closed : store.Closed) (changed : store.update id change = .ok store')
    (targets : ∀ record : Record, ∀ link, ∀ target ∈ (change record).targets link,
      target ∈ record.targets link ∨ store.Exists target) : store'.Closed := by
  obtain ⟨record, before, records⟩ := record?_update changed
  intro other record' found link target mem
  refine grows_update changed target ?_
  rw [records] at found
  split at found
  case isTrue =>
    cases found
    exact (targets record link target mem).elim (closed before link target) fun existing => existing
  case isFalse => exact closed found link target mem

end Store

/-- Adding a target to a link leaves the other links as they are. -/
theorem Record.mem_targets_addTarget {record : Record} {link link' : String}
    {target added : EntityId}
    (mem : target ∈ (record.addTarget link added).targets link') :
    target ∈ record.targets link' ∨ target = added := by
  by_cases same : link' = link
  · subst same
    simp only [targets, addTarget, List.lookup_cons_self, Option.getD_some, List.mem_append,
      List.mem_singleton] at mem
    exact mem
  · left
    simpa only [targets, addTarget, List.lookup_cons, beq_false_of_ne same,
      Cache.Recent.lookup_filter_ne same] using mem

/-! ### Changes -/

/-- What changes a store. -/
inductive Change where
  | register (type : String)
  | create (type : String)
  | setProperty (id : EntityId) (name : String) (value : Value)
  | setBlob (id : EntityId) (name : String)
  | addLink (id : EntityId) (link : String) (target : EntityId)
  /-- The store is told to fail with a message, or not to fail. -/
  | failWith (message : Option String)
  /-- The store is told which of the shortcuts it knows. -/
  | support (searchesLinks ordersByTargets : Bool)

namespace Change

/-- Performs a change; the number of a type and the identity of an entity are dropped. -/
def perform : Change → Effect Unit
  | register type => changing fun store => ((), (store.register type).2)
  | create type => changing fun store => ((), (store.create type).2)
  | setProperty id name value => attempting (·.setProperty id name value)
  | setBlob id name => attempting (·.setBlob id name)
  | addLink id link target => attempting (·.addLink id link target)
  | failWith message => changing fun store => ((), { store with failure := message })
  | support searchesLinks ordersByTargets =>
    changing fun store => ((), { store with searchesLinks, ordersByTargets })

/-- What holds of a store and of everything that a change may make of it holds after the change is
attempted, whether it succeeds or faults. -/
theorem keeps_attempting {P : Store → Prop} {change : Store → Except Fault Store} {s : State}
    (before : P s.store) (after : ∀ store, change s.store = .ok store → P store) :
    P (final (attempting change) s).store := by
  cases changed : change s.store with
  | error fault =>
    simp only [final, attempting, reading, bind, EStateM.bind, get, getThe, MonadStateOf.get,
      EStateM.get, changed]
    exact before
  | ok store =>
    simp only [final, attempting, reading, bind, EStateM.bind, get, getThe, MonadStateOf.get,
      EStateM.get, changed]
    exact after store changed

/-- A link is added between entities that exist. -/
theorem update_of_addLink {store store' : Store} {id target : EntityId} {link : String}
    (changed : store.addLink id link target = .ok store') :
    store.Exists target ∧ store.update id (·.addTarget link target) = .ok store' := by
  unfold Store.addLink at changed
  cases read : store.record target with
  | error fault =>
    rw [read] at changed
    cases changed
  | ok record =>
    rw [read] at changed
    exact ⟨Option.isSome_iff_exists.mpr ⟨record, Store.record_eq_ok.mp read⟩, changed⟩

/-- No change removes an entity, whether it succeeds or faults. -/
theorem grows (change : Change) (s : State) : s.store.Grows (final change.perform s).store := by
  have here := Store.Grows.refl s.store
  cases change with
  | register type => exact s.store.grows_register type
  | create type => exact s.store.grows_create type
  | setProperty | setBlob => exact keeps_attempting here fun _ => Store.grows_update
  | addLink =>
    exact keeps_attempting here fun _ changed => Store.grows_update (update_of_addLink changed).2
  | failWith | support => exact here

/-- No change leads a link to an entity that does not exist. -/
theorem closed (change : Change) {s : State} (closed : s.store.Closed) :
    (final change.perform s).store.Closed := by
  cases change with
  | register type => exact closed.register type
  | create type => exact closed.create type
  | setProperty =>
    exact keeps_attempting closed fun _ changed =>
      closed.update changed fun _ _ _ mem => .inl mem
  | setBlob =>
    refine keeps_attempting closed fun _ changed =>
      closed.update changed fun record link target mem => ?_
    rw [Record.setBlob] at mem
    split at mem
    · exact .inl mem
    · exact .inl mem
  | addLink =>
    refine keeps_attempting closed fun _ changed => ?_
    obtain ⟨existing, changed⟩ := update_of_addLink changed
    refine closed.update changed fun record link target mem => ?_
    rcases Record.mem_targets_addTarget mem with before | rfl
    · exact .inl before
    · exact .inr existing
  | failWith | support => exact closed

end Change

end ExtentQuery

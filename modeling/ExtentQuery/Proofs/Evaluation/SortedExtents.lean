import ExtentQuery.Metadata.Schema
import ExtentQuery.Proofs.Evaluation.Faults

/-!
# Sorting a whole extent

The whole extent of a type, sorted by a property, has the entities of the type and of all
types below it, and no others.  The walk over the hierarchy does not remember which types it
has seen, so an entity is listed once for each chain of subtypes that leads to its type.

* `Store.count_parts_none` — how often the parts of the whole extent have an entity;
* `Session.extent_sorted` — what a sorted extent lists, and in which faults the sort can end;
* `Session.extent_repeats` — the entities of a subtype that is registered twice are listed twice.

**Unlike the closure.**  `Metadata.closure`, which looks for the same types, does remember what
it has seen.
-/

namespace ExtentQuery

open Effect

/-- The parts of the whole extent have an entity as often as its type is listed. -/
theorem Store.count_parts_none {store : Store} {type : String} {id : EntityId} {record : Record}
    (has : store.Has type id record) (names : List String) :
    (names.flatMap (store.part none)).count id = names.count type := by
  induction names with
  | nil => rfl
  | cons name names ih =>
    rw [List.flatMap_cons, List.count_append, ih, List.count_cons, Nat.add_comm]
    refine congrArg (names.count type + ·) ?_
    by_cases same : name = type
    · subst same
      rw [List.count_eq_one_of_mem (Store.ascending_part_none name).nodup
        (Store.mem_part_none.mpr ⟨record, has⟩), if_pos (beq_self_eq_true name)]
    · rw [if_neg (mt beq_iff_eq.mp same)]
      refine List.count_eq_zero.mpr fun mem => same ?_
      exact Store.eq_of_isOf (Store.isOf_of_mem_part mem) (Store.isOf_iff.mpr has.1)

namespace Session

variable {session : Session} {type property : String} {ascending : Bool}

/-- Whether a list has the entities of a type and of the types below it, and no others, each of
them once for each chain of subtypes that leads to its type. -/
structure ListsHierarchy (session : Session) (type : String) (ids : List EntityId) : Prop where
  mem_iff : ∀ id, id ∈ ids ↔
    ∃ name ∈ type :: session.metadata.closure type, ∃ record, session.store.Has name id record
  count_eq : ∀ name id record, session.store.Has name id record →
    ids.count id = {chain | session.metadata.follow type chain = some name}.ncard

theorem listsHierarchy_of_perm {below : List String} {ids : List EntityId}
    (unfolds : session.metadata.Unfolds (session.metadata.directSubtypes type) below)
    (perm : ids.Perm ((type :: below).flatMap (session.part none))) :
    session.ListsHierarchy type ids where
  mem_iff id := by
    rw [perm.mem_iff, List.mem_flatMap]
    exact exists_congr fun name => and_congr unfolds.single.mem_iff Store.mem_part_none
  count_eq name id record has := by
    rw [perm.count_eq, ← unfolds.count_eq_ncard name]
    exact Store.count_parts_none has _

theorem yields_sortExtent_lists (acyclic : session.metadata.AcyclicBelow type) :
    session.Yields (session.engine.sortProperty type property none ascending) fun rows =>
      session.ListsHierarchy type rows.ids := by
  obtain ⟨below, unfolds⟩ := acyclic.within.exists_unfolds
  exact yields_bind (yields_sortTypes_permuted unfolds.single) fun _ permuted =>
    yields_pure (listsHierarchy_of_perm unfolds permuted.perm)

theorem faultsWithin_sortExtent (acyclic : session.metadata.AcyclicBelow type)
    (registered : session.Registered type) :
    session.FaultsWithin (session.store.SortFault property)
      (do (← session.engine.sortProperty type property none ascending).collect) := by
  obtain ⟨below, unfolds⟩ := acyclic.within.exists_unfolds
  have wholeExtent : session.Existing none := fun _ none => absurd none (Option.not_mem_none _)
  refine faultsWithin_then_collect ?_ (yields_bind (yields_sortTypes_permuted unfolds.single)
    fun listing permuted => yields_pure permuted.failure)
  exact faultsWithin_bind (faultsWithin_sortTypes wholeExtent acyclic registered)
    (yields_sortTypes _ _ _ _).done fun _ _ => faultsWithin_pure _

end Session

/-- The sorted extent of a hierarchy without cycles, all of whose types are registered: unless
the store is told to fail, or keys contradict one another, it lists the entities of the hierarchy
and no others, each of them once for each chain of subtypes that leads to its type. -/
theorem Session.extent_sorted (session : Session) {type : String} (property : String)
    (ascending : Bool) {s : State} (acyclic : session.metadata.AcyclicBelow type)
    (registered : session.Registered type) (reached : session.Reaches s) :
    (∃ ids, (session.engine.sortProperty type property none ascending).Collects s ids ∧
        session.ListsHierarchy type ids) ∨
      ∃ fault, (session.engine.sortProperty type property none ascending).Fails s fault ∧
        session.store.SortFault property fault := by
  rcases (faultsWithin_sortExtent acyclic registered).exists_or
    (yields_then_collect (yields_sortExtent_lists acyclic)) reached
    with ⟨ids, s', ran, lists⟩ | ⟨fault, s', ran, sortFault⟩
  · exact .inl ⟨ids, ⟨s', ran⟩, lists⟩
  · exact .inr ⟨fault, ⟨s', ran⟩, sortFault⟩

/-- Animals, and cats, which have been registered twice as animals. -/
def Schema.twice : Schema :=
  (Schema.empty.addSubtype "animal" "cat").addSubtype "animal" "cat"

/-- A session over the cat of the household, and nothing else. -/
def Session.twice : Session where
  metadata := Schema.twice.metadata
  settings := .default
  start := .initial
    { tables := #[⟨"animal", #[]⟩, ⟨"cat", #[⟨[("age", .int 2)], [], []⟩]⟩]
      failure := none
      searchesLinks := true
      ordersByTargets := true }
    (.create 16 false 1)

theorem Session.within_twice : twice.metadata.Within 2 "animal" := by
  have childless : twice.metadata.directSubtypes "cat" = [] := rfl
  intro subtype direct
  have direct' : subtype ∈ ["cat", "cat"] := direct
  obtain rfl : subtype = "cat" := by simpa using direct'
  intro none direct''
  rw [childless] at direct''
  cases direct''

theorem Session.unfolds_twice : twice.metadata.Unfolds ["animal"] ["animal", "cat", "cat"] := by
  have childless : twice.metadata.Unfolds (twice.metadata.directSubtypes "cat") [] := .nil
  have below : twice.metadata.Unfolds (twice.metadata.directSubtypes "animal") ["cat", "cat"] :=
    Metadata.Unfolds.cons childless (.cons childless .nil)
  exact Metadata.Unfolds.cons below .nil

theorem Session.registered_twice : twice.Registered "animal" :=
  registered_of_unfolds unfolds_twice (by decide +kernel)

/-- The cat is listed for each of the two chains that lead to its type. -/
theorem Session.extent_sorted_twice :
    twice.metadata.AcyclicBelow "animal" ∧ twice.Registered "animal" ∧
      ∃ ids, (twice.engine.sortProperty "animal" "age" none true).Collects twice.start ids ∧
        twice.ListsHierarchy "animal" ids := by
  have acyclic := Metadata.acyclicBelow_iff_within.mpr ⟨_, within_twice⟩
  have oneKind : twice.store.OneKind "age" := Store.oneKind_of_records .int (by decide)
  refine ⟨acyclic, registered_twice, ?_⟩
  rcases twice.extent_sorted "age" true acyclic registered_twice .refl
    with listed | ⟨fault, -, sortFault⟩
  · exact listed
  · exact (Store.not_sortFault rfl oneKind.unmixed fault sortFault).elim

set_option maxRecDepth 10000 in
/-- In a hierarchy without cycles, all of whose types are registered, the sorted extent has an
entity twice, although its type is in the closure once. -/
theorem Session.extent_repeats :
    twice.metadata.AcyclicBelow "animal" ∧ twice.Registered "animal" ∧
      twice.store.OneKind "age" ∧ twice.metadata.closure "animal" = ["cat"] ∧
      (∃ record, twice.store.Has "cat" ⟨1, 0⟩ record) ∧
      (twice.engine.sortProperty "animal" "age" none true).Collects twice.start
          [⟨1, 0⟩, ⟨1, 0⟩] ∧
        [(⟨1, 0⟩ : EntityId), ⟨1, 0⟩].count ⟨1, 0⟩ ≠ 1 := by
  have sorted : EStateM.run' (do (← twice.engine.sortProperty "animal" "age" none true).collect)
      twice.start = some [⟨1, 0⟩, ⟨1, 0⟩] := by decide +kernel
  exact ⟨Metadata.acyclicBelow_iff_within.mpr ⟨_, within_twice⟩, registered_twice,
    Store.oneKind_of_records .int (by decide), by decide +kernel,
    ⟨⟨[("age", .int 2)], [], []⟩, by decide +kernel, rfl⟩, Effect.exists_of_run' sorted, by decide⟩

end ExtentQuery

import ExtentQuery.Proofs.Evaluation.Exactness
import ExtentQuery.Proofs.Evaluation.LinkKeys
import ExtentQuery.Proofs.Evaluation.SortPaths

/-!
# Sorting by a link

Rows are sorted by a property behind a link in one of two ways: the backend orders them after their
sorted targets, or they are sorted in memory.  Which way is taken depends on sizes, on settings and
on what the backend is able to do.  The result is sorted by the same keys either way.

* `Session.Keyed`, `Session.yields_withProperty_keyed` — the targets that have a value at all;
* `Session.yields_sortByTargets_sorted` — ordering rows after their sorted targets;
* `Session.yields_sortLinked_sorted` — both ways;
* `Session.LinkSortFault`, `Session.faultsWithin_sortLinked` — the faults that there can be;
* `Session.links_sorted` — rows sorted by a link.
-/

namespace ExtentQuery

open Effect
open Sorting (Comparison Ordered Readable byKey)

/-- Whether listing rows ends in a fault. -/
def Rows.EndsIn : Rows → Fault → Prop
  | native listing, fault => listing.failure = some fault
  | _, _ => False

namespace Engine

/-- What the backend answers if rows are worth ordering after their sorted targets. -/
def askForOrder (engine : Engine) (targetType property type link : String) (rows : Rows)
    (ascending : Bool) : Effect (Option Listing) :=
  match rows with
  | .native listing =>
    if engine.settings.sort.minEntriesForLinkSort ≤ listing.rough then
      engine.sortByTargets targetType property link (engine.metadata.association type link)
        listing ascending
    else pure none
  | _ => pure none

/-- Rows are sorted in memory if the backend gives no answer. -/
theorem sortLinked_eq (engine : Engine) (targetType property type link : String) (rows : Rows)
    (ascending : Bool) : engine.sortLinked targetType property type link rows ascending = (do
      match ← engine.askForOrder targetType property type link rows ascending with
      | some listing => return .native listing
      | none => engine.sortKeyed rows (.linkedProperty property link ascending) ascending) := by
  cases rows with
  | empty | computed => rfl
  | native listing =>
    dsimp only [sortLinked, askForOrder]
    split <;> rfl

end Engine

namespace Session

variable {session : Session} {targetType property type link : String} {ascending : Bool}
  {source : Listing} {names : List String} {rows : Rows}

/-! ### The targets that have a value -/

/-- Whether a listing has the entities of some types that have a property. -/
structure Having (session : Session) (names : List String) (property : String)
    (listing : Listing) : Prop where
  whole : listing.failure = none
  mem_iff : ∀ id, id ∈ listing.ids ↔ ∃ name ∈ names, ∃ record,
    session.store.Has name id record ∧ (record.property property).isSome = true

/-- In terms of keys, and for the types of a hierarchy. -/
theorem Having.mem_iff_key (having : session.Having (session.types type) property source)
    (id : EntityId) : id ∈ source.ids ↔
      session.inHierarchy type id = true ∧ (session.store.key property id).isSome = true := by
  rw [having.mem_iff, inHierarchy_iff]
  constructor
  · rintro ⟨name, mem, record, has, value⟩
    refine ⟨⟨name, mem, record, has⟩, ?_⟩
    rwa [Store.key, has.2, Option.bind_some]
  · rintro ⟨⟨name, mem, record, has⟩, value⟩
    rw [Store.key, has.2, Option.bind_some] at value
    exact ⟨name, mem, record, has, value⟩

theorem yields_hasProperty (name property : String) :
    session.Yields (session.engine.backend.hasProperty name property)
      (session.Having [name] property) := by
  refine ((yields_lookUp .filter name _).and (yields_lookUp_whole .filter name _)).mono ?_
  rintro listing ⟨selected, whole, -⟩
  refine ⟨whole, fun id => (selected.mem_iff id).trans ?_⟩
  simp only [List.mem_singleton, exists_eq_left]

/-- The entities of some types and those of one more. -/
theorem yields_union_having {left right : Listing} {name : String}
    (having : session.Having names property left) (having' : session.Having [name] property right) :
    session.Yields (session.engine.backend.combine .union left right)
      (session.Having (names ++ [name]) property) := by
  refine ((yields_memory_combine .union left right).and
    (yields_memory_combine_whole .union left right)).mono ?_
  rintro listing ⟨combines, whole⟩
  refine ⟨whole, fun id => (combines.mem_iff id).trans ?_⟩
  simp only [SetOperation.truth, Bool.or_eq_true, List.contains_iff_mem, Rows.ids_native,
    having.mem_iff, having'.mem_iff, List.mem_append, List.mem_singleton, or_and_right, exists_or]

theorem yields_withProperty_having (type property : String) :
    session.Yields (session.engine.withProperty type property)
      (session.Having (session.types type) property) := by
  refine yields_bind (yields_hasProperty type property) fun own having => ?_
  refine yields_foldlM (fun done => session.Having (type :: done) property)
    (session.engine.metadata.closure type) (fun done keyed subtype _ having => ?_) having
  exact yields_bind (yields_hasProperty subtype property) fun part having' =>
    yields_union_having having having'

theorem faultsWithin_withProperty (registered : session.Registered type) :
    session.FaultsWithin session.store.Told (session.engine.withProperty type property) := by
  have lookUp : ∀ name, session.metadata.Derives type name →
      session.FaultsWithin session.store.Told (session.engine.backend.hasProperty name property) :=
    fun name derives => faultsWithin_lookUp (registered name derives) .filter _
  refine faultsWithin_bind (lookUp type .refl) (yields_hasProperty type property) fun own here => ?_
  refine faultsWithin_foldlM (I := fun keyed => keyed.failure = none) _
    (fun keyed name mem whole => ?_) (fun keyed name mem whole => ?_) here.whole
  · refine faultsWithin_bind (lookUp name (Metadata.mem_family_iff.mp (.tail _ mem)))
      (yields_hasProperty name property) fun part here => ?_
    exact faultsWithin_memory_combine .union whole here.whole
  · exact yields_bind_done (yields_hasProperty name property).done fun part =>
      yields_memory_combine_whole .union keyed part

/-- The targets that have a value, in the order of their values. -/
theorem yields_sortTypes_having (acyclic : session.metadata.AcyclicBelow type)
    (unmixed : session.store.Unmixed property)
    (having : session.Having (session.types type) property source) :
    session.Yields (session.engine.sortTypes type property (some source) ascending) fun targets =>
      targets.failure = none ∧ Ordered (byKey ascending (session.store.key property)) targets.ids ∧
        ∀ id, id ∈ targets.ids ↔ id ∈ source.ids := by
  obtain ⟨below, unfolds⟩ := acyclic.within.exists_unfolds
  have own : ∀ name ∈ type :: below, session.Yields
      (session.engine.backend.sortType name property (some source) ascending)
      (session.SortedParts (some source) property ascending (fun _ _ => True) [name]) :=
    fun name _ => yields_sortType_sorts unmixed (List.pairwise_of_forall fun _ _ => trivial)
  refine (yields_sortTypes_unfolded unfolds.single own fun {_ _} _ sorted =>
    yields_mergeParts_sorts unmixed sorted
      (List.pairwise_of_forall fun _ _ _ _ _ _ => trivial)).mono fun targets parts => ?_
  refine ⟨parts.failure, parts.sorts.isOrdered, fun id => ?_⟩
  rw [parts.sorts.perm.mem_iff, List.mem_flatMap]
  constructor
  · rintro ⟨name, -, mem⟩
    exact (List.mem_filter.mp mem).1
  · intro mem
    obtain ⟨name, below, record, has, -⟩ := (having.mem_iff id).mp mem
    refine ⟨name, unfolds.single.mem_iff.mpr below, List.mem_filter.mpr ⟨mem, ?_⟩⟩
    exact Store.isOf_iff.mpr has.1

/-! ### Ordering after the targets -/

/-- Whether the targets of a link of some entities are all in the hierarchy of a type. -/
def LinksInside (session : Session) (type link : String) (ids : List EntityId) : Prop :=
  ∀ id ∈ ids, ∀ record, session.store.record? id = some record →
    ∀ target ∈ record.targets link, session.inHierarchy type target = true

theorem LinksInside.exists_target {ids : List EntityId} {id target : EntityId} {record : Record}
    (inside : session.LinksInside type link ids) (mem : id ∈ ids)
    (found : session.store.record? id = some record) (linked : target ∈ record.targets link) :
    session.store.Exists target := by
  obtain ⟨_, _, other, has⟩ := inHierarchy_iff.mp (inside id mem record found target linked)
  exact Option.isSome_iff_exists.mpr ⟨other, has.2⟩

theorem LinksInside.readable {ids : List EntityId} (inside : session.LinksInside type link ids)
    (existing : ∀ id ∈ ids, session.store.Exists id) :
    Readable ((SortKey.linkedProperty property link ascending).read session.store)
      (session.store.linkKey property link ascending) ids := by
  intro id mem
  obtain ⟨record, found⟩ := Option.isSome_iff_exists.mp (existing id mem)
  exact Store.read_linkKey found fun target linked => inside.exists_target mem found linked

/-- The sorted targets of some entities. -/
theorem sortedTargets_of_having {ids targets : List EntityId}
    (inside : session.LinksInside type link ids)
    (having : session.Having (session.types type) property source)
    (ordered : Ordered (byKey ascending (session.store.key property)) targets)
    (mem_iff : ∀ id, id ∈ targets ↔ id ∈ source.ids) :
    session.store.SortedTargets property link ascending ids targets where
  ordered := ordered
  mem_iff id mem record found target linked := by
    rw [mem_iff, having.mem_iff_key]
    exact and_iff_right (inside id mem record found target linked)

/-- Whether an answer of the backend, if it is one, lists entities sorted by a link. -/
def SortsLinks (session : Session) (property link : String) (ascending : Bool)
    (ids : List EntityId) (answer : Option Listing) : Prop :=
  ∀ listing ∈ answer, listing.failure = none ∧
    session.store.SortedByLink property link ascending ids listing.ids

theorem sortsLinks_none (ids : List EntityId) :
    session.SortsLinks property link ascending ids none :=
  fun _ mem => absurd mem (Option.not_mem_none _)

/-- The ranks that are read of the entities of a list. -/
theorem eq_map_of_ranked {rank : EntityId → Option Nat} {ids : List EntityId}
    {ranked : List (EntityId × Option Nat)}
    (each : List.Forall₂ (fun id entry => session.store.Exists id ∧ entry = (id, rank id)) ids ranked) :
    (∀ id ∈ ids, session.store.Exists id) ∧ ranked = ids.map fun id => (id, rank id) := by
  induction each with
  | nil => exact ⟨List.forall_mem_nil _, rfl⟩
  | cons first _ ih =>
    obtain ⟨existing, rfl⟩ := first
    obtain ⟨others, rfl⟩ := ih
    exact ⟨List.forall_mem_cons.mpr ⟨existing, others⟩, rfl⟩

/-- The backend orders entities after their sorted targets, if it can. -/
theorem yields_orderByTargets_sorted {request : TargetOrder} (unmixed : session.store.Unmixed property)
    (inside : session.LinksInside targetType request.link request.source.ids)
    (targets : session.store.SortedTargets property request.link request.ascending
      request.source.ids request.targets.ids) :
    session.Yields (session.engine.backend.orderByTargets request)
      (session.SortsLinks property request.link request.ascending request.source.ids) := by
  refine yields_bind_done (yields_countCall _) fun _ => ?_
  refine yields_bind_done yields_get.done fun s => ?_
  cases s.store.ordersByTargets with
  | false => exact yields_pure (sortsLinks_none _)
  | true =>
    refine yields_bind (yields_listing_collect request.targets) ?_
    rintro ids rfl
    have ranks : ∀ id ∈ request.source.ids, session.Yields
        (do
          let record ← reading (·.record id)
          return (id, Backend.Memory.firstRank request.targets.ids record request.link))
        fun entry => session.store.Exists id ∧
          entry = (id, session.store.rankBy request.link request.targets.ids id) := by
      intro id _
      refine yields_bind (yields_reading _) fun record read => yields_pure ?_
      have found := Store.record_eq_ok.mp read
      refine ⟨Option.isSome_iff_exists.mpr ⟨record, found⟩, ?_⟩
      rw [Store.rankBy, found, Option.bind_some]
    refine yields_bind (yields_listing_mapM request.source ranks) fun ranked each => ?_
    obtain ⟨existing, rfl⟩ := eq_map_of_ranked each
    refine yields_bind (yields_snapshot_whole _ _) ?_
    rintro listing ⟨whole, ids⟩
    refine yields_pure ?_
    rintro _ ⟨⟩
    rw [ids]
    exact ⟨whole, targets.sortedByLink_arrangeRanked unmixed existing (inside.readable existing)⟩

theorem yields_sortByTargets_sorted (acyclic : session.metadata.AcyclicBelow targetType)
    (unmixed : session.store.Unmixed property) (far : Option Association)
    (inside : session.LinksInside targetType link source.ids) :
    session.Yields
      (session.engine.sortByTargets targetType property link far source ascending)
      (session.SortsLinks property link ascending source.ids) := by
  refine yields_bind (yields_withProperty_having targetType property) fun keyed having => ?_
  refine yields_bind (yields_sortTypes_having acyclic unmixed having) ?_
  rintro targets ⟨-, ordered, mem_iff⟩
  split
  · exact yields_pure (sortsLinks_none _)
  · refine yields_bind (yields_orderByTargets_sorted unmixed inside
      (sortedTargets_of_having inside having ordered mem_iff)) fun answer sorted => ?_
    exact yields_bind_done (yields_countWork _) fun _ => yields_pure sorted

theorem yields_askForOrder_sorted (acyclic : session.metadata.AcyclicBelow targetType)
    (unmixed : session.store.Unmixed property)
    (inside : session.LinksInside targetType link rows.ids) :
    session.Yields (session.engine.askForOrder targetType property type link rows ascending)
      (session.SortsLinks property link ascending rows.ids) := by
  cases rows with
  | empty | computed => exact yields_pure (sortsLinks_none _)
  | native listing =>
    dsimp only [Engine.askForOrder]
    split
    · exact yields_sortByTargets_sorted acyclic unmixed _ inside
    · exact yields_pure (sortsLinks_none _)

/-! ### Sorting in memory -/

theorem yields_sortKeyed_linked (unmixed : session.store.Unmixed property) :
    session.Yields
      (session.engine.sortKeyed rows (.linkedProperty property link ascending) ascending)
      fun sorted => sorted.Whole ∧
        session.store.SortedByLink property link ascending rows.ids sorted.ids := by
  have inMemory : session.Yields
      (do Rows.ofIds (← session.engine.sortList (← rows.collect)
        (.linkedProperty property link ascending) ascending)) fun sorted => sorted.Whole ∧
          session.store.SortedByLink property link ascending rows.ids sorted.ids := by
    refine yields_bind (yields_collect rows) ?_
    rintro ids rfl
    refine yields_bind (yields_sortList_keeps (session.store.reads_linkKey property link ascending)
      (Store.unmixed_linkKey unmixed link ascending) rows.ids) ?_
    rintro sorted ⟨perm, ordered, keeps, readable⟩
    refine ((yields_ofIds_whole sorted).and (yields_ofIds sorted)).mono ?_
    rintro made ⟨whole, ids, -⟩
    rw [ids]
    exact ⟨whole, Sorting.sortedByKey_of_keeps perm ordered keeps,
      fun id mem => readable id (perm.subset mem)⟩
  cases rows with
  | native | computed => exact inMemory
  | empty =>
    refine yields_pure ⟨trivial, Sorting.sortedByKey_of_keeps (.refl _) .nil (.refl _ _), ?_⟩
    exact List.forall_mem_nil _

/-- Rows are sorted by a link, whichever way is taken. -/
theorem yields_sortLinked_sorted (acyclic : session.metadata.AcyclicBelow targetType)
    (unmixed : session.store.Unmixed property)
    (inside : session.LinksInside targetType link rows.ids) :
    session.Yields
      (session.engine.sortLinked targetType property type link rows ascending) fun sorted =>
        sorted.Whole ∧ session.store.SortedByLink property link ascending rows.ids sorted.ids := by
  rw [Engine.sortLinked_eq]
  refine yields_bind (yields_askForOrder_sorted acyclic unmixed inside) fun answer sorted => ?_
  cases answer with
  | some listing => exact yields_pure (sorted listing rfl)
  | none => exact yields_sortKeyed_linked unmixed

/-! ### Faults -/

/-- The faults in which a sort by a link can end, if the hierarchy of the targets is registered: the
store may be told to fail, an entity may not exist, and listing the rows may end in a fault. -/
inductive LinkSortFault (session : Session) (rows : Rows) : Fault → Prop where
  | told {fault : Fault} : session.store.Told fault → LinkSortFault session rows fault
  | missing {id : EntityId} : id ∈ rows.ids → ¬ session.store.Exists id →
      LinkSortFault session rows .notFound
  | ends {fault : Fault} : rows.EndsIn fault → LinkSortFault session rows fault

theorem faultsWithin_record {id : EntityId} (mem : id ∈ rows.ids) :
    session.FaultsWithin (session.LinkSortFault rows) (reading (·.record id)) := by
  refine faultsWithin_reading fun fault faulted => ?_
  unfold Store.record at faulted
  split at faulted
  case h_1 => cases faulted
  case h_2 none =>
    cases faulted
    refine .missing mem fun existing => ?_
    rw [Store.Exists, none] at existing
    cases existing

theorem faultsWithin_orderByTargets {request : TargetOrder}
    (whole : request.targets.failure = none) :
    session.FaultsWithin (session.LinkSortFault (.native request.source))
      (session.engine.backend.orderByTargets request) := by
  refine faultsWithin_bind (faultsWithin_countCall _) (yields_countCall _) fun _ _ => ?_
  refine faultsWithin_bind faultsWithin_get yields_get fun s _ => ?_
  split
  · exact faultsWithin_pure _
  · refine faultsWithin_bind (faultsWithin_listing_collect whole) (yields_listing_collect _)
      fun targets _ => ?_
    have ranked : ∀ id ∈ request.source.ids, session.Yields (do
        let record ← reading (·.record id)
        return (id, Backend.Memory.firstRank targets record request.link)) fun _ => True :=
      fun id _ => yields_bind_done (yields_reading _).done fun _ => yields_pure trivial
    refine faultsWithin_bind (faultsWithin_listing_mapM_ends (fun _ ends => .ends ends)
        (fun id mem => ?_) ranked)
      (yields_listing_mapM (R := fun _ _ => True) request.source ranked) fun _ _ => ?_
    · exact faultsWithin_bind (faultsWithin_record mem) (yields_reading _).done fun _ _ =>
        faultsWithin_pure _
    · exact faultsWithin_bind (faultsWithin_snapshot _ _) (yields_snapshot _ _) fun _ _ =>
        faultsWithin_pure _

theorem faultsWithin_sortByTargets (acyclic : session.metadata.AcyclicBelow targetType)
    (registered : session.Registered targetType) (unmixed : session.store.Unmixed property)
    (far : Option Association) :
    session.FaultsWithin (session.LinkSortFault (.native source))
      (session.engine.sortByTargets targetType property link far source ascending) := by
  refine faultsWithin_bind ((faultsWithin_withProperty registered).mono fun _ => .told)
    (yields_withProperty_having targetType property) fun keyed having => ?_
  have existing : session.Existing (some keyed) := by
    rintro _ ⟨⟩
    refine ⟨having.whole, fun id mem => ?_⟩
    obtain ⟨_, -, record, has, -⟩ := (having.mem_iff id).mp mem
    exact Option.isSome_iff_exists.mpr ⟨record, has.2⟩
  have sorting : session.FaultsWithin (session.LinkSortFault (.native source))
      (session.engine.sortTypes targetType property (some keyed) ascending) := by
    refine (faultsWithin_sortTypes existing acyclic registered).mono fun fault sortFault => ?_
    cases fault with
    | backend message => exact .told sortFault
    | inconsistentOrder => exact absurd unmixed sortFault
    | _ => exact sortFault.elim
  refine faultsWithin_bind sorting (yields_sortTypes_having acyclic unmixed having) ?_
  rintro targets ⟨whole, -⟩
  split
  · exact faultsWithin_pure _
  · exact faultsWithin_bind (faultsWithin_orderByTargets whole) (yields_orderByTargets _).done
      fun _ _ => faultsWithin_bind (faultsWithin_countWork _) (yields_countWork _) fun _ _ =>
        faultsWithin_pure _

theorem faultsWithin_askForOrder (acyclic : session.metadata.AcyclicBelow targetType)
    (registered : session.Registered targetType) (unmixed : session.store.Unmixed property) :
    session.FaultsWithin (session.LinkSortFault rows)
      (session.engine.askForOrder targetType property type link rows ascending) := by
  cases rows with
  | empty | computed => exact faultsWithin_pure _
  | native listing =>
    dsimp only [Engine.askForOrder]
    split
    · exact faultsWithin_sortByTargets acyclic registered unmixed _
    · exact faultsWithin_pure _

/-- If the targets exist, the key behind a link can be read unless the entity does not exist. -/
theorem LinksInside.notFound_of_read {ids : List EntityId} {id : EntityId} {fault : Fault}
    (inside : session.LinksInside type link ids) (mem : id ∈ ids)
    (faulted : (SortKey.linkedProperty property link ascending).read session.store id = .error fault) :
    fault = .notFound ∧ ¬ session.store.Exists id := by
  cases found : session.store.record? id with
  | some record =>
    rw [Store.read_linkKey found fun target => inside.exists_target mem found] at faulted
    cases faulted
  | none =>
    have unread : session.store.record id = .error .notFound := by
      rw [Store.record, found]
    rw [SortKey.read, Store.links, unread] at faulted
    cases faulted
    refine ⟨rfl, fun existing => ?_⟩
    rw [Store.Exists, found] at existing
    cases existing

theorem faultsWithin_sortKeyed_linked (unmixed : session.store.Unmixed property)
    (inside : session.LinksInside targetType link rows.ids) :
    session.FaultsWithin (session.LinkSortFault rows)
      (session.engine.sortKeyed rows (.linkedProperty property link ascending) ascending) := by
  have reads := session.store.reads_linkKey property link ascending
  have unmixedKeys := Store.unmixed_linkKey unmixed link ascending
  have sorting : session.FaultsWithin (session.LinkSortFault rows)
      (session.engine.sortList rows.ids (.linkedProperty property link ascending) ascending) := by
    refine (faultsWithin_sortList_reading reads unmixedKeys rows.ids).mono fun fault unread => ?_
    obtain ⟨id, mem, faulted⟩ := unread
    obtain ⟨rfl, missing⟩ := inside.notFound_of_read mem faulted
    exact .missing mem missing
  have listing : session.FaultsWithin (session.LinkSortFault rows) rows.collect := by
    cases rows with
    | empty | computed => exact faultsWithin_pure _
    | native listing => exact faultsWithin_listing_collect_ends fun _ ends => .ends ends
  have inMemory : session.FaultsWithin (session.LinkSortFault rows)
      (do Rows.ofIds (← session.engine.sortList (← rows.collect)
        (.linkedProperty property link ascending) ascending)) := by
    refine faultsWithin_bind listing (yields_collect rows) ?_
    rintro ids rfl
    exact faultsWithin_bind sorting (yields_sortList _ _ _) fun _ _ => faultsWithin_ofIds _
  cases rows with
  | native | computed => exact inMemory
  | empty => exact faultsWithin_pure _

theorem faultsWithin_sortLinked (acyclic : session.metadata.AcyclicBelow targetType)
    (registered : session.Registered targetType) (unmixed : session.store.Unmixed property)
    (inside : session.LinksInside targetType link rows.ids) :
    session.FaultsWithin (session.LinkSortFault rows)
      (session.engine.sortLinked targetType property type link rows ascending) := by
  rw [Engine.sortLinked_eq]
  refine faultsWithin_bind (faultsWithin_askForOrder acyclic registered unmixed)
    (yields_askForOrder_sorted acyclic unmixed inside) fun answer _ => ?_
  cases answer with
  | some listing => exact faultsWithin_pure _
  | none => exact faultsWithin_sortKeyed_linked unmixed inside

end Session

/-- Rows whose links lead into an acyclic hierarchy of registered types are sorted by a property
behind a link whose values are of one kind: whichever way they are sorted, the result has the same
entities, in the order of their keys, and those without a key are one block and stay as they come,
last or, when descending, first.  This fails only if the store is told to fail, if an entity of the
rows does not exist, or if listing them ends in a fault. -/
theorem Session.links_sorted (session : Session) {targetType property link : String}
    (type : String) (ascending : Bool) {rows : Rows} {s : State}
    (acyclic : session.metadata.AcyclicBelow targetType)
    (registered : session.Registered targetType) (oneKind : session.store.OneKind property)
    (inside : session.LinksInside targetType link rows.ids) (reached : session.Reaches s) :
    (∃ ids, (session.engine.sortLinked targetType property type link rows ascending).Collects s ids ∧
        session.store.SortedByLink property link ascending rows.ids ids) ∨
      ∃ fault, (session.engine.sortLinked targetType property type link rows ascending).Fails s fault ∧
        session.LinkSortFault rows fault := by
  have sorted : session.Yields
      (session.engine.sortLinked targetType property type link rows ascending) fun made =>
        made.Whole ∧ session.store.SortedByLink property link ascending rows.ids made.ids :=
    yields_sortLinked_sorted acyclic oneKind.unmixed inside
  have within : session.FaultsWithin (session.LinkSortFault rows)
      (session.engine.sortLinked targetType property type link rows ascending) :=
    faultsWithin_sortLinked acyclic registered oneKind.unmixed inside
  have collecting := faultsWithin_then_collect within (sorted.mono fun _ made => made.1)
  rcases collecting.exists_or (yields_then_collect (sorted.mono fun _ made => made.2)) reached
    with ⟨ids, s', ran, holds⟩ | ⟨fault, s', ran, faulted⟩
  · exact .inl ⟨ids, ⟨s', ran⟩, holds⟩
  · exact .inr ⟨fault, ⟨s', ran⟩, faulted⟩

/-- A session over animals, cats, which are animals, and people who keep them.  The backend orders
people after their animals even if there are few of them. -/
def Session.keepers : Session where
  metadata := animals.metadata
  settings := { Settings.default with sort := { SortSettings.default with minEntriesForLinkSort := 1 } }
  start := .initial
    { tables :=
        #[⟨"animal", #[⟨[("age", .int 3)], [], []⟩, ⟨[("age", .int 2)], [], []⟩]⟩,
          ⟨"cat", #[⟨[("age", .int 2)], [], []⟩, .empty]⟩,
          ⟨"person",
            #[⟨[], [], [("pets", [⟨1, 1⟩, ⟨0, 0⟩, ⟨1, 0⟩])]⟩, ⟨[], [], [("pets", [⟨1, 1⟩])]⟩,
              ⟨[], [], [("pets", [⟨0, 1⟩])]⟩, .empty]⟩]
      failure := none
      searchesLinks := true
      ordersByTargets := true }
    (.create 16 false 1)

/-- People, the first one twice. -/
def Listing.people : Listing :=
  ⟨0, .snapshot false, [⟨2, 1⟩, ⟨2, 0⟩, ⟨2, 3⟩, ⟨2, 2⟩, ⟨2, 0⟩], none, 5⟩

theorem Session.linksInside_keepers :
    keepers.LinksInside "animal" "pets" (Rows.native .people).ids := by
  have all : (Listing.people.ids.all fun id =>
      (((keepers.store.record? id).map (·.targets "pets")).getD []).all
        (keepers.inHierarchy "animal")) = true := by decide +kernel
  intro id mem record found target linked
  have each := List.all_eq_true.mp all id mem
  rw [found] at each
  exact List.all_eq_true.mp each target linked

set_option maxRecDepth 10000 in
/-- The eldest animals come first.  One person keeps an animal of unknown age, and another one
keeps none: they come before the others, as they came. -/
theorem Session.links_sorted_keepers :
    keepers.metadata.AcyclicBelow "animal" ∧ keepers.Registered "animal" ∧
      keepers.store.OneKind "age" ∧
      keepers.LinksInside "animal" "pets" (Rows.native .people).ids ∧
      (keepers.engine.sortLinked "animal" "age" "person" "pets" (.native .people)
        false).Collects keepers.start [⟨2, 1⟩, ⟨2, 3⟩, ⟨2, 0⟩, ⟨2, 0⟩, ⟨2, 2⟩] ∧
      keepers.store.SortedByLink "age" "pets" false Listing.people.ids
        [⟨2, 1⟩, ⟨2, 3⟩, ⟨2, 0⟩, ⟨2, 0⟩, ⟨2, 2⟩] := by
  have acyclic : keepers.metadata.AcyclicBelow "animal" :=
    (Metadata.exists_tree_iff.mp ⟨_, tree_weighed⟩).acyclicBelow
  have registered : keepers.Registered "animal" :=
    registered_of_unfolds tree_weighed.unfolds (by decide +kernel)
  have oneKind : keepers.store.OneKind "age" := Store.oneKind_of_records .int (by decide)
  have listed : EStateM.run' (do (← keepers.engine.sortLinked "animal" "age" "person" "pets"
      (.native .people) false).collect) keepers.start
        = some [⟨2, 1⟩, ⟨2, 3⟩, ⟨2, 0⟩, ⟨2, 0⟩, ⟨2, 2⟩] := by cbv
  obtain ⟨s, ran⟩ := Effect.exists_of_run' listed
  refine ⟨acyclic, registered, oneKind, linksInside_keepers, ⟨s, ran⟩, ?_⟩
  rcases keepers.links_sorted "person" false acyclic registered oneKind linksInside_keepers .refl
    with ⟨ids, ⟨s', ran'⟩, sorted⟩ | ⟨fault, ⟨s', failed⟩, -⟩
  · have same := ran.symm.trans ran'
    cases same
    exact sorted
  · have same := ran.symm.trans failed
    cases same

end ExtentQuery

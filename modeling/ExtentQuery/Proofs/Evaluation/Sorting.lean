import ExtentQuery.Proofs.Evaluation.Hierarchy
import ExtentQuery.Proofs.Evaluation.Subtypes
import ExtentQuery.Proofs.Sorting.Keys

/-!
# Sorting a hierarchy

A hierarchy is sorted type by type, and the sorted parts are merged, the part of a type
before the parts of its subtypes.  If the hierarchy is a tree, every entity is in exactly
one part, and the whole is sorted stably.

* `Metadata.Unfolds` — types listed depth first, each before its subtypes;
* `Store.part` — the entities of one type, from a list or from the whole extent;
* `Session.yields_sortTypes_sorts` — sorting a hierarchy that is a tree;
* `Store.RanksOver` — how entities stand after several sorts;
* `Session.yields_sortRows_ranked`, `Session.yields_sortExtent_ranked` — sorting rows and
  whole extents again and again.

**Where a tie goes.**  Among entities of one type, a sort keeps the order in which they come.
Entities of different types that compare as equal are merged part by part, so the order
in which they come is lost: what counts is where the types stand in the tree.
-/

namespace ExtentQuery

open Effect
open Sorting (Comparison Leads Sorts Ahead byKey)

/-! ### Trees of types -/

namespace Metadata

variable {m : Metadata} {types names : List String}

/-- Whether types, each followed by its subtypes, unfold into a list. -/
inductive Unfolds (m : Metadata) : (types names : List String) → Prop where
  | nil : Unfolds m [] []
  | cons {type : String} {types below names : List String} :
      Unfolds m (m.directSubtypes type) below → Unfolds m types names →
      Unfolds m (type :: types) (type :: (below ++ names))

/-- Whether a type and its subtypes are a tree: they unfold into a list of different
types. -/
structure Tree (m : Metadata) (type : String) (names : List String) : Prop where
  unfolds : m.Unfolds [type] names
  nodup : names.Nodup

theorem Unfolds.subset (unfolds : m.Unfolds types names) : types ⊆ names := by
  induction unfolds with
  | nil => exact List.Subset.refl []
  | cons _ _ _ ih =>
    intro name mem
    rcases List.mem_cons.mp mem with rfl | mem
    · exact List.mem_cons_self
    · exact .tail _ (List.mem_append_right _ (ih mem))

/-- An unfolded list holds the subtypes of all of its types. -/
theorem Unfolds.closed (unfolds : m.Unfolds types names) :
    ∀ a ∈ names, ∀ b ∈ m.directSubtypes a, b ∈ names := by
  induction unfolds with
  | nil => exact fun a mem => absurd mem List.not_mem_nil
  | cons below _ ihBelow ih =>
    intro a mem b direct
    rcases List.mem_cons.mp mem with rfl | mem
    · exact .tail _ (List.mem_append_left _ (below.subset direct))
    · rcases List.mem_append.mp mem with mem | mem
      · exact .tail _ (List.mem_append_left _ (ihBelow a mem b direct))
      · exact .tail _ (List.mem_append_right _ (ih a mem b direct))

theorem Unfolds.derives (unfolds : m.Unfolds types names) :
    ∀ name ∈ names, ∃ type ∈ types, m.Derives type name := by
  induction unfolds with
  | nil => exact nofun
  | @cons type types below names _ _ ihBelow ih =>
    intro name mem
    rcases List.mem_cons.mp mem with rfl | mem
    · exact ⟨name, List.mem_cons_self, .refl⟩
    · rcases List.mem_append.mp mem with mem | mem
      · obtain ⟨subtype, direct, derives⟩ := ihBelow name mem
        exact ⟨type, List.mem_cons_self, .head direct derives⟩
      · obtain ⟨other, mem, derives⟩ := ih name mem
        exact ⟨other, .tail _ mem, derives⟩

/-- A type unfolds into its hierarchy and nothing else. -/
theorem Unfolds.mem_iff {type name : String} (unfolds : m.Unfolds [type] names) :
    name ∈ names ↔ name ∈ type :: m.closure type := by
  rw [mem_family_iff]
  constructor
  · intro mem
    obtain ⟨other, mem, derives⟩ := unfolds.derives name mem
    obtain rfl := List.mem_singleton.mp mem
    exact derives
  · intro derives
    induction derives with
    | refl => exact unfolds.subset List.mem_cons_self
    | tail _ direct ih => exact unfolds.closed _ ih _ direct

/-- A tree holds the hierarchy of its type and nothing else. -/
theorem Tree.mem_iff {type name : String} (tree : m.Tree type names) :
    name ∈ names ↔ name ∈ type :: m.closure type :=
  tree.unfolds.mem_iff

/-- Types unfold into one list only. -/
theorem Unfolds.unique {names' : List String} (unfolds : m.Unfolds types names)
    (other : m.Unfolds types names') : names = names' := by
  induction unfolds generalizing names' with
  | nil =>
    cases other
    rfl
  | cons _ _ ihBelow ih =>
    cases other with
    | cons below rest => rw [ihBelow below, ih rest]

theorem Tree.unique {type : String} {names' : List String} (tree : m.Tree type names)
    (other : m.Tree type names') : names = names' :=
  tree.unfolds.unique other.unfolds

/-- Each type of an unfolded list is followed by its subtypes. -/
theorem Unfolds.exists_block (unfolds : m.Unfolds types names) {name : String}
    (mem : name ∈ names) : ∃ before below after,
      names = before ++ name :: below ++ after ∧ m.Unfolds (m.directSubtypes name) below := by
  induction unfolds with
  | nil => cases mem
  | @cons type types below names unfolds _ ihBelow ih =>
    rcases List.mem_cons.mp mem with rfl | mem
    · exact ⟨[], below, names, rfl, unfolds⟩
    rcases List.mem_append.mp mem with mem | mem
    · obtain ⟨before, inner, after, rfl, unfolds'⟩ := ihBelow mem
      exact ⟨type :: before, inner, after ++ names, by simp, unfolds'⟩
    · obtain ⟨before, inner, after, rfl, unfolds'⟩ := ih mem
      exact ⟨type :: (below ++ before), inner, after, by simp, unfolds'⟩

/-- The hierarchy of a subtype is a part of the tree, and a tree itself. -/
theorem Tree.exists_subtree {type name : String} (tree : m.Tree type names)
    (mem : name ∈ names) :
    ∃ before block after, names = before ++ block ++ after ∧ m.Tree name block := by
  obtain ⟨before, below, after, rfl, unfolds⟩ := tree.unfolds.exists_block mem
  refine ⟨before, name :: below, after, rfl, ?_, ?_⟩
  · have alone := Unfolds.cons unfolds .nil
    rwa [List.append_nil] at alone
  · exact (List.nodup_append.mp (List.nodup_append.mp tree.nodup).1).2.1

/-- A type without subtypes is a tree. -/
theorem tree_of_childless {type : String} (childless : m.directSubtypes type = []) :
    m.Tree type [type] where
  unfolds := by
    have below : m.Unfolds (m.directSubtypes type) [] := childless.symm ▸ .nil
    exact .cons below .nil
  nodup := List.nodup_singleton type

end Metadata

/-! ### The parts of a hierarchy -/

namespace Store

variable {store : Store} {names : List String} {id : EntityId}

/-- Whether an entity is of exactly one type. -/
def isOf (store : Store) (type : String) (id : EntityId) : Bool :=
  store.typeId? type == some id.typeId

theorem isOf_iff {type : String} : store.isOf type id = true ↔ store.typeId? type = some id.typeId :=
  beq_iff_eq

/-- An entity is of one type only. -/
theorem eq_of_isOf {a b : String} (one : store.isOf a id = true) (other : store.isOf b id = true) :
    a = b :=
  eq_of_typeId? (isOf_iff.mp one) (isOf_iff.mp other)

/-- The place of the type of an entity in a list of types. -/
def typeRank (store : Store) (names : List String) (id : EntityId) : Nat :=
  names.findIdx fun name => store.isOf name id

/-- The comparison of entities by the places of their types in a list of types. -/
def byType (store : Store) (names : List String) : Comparison EntityId :=
  fun x y => compare (store.typeRank names x) (store.typeRank names y)

instance (store : Store) (names : List String) : Std.TransCmp (store.byType names) :=
  inferInstanceAs (Std.TransCmp (compareOn (store.typeRank names)))

theorem typeRank_eq {i : Nat} (nodup : names.Nodup) (inside : i < names.length)
    (isOf : store.isOf names[i] id = true) : store.typeRank names id = i := by
  refine (List.findIdx_eq inside).mpr ⟨isOf, fun j before => ?_⟩
  refine Bool.eq_false_iff.mpr fun other => ?_
  have same := eq_of_isOf other isOf
  exact Nat.ne_of_lt before ((nodup.getElem_inj_iff).mp same)

theorem typeRank_eq_of_typeId {x y : EntityId} (same : x.typeId = y.typeId) :
    store.typeRank names x = store.typeRank names y := by
  unfold typeRank isOf
  rw [same]

/-- Entities of the types of a part of a list stand to each other as their types do in this
part. -/
theorem byType_block {before block after : List String} {x y : EntityId}
    (nodup : (before ++ block ++ after).Nodup)
    (inside : ∃ name ∈ block, store.isOf name x = true)
    (inside' : ∃ name ∈ block, store.isOf name y = true) :
    store.byType (before ++ block ++ after) x y = store.byType block x y := by
  have rank : ∀ {id : EntityId}, (∃ name ∈ block, store.isOf name id = true) →
      store.typeRank (before ++ block ++ after) id = store.typeRank block id + before.length := by
    rintro id ⟨name, mem, isOf⟩
    have notBefore : ¬ before.findIdx (fun other => store.isOf other id) < before.length := by
      rw [List.findIdx_lt_length]
      rintro ⟨other, mem', isOf'⟩
      rw [List.append_assoc] at nodup
      refine (List.nodup_append.mp nodup).2.2 other mem' name (List.mem_append_left _ mem) ?_
      exact eq_of_isOf isOf' isOf
    unfold typeRank
    rw [List.append_assoc, List.findIdx_append, if_neg notBefore, List.findIdx_append,
      if_pos (List.findIdx_lt_length.mpr ⟨name, mem, isOf⟩)]
  unfold byType
  rw [rank inside, rank inside', Nat.compare_eq_ite_lt, Nat.compare_eq_ite_lt]
  simp only [Nat.add_lt_add_iff_right]

/-- The entities of exactly one type, from a list or from the whole extent. -/
def part (store : Store) (source : Option (List EntityId)) (type : String) : List EntityId :=
  match source with
  | none => (store.scan type fun _ => true).toOption.getD []
  | some ids => ids.filter (store.isOf type)

theorem isOf_of_mem_part {source : Option (List EntityId)} {type : String}
    (mem : id ∈ store.part source type) : store.isOf type id = true := by
  cases source with
  | some ids => exact (List.mem_filter.mp mem).2
  | none =>
    unfold part at mem
    cases scanned : store.scan type fun _ => true with
    | error fault =>
      rw [scanned] at mem
      cases mem
    | ok ids =>
      rw [scanned] at mem
      obtain ⟨record, has, -⟩ := (mem_scan scanned).mp mem
      exact isOf_iff.mpr has.1

/-- The order in which a sort lists the entities that it takes for equal: by type, and
within a type by the order in which they come. -/
theorem ahead_parts (nodup : names.Nodup) (source : Option (List EntityId))
    (before : EntityId → EntityId → Prop) :
    names.Pairwise fun a b =>
      Ahead (Leads (store.byType names) before) (store.part source a) (store.part source b) := by
  refine List.pairwise_iff_getElem.mpr fun i j inside inside' earlier => ?_
  intro x mem y mem'
  refine .inl (Nat.compare_eq_lt.mpr ?_)
  rw [typeRank_eq nodup inside (isOf_of_mem_part mem),
    typeRank_eq nodup inside' (isOf_of_mem_part mem')]
  exact earlier

theorem pairwise_part {source : Option (List EntityId)} {before : EntityId → EntityId → Prop}
    {type : String} (came : (store.part source type).Pairwise before) :
    (store.part source type).Pairwise (Leads (store.byType names) before) := by
  refine came.imp_of_mem fun {x y} mem mem' related => .inr ⟨Nat.compare_eq_eq.mpr ?_, related⟩
  refine typeRank_eq_of_typeId (Option.some.inj ?_)
  exact (isOf_iff.mp (isOf_of_mem_part mem)).symm.trans (isOf_iff.mp (isOf_of_mem_part mem'))

theorem part_some (ids : List EntityId) (type : String) :
    store.part (some ids) type = ids.filter (store.isOf type) :=
  rfl

/-- The whole extent of a type has the entities of exactly this type. -/
theorem mem_part_none {type : String} :
    id ∈ store.part none type ↔ ∃ record, store.Has type id record := by
  unfold part
  cases scanned : store.scan type fun _ => true with
  | ok ids =>
    refine (mem_scan scanned).trans (exists_congr fun record => ?_)
    exact and_iff_left rfl
  | error fault =>
    refine ⟨nofun, fun ⟨record, has⟩ => ?_⟩
    simp only [scan, typeId, has.1, bind, Except.bind, pure, Except.pure] at scanned
    cases scanned

theorem ascending_part_none (type : String) : Ascending (store.part none type) := by
  unfold part
  cases scanned : store.scan type fun _ => true with
  | ok ids => exact ascending_scan scanned
  | error fault => exact ascending_nil

/-- Entities each of which is of one of some types are those in the parts of these types. -/
theorem perm_parts (nodup : names.Nodup) {ids : List EntityId}
    (inside : ∀ id ∈ ids, ∃ name ∈ names, store.isOf name id = true) :
    (names.flatMap (store.part (some ids))).Perm ids := by
  induction names generalizing ids with
  | nil =>
    cases ids with
    | nil => exact .refl _
    | cons id ids =>
      obtain ⟨_, none, -⟩ := inside id List.mem_cons_self
      cases none
  | cons name names ih =>
    obtain ⟨new, nodup⟩ := List.nodup_cons.mp nodup
    let others := ids.filter fun id => !store.isOf name id
    -- the parts of the other types are the same without the entities of the first type
    have same : ∀ other ∈ names, store.part (some ids) other = store.part (some others) other := by
      intro other mem
      rw [part_some, part_some, List.filter_filter]
      refine List.filter_congr fun id _ => ?_
      cases isOf : store.isOf other id with
      | false => rfl
      | true =>
        refine ((Bool.not_eq_true' _).mpr (Bool.eq_false_iff.mpr fun here => new ?_)).symm
        exact eq_of_isOf here isOf ▸ mem
    have rest : (names.flatMap (store.part (some ids))).Perm others := by
      rw [List.flatMap_congr same]
      refine ih nodup fun id mem => ?_
      obtain ⟨mem, notFirst⟩ := List.mem_filter.mp mem
      obtain ⟨other, mem, isOf⟩ := inside id mem
      rcases List.mem_cons.mp mem with rfl | mem
      · rw [isOf] at notFirst
        cases notFirst
      · exact ⟨other, mem, isOf⟩
    rw [List.flatMap_cons]
    exact (rest.append_left _).trans (List.filter_append_perm _ ids)

/-! ### Keys -/

/-- The value of a property of an entity, if it has a record with one. -/
def key (store : Store) (name : String) (id : EntityId) : Option Value :=
  (store.record? id).bind (·.property name)

theorem reads_property (store : Store) (name : String) :
    Sorting.Reads ((SortKey.property name).read store) (store.key name) := by
  intro id v read
  obtain ⟨record, found, answered⟩ := exists_of_bind_eq_ok read
  cases answered
  rw [key, record_eq_ok.mp found, Option.bind_some]

/-- Whether all values of a property are of one kind. -/
def OneKind (store : Store) (name : String) : Prop :=
  ∃ kind, Value.OfKind kind (store.key name)

/-- Whether the values of a property do not mix integers and floating-point numbers. -/
def Unmixed (store : Store) (name : String) : Prop :=
  Value.Unmixed (store.key name)

theorem OneKind.unmixed {name : String} (oneKind : store.OneKind name) : store.Unmixed name :=
  let ⟨_, ofKind⟩ := oneKind
  ofKind.unmixed

/-- What the records say of the values of a property. -/
theorem oneKind_of_records {name : String} (kind : Value.Kind)
    (ofKind : ∀ table ∈ store.tables, ∀ record ∈ table.records,
      ∀ v ∈ record.property name, v.kind = kind) : store.OneKind name := by
  refine ⟨kind, fun id v mem => ?_⟩
  obtain ⟨record, found, value⟩ := Option.bind_eq_some_iff.mp mem
  obtain ⟨table, at_type, at_place⟩ := Option.bind_eq_some_iff.mp found
  exact ofKind table (Array.mem_of_getElem? at_type) record (Array.mem_of_getElem? at_place) v value

end Store

/-! ### Sorting by type, and merging -/

namespace Session

variable {session : Session} {source : Option Listing} {property : String} {ascending : Bool}
  {before : EntityId → EntityId → Prop} {names : List String}

/-- The entities of exactly one type, from a listing or from the whole extent. -/
abbrev part (session : Session) (source : Option Listing) (type : String) : List EntityId :=
  session.store.part (source.map Listing.ids) type

/-- Whether a listing has the entities of some types, sorted stably. -/
structure SortedParts (session : Session) (source : Option Listing) (property : String)
    (ascending : Bool) (before : EntityId → EntityId → Prop) (names : List String)
    (listing : Listing) : Prop where
  failure : listing.failure = none
  sorts : Sorts (byKey ascending (session.store.key property)) before
    (names.flatMap (session.part source)) listing.ids

theorem yields_listing_length (listing : Listing) :
    session.Yields listing.size fun n => n = listing.ids.length := by
  unfold Listing.size
  split
  · exact yields_pure rfl
  · refine yields_bind (yields_listing_collect listing) ?_
    rintro ids rfl
    exact yields_pure rfl

theorem yields_extentOf_part (type : String) (source : Option Listing) :
    session.Yields (Backend.Memory.extentOf type source) fun ids =>
      ids = session.part source type := by
  cases source with
  | none =>
    have whole : session.Yields (reading (·.scan type fun _ => true)) fun ids =>
        session.store.scan type (fun _ => true) = .ok ids := yields_reading _
    refine whole.mono fun ids scanned => ?_
    show ids = session.store.part none type
    rw [Store.part, scanned]
    rfl
  | some source =>
    refine yields_bind (yields_reading _) fun typeId named => ?_
    refine yields_bind (yields_listing_collect source) ?_
    rintro ids rfl
    refine yields_pure ?_
    have known : session.store.typeId? type = some typeId := by
      unfold Store.typeId at named
      split at named
      case h_1 id found =>
        cases named
        exact found
      case h_2 => cases named
    refine List.filter_congr fun id _ => ?_
    rw [Store.isOf, known, Bool.eq_iff_iff, beq_iff_eq, beq_iff_eq, Option.some.injEq, eq_comm]

/-- The backend sorts the positions of the entities of one type. -/
theorem yields_sortType_positions (type : String) :
    session.Yields (session.engine.backend.sortType type property source ascending) fun listing =>
      listing.failure = none ∧
        ∃ order, Sorting.stablePositions .heavy (session.part source type).length
            (Sorting.byKeyAt ascending (session.store.key property) (session.part source type))
              = some order ∧
          listing.ids = order.filterMap ((session.part source type)[·]?) := by
  refine yields_bind_done (yields_countCall _) fun _ => ?_
  refine yields_bind_done (yields_reading _).done fun _ => ?_
  refine yields_bind (yields_extentOf_part type source) ?_
  rintro ids rfl
  refine yields_bind (yields_reading _) fun sorted found => ?_
  refine (yields_snapshot_whole sorted false).mono ?_
  rintro listing ⟨whole, rfl⟩
  exact ⟨whole,
    Sorting.exists_order_of_sortRanked (session.store.reads_property property) found⟩

/-- The backend sorts the entities of one type stably. -/
theorem yields_sortType_sorts {type : String} (unmixed : session.store.Unmixed property)
    (came : (session.part source type).Pairwise before) :
    session.Yields (session.engine.backend.sortType type property source ascending)
      (session.SortedParts source property ascending before [type]) := by
  refine (yields_sortType_positions type).mono ?_
  rintro listing ⟨whole, order, answered, ids⟩
  refine ⟨whole, ?_⟩
  have transitive := Sorting.transCmp_byKeyAt unmixed ascending
    (session.part source type)
  have stable := Sorting.stablySorts_stableSort .heavy List.pairwise_lt_range answered
  rw [List.flatMap_singleton, ids]
  exact stable.of_positions Sorting.byKeyAt_eq came

theorem items_of_whole {parts : List Listing} (whole : ∀ part ∈ parts, part.failure = none) :
    parts.map Listing.items = (parts.map Listing.ids).map (·.map .ok) := by
  rw [List.map_map]
  refine List.map_congr_left fun part mem => ?_
  rw [Listing.items, whole part mem]
  exact List.append_nil _

/-- The backend merges the entities of listings that do not fault. -/
theorem yields_mergeParts_runs {parts : List Listing}
    (whole : ∀ part ∈ parts, part.failure = none) :
    session.Yields (session.engine.mergeParts property ascending parts) fun merged =>
      merged.failure = none ∧
        merged.ids = Sorting.mergeRuns (byKey ascending (session.store.key property))
          (parts.map Listing.ids) := by
  refine yields_bind_done (yields_countWork _) fun _ => ?_
  refine yields_bind_done (yields_countCall _) fun _ => ?_
  refine yields_bind_done (yields_forM parts fun part _ => yields_start part) fun _ => ?_
  refine yields_bind (yields_reading _) fun merged found => ?_
  refine (yields_snapshot_whole merged false).mono ?_
  rintro listing ⟨whole', rfl⟩
  rw [items_of_whole whole] at found
  exact ⟨whole',
    Sorting.eq_mergeRuns_of_mergeRanked (session.store.reads_property property) found⟩

theorem perm_of_sortedParts {blocks : List (List String)} {parts : List Listing}
    (sorted : List.Forall₂ (session.SortedParts source property ascending before) blocks parts) :
    (parts.map Listing.ids).flatten.Perm
      (blocks.flatten.flatMap (session.part source)) := by
  induction sorted with
  | nil => exact .refl _
  | cons first _ ih =>
    rw [List.map_cons, List.flatten_cons, List.flatten_cons, List.flatMap_append]
    exact first.sorts.perm.append ih

theorem ahead_of_sortedParts {blocks : List (List String)} {parts : List Listing}
    (sorted : List.Forall₂ (session.SortedParts source property ascending before) blocks parts)
    (ahead : blocks.flatten.Pairwise fun a b =>
      Ahead before (session.part source a) (session.part source b)) :
    (parts.map Listing.ids).Pairwise (Ahead before) := by
  induction sorted with
  | nil => exact .nil
  | @cons block part blocks parts first rest ih =>
    rw [List.flatten_cons, List.pairwise_append] at ahead
    obtain ⟨-, later, between⟩ := ahead
    refine List.pairwise_cons.mpr ⟨fun ids mem x here y there => ?_, ih later⟩
    -- an entity of a later part is of one of the later types
    have others : y ∈ (parts.map Listing.ids).flatten :=
      List.mem_flatten.mpr ⟨ids, mem, there⟩
    obtain ⟨b, memB, inB⟩ := List.mem_flatMap.mp ((perm_of_sortedParts rest).subset others)
    obtain ⟨a, memA, inA⟩ := List.mem_flatMap.mp (first.sorts.perm.subset here)
    exact between a memA b memB x inA y inB

/-- Merging sorted parts, each of them of types ahead of the later ones, gives the entities
of all these types, sorted stably. -/
theorem yields_mergeParts_sorts [IsTrans EntityId before]
    (unmixed : session.store.Unmixed property) {blocks : List (List String)}
    {parts : List Listing}
    (sorted : List.Forall₂ (session.SortedParts source property ascending before) blocks parts)
    (ahead : blocks.flatten.Pairwise fun a b =>
      Ahead before (session.part source a) (session.part source b)) :
    session.Yields (session.engine.mergeParts property ascending parts)
      (session.SortedParts source property ascending before blocks.flatten) := by
  have ofBlock : ∀ part ∈ parts, ∃ block,
      session.SortedParts source property ascending before block part := by
    intro part mem
    obtain ⟨block, -, sorted'⟩ := exists_of_forall₂ sorted.flip mem
    exact ⟨block, sorted'⟩
  have wholeParts : ∀ part ∈ parts, part.failure = none := fun part mem =>
    let ⟨_, sorted'⟩ := ofBlock part mem
    sorted'.failure
  refine (yields_mergeParts_runs wholeParts).mono ?_
  rintro merged ⟨whole, ids⟩
  have ordered : ∀ run ∈ parts.map Listing.ids,
      run.Pairwise (Leads (byKey ascending (session.store.key property)) before) := by
    intro run mem
    obtain ⟨part, here, rfl⟩ := List.mem_map.mp mem
    obtain ⟨_, sorted'⟩ := ofBlock part here
    exact sorted'.sorts.ordered
  have transitive := Sorting.transCmp_byKey unmixed ascending
  have sorts := Sorting.sorts_mergeRuns ordered (ahead_of_sortedParts sorted ahead)
  rw [← ids] at sorts
  exact ⟨whole, sorts.perm.trans (perm_of_sortedParts sorted), sorts.ordered⟩

/-! ### Sorting a tree -/

section Unfolding

variable {P : List String → Listing → Prop} {all : List String}

/-- Types that unfold into a list are sorted one after the other, each with its subtypes.  What
the backend ensures when it sorts one type and when it merges holds of a block of the list for
each of them. -/
theorem yields_sortTypesWithin_blocks
    (own : ∀ name ∈ all, session.Yields
      (session.engine.backend.sortType name property source ascending) (P [name]))
    (merged : ∀ {blocks parts}, blocks.flatten.Sublist all → List.Forall₂ P blocks parts →
      session.Yields (session.engine.mergeParts property ascending parts) (P blocks.flatten))
    {types : List String} (unfolds : session.metadata.Unfolds types names)
    (within : names.Sublist all) (levels : Nat) :
    session.Yields
      (types.mapM fun type =>
        session.engine.sortTypesWithin levels type property source ascending) fun parts =>
      ∃ blocks, blocks.flatten = names ∧ List.Forall₂ P blocks parts := by
  induction unfolds generalizing levels with
  | nil => exact yields_pure ⟨[], rfl, .nil⟩
  | @cons type types below names unfolds _ ihBelow ih =>
    rw [List.mapM_cons]
    cases levels with
    | zero => exact yields_bind (yields_throw (P := fun _ => False) _) fun _ => False.elim
    | succ levels =>
      rw [← List.cons_append] at within
      have here : (type :: below).Sublist all := (List.sublist_append_left _ _).trans within
      have later : names.Sublist all := (List.sublist_append_right _ _).trans within
      have whole : session.Yields
          (session.engine.sortTypesWithin (levels + 1) type property source ascending)
          (P (type :: below)) := by
        refine yields_bind (own type (here.subset List.mem_cons_self)) fun listing ofType => ?_
        split
        case h_1 childless =>
          have none : session.metadata.directSubtypes type = [] := childless
          rw [none] at unfolds
          cases unfolds
          exact yields_pure ofType
        case h_2 =>
          refine yields_bind (ihBelow ((List.sublist_cons_self _ _).trans here) levels) ?_
          rintro parts ⟨blocks, rfl, ofBlocks⟩
          have inside : ([type] :: blocks).flatten.Sublist all := here
          exact merged inside (.cons ofType ofBlocks)
      refine yields_bind whole fun first ofFirst => ?_
      refine yields_bind (ih later (levels + 1)) ?_
      rintro parts ⟨blocks, rfl, ofBlocks⟩
      exact yields_pure ⟨(type :: below) :: blocks, rfl, .cons ofFirst ofBlocks⟩

/-- A hierarchy is sorted into what the backend ensures when it sorts one type and when it
merges. -/
theorem yields_sortTypes_unfolded {type : String}
    (unfolds : session.metadata.Unfolds [type] names)
    (own : ∀ name ∈ names, session.Yields
      (session.engine.backend.sortType name property source ascending) (P [name]))
    (merged : ∀ {blocks parts}, blocks.flatten.Sublist names → List.Forall₂ P blocks parts →
      session.Yields (session.engine.mergeParts property ascending parts) (P blocks.flatten)) :
    session.Yields (session.engine.sortTypes type property source ascending) (P names) := by
  intro s listing s' reached ran
  have single : [type].mapM (fun type => session.engine.sortTypesWithin
      (session.engine.metadata.subtypeNames.length + 1) type property source ascending) s
        = .ok [listing] s' := by
    have ran : session.engine.sortTypesWithin
      (session.engine.metadata.subtypeNames.length + 1) type property source ascending s
        = .ok listing s' := ran
    simp only [List.mapM_cons, List.mapM_nil, bind, EStateM.bind, ran, pure, EStateM.pure]
  obtain ⟨reached', blocks, rfl, ofBlocks⟩ :=
    yields_sortTypesWithin_blocks own merged unfolds (.refl _) _ reached single
  cases ofBlocks with
  | cons only none =>
    cases none
    rw [List.flatten_singleton]
    exact ⟨reached', only⟩

end Unfolding

/-- A hierarchy that is a tree is sorted stably: entities that compare as equal stand by
type, and those of one type in the order in which they come. -/
theorem yields_sortTypes_sorts [IsTrans EntityId before] {type : String}
    (tree : session.metadata.Tree type names) (unmixed : session.store.Unmixed property)
    (came : ∀ name ∈ names, (session.part source name).Pairwise before) :
    session.Yields (session.engine.sortTypes type property source ascending)
      (session.SortedParts source property ascending
        (Leads (session.store.byType names) before) names) := by
  have ahead : names.Pairwise fun a b => Ahead (Leads (session.store.byType names) before)
      (session.part source a) (session.part source b) := Store.ahead_parts tree.nodup _ before
  refine yields_sortTypes_unfolded tree.unfolds (fun name mem => ?_) fun {_ _} within sorted => ?_
  · exact yields_sortType_sorts unmixed (Store.pairwise_part (came name mem))
  · exact yields_mergeParts_sorts unmixed sorted (ahead.sublist within)

end Session

/-! ### Sorting again and again -/

/-- A sort step by a property of the entities. -/
structure PropertyOrder where
  name : String
  ascending : Bool
deriving DecidableEq, Repr, Inhabited

/-- The order as a sort step. -/
def PropertyOrder.step (order : PropertyOrder) : SortStep :=
  .property order.name order.ascending

namespace Store

variable {store : Store} {names : List String} {orders : List PropertyOrder}

/-- The comparison of entities by an order. -/
def compareBy (store : Store) (order : PropertyOrder) : Comparison EntityId :=
  byKey order.ascending (store.key order.name)

/-- How entities stand after sorts by several orders, the last sort first: by that order,
then by type, then as they stood before. -/
def Ranks (store : Store) (names : List String) : List PropertyOrder → EntityId → EntityId → Prop
  | [] => fun _ _ => True
  | order :: inner => Leads (store.compareBy order) (Leads (store.byType names) (Ranks store names inner))

/-- How entities stand after sorts by several orders, if it is known how they stood before the
first sort. -/
def RanksOver (store : Store) (names : List String) (before : EntityId → EntityId → Prop) :
    List PropertyOrder → EntityId → EntityId → Prop
  | [] => before
  | order :: inner =>
    Leads (store.compareBy order) (Leads (store.byType names) (RanksOver store names before inner))

theorem ranks_eq_ranksOver (store : Store) (names : List String) (orders : List PropertyOrder) :
    store.Ranks names orders = store.RanksOver names (fun _ _ => True) orders := by
  induction orders with
  | nil => rfl
  | cons order inner ih => rw [Ranks, RanksOver, ih]

/-- Sorts that follow other sorts. -/
theorem ranksOver_append (store : Store) (names : List String)
    (before : EntityId → EntityId → Prop) (outer inner : List PropertyOrder) :
    store.RanksOver names before (outer ++ inner)
      = store.RanksOver names (store.RanksOver names before inner) outer := by
  induction outer with
  | nil => rfl
  | cons order outer ih => rw [List.cons_append, RanksOver, RanksOver, ih]

/-- In which list of types they are ranked does not matter for entities that are compared alike by
type. -/
theorem ranksOver_of_byType {before : EntityId → EntityId → Prop} {names' : List String}
    {x y : EntityId} (alike : store.byType names x y = store.byType names' x y) :
    store.RanksOver names before orders x y ↔ store.RanksOver names' before orders x y := by
  induction orders with
  | nil => exact Iff.rfl
  | cons order inner ih => simp only [RanksOver, Leads, alike, ih]

theorem transCmp_compareBy {order : PropertyOrder} (unmixed : store.Unmixed order.name) :
    Std.TransCmp (store.compareBy order) :=
  Sorting.transCmp_byKey unmixed order.ascending

theorem isStrictTotalOrder_ranksOver {before : EntityId → EntityId → Prop}
    [IsStrictTotalOrder EntityId before] (unmixed : ∀ order ∈ orders, store.Unmixed order.name) :
    IsStrictTotalOrder EntityId (store.RanksOver names before orders) := by
  induction orders with
  | nil => assumption
  | cons order inner ih =>
    have transitive := transCmp_compareBy (unmixed order List.mem_cons_self)
    have below := ih fun other mem => unmixed other (.tail _ mem)
    exact inferInstanceAs (IsStrictTotalOrder EntityId
      (Leads (store.compareBy order)
        (Leads (store.byType names) (store.RanksOver names before inner))))

end Store

/-- Whether rows are listed by the backend, or known to be none. -/
def Rows.Listed : Rows → Prop
  | computed .. => False
  | _ => True

namespace Session

variable {session : Session} {before : EntityId → EntityId → Prop} {names : List String}
  {type : String} {rows : Rows} {extent : Effect Rows} {orders : List PropertyOrder}

/-- Whether rows are listed, and their entities are of some types and stand in an order. -/
structure Ranked (session : Session) (names : List String)
    (before : EntityId → EntityId → Prop) (rows : Rows) : Prop where
  listed : rows.Listed
  inside : ∀ id ∈ rows.ids, ∃ name ∈ names, session.store.isOf name id = true
  ordered : rows.ids.Pairwise before

theorem ranked_of_sortedParts {source : Option Listing} {property : String} {ascending : Bool}
    {listing : Listing}
    (sorted : session.SortedParts source property ascending before names listing) :
    session.Ranked names (Leads (byKey ascending (session.store.key property)) before)
      (.native listing) where
  listed := trivial
  inside id mem := by
    obtain ⟨name, memName, here⟩ := List.mem_flatMap.mp (sorted.sorts.perm.subset mem)
    exact ⟨name, memName, Store.isOf_of_mem_part here⟩
  ordered := sorted.sorts.ordered

/-- Sorting the listed rows of a tree by a property loses none of them. -/
theorem yields_sort_ranked [IsTrans EntityId before] {order : PropertyOrder}
    (tree : session.metadata.Tree type names) (unmixed : session.store.Unmixed order.name)
    (ranked : session.Ranked names before rows) :
    session.Yields (session.engine.sort extent type order.step (some rows)) fun sorted =>
      session.Ranked names
        (Leads (session.store.compareBy order) (Leads (session.store.byType names) before)) sorted ∧
        sorted.ids.Perm rows.ids := by
  cases rows with
  | computed stamp ids => exact absurd ranked.listed id
  | empty =>
    exact yields_pure ⟨⟨trivial, fun _ none => absurd none List.not_mem_nil, .nil⟩, .refl _⟩
  | native listing =>
    have came : ∀ name ∈ names, (session.part (some listing) name).Pairwise before :=
      fun name _ => ranked.ordered.filter _
    refine yields_bind (yields_sortTypes_sorts tree unmixed came) fun sorted parts => ?_
    refine yields_bind (yields_listing_length sorted) ?_
    rintro _ rfl
    refine yields_bind (yields_listing_length listing) ?_
    rintro _ rfl
    -- every entity is in the part of its type, so the backend has sorted them all
    have all : sorted.ids.Perm listing.ids :=
      parts.sorts.perm.trans (Store.perm_parts tree.nodup ranked.inside)
    rw [if_pos all.length_eq]
    exact yields_pure ⟨ranked_of_sortedParts parts, all⟩

/-- Sorting the listed rows of a tree by several properties, one after the other. -/
theorem yields_sortRows_ranked [IsTrans EntityId before]
    (tree : session.metadata.Tree type names)
    (unmixed : ∀ order ∈ orders, session.store.Unmixed order.name)
    (ranked : session.Ranked names before rows) :
    session.Yields (session.engine.sortRows extent type (orders.map PropertyOrder.step) rows)
      fun sorted =>
        session.Ranked names (session.store.RanksOver names before orders.reverse) sorted ∧
          sorted.ids.Perm rows.ids := by
  induction orders generalizing before rows with
  | nil => exact yields_pure ⟨ranked, .refl _⟩
  | cons order orders ih =>
    have first := unmixed order List.mem_cons_self
    have transitive := Store.transCmp_compareBy first
    unfold Engine.sortRows
    rw [List.map_cons, List.foldlM_cons]
    refine yields_bind (yields_sort_ranked tree first ranked) ?_
    rintro between ⟨ranked, same⟩
    rw [List.reverse_cons, Store.ranksOver_append]
    refine (ih (fun other mem => unmixed other (.tail _ mem)) ranked).mono ?_
    exact fun sorted ⟨ranked, same'⟩ => ⟨ranked, same'.trans same⟩

/-- Sorting the whole extent of a tree by several properties, one after the other, and at least
by one. -/
theorem yields_sortExtent_ranked [IsTrans EntityId before] {order : PropertyOrder}
    (tree : session.metadata.Tree type names)
    (unmixed : ∀ other ∈ order :: orders, session.store.Unmixed other.name)
    (came : ∀ name ∈ names, (session.part none name).Pairwise before) :
    session.Yields
      (session.engine.sortExtent extent type ((order :: orders).map PropertyOrder.step))
      fun sorted =>
        session.Ranked names (session.store.RanksOver names before (order :: orders).reverse) sorted ∧
          sorted.ids.Perm (names.flatMap (session.part none)) := by
  have first := unmixed order List.mem_cons_self
  have transitive := Store.transCmp_compareBy first
  refine yields_bind (P := fun sorted =>
    session.Ranked names
      (Leads (session.store.compareBy order) (Leads (session.store.byType names) before)) sorted ∧
      sorted.ids.Perm (names.flatMap (session.part none))) ?_ ?_
  · refine yields_bind (yields_sortTypes_sorts tree first came) fun sorted parts => ?_
    exact yields_pure ⟨ranked_of_sortedParts parts, parts.sorts.perm⟩
  · rintro between ⟨ranked, same⟩
    rw [List.reverse_cons, Store.ranksOver_append]
    have others := fun other mem => unmixed other (List.mem_cons_of_mem _ mem)
    refine (yields_sortRows_ranked tree others ranked).mono ?_
    exact fun sorted ⟨ranked, same'⟩ => ⟨ranked, same'.trans same⟩

end Session

end ExtentQuery

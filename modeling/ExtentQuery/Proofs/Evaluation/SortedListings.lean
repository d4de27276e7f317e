import ExtentQuery.Proofs.Evaluation.Chains
import ExtentQuery.Proofs.Evaluation.SortedQueries
import ExtentQuery.Proofs.Sorting.Ties

/-!
# Sorting a listing

A listing may hold entities of any type, in any order and several times.  Sorted by a
property of a type, it holds the same entities as often as before: those of the hierarchy of
the type are ordered by the property, and the others form a block of their own.

* `Store.perm_parts_filter`, `Store.filter_parts` — the parts of a listing, put together;
* `leftOver_eq_filter` — what the sorted parts lack;
* `Session.yields_sortTypes_permuted` — sorting a hierarchy loses nothing of its parts, also if
  types are reached several times and keys are mixed;
* `Session.yields_sortTypes_kept` — sorting a tree keeps the order of ties within a type;
* `Session.yields_sortListing_inside` — the entities of the hierarchy, and the others;
* `Session.listing_sorted` — a sorted listing.
-/

namespace ExtentQuery

open Effect
open Sorting (Comparison Keeps Ordered Sorts byKey)

namespace Store

variable {store : Store} {names : List String} {ids : List EntityId} {id : EntityId}

/-- Whether an entity is of one of some types. -/
def isOfAny (store : Store) (names : List String) (id : EntityId) : Bool :=
  names.any fun name => store.isOf name id

theorem isOfAny_iff : store.isOfAny names id = true ↔ ∃ name ∈ names, store.isOf name id = true :=
  List.any_eq_true

theorem isOfAny_eq_of_mem_iff {names' : List String} (same : ∀ name, name ∈ names ↔ name ∈ names') :
    store.isOfAny names = store.isOfAny names' := by
  funext id
  rw [Bool.eq_iff_iff, isOfAny_iff, isOfAny_iff]
  simp only [same]

theorem isOfAny_eq_of_typeId {x y : EntityId} (same : x.typeId = y.typeId) :
    store.isOfAny names x = store.isOfAny names y := by
  unfold isOfAny isOf
  rw [same]

/-- The parts of a list have the entities of their types. -/
theorem perm_parts_filter (nodup : names.Nodup) (ids : List EntityId) :
    (names.flatMap (store.part (some ids))).Perm (ids.filter (store.isOfAny names)) := by
  have same : ∀ name ∈ names, store.part (some ids) name
      = store.part (some (ids.filter (store.isOfAny names))) name := by
    intro name mem
    rw [part_some, part_some, List.filter_filter]
    refine List.filter_congr fun id _ => ?_
    cases here : store.isOf name id with
    | false => rfl
    | true => rw [isOfAny_iff.mpr ⟨name, mem, here⟩, Bool.and_true]
  rw [List.flatMap_congr same]
  exact perm_parts nodup fun id mem => isOfAny_iff.mp (List.mem_filter.mp mem).2

/-- Entities of one type come in the parts of a list in the order of the list. -/
theorem filter_parts {p : EntityId → Bool} (nodup : names.Nodup) (ids : List EntityId)
    (sameType : ∀ x y, p x = true → p y = true → x.typeId = y.typeId) :
    (names.flatMap (store.part (some ids))).filter p
      = (ids.filter (store.isOfAny names)).filter p := by
  induction names with
  | nil =>
    have none : ids.filter (store.isOfAny []) = [] :=
      List.filter_eq_nil_iff.mpr fun _ _ => Bool.false_ne_true
    rw [none, List.flatMap_nil]
  | cons name names ih =>
    obtain ⟨new, nodup⟩ := List.nodup_cons.mp nodup
    rw [List.flatMap_cons, List.filter_append, ih nodup, part_some]
    by_cases first : ∃ x, p x = true ∧ store.isOf name x = true
    · -- the entities that are picked are of the first type, and of no other one
      obtain ⟨x, picks, here⟩ := first
      have isOf : ∀ y, p y = true → store.isOf name y = true := fun y picks' => by
        rw [isOf_iff, ← sameType x y picks picks']
        exact isOf_iff.mp here
      have others : (ids.filter (store.isOfAny names)).filter p = [] := by
        refine List.filter_eq_nil_iff.mpr fun y mem picks' => new ?_
        obtain ⟨other, mem', there⟩ := isOfAny_iff.mp (List.mem_filter.mp mem).2
        exact eq_of_isOf (isOf y picks') there ▸ mem'
      rw [others, List.append_nil, List.filter_filter, List.filter_filter]
      refine List.filter_congr fun y _ => ?_
      cases picks' : p y with
      | false => rfl
      | true => rw [isOf y picks', isOfAny, List.any_cons, isOf y picks', Bool.true_or]
    · have none : (ids.filter (store.isOf name)).filter p = [] :=
        List.filter_eq_nil_iff.mpr fun y mem picks =>
          first ⟨y, picks, (List.mem_filter.mp mem).2⟩
      rw [none, List.nil_append, List.filter_filter, List.filter_filter]
      refine List.filter_congr fun y _ => ?_
      cases picks : p y with
      | false => rfl
      | true =>
        have notHere : store.isOf name y = false :=
          Bool.eq_false_iff.mpr fun here => first ⟨y, picks, here⟩
        rw [isOfAny, isOfAny, List.any_cons, notHere, Bool.false_or]

/-- The comparison of entities by their keys, and then by the places of their types. -/
def byKeyAndType (store : Store) (property : String) (ascending : Bool) (names : List String) :
    Comparison EntityId :=
  compareLex (byKey ascending (store.key property)) (store.byType names)

/-- Whether two entities are of one type and have keys that compare as equal. -/
def Alike (store : Store) (property : String) (ascending : Bool) (x y : EntityId) : Prop :=
  x.typeId = y.typeId ∧ byKey ascending (store.key property) x y = .eq

end Store

/-- What a sorted list lacks, if it has the entities of the source that satisfy a condition. -/
theorem leftOver_eq_filter {source covered : List EntityId} {p : EntityId → Bool}
    (perm : covered.Perm (source.filter p)) :
    leftOver source covered = source.filter fun id => !p id := by
  induction source generalizing covered with
  | nil => rfl
  | cons id source ih =>
    unfold leftOver
    cases holds : p id with
    | true =>
      rw [List.filter_cons_of_pos holds] at perm
      have mem : id ∈ covered := perm.symm.subset List.mem_cons_self
      have rest : (covered.erase id).Perm (source.filter p) := by
        have erased := perm.erase id
        rwa [List.erase_cons_head] at erased
      rw [if_pos (List.contains_iff_mem.mpr mem), ih rest,
        List.filter_cons_of_neg (by rw [holds]; exact Bool.false_ne_true)]
    | false =>
      rw [List.filter_cons_of_neg (by rw [holds]; exact Bool.false_ne_true)] at perm
      have notMem : covered.contains id ≠ true := by
        intro contained
        have picked := (List.mem_filter.mp (perm.subset (List.contains_iff_mem.mp contained))).2
        rw [holds] at picked
        cases picked
      rw [if_neg notMem, ih perm, List.filter_cons_of_pos (by rw [holds]; rfl)]

namespace Session

variable {session : Session} {source : Option Listing} {property type : String} {ascending : Bool}
  {names : List String}

/-! ### Sorting and merging the parts of a hierarchy -/

/-- Whether a listing has the entities of some types, each as often as types are listed. -/
structure PermutedParts (session : Session) (source : Option Listing) (names : List String)
    (listing : Listing) : Prop where
  failure : listing.failure = none
  perm : listing.ids.Perm (names.flatMap (session.part source))

theorem perm_of_permutedParts {blocks : List (List String)} {parts : List Listing}
    (permuted : List.Forall₂ (session.PermutedParts source) blocks parts) :
    (parts.map Listing.ids).flatten.Perm (blocks.flatten.flatMap (session.part source)) := by
  induction permuted with
  | nil => exact .refl _
  | cons first _ ih =>
    rw [List.map_cons, List.flatten_cons, List.flatten_cons, List.flatMap_append]
    exact first.perm.append ih

theorem whole_of_permutedParts {blocks : List (List String)} {parts : List Listing}
    (permuted : List.Forall₂ (session.PermutedParts source) blocks parts) :
    ∀ part ∈ parts, part.failure = none := by
  intro part mem
  obtain ⟨block, -, ofBlock⟩ := exists_of_forall₂ permuted.flip mem
  exact ofBlock.failure

theorem yields_sortType_permuted (name : String) :
    session.Yields (session.engine.backend.sortType name property source ascending)
      (session.PermutedParts source [name]) := by
  refine (yields_sortType_positions name).mono ?_
  rintro listing ⟨whole, order, answered, ids⟩
  refine ⟨whole, ?_⟩
  have positions := (Sorting.permutes_stableSort .heavy _ answered).filterMap
    ((session.part source name)[·]?)
  rwa [Sorting.filterMap_getElem?_range, ← ids, ← List.flatMap_singleton (session.part source)]
    at positions

theorem yields_mergeParts_permuted {blocks : List (List String)} {parts : List Listing}
    (permuted : List.Forall₂ (session.PermutedParts source) blocks parts) :
    session.Yields (session.engine.mergeParts property ascending parts)
      (session.PermutedParts source blocks.flatten) := by
  refine (yields_mergeParts_runs (whole_of_permutedParts permuted)).mono ?_
  rintro merged ⟨whole, ids⟩
  refine ⟨whole, ?_⟩
  rw [ids]
  exact (Sorting.mergeRuns_perm _ _).trans (perm_of_permutedParts permuted)

/-- Sorting a hierarchy gives the entities of all its types, one time for each time that the
unfolded hierarchy has their type. -/
theorem yields_sortTypes_permuted (unfolds : session.metadata.Unfolds [type] names) :
    session.Yields (session.engine.sortTypes type property source ascending)
      (session.PermutedParts source names) :=
  yields_sortTypes_unfolded unfolds (fun name _ => yields_sortType_permuted name)
    fun _ permuted => yields_mergeParts_permuted permuted

/-- Whether a listing has the entities of some types, and those of one type with equal keys in
the order in which they come. -/
structure KeptParts (session : Session) (source : Option Listing) (property : String)
    (ascending : Bool) (names : List String) (listing : Listing) : Prop
    extends session.PermutedParts source names listing where
  keeps : Keeps (session.store.Alike property ascending) (names.flatMap (session.part source))
    listing.ids

theorem yields_sortType_kept (unmixed : session.store.Unmixed property) (name : String) :
    session.Yields (session.engine.backend.sortType name property source ascending)
      (session.KeptParts source property ascending [name]) := by
  refine ((yields_sortType_permuted name).and (yields_sortType_positions name)).mono ?_
  rintro listing ⟨permuted, -, order, answered, ids⟩
  refine ⟨permuted, ?_⟩
  have transitive := Sorting.transCmp_byKeyAt unmixed ascending
    (session.part source name)
  have stable := Sorting.stablySorts_stableSort .heavy List.pairwise_lt_range answered
  rw [List.flatMap_singleton, ids]
  exact (stable.keeps_of_positions Sorting.byKeyAt_eq).mono fun _ _ alike => alike.2

theorem keeps_of_keptParts {blocks : List (List String)} {parts : List Listing}
    (kept : List.Forall₂ (session.KeptParts source property ascending) blocks parts) :
    Keeps (session.store.Alike property ascending)
      (blocks.flatten.flatMap (session.part source)) (parts.map Listing.ids).flatten := by
  induction kept with
  | nil => exact .refl _ _
  | cons first _ ih =>
    rw [List.map_cons, List.flatten_cons, List.flatten_cons, List.flatMap_append]
    exact first.keeps.append ih

/-- Entities of different parts are of different types, so they are not alike. -/
theorem unlike_of_keptParts {blocks : List (List String)} {parts : List Listing}
    (nodup : blocks.flatten.Nodup)
    (kept : List.Forall₂ (session.KeptParts source property ascending) blocks parts) :
    (parts.map Listing.ids).Pairwise fun left right => ∀ x ∈ left, ∀ y ∈ right,
      ¬ session.store.Alike property ascending x y := by
  induction kept with
  | nil => exact .nil
  | @cons block part blocks parts first rest ih =>
    rw [List.flatten_cons, List.nodup_append] at nodup
    obtain ⟨-, later, apart⟩ := nodup
    refine List.pairwise_cons.mpr ⟨fun ids mem x here y there alike => ?_, ih later⟩
    have permuted := rest.imp fun _ _ => KeptParts.toPermutedParts
    have others : y ∈ (parts.map Listing.ids).flatten := List.mem_flatten.mpr ⟨ids, mem, there⟩
    obtain ⟨a, memA, inA⟩ := List.mem_flatMap.mp (first.perm.subset here)
    obtain ⟨b, memB, inB⟩ :=
      List.mem_flatMap.mp ((perm_of_permutedParts permuted).subset others)
    have isOf : session.store.isOf a y = true := by
      rw [Store.isOf_iff, ← alike.1]
      exact Store.isOf_iff.mp (Store.isOf_of_mem_part inA)
    exact apart a memA b memB (Store.eq_of_isOf isOf (Store.isOf_of_mem_part inB))

theorem yields_mergeParts_kept {blocks : List (List String)} {parts : List Listing}
    (nodup : blocks.flatten.Nodup)
    (kept : List.Forall₂ (session.KeptParts source property ascending) blocks parts) :
    session.Yields (session.engine.mergeParts property ascending parts)
      (session.KeptParts source property ascending blocks.flatten) := by
  have permuted := kept.imp fun _ _ => KeptParts.toPermutedParts
  refine ((yields_mergeParts_permuted permuted).and
    (yields_mergeParts_runs (whole_of_permutedParts permuted))).mono ?_
  rintro merged ⟨permuted, -, ids⟩
  refine ⟨permuted, ?_⟩
  rw [ids]
  exact (keeps_of_keptParts kept).trans
    (Sorting.keeps_mergeRuns _ (unlike_of_keptParts nodup kept))

/-- Sorting a tree keeps the order of the entities of one type that have equal keys. -/
theorem yields_sortTypes_kept (tree : session.metadata.Tree type names)
    (unmixed : session.store.Unmixed property) :
    session.Yields (session.engine.sortTypes type property source ascending)
      (session.KeptParts source property ascending names) :=
  yields_sortTypes_unfolded tree.unfolds (fun name _ => yields_sortType_kept unmixed name)
    fun within kept => yields_mergeParts_kept (within.nodup tree.nodup) kept

/-! ### Listings -/

/-- Whether the type of an entity is a type or derives from it. -/
def covers (session : Session) (type : String) (id : EntityId) : Bool :=
  session.store.isOfAny (type :: session.metadata.closure type) id

theorem covers_eq_isOfAny (tree : session.metadata.Tree type names) :
    session.covers type = session.store.isOfAny names :=
  Store.isOfAny_eq_of_mem_iff fun _ => tree.mem_iff.symm

/-- Whether a list is a source sorted by a property of a type: it holds the entities of the
hierarchy in the order of their keys, and the others behind them or, when descending, before
them as they come. -/
structure SortedBlocks (session : Session) (type property : String) (ascending : Bool)
    (source ids : List EntityId) : Prop where
  perm : ids.Perm source
  blocks : ∃ inside, inside.Perm (source.filter (session.covers type)) ∧
    Ordered (byKey ascending (session.store.key property)) inside ∧
    ids = if ascending then inside ++ source.filter (fun id => !session.covers type id)
      else source.filter (fun id => !session.covers type id) ++ inside

/-- Whether, moreover, entities of one type with equal keys stay in their order. -/
structure SortedSource (session : Session) (type property : String) (ascending : Bool)
    (source ids : List EntityId) : Prop
    extends session.SortedBlocks type property ascending source ids where
  keeps : Keeps (session.store.Alike property ascending) source ids

/-- Entities that are picked from those in the hierarchy and from the others, if all that are
picked are in the hierarchy, or none of them is. -/
theorem filter_split {p c : EntityId → Bool}
    (both : ∀ x y, p x = true → p y = true → c x = c y) (ids : List EntityId) :
    ((ids.filter c).filter p = ids.filter p ∧ (ids.filter fun id => !c id).filter p = []) ∨
      ((ids.filter c).filter p = [] ∧ (ids.filter fun id => !c id).filter p = ids.filter p) := by
  rw [List.filter_filter, List.filter_filter]
  by_cases inside : ∃ x, p x = true ∧ c x = true
  · obtain ⟨x, picks, covered⟩ := inside
    have all : ∀ y, p y = true → c y = true := fun y picks' => both x y picks picks' ▸ covered
    refine .inl ⟨List.filter_congr fun y _ => ?_, List.filter_eq_nil_iff.mpr fun y _ found => ?_⟩
    · cases picks' : p y with
      | false => rfl
      | true => rw [all y picks', Bool.and_true]
    · obtain ⟨picks', notCovered⟩ := (Bool.and_eq_true _ _).mp found
      rw [all y picks'] at notCovered
      cases notCovered
  · refine .inr ⟨List.filter_eq_nil_iff.mpr fun y _ found => ?_, List.filter_congr fun y _ => ?_⟩
    · exact inside ⟨y, (Bool.and_eq_true _ _).mp found⟩
    · cases picks : p y with
      | false => rfl
      | true =>
        have notCovered : c y = false :=
          Bool.eq_false_iff.mpr fun covered => inside ⟨y, picks, covered⟩
        rw [notCovered]
        rfl

/-- The others go behind the sorted entities of the hierarchy, or before them. -/
theorem withLeftOver_eq {source sorted : List EntityId} {p : EntityId → Bool}
    (perm : sorted.Perm (source.filter p)) :
    withLeftOver source sorted ascending
      = if ascending then sorted ++ source.filter (fun id => !p id)
        else source.filter (fun id => !p id) ++ sorted := by
  rw [withLeftOver, leftOver_eq_filter perm]

/-- What a sorted list lacks of its source makes it complete. -/
theorem withLeftOver_perm {source sorted : List EntityId} {p : EntityId → Bool}
    (perm : sorted.Perm (source.filter p)) : (withLeftOver source sorted ascending).Perm source := by
  have all := (perm.append_right _).trans (List.filter_append_perm p source)
  rw [withLeftOver_eq perm]
  cases ascending with
  | true => exact all
  | false => exact List.perm_append_comm.trans all

theorem sortedBlocks_withLeftOver {source sorted : List EntityId}
    (perm : sorted.Perm (source.filter (session.covers type)))
    (ordered : Ordered (byKey ascending (session.store.key property)) sorted) :
    session.SortedBlocks type property ascending source (withLeftOver source sorted ascending) :=
  ⟨withLeftOver_perm perm, sorted, perm, ordered, withLeftOver_eq perm⟩

/-- The sorted entities of the hierarchy, with the others put where they belong. -/
theorem sortedSource_withLeftOver {source sorted : List EntityId}
    (perm : sorted.Perm (source.filter (session.covers type)))
    (ordered : Ordered (byKey ascending (session.store.key property)) sorted)
    (keeps : Keeps (session.store.Alike property ascending)
      (source.filter (session.covers type)) sorted) :
    session.SortedSource type property ascending source
      (withLeftOver source sorted ascending) := by
  refine ⟨sortedBlocks_withLeftOver perm ordered, fun p picked => ?_⟩
  have split := filter_split (c := session.covers type) (fun x y picks picks' =>
    Store.isOfAny_eq_of_typeId (picked x y picks picks').1) source
  rw [withLeftOver_eq perm]
  cases ascending with
  | true =>
    rw [if_pos rfl, List.filter_append, keeps p picked]
    rcases split with ⟨here, none⟩ | ⟨none, here⟩
    · rw [here, none, List.append_nil]
    · rw [none, here, List.nil_append]
  | false =>
    rw [if_neg Bool.false_ne_true, List.filter_append, keeps p picked]
    rcases split with ⟨here, none⟩ | ⟨none, here⟩
    · rw [here, none, List.nil_append]
    · rw [none, here, List.append_nil]

/-- What a sorted list of the entities of a tree is: they are ordered by their keys, and those
with equal keys by type, and those of one type with equal keys are as they come. -/
structure SortedInside (session : Session) (type property : String) (ascending : Bool)
    (names : List String) (source sorted : List EntityId) : Prop where
  perm : sorted.Perm (source.filter (session.covers type))
  ordered : Ordered (session.store.byKeyAndType property ascending names) sorted
  keeps : Keeps (session.store.Alike property ascending) (source.filter (session.covers type)) sorted

theorem SortedInside.sortedSource {source sorted : List EntityId}
    (inside : session.SortedInside type property ascending names source sorted) :
    session.SortedSource type property ascending source (withLeftOver source sorted ascending) :=
  sortedSource_withLeftOver inside.perm inside.ordered.of_lex inside.keeps

/-- Sorting the entities of a tree in a listing. -/
theorem yields_sortTypes_inside (tree : session.metadata.Tree type names)
    (unmixed : session.store.Unmixed property) (source : Listing) :
    session.Yields (session.engine.sortTypes type property (some source) ascending) fun sorted =>
      sorted.failure = none ∧
        session.SortedInside type property ascending names source.ids sorted.ids := by
  have came : ∀ name ∈ names, (session.part (some source) name).Pairwise fun _ _ => True :=
    fun _ _ => List.pairwise_of_forall fun _ _ => trivial
  refine ((yields_sortTypes_sorts tree unmixed came).and
    (yields_sortTypes_kept tree unmixed)).mono ?_
  rintro sorted ⟨parts, kept⟩
  refine ⟨kept.failure, ?_, parts.sorts.ordered.imp Sorting.isLE_compareLex_of_leads, ?_⟩ <;>
    rw [covers_eq_isOfAny tree]
  · exact kept.perm.trans (Store.perm_parts_filter tree.nodup source.ids)
  · intro p picked
    rw [kept.keeps p picked]
    exact Store.filter_parts tree.nodup source.ids fun x y picks picks' =>
      (picked x y picks picks').1

/-- Sorting a listing is sorting the entities of a tree, and putting the others where they
belong. -/
theorem yields_sortListing_inside (tree : session.metadata.Tree type names)
    (unmixed : session.store.Unmixed property) (source : Listing) :
    session.Yields (session.engine.sortListing type property source ascending) fun rows =>
      ∃ sorted, rows.ids = withLeftOver source.ids sorted ascending ∧
        session.SortedInside type property ascending names source.ids sorted := by
  refine yields_bind (yields_sortTypes_inside tree unmixed source) ?_
  rintro sorted ⟨-, inside⟩
  refine yields_bind (yields_listing_length sorted) ?_
  rintro _ rfl
  refine yields_bind (yields_listing_length source) ?_
  rintro _ rfl
  split
  case isTrue sameLength =>
    -- all entities are in the hierarchy, so nothing is left over
    have nothing : leftOver source.ids sorted.ids = [] := by
      rw [leftOver_eq_filter inside.perm]
      refine List.filter_eq_nil_iff.mpr fun id mem notCovered => ?_
      have all := List.length_filter_eq_length_iff.mp
        (inside.perm.length_eq.symm.trans sameLength) id mem
      rw [all] at notCovered
      cases notCovered
    refine yields_pure ⟨sorted.ids, ?_, inside⟩
    rw [withLeftOver, nothing]
    cases ascending with
    | true => exact (List.append_nil _).symm
    | false => exact (List.nil_append _).symm
  case isFalse =>
    refine yields_bind (yields_listing_collect source) ?_
    rintro _ rfl
    refine yields_bind (yields_listing_collect sorted) ?_
    rintro _ rfl
    exact (yields_ofIds _).mono fun rows made => ⟨sorted.ids, made.1, inside⟩

theorem yields_sortListing_sorted (tree : session.metadata.Tree type names)
    (unmixed : session.store.Unmixed property) (source : Listing) :
    session.Yields (session.engine.sortListing type property source ascending) fun rows =>
      session.SortedSource type property ascending source.ids rows.ids := by
  refine (yields_sortListing_inside tree unmixed source).mono ?_
  rintro rows ⟨sorted, ids, inside⟩
  rw [ids]
  exact inside.sortedSource

end Session

/-- A listing that is sorted by a property of a type loses nothing and keeps the order of ties
within each type; the entities outside the hierarchy of the type form one block. -/
theorem Session.listing_sorted (session : Session) {type property : String} {ascending : Bool}
    {source : Listing} {s s' : State} {ids : List EntityId}
    (single : session.metadata.SingleChains type) (oneKind : session.store.OneKind property)
    (reached : session.Reaches s)
    (ran : (do (← session.engine.sortProperty type property (some (.native source))
      ascending).collect) s = .ok ids s') :
    session.SortedSource type property ascending source.ids ids := by
  obtain ⟨names, tree⟩ := Metadata.exists_tree_iff.mpr single
  have sorted : session.Yields
      (session.engine.sortProperty type property (some (.native source)) ascending) fun rows =>
        session.SortedSource type property ascending source.ids rows.ids :=
    yields_sortListing_sorted tree oneKind.unmixed source
  exact (yields_then_collect (P := session.SortedSource type property ascending source.ids) sorted
    reached ran).2

/-- A session over animals, cats, which are animals, and chairs, which are not. -/
def Session.household : Session where
  metadata := animals.metadata
  settings := .default
  start := .initial
    { tables :=
        #[⟨"animal", #[⟨[("age", .int 3)], [], []⟩, ⟨[("age", .int 2)], [], []⟩]⟩,
          ⟨"cat", #[⟨[("age", .int 2)], [], []⟩]⟩,
          ⟨"chair", #[⟨[("age", .int 1)], [], []⟩]⟩]
      failure := none
      searchesLinks := true
      ordersByTargets := true }
    (.create 16 false 1)

/-- A chair, a cat, two animals, and the cat again. -/
def Listing.mixed : Listing :=
  ⟨0, .snapshot false, [⟨2, 0⟩, ⟨1, 0⟩, ⟨0, 0⟩, ⟨0, 1⟩, ⟨1, 0⟩], none, 5⟩

set_option maxRecDepth 10000 in
/-- The animals are listed by age, the cat as often as before, and then the chair. -/
theorem Session.listing_sorted_mixed :
    household.metadata.SingleChains "animal" ∧ household.store.OneKind "age" ∧
      ∃ s, (do (← household.engine.sortProperty "animal" "age" (some (.native .mixed))
          true).collect) household.start
            = .ok [⟨0, 1⟩, ⟨1, 0⟩, ⟨1, 0⟩, ⟨0, 0⟩, ⟨2, 0⟩] s ∧
        household.SortedSource "animal" "age" true Listing.mixed.ids
          [⟨0, 1⟩, ⟨1, 0⟩, ⟨1, 0⟩, ⟨0, 0⟩, ⟨2, 0⟩] := by
  have single := Metadata.exists_tree_iff.mp ⟨_, tree_weighed⟩
  have oneKind : household.store.OneKind "age" := Store.oneKind_of_records .int (by decide)
  have sorted : EStateM.run' (do (← household.engine.sortProperty "animal" "age"
      (some (.native .mixed)) true).collect) household.start
        = some [⟨0, 1⟩, ⟨1, 0⟩, ⟨1, 0⟩, ⟨0, 0⟩, ⟨2, 0⟩] := by decide +kernel
  obtain ⟨s, ran⟩ := Effect.exists_of_run' sorted
  exact ⟨single, oneKind, s, ran, household.listing_sorted single oneKind .refl ran⟩

end ExtentQuery

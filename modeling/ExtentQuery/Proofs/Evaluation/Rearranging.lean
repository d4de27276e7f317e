import ExtentQuery.Proofs.Evaluation.LinkSorts
import ExtentQuery.Proofs.Evaluation.SortPaths
import ExtentQuery.Proofs.Evaluation.SortedExtents
import ExtentQuery.Proofs.Evaluation.Standing
import ExtentQuery.Proofs.Sorting.Interleaving

/-!
# Sort steps rearrange

Whatever is known of the keys, a sort step lists the entities of the rows that it sorts, each as
often as they do.  It does not matter whether the values can be compared, which method sorts, or
which way is taken.  Only a sort by a property of the entities asks for something: it walks over a
hierarchy, and this has to be a tree.

* `Sorting.perm_of_sortRanked` — sorting in memory;
* `Session.Treelike` — hierarchies over which some steps can be applied;
* `Session.yields_sort_rearranged`, `Session.yields_sortRows_rearranged` — sort steps;
* `Session.yields_sortProperty_extent` — the whole extent of a tree, sorted by a property.

**In a hierarchy that is not a tree**, an entity is sorted once for each chain of subtypes that
leads to its type, and then listed as often.
-/

namespace ExtentQuery

open Effect

/-! ### Sorting in memory -/

/-- Whatever the method and the comparison, an answer consists of all positions. -/
theorem Sorting.Method.perm_positions {method : Method} {length : Nat} {cmp : Comparison Nat}
    {order : List Nat} (found : method.positions length cmp = some order) :
    order.Perm (List.range length) := by
  cases method with
  | merge =>
    cases found
    exact mergeSort_perm fanIn length cmp
  | stable => exact permutes_stableSort .light cmp found
  | heap =>
    cases found
    exact heapSort_perm length cmp

/-- Sorting by keys permutes, also if the keys contradict one another. -/
theorem Sorting.perm_of_sortRanked {method : Method} {reader : KeyReader} {ascending : Bool}
    {ids sorted : List EntityId}
    (found : sortRanked method.positions reader ascending ids = .ok sorted) :
    sorted.Perm ids := by
  obtain ⟨order, answered, rfl⟩ := exists_order_of_sortRanked (reads_readKey reader) found
  have all := (Method.perm_positions answered).filterMap (ids[·]?)
  rwa [filterMap_getElem?_range] at all

/-! ### Rows -/

/-- Whether rows are not taken to be in the order of identities unless they are. -/
def Rows.Truthful (rows : Rows) : Prop :=
  rows.inIdOrder = true → Ascending rows.ids

/-- Whether rows list what others list, each entity as often. -/
structure Rows.Rearranged (source rows : Rows) : Prop where
  perm : rows.ids.Perm source.ids
  truthful : rows.Truthful

theorem Rows.Rearranged.trans {source rows rows' : Rows} (first : source.Rearranged rows)
    (second : rows.Rearranged rows') : source.Rearranged rows' :=
  ⟨second.perm.trans first.perm, second.truthful⟩

namespace Session

variable {session : Session} {type property : String} {ascending : Bool} {names : List String}
  {rows : Rows} {steps : List SortStep}

/-! ### By a supplied key -/

theorem yields_sortList_perm (ids : List EntityId) (key : SortKey) (ascending : Bool) :
    session.Yields (session.engine.sortList ids key ascending) fun sorted => sorted.Perm ids := by
  refine yields_bind (yields_reading _) fun sorted found => ?_
  exact yields_bind_done (yields_countWork _) fun _ =>
    yields_pure (Sorting.perm_of_sortRanked found)

theorem yields_ofIds_rearranged {ids : List EntityId} (perm : ids.Perm rows.ids) :
    session.Yields (Rows.ofIds ids) rows.Rearranged := by
  refine (yields_ofIds ids).mono ?_
  rintro made ⟨same, truthful⟩
  exact ⟨same ▸ perm, truthful⟩

theorem yields_sortKeyed_rearranged (rows : Rows) (key : SortKey) (ascending : Bool) :
    session.Yields (session.engine.sortKeyed rows key ascending) rows.Rearranged := by
  unfold Engine.sortKeyed
  split
  · exact yields_pure ⟨.refl _, fun _ => ascending_nil⟩
  · refine yields_bind (yields_collect _) ?_
    rintro ids rfl
    exact yields_bind (yields_sortList_perm _ key ascending) fun _ perm =>
      yields_ofIds_rearranged perm

/-! ### By a property behind a link -/

theorem yields_orderByTargets_rearranged (request : TargetOrder) :
    session.Yields (session.engine.backend.orderByTargets request) fun answer =>
      ∀ listing ∈ answer, (Rows.native request.source).Rearranged (.native listing) := by
  refine (yields_orderByTargets request).mono fun answer orders listing handed => ?_
  obtain ⟨-, unordered, perm⟩ := orders listing handed
  exact ⟨perm, fun known => absurd (unordered.symm.trans known) (by decide)⟩

theorem yields_askForOrder_rearranged (targetType property type link : String) (rows : Rows)
    (ascending : Bool) :
    session.Yields (session.engine.askForOrder targetType property type link rows ascending)
      fun answer => ∀ listing ∈ answer, rows.Rearranged (.native listing) := by
  cases rows with
  | empty | computed => exact yields_pure nofun
  | native listing =>
    dsimp only [Engine.askForOrder]
    split
    · refine yields_bind_done (yields_withProperty targetType property) fun keyed => ?_
      refine yields_bind_done (yields_sortTypes _ _ _ _).done fun targets => ?_
      split
      · exact yields_pure nofun
      · refine yields_bind (yields_orderByTargets_rearranged _) fun answer rearranged => ?_
        exact yields_bind_done (yields_countWork _) fun _ => yields_pure rearranged
    · exact yields_pure nofun

theorem yields_sortLinked_rearranged (targetType property type link : String) (rows : Rows)
    (ascending : Bool) :
    session.Yields (session.engine.sortLinked targetType property type link rows ascending)
      rows.Rearranged := by
  rw [Engine.sortLinked_eq]
  refine yields_bind (yields_askForOrder_rearranged targetType property type link rows ascending)
    fun answer rearranged => ?_
  cases answer with
  | some listing => exact yields_pure (rearranged listing rfl)
  | none => exact yields_sortKeyed_rearranged rows _ ascending

/-! ### By a property of the entities -/

section Tree

variable (tree : session.metadata.Tree type names)

include tree

/-- The entities of a tree in a listing, and the others where they belong. -/
theorem yields_sortListing_perm (source : Listing) :
    session.Yields (session.engine.sortListing type property source ascending) fun sorted =>
      sorted.ids.Perm source.ids := by
  refine yields_bind (yields_sortTypes_permuted tree.unfolds) fun sorted permuted => ?_
  have inside : sorted.ids.Perm (source.ids.filter (session.store.isOfAny names)) :=
    permuted.perm.trans (Store.perm_parts_filter tree.nodup source.ids)
  refine yields_bind (yields_listing_length sorted) ?_
  rintro _ rfl
  refine yields_bind (yields_listing_length source) ?_
  rintro _ rfl
  split
  case isTrue sameLength =>
    have all := List.length_filter_eq_length_iff.mp (inside.length_eq.symm.trans sameLength)
    rw [List.filter_eq_self.mpr all] at inside
    exact yields_pure inside
  case isFalse =>
    refine yields_bind (yields_listing_collect source) ?_
    rintro _ rfl
    refine yields_bind (yields_listing_collect sorted) ?_
    rintro _ rfl
    exact (yields_ofIds _).mono fun made same => same.1 ▸ withLeftOver_perm inside

omit tree in
/-- What is read of an extent, whatever this has, and the others where they belong. -/
theorem yields_sortByExtent_perm (ids : List EntityId) :
    session.Yields (session.engine.sortByExtent type property ids ascending) fun sorted =>
      sorted.ids.Perm ids := by
  refine yields_bind_done (yields_sortTypes _ _ _ _).done fun listing => ?_
  refine yields_bind_done (yields_listing_collect listing).done fun extent => ?_
  have inside : (Engine.inOrderOf extent ids).Perm (ids.filter fun id => extent.contains id) :=
    Engine.inOrderOf_perm fun _ _ => List.contains_iff_mem.symm
  exact (yields_ofIds _).mono fun made same => same.1 ▸ withLeftOver_perm inside

theorem yields_sortProperty_rearranged (rows : Rows) :
    session.Yields (session.engine.sortProperty type property (some rows) ascending)
      rows.Rearranged := by
  have perm : session.Yields (session.engine.sortProperty type property (some rows) ascending)
      fun sorted => sorted.ids.Perm rows.ids := by
    cases rows with
    | empty => exact yields_pure (.refl _)
    | native listing => exact yields_sortListing_perm tree listing
    | computed stamp ids =>
      simp only [Engine.sortProperty]
      split
      · exact yields_bind (yields_sortList_perm ids _ ascending) fun _ perm =>
          (yields_ofIds _).mono fun _ made => made.1 ▸ perm
      · exact yields_sortByExtent_perm ids
  exact (perm.and (yields_sortProperty type property (some rows) ascending)).mono
    fun _ both => ⟨both.1, both.2⟩

/-- The whole extent of a tree, sorted by a property, has the entities of the hierarchy, none of
them twice. -/
theorem yields_sortProperty_extent :
    session.Yields (session.engine.sortProperty type property none ascending) fun rows =>
      rows.Distinct ∧ ∀ id, id ∈ rows.ids ↔ session.inHierarchy type id = true := by
  have parts : session.Yields (session.engine.sortProperty type property none ascending)
      fun rows => rows.ids.Perm (names.flatMap (session.store.part none)) :=
    yields_bind (yields_sortTypes_permuted tree.unfolds) fun _ permuted =>
      yields_pure permuted.perm
  refine (parts.and (yields_sortProperty type property none ascending)).mono ?_
  rintro rows ⟨perm, truthful⟩
  have mem_iff : ∀ id, id ∈ rows.ids ↔ session.inHierarchy type id = true := by
    intro id
    rw [perm.mem_iff, List.mem_flatMap, inHierarchy_iff]
    exact exists_congr fun name => and_congr tree.mem_iff Store.mem_part_none
  refine ⟨⟨List.nodup_iff_count_le_one.mpr fun id => ?_, truthful⟩, mem_iff⟩
  by_cases mem : id ∈ rows.ids
  · obtain ⟨name, -, record, has⟩ := inHierarchy_iff.mp ((mem_iff id).mp mem)
    rw [perm.count_eq, Store.count_parts_none has]
    exact List.nodup_iff_count_le_one.mp tree.nodup name
  · rw [List.count_eq_zero.mpr mem]
    exact Nat.zero_le 1

end Tree

/-! ### Sort steps of any kind -/

/-- Whether a hierarchy is a tree, if one of some steps sorts it by a property of the entities. -/
def Treelike (session : Session) (type : String) (steps : List SortStep) : Prop :=
  ∀ step ∈ steps, (PropertyOrder.ofStep? step).isSome = true →
    ∃ names, session.metadata.Tree type names

theorem treelike_append {steps' : List SortStep} : session.Treelike type (steps ++ steps') ↔
    session.Treelike type steps ∧ session.Treelike type steps' :=
  List.forall_mem_append

theorem Treelike.subset {steps' : List SortStep} (treelike : session.Treelike type steps)
    (fewer : steps' ⊆ steps) : session.Treelike type steps' :=
  fun step mem => treelike step (fewer mem)

/-- A part of a tree is a tree. -/
theorem Treelike.of_isSubtype {narrower : String} (treelike : session.Treelike type steps)
    (below : session.metadata.isSubtype narrower type = true) :
    session.Treelike narrower steps := by
  intro step mem byProperty
  obtain ⟨names, tree⟩ := treelike step mem byProperty
  have mem : narrower ∈ names :=
    tree.mem_iff.mpr (Metadata.mem_family_of_isSubtype below List.mem_cons_self)
  obtain ⟨_, block, _, -, subtree⟩ := tree.exists_subtree mem
  exact ⟨block, subtree⟩

variable {extent : Effect Rows}

/-- A sort step rearranges the rows that it sorts. -/
theorem yields_sort_rearranged {step : SortStep} (treelike : session.Treelike type [step])
    (rows : Rows) :
    session.Yields (session.engine.sort extent type step (some rows)) rows.Rearranged := by
  cases step with
  | property name ascending =>
    obtain ⟨names, tree⟩ := treelike _ List.mem_cons_self rfl
    exact yields_sortProperty_rearranged tree rows
  | linkedProperty targetType property link ascending =>
    exact yields_sortLinked_rearranged targetType property type link rows ascending
  | key number label key ascending => exact yields_sortKeyed_rearranged rows key ascending

/-- Sort steps one after the other rearrange rows. -/
theorem yields_sortRows_rearranged (treelike : session.Treelike type steps)
    (truthful : rows.Truthful) :
    session.Yields (session.engine.sortRows extent type steps rows) rows.Rearranged := by
  refine yields_foldlM (fun _ => rows.Rearranged) steps (fun _ sorted step mem rearranged => ?_)
    ⟨.refl _, truthful⟩
  have one : session.Treelike type [step] :=
    treelike.subset (List.cons_subset.mpr ⟨mem, List.nil_subset _⟩)
  exact (yields_sort_rearranged one sorted).mono fun _ => rearranged.trans

end Session

end ExtentQuery

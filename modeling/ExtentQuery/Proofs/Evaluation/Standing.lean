import ExtentQuery.Proofs.Evaluation.SortedQueries
import ExtentQuery.Proofs.Rewriting.Orders

/-!
# The only order of an answer

A query of conditions selects certain entities, and its sort steps leave nothing open about
their order: entities that all steps take for equal stand by type, and entities of one type in
the order of identities.  So there is one list only that a query can be answered with.

* `Session.Arranged` — a list that holds the entities that are admitted, in the order that sort
  steps put them in, and `Session.Arranged.ids_eq`, there is one such list only;
* `Query.Settled` — queries all of whose sort steps are taken out;
* `Session.yields_answerOptimized_standing` — the engine answers with such rows;
* `Session.evaluate_standing` — and so does a selection that is evaluated;
* `Session.yields_filter_standing` — filtering such rows keeps their order, and sort steps go
  on top of it.

**Which steps come first.**  A query says in which order its steps apply, unless two operands that
commute have steps both.  The cache may hold the query with the operands exchanged, so of such a
query it is known only which steps apply, but not in which order (`Query.lone`).
-/

namespace ExtentQuery

open Effect
open Rewrite (Optimized maxHoisted)

/-! ### Sort steps by properties -/

namespace PropertyOrder

/-- The order of a sort step that sorts by a property of the entities. -/
def ofStep? : SortStep → Option PropertyOrder
  | .property name ascending => some ⟨name, ascending⟩
  | _ => none

theorem step_eq_of_ofStep? {step : SortStep} {order : PropertyOrder}
    (found : ofStep? step = some order) : step = order.step := by
  cases step <;> cases found
  rfl

theorem filterMap_ofStep? (orders : List PropertyOrder) :
    (orders.map step).filterMap ofStep? = orders := by
  rw [List.filterMap_map]
  exact List.filterMap_some

theorem map_step_filterMap {steps : List SortStep}
    (all : (steps.all fun step => (ofStep? step).isSome) = true) :
    (steps.filterMap ofStep?).map step = steps := by
  induction steps with
  | nil => rfl
  | cons step steps ih =>
    obtain ⟨first, rest⟩ := (Bool.and_eq_true _ _).mp all
    obtain ⟨order, found⟩ := Option.isSome_iff_exists.mp first
    rw [List.filterMap_cons_some found, List.map_cons, ih rest, ← step_eq_of_ofStep? found]

end PropertyOrder

namespace Query

variable {a b q : Query}

/-- Whether all sort steps of a query are by properties of the entities. -/
def byProperties (q : Query) : Bool :=
  q.orders.all fun step => (PropertyOrder.ofStep? step).isSome

/-- The orders of these steps. -/
def propertyOrders (q : Query) : List PropertyOrder :=
  q.orders.filterMap PropertyOrder.ofStep?

theorem map_propertyOrders (byProperties : q.byProperties = true) :
    q.propertyOrders.map PropertyOrder.step = q.orders :=
  PropertyOrder.map_step_filterMap byProperties

theorem eq_of_alike {order order' : SortStep} (alike : order.Alike order')
    (byProperty : (PropertyOrder.ofStep? order').isSome = true) : order = order' := by
  obtain ⟨other, found⟩ := Option.isSome_iff_exists.mp byProperty
  rw [PropertyOrder.step_eq_of_ofStep? found] at alike ⊢
  exact PropertyOrder.eq_of_alike alike

theorem byProperties_of_perm (same : a.orders.Perm b.orders)
    (byProperties : b.byProperties = true) : a.byProperties = true :=
  (same.all_eq).trans byProperties

/-- The order of operands shows in the order of the sort steps only if two operands that
commute have steps both. -/
theorem orders_of_commuted (commuted : a.Commuted b) (byProperties : b.byProperties = true) :
    a.orders.Perm b.orders ∧ (b.lone = true → a.lone = true ∧ a.orders = b.orders) := by
  have both : ∀ {l r : List SortStep},
      ((l ++ r).all fun step => (PropertyOrder.ofStep? step).isSome) = true →
        (l.all fun step => (PropertyOrder.ofStep? step).isSome) = true ∧
          (r.all fun step => (PropertyOrder.ofStep? step).isSome) = true := by
    intro l r all
    rw [List.all_append] at all
    exact (Bool.and_eq_true _ _).mp all
  induction commuted with
  | refl q => exact ⟨.refl _, fun lone => ⟨lone, rfl⟩⟩
  | trans _ _ first second =>
    obtain ⟨same, rest⟩ := second byProperties
    obtain ⟨same', start⟩ := first (byProperties_of_perm same byProperties)
    refine ⟨same'.trans same, fun lone => ?_⟩
    obtain ⟨between, orders⟩ := rest lone
    exact ⟨(start between).1, (start between).2.trans orders⟩
  | inter_comm l r | union_comm l r =>
    refine ⟨List.perm_append_comm, fun lone => ?_⟩
    simp only [Query.lone, Bool.and_eq_true, Bool.or_eq_true, List.isEmpty_iff] at lone
    obtain ⟨⟨right, left⟩, none | none⟩ := lone <;>
      simp [Query.lone, Query.orders, left, right, none]
  | root _ ih | compl _ ih => exact ih byProperties
  | inter _ _ ihl ihr | union _ _ ihl ihr =>
    obtain ⟨left, right⟩ := both byProperties
    obtain ⟨sameLeft, loneLeft⟩ := ihl left
    obtain ⟨sameRight, loneRight⟩ := ihr right
    refine ⟨sameLeft.append sameRight, fun lone => ?_⟩
    simp only [Query.lone, Bool.and_eq_true] at lone
    obtain ⟨⟨left, right⟩, none⟩ := lone
    obtain ⟨left, ordersLeft⟩ := loneLeft left
    obtain ⟨right, ordersRight⟩ := loneRight right
    simp only [Query.lone, Query.orders, left, right, ordersLeft, ordersRight, none, Bool.and_self,
      and_self]
  | diff _ _ ihl ihr | concat _ _ ihl ihr =>
    obtain ⟨left, right⟩ := both byProperties
    obtain ⟨sameLeft, loneLeft⟩ := ihl left
    obtain ⟨sameRight, loneRight⟩ := ihr right
    refine ⟨sameLeft.append sameRight, fun lone => ?_⟩
    obtain ⟨left, right⟩ := (Bool.and_eq_true _ _).mp lone
    obtain ⟨left, ordersLeft⟩ := loneLeft left
    obtain ⟨right, ordersRight⟩ := loneRight right
    simp only [Query.lone, Query.orders, left, right, ordersLeft, ordersRight, Bool.and_self,
      and_self]
  | sort alike _ ih =>
    obtain ⟨byProperty, rest⟩ := (Bool.and_eq_true _ _).mp byProperties
    obtain rfl := eq_of_alike alike byProperty
    obtain ⟨same, start⟩ := ih rest
    exact ⟨same.cons _, fun lone => ⟨(start lone).1, congrArg (_ :: ·) (start lone).2⟩⟩
  | linkedInto => exact ⟨.refl _, fun lone => ⟨rfl, rfl⟩⟩

/-! ### Conditions with sort steps -/

/-- Whether all leaves of a query are conditions other than ranges, and it has no
concatenation.  Sort steps may stand anywhere. -/
def orderly (q : Query) : Bool :=
  (Interpretation.allNodes (isLookUp fun _ _ => false) true false).of q

theorem conditional_of_orderly (orderly : q.orderly = true) (unsorted : q.unsorted = true) :
    q.conditional = true := by
  rw [Query.unsorted, ← Interpretation.allNodes_true] at unsorted
  exact Interpretation.allNodes_of_both (fun _ _ lookUp _ => lookUp) (fun _ unsorted => unsorted)
    (fun _ _ => rfl) orderly unsorted

theorem keepsOrder_of_orderly (orderly : q.orderly = true) : q.keepsOrder = true := by
  rw [← allNodes_keepsOrder]
  refine Interpretation.allNodes_mono (fun leaf _ lookUp => ?_) id id orderly
  cases leaf <;> first | rfl | cases lookUp

theorem legible_of_orderly (orderly : q.orderly = true) : q.legible = true := by
  rw [← allLeaves_legible, ← Interpretation.allNodes_true]
  exact Interpretation.allNodes_mono (fun _ _ => legible_of_isLookUp) id (fun _ => rfl) orderly

theorem orderly_splitSorts (orderly : q.orderly = true) : q.splitSorts.2.orderly = true := by
  induction q with
  | sort order c ih => exact ih orderly
  | _ => exact orderly

theorem orderly_of_commuted (commuted : a.Commuted b) : a.orderly = b.orderly :=
  (leafInvariant_isLookUp _).fair_allNodes.toCommutes.of_commuted (fun _ _ _ _ => rfl) commuted

/-- The sort steps of a query whose steps are at its top. -/
theorem Topped.orders_eq (topped : q.Topped) : q.orders = q.splitSorts.1 := by
  induction q with
  | sort order c ih => exact congrArg (order :: ·) (ih topped)
  | _ => exact orders_eq_nil_iff.mpr topped

/-- A query of conditions that is sorted by properties, without concatenations, whose sort steps
all come to be applied to the whole answer: there is room to take them out, or they are at the
top anyway. -/
structure Settled (q : Query) : Prop where
  orderly : q.orderly = true
  byProperties : q.byProperties = true
  lifted : q.orders.length ≤ maxHoisted ∨ q.Topped

end Query

namespace Session

variable {session : Session} {type : String} {names : List String} {orders : List PropertyOrder}
  {admitted : EntityId → Bool} {rows rows' : Rows} {q : Query} {id : EntityId}

/-! ### Entities in their only order -/

/-- Whether a list holds the entities that are admitted, and these stand as sorts by several orders
put entities that come in the order of identities. -/
structure Arranged (session : Session) (names : List String) (orders : List PropertyOrder)
    (admitted : EntityId → Bool) (ids : List EntityId) : Prop where
  contains : ∀ id, ids.contains id = admitted id
  ordered : ids.Pairwise (session.store.RanksOver names EntityId.Precedes orders)

/-- Whether the backend lists rows, and they are arranged. -/
structure Standing (session : Session) (names : List String) (orders : List PropertyOrder)
    (admitted : EntityId → Bool) (rows : Rows) : Prop extends
    session.Arranged names orders admitted rows.ids where
  listed : rows.Listed

section Arranged

variable {ids ids' : List EntityId}

theorem Arranged.mem_iff (arranged : session.Arranged names orders admitted ids) :
    id ∈ ids ↔ admitted id = true := by
  rw [← arranged.contains id, List.contains_iff_mem]

theorem Arranged.nodup (arranged : session.Arranged names orders admitted ids)
    (unmixed : ∀ order ∈ orders, session.store.Unmixed order.name) : ids.Nodup :=
  have : IsStrictTotalOrder EntityId (session.store.RanksOver names EntityId.Precedes orders) :=
    Store.isStrictTotalOrder_ranksOver unmixed
  arranged.ordered.nodup

/-- There is only one list of what is admitted, in the order of the sorts. -/
theorem Arranged.ids_eq (one : session.Arranged names orders admitted ids)
    (other : session.Arranged names orders admitted ids')
    (unmixed : ∀ order ∈ orders, session.store.Unmixed order.name) : ids = ids' := by
  have : IsStrictTotalOrder EntityId (session.store.RanksOver names EntityId.Precedes orders) :=
    Store.isStrictTotalOrder_ranksOver unmixed
  refine List.Pairwise.eq_of_mem_iff one.ordered other.ordered fun id => ?_
  rw [one.mem_iff, other.mem_iff]

/-- What is admitted of a hierarchy can be put in the order of the sorts. -/
theorem exists_arranged (inside : ∀ id, admitted id = true → session.inHierarchy type id = true)
    (unmixed : ∀ order ∈ orders, session.store.Unmixed order.name) :
    ∃ ids, session.Arranged names orders admitted ids := by
  classical
  have : IsStrictTotalOrder EntityId (session.store.RanksOver names EntityId.Precedes orders) :=
    Store.isStrictTotalOrder_ranksOver unmixed
  let linear := linearOrderOfSTO (session.store.RanksOver names EntityId.Precedes orders)
  let whole := (session.types type).flatMap (session.store.part none)
  refine ⟨(whole.filter admitted).toFinset.sort (· ≤ ·), fun id => ?_,
    (Finset.sortedLT_sort _).pairwise⟩
  rw [Bool.eq_iff_iff, List.contains_iff_mem, Finset.mem_sort, List.mem_toFinset, List.mem_filter,
    and_iff_right_of_imp]
  intro here
  obtain ⟨each, mem, record, has⟩ := inHierarchy_iff.mp (inside id here)
  exact List.mem_flatMap.mpr ⟨each, mem, Store.mem_part_none.mpr ⟨record, has⟩⟩

/-- Whichever sorts put it in order, what is admitted is the same. -/
theorem Arranged.perm {orders' : List PropertyOrder}
    (one : session.Arranged names orders admitted ids)
    (other : session.Arranged names orders' admitted ids')
    (unmixed : ∀ order ∈ orders, session.store.Unmixed order.name)
    (unmixed' : ∀ order ∈ orders', session.store.Unmixed order.name) : ids.Perm ids' := by
  rw [List.perm_ext_iff_of_nodup (one.nodup unmixed) (other.nodup unmixed')]
  exact fun id => one.mem_iff.trans other.mem_iff.symm

end Arranged

theorem Standing.congr {admitted' : EntityId → Bool}
    (standing : session.Standing names orders admitted rows)
    (same : ∀ id, admitted id = admitted' id) : session.Standing names orders admitted' rows where
  contains id := (standing.contains id).trans (same id)
  ordered := standing.ordered
  listed := standing.listed

/-! ### Evaluating and sorting -/

variable {nested : Engine.Nested}

/-- Whether a hierarchy is a tree, if there is something to be sorted. -/
abbrev SortsTree (session : Session) (type : String) (names : List String)
    (orders : List PropertyOrder) : Prop :=
  orders ≠ [] → session.metadata.Tree type names

/-- A query without sort steps is answered in the order of identities. -/
theorem yields_evaluate_standing (names : List String) (orderly : q.orderly = true)
    (unsorted : q.unsorted = true) :
    session.Yields (session.engine.evaluate nested q type)
      (session.Standing names [] (session.admits type q)) := by
  have conditional := Query.conditional_of_orderly orderly unsorted
  have unranged := Query.unranged_of_conditional conditional
  have plain := Query.plain_of_unranged unranged
  rw [Engine.evaluate_congr nested session.engine.answer unranged]
  refine (((yields_evaluate_listed unranged).and
    (yields_evaluate_finds answersNested_answer plain)).and
    (yields_evaluate_ordered answersNested_answer plain (Query.keepsOrder_of_orderly orderly))).mono
    ?_
  rintro rows ⟨⟨listed, finds⟩, ascending⟩
  exact ⟨⟨fun id => (finds id).eq_admits conditional, ascending⟩, listed⟩

/-- Sorts go on top of the order in which rows stand. -/
theorem yields_sortRows_standing {extent : Effect Rows} {outer : List PropertyOrder}
    (tree : session.SortsTree type names outer)
    (unmixed : ∀ order ∈ outer ++ orders, session.store.Unmixed order.name)
    (inside : ∀ id, admitted id = true → session.inHierarchy type id = true)
    (standing : session.Standing names orders admitted rows) :
    session.Yields
      (session.engine.sortRows extent type (outer.reverse.map PropertyOrder.step) rows)
      (session.Standing names (outer ++ orders) admitted) := by
  by_cases none : outer = []
  · subst none
    exact yields_pure standing
  have tree := tree none
  have before : IsStrictTotalOrder EntityId
      (session.store.RanksOver names EntityId.Precedes orders) :=
    Store.isStrictTotalOrder_ranksOver fun order mem =>
      unmixed order (List.mem_append_right _ mem)
  have ranked : session.Ranked names
      (session.store.RanksOver names EntityId.Precedes orders) rows :=
    ⟨standing.listed, fun id mem => isOf_of_inHierarchy tree (inside id (standing.mem_iff.mp mem)),
      standing.ordered⟩
  refine (yields_sortRows_ranked tree (fun order mem => unmixed order ?_) ranked).mono ?_
  · exact List.mem_append_left _ (List.mem_reverse.mp mem)
  · rintro sorted ⟨ranked, same⟩
    rw [List.reverse_reverse, ← Store.ranksOver_append] at ranked
    exact ⟨⟨fun id => same.contains_eq.trans (standing.contains id), ranked.ordered⟩,
      ranked.listed⟩

/-- The whole extent of a tree, sorted. -/
theorem yields_sortExtent_standing {extent : Effect Rows}
    (tree : session.metadata.Tree type names) (sorted : orders ≠ [])
    (unmixed : ∀ order ∈ orders, session.store.Unmixed order.name) :
    session.Yields
      (session.engine.sortExtent extent type (orders.reverse.map PropertyOrder.step))
      (session.Standing names orders (session.admits type .all)) := by
  obtain ⟨first, others, reverse⟩ :=
    List.exists_cons_of_ne_nil (mt List.reverse_eq_nil_iff.mp sorted)
  have unmixed' : ∀ order ∈ first :: others, session.store.Unmixed order.name := fun order mem =>
    unmixed order (List.mem_reverse.mp (reverse ▸ mem))
  rw [reverse]
  refine (yields_sortExtent_ranked tree unmixed' fun name _ =>
    Store.ascending_part_none name).mono ?_
  rintro rows ⟨ranked, same⟩
  rw [← reverse, List.reverse_reverse] at ranked
  refine ⟨⟨fun id => ?_, ranked.ordered⟩, ranked.listed⟩
  rw [Bool.eq_iff_iff, List.contains_iff_mem, same.mem_iff, List.mem_flatMap]
  constructor
  · rintro ⟨name, mem, here⟩
    obtain ⟨record, has⟩ := Store.mem_part_none.mp here
    exact admits_all (inHierarchy_iff.mpr ⟨name, tree.mem_iff.mp mem, record, has⟩)
  · intro admitted
    obtain ⟨name, mem, record, has⟩ := inHierarchy_iff.mp (inHierarchy_of_admits admitted)
    exact ⟨name, tree.mem_iff.mpr mem, Store.mem_part_none.mpr ⟨record, has⟩⟩

/-! ### Answering -/

/-- What optimization has to leave of a query, so that its answer stands in the order of some sort
steps: conditions below the steps. -/
structure Lifted (session : Session) (type : String) (q : Query) (orders : List PropertyOrder)
    (optimized : Optimized) : Prop where
  orderly : optimized.steps.1.orderly = true
  unsorted : optimized.steps.1.unsorted = true
  steps : optimized.steps.2 = orders.reverse.map PropertyOrder.step
  admits : ∀ id, session.admits type optimized.steps.1 id = session.admits type q id

theorem yields_answerOptimized_standing {optimized : Optimized}
    (lifted : session.Lifted type q orders optimized)
    (tree : session.SortsTree type names orders)
    (unmixed : ∀ order ∈ orders, session.store.Unmixed order.name) :
    session.Yields (session.engine.answerOptimized nested type optimized)
      (session.Standing names orders (session.admits type q)) := by
  obtain ⟨orderly, unsorted, steps, admits⟩ := lifted
  have counted : ∀ rows : Rows,
      session.Standing names orders (session.admits type optimized.steps.1) rows →
      session.Yields
        (do
          countWork Work.instantiation
          pure rows) (session.Standing names orders (session.admits type q)) :=
    fun rows standing => yields_bind_done (yields_countWork _) fun _ =>
      yields_pure (standing.congr admits)
  unfold Engine.answerOptimized
  generalize optimized.steps = result at orderly unsorted steps counted ⊢
  obtain ⟨body, orders'⟩ := result
  simp only at orderly unsorted steps counted ⊢
  split
  case h_1 order rest =>
    have sorted : orders ≠ [] := by
      rintro rfl
      cases steps
    rw [steps]
    exact yields_bind (yields_sortExtent_standing (tree sorted) sorted unmixed) counted
  case h_2 =>
    subst steps
    refine yields_bind (yields_evaluate_standing names orderly unsorted) ?_
    intro rows standing
    have unmixed' : ∀ order ∈ orders ++ [], session.store.Unmixed order.name := by
      rwa [List.append_nil]
    have sorted : session.Yields
        (session.engine.sortRows (nested type .all) type (orders.reverse.map PropertyOrder.step)
          rows) (session.Standing names (orders ++ []) (session.admits type body)) :=
      yields_sortRows_standing tree unmixed' (fun _ => inHierarchy_of_admits) standing
    rw [List.append_nil] at sorted
    exact yields_bind sorted counted

/-- Sort steps do not change what is admitted. -/
theorem admits_splitSorts (q : Query) (id : EntityId) :
    session.admits type q.splitSorts.2 id = session.admits type q id := by
  induction q with
  | sort order c ih => exact ih
  | _ => rfl

/-- What is known of the steps of an optimized query.  If operands that commute have steps both,
it may be that the steps of the operands are exchanged. -/
theorem lifted_of_optimizes (type : String) {optimized : Optimized} (settled : q.Settled)
    (optimizes : session.Optimizes q optimized) :
    ∃ orders, session.Lifted type q orders optimized ∧ orders.Perm q.propertyOrders ∧
      (q.lone = true → orders = q.propertyOrders) := by
  have admits : ∀ id, session.admits type optimized.query.splitSorts.2 id
      = session.admits type q id := fun id =>
    (admits_splitSorts _ id).trans (admits_of_optimizes optimizes)
  obtain ⟨q', notices, commuted, found⟩ := optimizes
  obtain ⟨same, lone⟩ := Query.orders_of_commuted commuted settled.byProperties
  have orderly : optimized.query.orderly = true :=
    Rewrite.optimize_allNodes (leafInvariant_isLookUp _) found
      ((Query.orderly_of_commuted commuted).trans settled.orderly)
  have taken : optimized.steps.1.unsorted = true ∧ optimized.steps.2 = q'.orders.reverse := by
    rcases settled.lifted with few | topped
    · obtain ⟨unsorted, hoisted⟩ := Rewrite.orders_optimize found (same.length_eq.trans_le few)
      rw [Optimized.steps, Query.splitSorts_of_unsorted unsorted]
      exact ⟨unsorted, hoisted⟩
    · -- what is sorted is the same up to the order of operands
      have split : q.splitSorts.1 = q.propertyOrders.map PropertyOrder.step := by
        rw [← topped.orders_eq, Query.map_propertyOrders settled.byProperties]
      obtain ⟨-, below⟩ := Query.splitSorts_of_commuted commuted split
      have topped' : q'.Topped :=
        ((Interpretation.commutes_allLeaves _ _).of_commuted (fun _ _ _ _ => rfl) below).trans
          topped
      obtain ⟨kept, same⟩ := Rewrite.steps_optimize found topped'
      exact ⟨kept, topped'.orders_eq ▸ same⟩
  refine ⟨q'.propertyOrders, ⟨Query.orderly_splitSorts orderly, taken.1, ?_, admits⟩,
    same.filterMap _, fun isLone => congrArg (List.filterMap _) (lone isLone).2⟩
  rw [taken.2, List.map_reverse,
    Query.map_propertyOrders (Query.byProperties_of_perm same settled.byProperties)]

/-! ### Selections -/

theorem remembersNothing_sortRows (extent : Effect Rows) (orders : List PropertyOrder)
    (rows : Rows) : RemembersNothing
      (session.engine.sortRows extent type (orders.map PropertyOrder.step) rows) := by
  have each : ∀ (rows : Rows) (order : PropertyOrder),
      RemembersNothing (session.engine.sort extent type order.step (some rows)) :=
    fun rows order => remembersNothing_sortProperty type order.name (some rows) order.ascending
  unfold Engine.sortRows
  rw [List.foldlM_map]
  exact remembersNothing_foldlM each orders rows

theorem remembersNothing_answerLifted {optimized : Optimized}
    (lifted : session.Lifted type q orders optimized) :
    RemembersNothing (session.engine.answerOptimized nested type optimized) := by
  have counted : ∀ rows : Rows, RemembersNothing (do
      countWork Work.instantiation
      pure rows) := fun rows =>
    (remembersNothing_countWork _).bind fun _ => remembersNothing_pure rows
  have conditional := Query.conditional_of_orderly lifted.orderly lifted.unsorted
  have steps := lifted.steps
  unfold Engine.answerOptimized
  generalize optimized.steps = result at conditional steps ⊢
  obtain ⟨body, orders'⟩ := result
  simp only at conditional steps ⊢
  subst steps
  split
  case h_1 order rest innermost =>
    obtain ⟨first, others, -, rfl, rfl⟩ := List.map_eq_cons_iff.mp innermost
    refine RemembersNothing.bind ?_ counted
    exact (remembersNothing_sortProperty type first.name none first.ascending).bind
      fun rows => remembersNothing_sortRows _ others rows
  case h_2 =>
    exact (remembersNothing_evaluate (Query.unranged_of_conditional conditional) type).bind
      fun rows => (remembersNothing_sortRows _ _ rows).bind counted

section Selections

variable {stamp : Nat} {s s' : State}

/-- An optimized query, answered: what the answer lists, and that nothing is remembered. -/
theorem answerOptimized_standing {optimized : Optimized} (sound : session.Sound s)
    (settled : q.Settled) (optimizes : session.Optimizes q optimized)
    (tree : session.SortsTree type names q.propertyOrders)
    (unmixed : ∀ order ∈ q.propertyOrders, session.store.Unmixed order.name)
    (ran : session.engine.answerOptimized nested type optimized s = .ok rows s') :
    session.Sound s' ∧ s.SameMemory s' ∧
      ∃ orders, orders.Perm q.propertyOrders ∧ (q.lone = true → orders = q.propertyOrders) ∧
        session.Standing names orders (session.admits type q) rows := by
  obtain ⟨orders, lifted, same, lone⟩ := lifted_of_optimizes type settled optimizes
  have quiet := remembersNothing_answerLifted lifted ran
  have tree' : session.SortsTree type names orders := fun sorted =>
    tree fun none => sorted (List.perm_nil.mp (none ▸ same))
  have unmixed' : ∀ order ∈ orders, session.store.Unmixed order.name :=
    fun order mem => unmixed order (same.subset mem)
  obtain ⟨reached, standing⟩ :=
    yields_answerOptimized_standing lifted tree' unmixed' sound.reached ran
  exact ⟨sound.of_sameMemory quiet reached, quiet, orders, same, lone, standing⟩

/-- A selection that waits for its evaluation, evaluated: what it lists, and what the evaluation
leaves behind. -/
theorem evaluate_standing (sound : session.Sound s) (settled : q.Settled)
    (fits : session.Fits s stamp q) (tree : session.SortsTree type names q.propertyOrders)
    (unmixed : ∀ order ∈ q.propertyOrders, session.store.Unmixed order.name)
    (ran : (Selection.deferred stamp type q).evaluate session.engine s = .ok rows s') :
    session.Sound s' ∧
      (∃ orders, orders.Perm q.propertyOrders ∧ (q.lone = true → orders = q.propertyOrders) ∧
        session.Standing names orders (session.admits type q) rows) ∧
      ∀ stamp' q', session.Fits s stamp' q' → (stamp' = stamp → q' = q) →
        session.Fits s' stamp' q' := by
  obtain ⟨optimized, s₁, optimizing, answering⟩ := Effect.exists_of_bind ran
  obtain ⟨sound₁, optimizes, others⟩ :=
    sound.optimizeOnce (Query.legible_of_orderly settled.orderly) fits optimizing
  obtain ⟨sound', quiet, standing⟩ :=
    answerOptimized_standing sound₁ settled optimizes tree unmixed answering
  exact ⟨sound', standing, fun stamp' q' other apart =>
    (others stamp' q' other apart).of_sameMemory quiet⟩

/-- The same for a query that is answered at once. -/
theorem answer_standing (sound : session.Sound s) (settled : q.Settled)
    (tree : session.SortsTree type names q.propertyOrders)
    (unmixed : ∀ order ∈ q.propertyOrders, session.store.Unmixed order.name)
    (ran : session.engine.answer type q s = .ok rows s') :
    session.Sound s' ∧
      (∃ orders, orders.Perm q.propertyOrders ∧ (q.lone = true → orders = q.propertyOrders) ∧
        session.Standing names orders (session.admits type q) rows) ∧
      ∀ stamp' q', session.Fits s stamp' q' → session.Fits s' stamp' q' := by
  obtain ⟨optimized, s₁, optimizing, answering⟩ := Effect.exists_of_bind ran
  obtain ⟨sound₁, optimizes, memo, grows⟩ :=
    sound.optimize (Query.legible_of_orderly settled.orderly) optimizing
  obtain ⟨sound', quiet, standing⟩ :=
    answerOptimized_standing sound₁ settled optimizes tree unmixed answering
  refine ⟨sound', standing, fun stamp' q' other => Fits.of_sameMemory ?_ quiet⟩
  exact ⟨Nat.lt_of_lt_of_le other.handedOut grows, memo ▸ other.decided⟩

end Selections

/-! ### Filtering -/

/-- What a filter begins with is sorted, whether it is there at once or not. -/
theorem yields_finishFilter {P Q : Rows → Prop} {beginning : Engine.Beginning}
    {start : Effect Rows} (begins : beginning = .now start ∨ beginning = .later start)
    {steps : List SortStep} (first : session.Yields start P)
    (sorts : ∀ rows, P rows → session.Yields
      (session.engine.sortRows (nested type .all) type steps rows) Q) :
    session.Yields (session.engine.finishFilter nested type beginning steps) Q := by
  have sorted : session.Yields
      (do
        let rows ← session.engine.sortRows (nested type .all) type steps (← start)
        countWork .instantiation
        return rows) Q :=
    yields_bind first fun rows holds => yields_bind (sorts rows holds) fun sorted holds =>
      yields_bind_done (yields_countWork _) fun _ => yields_pure holds
  rcases begins with rfl | rfl
  · exact sorted
  · cases steps with
    | cons => exact sorted
    | nil =>
      refine yields_bind_done (yields_countWork _) fun _ => ?_
      intro s rows s' reached ran
      obtain ⟨reached', holds⟩ := first reached ran
      exact ⟨reached', (sorts rows holds reached' rfl).2⟩

/-- Rows in their only order that are filtered by an optimized query keep it, and the sort steps of
the query go on top of it. -/
theorem yields_filter_standing {optimized : Optimized} {source : Rows}
    {outer : List PropertyOrder} (lifted : session.Lifted type q outer optimized)
    (tree : session.SortsTree type names outer)
    (unmixed : ∀ order ∈ outer ++ orders, session.store.Unmixed order.name)
    (inside : ∀ id, admitted id = true → session.inHierarchy type id = true)
    (standing : session.Standing names orders admitted source) :
    session.Yields
      (session.engine.finishFilter nested type
        (session.engine.beginFilter nested type optimized.steps.1 (.rows source) (pure source))
        optimized.steps.2)
      (session.Standing names (outer ++ orders)
        fun id => session.admits type q id && admitted id) := by
  have both : ∀ id, (session.admits type q id && admitted id) = true →
      session.inHierarchy type id = true := fun id admitted =>
    inside id ((Bool.and_eq_true _ _).mp admitted).2
  have sorts : ∀ rows, session.Standing names orders
        (fun id => session.admits type q id && admitted id) rows →
      session.Yields
        (session.engine.sortRows (nested type .all) type optimized.steps.2 rows)
        (session.Standing names (outer ++ orders)
          fun id => session.admits type q id && admitted id) := by
    intro rows standing
    rw [lifted.steps]
    exact yields_sortRows_standing tree unmixed both standing
  unfold Engine.beginFilter
  split
  case isTrue whole =>
    -- all rows pass, and all of them are in the whole extent
    refine yields_finishFilter (.inr rfl) (yields_pure (standing.congr fun id => ?_)) sorts
    cases here : admitted id with
    | false => rw [Bool.and_false]
    | true => rw [← lifted.admits, whole, admits_all (inside id here), Bool.and_self]
  split
  case isTrue empty =>
    obtain rfl := Rows.eq_empty_of_knownEmpty empty
    refine yields_finishFilter (.inl rfl) (yields_pure (standing.congr fun id => ?_)) sorts
    rw [← standing.contains id]
    exact (Bool.and_false _).symm
  case isFalse =>
    refine yields_finishFilter (.inl rfl) ?_ sorts
    rw [pure_bind]
    refine yields_bind (yields_evaluate_standing names lifted.orderly lifted.unsorted) ?_
    intro unfiltered filter
    refine yields_bind_done (yields_countWork _) fun _ => ?_
    refine ((yields_combine .inter source unfiltered).and
      (yields_combine_listed .inter standing.listed filter.listed)).mono ?_
    rintro rows ⟨combines, listed⟩
    refine ⟨⟨fun id => ?_, ?_⟩, listed⟩
    · rw [combines.contains id, standing.contains id, filter.contains id, lifted.admits]
      exact Bool.and_comm _ _
    · rw [combines.ids (by decide)]
      exact standing.ordered.filter _

end Session

end ExtentQuery

import ExtentQuery.Proofs.Evaluation.Splicing

/-!
# Both sides of a concatenation

A concatenation is optimized and answered side by side: a side is never joined with the other
one, and its entities come in one piece, type by type or not.  Sort steps are the exception.
They are taken out of both sides and sort the whole, which then consists of the same entities,
but not of one side after the other.

* `Session.yields_evaluate_sifted` — what a query lists whose sort steps stay where they are;
* `Session.yields_answerOptimized_concat` — what is answered for a concatenation;
* `Session.concatenated_agrees` — the answer against the two sides, evaluated as they are;
* `Session.concatenated_disagrees` — a sorted side that the other one is mixed into.

**No entity twice.**  Each side lists an entity at most once, also if it is sorted, so it is enough
to know which entities a side selects.  Both sides may list the same entity.
-/

namespace ExtentQuery

open Effect
open Rewrite (Optimized maxHoisted)

namespace Query

variable {q l r : Query}

theorem not_spansTypes_of_isLookUp {leaf : Query}
    (lookUp : leaf.isLookUp (fun _ _ => false) = true) : (!leaf.spansTypes) = true := by
  cases leaf <;> first | rfl | cases lookUp

theorem spansTypes_of_orderly (orderly : q.orderly = true) : q.spansTypes = false :=
  spansTypes_of_allLeaves (Interpretation.allNodes_mono (fun _ _ => not_spansTypes_of_isLookUp) id
    (fun _ => rfl) orderly)

/-- A query that looks at one type at a time is not sorted. -/
theorem unsorted_of_typeLocal (typeLocal : q.typeLocal = true) : q.unsorted = true := by
  rw [← allNodes_typeLocal] at typeLocal
  exact Interpretation.allNodes_mono (fun _ _ _ => rfl) id (fun _ => rfl) typeLocal

/-- Exchanging operands leaves the sides of a concatenation in their places. -/
theorem exists_of_commuted_concat (commuted : q.Commuted (.concat l r)) :
    ∃ l' r', q = .concat l' r' ∧ l'.Commuted l ∧ r'.Commuted r := by
  generalize whole : Query.concat l r = p at commuted
  induction commuted generalizing l r with
  | refl q => exact ⟨l, r, whole.symm, .refl l, .refl r⟩
  | trans _ _ first second =>
    obtain ⟨l₁, r₁, rfl, left, right⟩ := second whole
    obtain ⟨l₂, r₂, rfl, left', right'⟩ := first rfl
    exact ⟨l₂, r₂, rfl, left'.trans left, right'.trans right⟩
  | concat left right =>
    cases whole
    exact ⟨_, _, rfl, left, right⟩
  | _ => cases whole

end Query

namespace Session

variable {session : Session} {type : String} {names : List String} {q l r : Query}
  {nested : Engine.Nested} {left right rows : Rows}

/-! ### Sort steps that stay where they are -/

/-- Whether rows are listed, and hold the entities that are admitted, none of them twice. -/
structure Sifted (session : Session) (admitted : EntityId → Bool) (rows : Rows) : Prop where
  listed : rows.Listed
  distinct : rows.Distinct
  contains : ∀ id, rows.ids.contains id = admitted id

theorem sifted_of_standing {admitted : EntityId → Bool}
    (standing : session.Standing names [] admitted rows) : session.Sifted admitted rows :=
  have ascending : Ascending rows.ids := standing.ordered
  ⟨standing.listed, ⟨ascending.nodup, fun _ => ascending⟩, standing.contains⟩

/-- An operation that does not put rows one after the other lists no entity twice. -/
theorem yields_combine_sifted {operation : SetOperation} (other : operation ≠ .concat)
    (sifted : session.Sifted (session.admits type l) left)
    (sifted' : session.Sifted (session.admits type r) right) :
    session.Yields (session.engine.combine operation left right)
      (session.Sifted (session.admits type (Engine.joinedQuery operation l r))) := by
  refine ((yields_combine operation left right).and
    (yields_combine_listed operation sifted.listed sifted'.listed)).mono ?_
  rintro rows ⟨combines, listed⟩
  refine ⟨listed, combines.distinct other sifted.distinct sifted'.distinct, fun id => ?_⟩
  rw [combines.contains id, sifted.contains id, sifted'.contains id, admits_joinedQuery]

/-- Whether sort steps sort a tree, and do so by properties whose values can be compared. -/
def Sortable (session : Session) (type : String) (names : List String)
    (steps : List SortStep) : Prop :=
  ∀ step ∈ steps, session.metadata.Tree type names ∧
    ∃ order : PropertyOrder, order.step = step ∧ session.store.Unmixed order.name

theorem sortable_append {steps steps' : List SortStep} :
    session.Sortable type names (steps ++ steps') ↔
      session.Sortable type names steps ∧ session.Sortable type names steps' :=
  List.forall_mem_append

/-- Sorting loses no entity, and the result is not taken to be in the order of identities. -/
theorem yields_sort_sifted {extent : Effect Rows} {order : PropertyOrder}
    (tree : session.metadata.Tree type names) (unmixed : session.store.Unmixed order.name)
    (sifted : session.Sifted (session.admits type q) rows) :
    session.Yields (session.engine.sort extent type order.step (some rows))
      (session.Sifted (session.admits type q)) := by
  have unordered : IsTrans EntityId (session.store.Ranks names []) := ⟨fun _ _ _ _ _ => trivial⟩
  have ranked : session.Ranked names (session.store.Ranks names []) rows := by
    refine ranked_of_inHierarchy tree sifted.listed fun id mem => ?_
    exact inHierarchy_of_admits ((sifted.contains id).symm.trans (List.contains_iff_mem.mpr mem))
  refine ((yields_sort_ranked tree unmixed ranked).and
    (yields_sortProperty type order.name (some rows) order.ascending)).mono ?_
  rintro sorted ⟨⟨ranked, same⟩, truthful⟩
  exact ⟨ranked.listed, ⟨same.nodup_iff.mpr sifted.distinct.nodup, truthful⟩,
    fun id => same.contains_eq.trans (sifted.contains id)⟩

/-- A query that is evaluated as it is, with its sort steps where they are, lists what it admits,
no entity twice. -/
theorem yields_evaluate_sifted (orderly : q.orderly = true)
    (sortable : session.Sortable type names q.orders) :
    session.Yields (session.engine.evaluate nested q type)
      (session.Sifted (session.admits type q)) := by
  have ways : ∀ {q : Query}, q.orderly = true →
      session.Yields (session.engine.evaluateApart nested q type)
        (session.Sifted (session.admits type q)) →
      session.Yields (session.engine.evaluate nested q type)
        (session.Sifted (session.admits type q)) := by
    intro q orderly apart
    by_cases typeLocal : q.typeLocal = true
    · exact (yields_evaluate_standing [] orderly (Query.unsorted_of_typeLocal typeLocal)).mono
        fun _ => sifted_of_standing
    · rw [Engine.evaluate_eq, if_neg (Bool.eq_false_iff.mp (Query.spansTypes_of_orderly orderly)),
        if_neg typeLocal]
      exact apart
  induction q with
  | root c ih => exact ways orderly (ih orderly sortable)
  | inter l r ihl ihr | union l r ihl ihr =>
    obtain ⟨orderlyLeft, orderlyRight⟩ := (Bool.and_eq_true _ _).mp orderly
    obtain ⟨sortableLeft, sortableRight⟩ := sortable_append.mp sortable
    refine ways orderly ?_
    exact yields_bind (ihl orderlyLeft sortableLeft) fun left sifted =>
      yields_bind (ihr orderlyRight sortableRight) fun right sifted' =>
        yields_combine_sifted (by decide) sifted sifted'
  | diff l r ihl ihr =>
    obtain ⟨orderlyLeft, orderlyRight⟩ := (Bool.and_eq_true _ _).mp orderly
    obtain ⟨sortableLeft, sortableRight⟩ := sortable_append.mp sortable
    refine ways orderly (yields_bind (ihl orderlyLeft sortableLeft) fun left sifted => ?_)
    split
    case isTrue empty =>
      -- the right side is not even evaluated
      obtain rfl := Rows.eq_empty_of_knownEmpty empty
      refine yields_pure ⟨trivial, Rows.ordered_empty.distinct, fun id => ?_⟩
      rw [show session.admits type (.diff l r) id = _ from admits_joinedQuery .diff l r,
        ← sifted.contains id]
      rfl
    case isFalse =>
      exact yields_bind (ihr orderlyRight sortableRight) fun right sifted' =>
        yields_combine_sifted (by decide) sifted sifted'
  | compl c ih =>
    refine ways orderly ?_
    have all : session.Yields (session.engine.evaluate nested .all type)
        (session.Standing [] [] (session.admits type .all)) := yields_evaluate_standing [] rfl rfl
    have restricts : SetOperation.diff ≠ .concat := by decide
    exact yields_bind all fun left standing => yields_bind (ih orderly sortable) fun right sifted =>
      yields_combine_sifted restricts (sifted_of_standing standing) sifted
  | sort order c ih =>
    obtain ⟨⟨tree, order, rfl, unmixed⟩, rest⟩ := List.forall_mem_cons.mp sortable
    refine ways orderly (yields_bind (ih orderly rest) fun rows sifted => ?_)
    exact yields_sort_sifted tree unmixed sifted
  | linksFrom | concat | custom | slot | converter | linkedInto | between => cases orderly
  | _ => exact (yields_evaluate_standing [] orderly rfl).mono fun _ => sifted_of_standing

/-! ### One side after the other -/

/-- Whether a list is made of two others as sorting one after the other by several orders
makes it. -/
structure Concatenated (session : Session) (names : List String) (orders : List PropertyOrder)
    (left right ids : List EntityId) : Prop where
  perm : ids.Perm (left ++ right)
  ordered : ids.Pairwise (session.store.Ranks names orders)
  whole : orders = [] → ids = left ++ right

/-- The sides of a concatenation are evaluated one after the other, and the sort steps that were
taken out of them sort both. -/
theorem yields_answerOptimized_concat {optimized : Optimized} {orders : List PropertyOrder}
    (taken : optimized.steps = (.concat l r, orders.reverse.map PropertyOrder.step))
    (orderlyLeft : l.orderly = true) (unsortedLeft : l.unsorted = true)
    (orderlyRight : r.orderly = true) (unsortedRight : r.unsorted = true)
    (tree : session.SortsTree type names orders)
    (unmixed : ∀ order ∈ orders, session.store.Unmixed order.name) :
    session.Yields (session.engine.answerOptimized nested type optimized) fun rows =>
      ∃ left right, session.Standing [] [] (session.admits type l) left ∧
        session.Standing [] [] (session.admits type r) right ∧
        session.Concatenated names orders left.ids right.ids rows.ids := by
  unfold Engine.answerOptimized
  rw [taken]
  simp only
  refine yields_bind (P := fun rows => ∃ left right,
    session.Standing [] [] (session.admits type l) left ∧
      session.Standing [] [] (session.admits type r) right ∧
      rows.Listed ∧ rows.ids = left.ids ++ right.ids) ?_ ?_
  · rw [Engine.evaluate_eq, Query.spansTypes, Query.spansTypes_of_orderly orderlyLeft,
      Bool.false_and]
    refine yields_bind (yields_evaluate_standing [] orderlyLeft unsortedLeft)
      fun left standing => ?_
    refine yields_bind (yields_evaluate_standing [] orderlyRight unsortedRight)
      fun right standing' => ?_
    refine ((yields_combine .concat left right).and
      (yields_combine_listed .concat standing.listed standing'.listed)).mono ?_
    rintro rows ⟨combines, listed⟩
    exact ⟨left, right, standing, standing', listed, combines.ids (by decide)⟩
  · rintro rows ⟨left, right, standing, standing', listed, ids⟩
    refine yields_bind (P := fun sorted =>
      session.Concatenated names orders left.ids right.ids sorted.ids) ?_ ?_
    · by_cases none : orders = []
      · subst none
        exact yields_pure ⟨ids ▸ .refl _, List.pairwise_of_forall fun _ _ => trivial, fun _ => ids⟩
      have tree := tree none
      have ranked : session.Ranked names (session.store.Ranks names []) rows := by
        refine ranked_of_inHierarchy tree listed fun id mem => ?_
        rw [ids, List.mem_append] at mem
        rcases mem with mem | mem
        · exact inHierarchy_of_admits (standing.mem_iff.mp mem)
        · exact inHierarchy_of_admits (standing'.mem_iff.mp mem)
      refine (yields_sortRows_ranks tree unmixed ranked).mono ?_
      rintro sorted ⟨ranked, same⟩
      exact ⟨ids ▸ same, ranked.ordered, fun isNil => absurd isNil none⟩
    · exact fun sorted concatenated => yields_bind_done (yields_countWork _) fun _ =>
        yields_pure ⟨left, right, standing, standing', concatenated⟩

/-- What a side of a concatenation is optimized to: conditions that admit the same. -/
structure Side (session : Session) (type : String) (q q' : Query) : Prop where
  orderly : q'.orderly = true
  unsorted : q'.unsorted = true
  admits : ∀ id, session.admits type q' id = session.admits type q id

theorem side_of_rewritten {q₁ q₂ : Query} (orderly : q.orderly = true)
    (commuted : q₁.Commuted q) (rewritten : Rewrite.Standard.Rewritten q₁ q₂)
    (unsorted : q₂.unsorted = true) : session.Side type q q₂ where
  orderly := rewritten.allNodes (leafInvariant_isLookUp _)
    ((Query.orderly_of_commuted commuted).trans orderly)
  unsorted := unsorted
  admits id := by
    cases inside : session.inHierarchy type id with
    | false => rw [admits_of_outside inside, admits_of_outside inside]
    | true =>
      obtain ⟨each, mem, record, has⟩ := inHierarchy_iff.mp inside
      rw [admits_of_has mem has, admits_of_has mem has, rewritten.holds]
      exact (session.readingOf each id record).fair.toCommutes.of_commuted
        (fun _ _ _ _ => rfl) commuted

theorem Sortable.byProperties (sortable : session.Sortable type names q.orders) :
    q.byProperties = true :=
  List.all_eq_true.mpr fun step mem => by
    obtain ⟨-, order, rfl, -⟩ := sortable step mem
    rfl

/-- Orders whose steps can be sorted by. -/
theorem Sortable.of_perm {steps : List SortStep} {orders : List PropertyOrder}
    (sortable : session.Sortable type names steps)
    (same : (orders.map PropertyOrder.step).Perm steps) :
    session.SortsTree type names orders ∧ ∀ order ∈ orders, session.store.Unmixed order.name := by
  have each : ∀ order ∈ orders, session.metadata.Tree type names ∧
      session.store.Unmixed order.name := by
    intro order mem
    obtain ⟨tree, other, alike, unmixed⟩ :=
      sortable order.step (same.subset (List.mem_map_of_mem mem))
    obtain rfl : other = order := Option.some.inj (congrArg PropertyOrder.ofStep? alike)
    exact ⟨tree, unmixed⟩
  refine ⟨fun sorted => ?_, fun order mem => (each order mem).2⟩
  obtain ⟨order, mem⟩ := List.exists_mem_of_ne_nil orders sorted
  exact (each order mem).1

/-- A concatenation is optimized side by side, and all sort steps are taken out of both sides, if
there is room for them. -/
theorem exists_of_optimizes_concat {optimized : Optimized} (orderlyLeft : l.orderly = true)
    (orderlyRight : r.orderly = true)
    (sortable : session.Sortable type names (l.orders ++ r.orders))
    (few : (l.orders ++ r.orders).length ≤ maxHoisted)
    (optimizes : session.Optimizes (.concat l r) optimized) :
    ∃ l' r', ∃ orders : List PropertyOrder,
      optimized.steps = (.concat l' r', orders.reverse.map PropertyOrder.step) ∧
      session.Side type l l' ∧ session.Side type r r' ∧
      (orders.map PropertyOrder.step).Perm (l.orders ++ r.orders) := by
  obtain ⟨q', notices, commuted, found⟩ := optimizes
  have byProperties := Sortable.byProperties (q := .concat l r) sortable
  obtain ⟨same, -⟩ := Query.orders_of_commuted commuted byProperties
  have steps : q'.propertyOrders.map PropertyOrder.step = q'.orders :=
    Query.map_propertyOrders (Query.byProperties_of_perm same byProperties)
  obtain ⟨unsorted, hoisted⟩ := Rewrite.orders_optimize found (same.length_eq.trans_le few)
  obtain ⟨l₁, r₁, rfl, left, right⟩ := Query.exists_of_commuted_concat commuted
  obtain ⟨l', r', query, rewritten, rewritten'⟩ := Rewrite.optimize_concat found
  have taken : optimized.steps = (optimized.query, optimized.hoisted.orders) := by
    rw [Optimized.steps, Query.splitSorts_of_unsorted unsorted]
    rfl
  rw [query] at unsorted
  obtain ⟨unsortedLeft, unsortedRight⟩ := (Bool.and_eq_true _ _).mp unsorted
  refine ⟨l', r', (Query.concat l₁ r₁).propertyOrders, ?_,
    side_of_rewritten orderlyLeft left rewritten unsortedLeft,
    side_of_rewritten orderlyRight right rewritten' unsortedRight, ?_⟩
  · rw [taken, query, hoisted, List.map_reverse, steps]
  · rw [steps]
    exact same

/-- A side of a concatenation and the query that it was made of list the same entities, and they
list them in the same order if the query is not sorted. -/
theorem Side.agrees {q' : Query} {ids : List EntityId} {s s' : State}
    (side : session.Side type q q') (orderly : q.orderly = true)
    (sortable : session.Sortable type names q.orders)
    (standing : session.Standing [] [] (session.admits type q') rows) (reached : session.Reaches s)
    (evaluated : (do (← session.engine.evaluate session.engine.answer q type).collect) s
      = .ok ids s') : rows.ids.Perm ids ∧ (q.unsorted = true → rows.ids = ids) := by
  obtain ⟨direct, s₁, evaluating, collecting⟩ := Effect.exists_of_bind evaluated
  obtain ⟨reached₁, sifted⟩ := yields_evaluate_sifted orderly sortable reached evaluating
  obtain ⟨-, rfl⟩ := yields_collect direct reached₁ collecting
  have standing := standing.congr side.admits
  constructor
  · rw [List.perm_ext_iff_of_nodup (standing.nodup nofun) sifted.distinct.nodup]
    intro id
    rw [standing.mem_iff, ← sifted.contains id, List.contains_iff_mem]
  · intro unsorted
    have direct := (yields_evaluate_standing [] orderly unsorted reached evaluating).2
    exact standing.ids_eq direct.toArranged nofun

/-- A concatenation of two queries that are sorted by properties or not at all, and the two queries,
evaluated as they are, list the same entities, whatever the session has answered before and still
remembers.  If neither is sorted, the concatenation lists one query after the other.  Otherwise
the steps of both sort the whole. -/
theorem concatenated_agrees (session : Session) {ids leftIds rightIds : List EntityId}
    {s s' s₁ s₁' s₂ s₂' : State} (orderlyLeft : l.orderly = true) (orderlyRight : r.orderly = true)
    (sortable : session.Sortable type names (l.orders ++ r.orders))
    (few : (l.orders ++ r.orders).length ≤ maxHoisted)
    (fresh : session.Fresh) (history : session.ReachesBy (·.legible = true) s)
    (reached₁ : session.Reaches s₁) (reached₂ : session.Reaches s₂)
    (queried : (do
      (← (← Selection.ofQuery type (.concat l r)).evaluate session.engine).collect) s = .ok ids s')
    (evaluatedLeft : (do (← session.engine.evaluate session.engine.answer l type).collect) s₁
      = .ok leftIds s₁')
    (evaluatedRight : (do (← session.engine.evaluate session.engine.answer r type).collect) s₂
      = .ok rightIds s₂') :
    ids.Perm (leftIds ++ rightIds) ∧
      (l.unsorted = true → r.unsorted = true → ids = leftIds ++ rightIds) ∧
      ∃ orders : List PropertyOrder, (orders.map PropertyOrder.step).Perm (l.orders ++ r.orders) ∧
        ids.Pairwise (session.store.Ranks names orders) := by
  have legible : (Query.concat l r).legible = true := (Bool.and_eq_true _ _).mpr
    ⟨Query.legible_of_orderly orderlyLeft, Query.legible_of_orderly orderlyRight⟩
  obtain ⟨selection, s₃, making, queried⟩ := Effect.exists_of_bind queried
  cases making
  obtain ⟨sound, fits⟩ := (sound_of_reachesBy fresh history).stamped (.concat l r)
  obtain ⟨rows, s₄, evaluating, collecting⟩ := Effect.exists_of_bind queried
  obtain ⟨optimized, s₅, optimizing, answering⟩ := Effect.exists_of_bind evaluating
  obtain ⟨sound', optimizes, -⟩ := sound.optimizeOnce legible fits optimizing
  obtain ⟨l', r', orders, taken, sideLeft, sideRight, same⟩ :=
    exists_of_optimizes_concat orderlyLeft orderlyRight sortable few optimizes
  obtain ⟨tree, unmixed⟩ := sortable.of_perm same
  obtain ⟨reached, left, right, standing, standing', concatenated⟩ :=
    yields_answerOptimized_concat taken sideLeft.orderly sideLeft.unsorted sideRight.orderly
      sideRight.unsorted tree unmixed sound'.reached answering
  obtain ⟨-, rfl⟩ := yields_collect rows reached collecting
  obtain ⟨sortableLeft, sortableRight⟩ := sortable_append.mp sortable
  obtain ⟨permLeft, eqLeft⟩ :=
    sideLeft.agrees orderlyLeft sortableLeft standing reached₁ evaluatedLeft
  obtain ⟨permRight, eqRight⟩ :=
    sideRight.agrees orderlyRight sortableRight standing' reached₂ evaluatedRight
  refine ⟨concatenated.perm.trans (permLeft.append permRight), fun unsorted unsorted' => ?_,
    orders, same, concatenated.ordered⟩
  have none : orders = [] := by
    rw [Query.orders_eq_nil_iff.mpr unsorted, Query.orders_eq_nil_iff.mpr unsorted'] at same
    exact List.map_eq_nil_iff.mp (List.perm_nil.mp same)
  rw [concatenated.whole none, eqLeft unsorted, eqRight unsorted']

end Session

/-- The crates that are three years old. -/
def Query.three : Query :=
  .equals "age" (some (.int 3))

namespace Session

open PropertyOrder (byWeight byAge)

theorem sortable_stock {order : PropertyOrder} (mem : order ∈ [byAge, byWeight]) :
    stock.Sortable "crate" ["crate"] [order.step] := by
  intro step only
  obtain rfl := List.mem_singleton.mp only
  exact ⟨Metadata.tree_of_childless rfl, order, rfl, unmixed_stock order mem⟩

set_option maxRecDepth 10000 in
/-- The oldest crate, followed by all crates by age: the oldest one comes twice, and the age sorts
the whole. -/
theorem concatenated_agrees_byAge :
    ∃ s s₁ s₂,
      (do (← (← Selection.ofQuery "crate" (.concat .three (Query.all.sortedBy [byAge]))).evaluate
        stock.engine).collect) stock.start = .ok [⟨0, 0⟩, ⟨0, 2⟩, ⟨0, 1⟩, ⟨0, 1⟩] s ∧
      (do (← stock.engine.evaluate stock.engine.answer .three "crate").collect) stock.start
        = .ok [⟨0, 1⟩] s₁ ∧
      (do (← stock.engine.evaluate stock.engine.answer (Query.all.sortedBy [byAge])
        "crate").collect) stock.start = .ok [⟨0, 0⟩, ⟨0, 2⟩, ⟨0, 1⟩] s₂ ∧
      [(⟨0, 0⟩ : EntityId), ⟨0, 2⟩, ⟨0, 1⟩, ⟨0, 1⟩].Perm
        ([⟨0, 1⟩] ++ [⟨0, 0⟩, ⟨0, 2⟩, ⟨0, 1⟩]) := by
  have queried : EStateM.run'
      (do (← (← Selection.ofQuery "crate" (.concat .three (Query.all.sortedBy [byAge]))).evaluate
        stock.engine).collect) stock.start
      = some [⟨0, 0⟩, ⟨0, 2⟩, ⟨0, 1⟩, ⟨0, 1⟩] := by decide +kernel
  have evaluatedLeft : EStateM.run'
      (do (← stock.engine.evaluate stock.engine.answer .three "crate").collect) stock.start
      = some [⟨0, 1⟩] := by decide +kernel
  have evaluatedRight : EStateM.run'
      (do (← stock.engine.evaluate stock.engine.answer (Query.all.sortedBy [byAge])
        "crate").collect) stock.start = some [⟨0, 0⟩, ⟨0, 2⟩, ⟨0, 1⟩] := by decide +kernel
  obtain ⟨s, queried⟩ := Effect.exists_of_run' queried
  obtain ⟨s₁, evaluatedLeft⟩ := Effect.exists_of_run' evaluatedLeft
  obtain ⟨s₂, evaluatedRight⟩ := Effect.exists_of_run' evaluatedRight
  refine ⟨s, s₁, s₂, queried, evaluatedLeft, evaluatedRight, ?_⟩
  exact (stock.concatenated_agrees rfl rfl (sortable_stock (by decide)) (by decide) fresh_stock
    .refl reaches_start reaches_start queried evaluatedLeft evaluatedRight).1

set_option maxRecDepth 10000 in
/-- All crates by weight, followed by the oldest one.  The weight sorts the whole, so the oldest
crate is not the last one, but comes before the heavy one. -/
theorem concatenated_disagrees :
    stock.Fresh ∧ stock.Sortable "crate" ["crate"] [byWeight.step] ∧
      ∃ s s₁ s₂,
        (do (← (← Selection.ofQuery "crate"
          (.concat (Query.all.sortedBy [byWeight]) .three)).evaluate stock.engine).collect)
            stock.start = .ok [⟨0, 1⟩, ⟨0, 2⟩, ⟨0, 1⟩, ⟨0, 0⟩] s ∧
        (do (← stock.engine.evaluate stock.engine.answer (Query.all.sortedBy [byWeight])
          "crate").collect) stock.start = .ok [⟨0, 1⟩, ⟨0, 2⟩, ⟨0, 0⟩] s₁ ∧
        (do (← stock.engine.evaluate stock.engine.answer .three "crate").collect) stock.start
          = .ok [⟨0, 1⟩] s₂ ∧
        [(⟨0, 1⟩ : EntityId), ⟨0, 2⟩, ⟨0, 1⟩, ⟨0, 0⟩] ≠ [⟨0, 1⟩, ⟨0, 2⟩, ⟨0, 0⟩] ++ [⟨0, 1⟩] := by
  have queried : EStateM.run'
      (do (← (← Selection.ofQuery "crate"
        (.concat (Query.all.sortedBy [byWeight]) .three)).evaluate stock.engine).collect)
      stock.start = some [⟨0, 1⟩, ⟨0, 2⟩, ⟨0, 1⟩, ⟨0, 0⟩] := by decide +kernel
  have evaluatedLeft : EStateM.run'
      (do (← stock.engine.evaluate stock.engine.answer (Query.all.sortedBy [byWeight])
        "crate").collect) stock.start = some [⟨0, 1⟩, ⟨0, 2⟩, ⟨0, 0⟩] := by decide +kernel
  have evaluatedRight : EStateM.run'
      (do (← stock.engine.evaluate stock.engine.answer .three "crate").collect) stock.start
      = some [⟨0, 1⟩] := by decide +kernel
  obtain ⟨s, queried⟩ := Effect.exists_of_run' queried
  obtain ⟨s₁, evaluatedLeft⟩ := Effect.exists_of_run' evaluatedLeft
  obtain ⟨s₂, evaluatedRight⟩ := Effect.exists_of_run' evaluatedRight
  exact ⟨fresh_stock, sortable_stock (by decide), s, s₁, s₂, queried, evaluatedLeft,
    evaluatedRight, by decide⟩

end Session

end ExtentQuery

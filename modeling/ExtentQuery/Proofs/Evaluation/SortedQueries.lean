import ExtentQuery.Proofs.Evaluation.Joining
import ExtentQuery.Proofs.Evaluation.Sorting
import ExtentQuery.Proofs.Rewriting.Sorts

/-!
# Queries that are sorted by several properties

A query with sort steps above a query without any is answered by evaluating the lower
query and sorting the answer again and again, the innermost step first.  Over a hierarchy
that is a tree, the entities are then ranked by the outermost order, by type, and by the
inner orders.

* `Query.sortedBy` — a query with sort steps by properties, the outermost one first;
* `Session.yields_answerOptimized_ranked` — what the engine answers for such a query;
* `Session.sorted_ranked` — the order of the entities, for a query of any engine;
* `Session.sorted_not_byAll` — two entities of different types that the outermost order
  takes for equal are not ranked by the inner orders.

**Wherever the steps are.**  Rewriting takes out four steps at most, and the first step may
sort a whole extent instead of rows.  Neither shows in the order.
-/

namespace ExtentQuery

open Effect
open Rewrite (Optimized)
open Sorting (Comparison Leads)

/-! ### Sort steps above a query -/

theorem PropertyOrder.eq_of_alike {order : SortStep} {other : PropertyOrder}
    (alike : order.Alike other.step) : order = other.step := by
  cases order <;> exact alike

namespace Query

variable {a b q body : Query} {orders : List PropertyOrder}

/-- A query with sort steps by properties, the outermost one first. -/
def sortedBy (orders : List PropertyOrder) (body : Query) : Query :=
  orders.foldr (fun order q => .sort order.step q) body

theorem splitSorts_sortedBy (unsorted : body.unsorted = true) :
    (body.sortedBy orders).splitSorts = (orders.map PropertyOrder.step, body) := by
  induction orders with
  | nil => exact splitSorts_of_unsorted unsorted
  | cons order orders ih =>
    show (order.step :: (sortedBy orders body).splitSorts.1, (sortedBy orders body).splitSorts.2) = _
    rw [ih, List.map_cons]

theorem legible_sortedBy (legible : body.legible = true) :
    (body.sortedBy orders).legible = true := by
  induction orders with
  | nil => exact legible
  | cons _ _ ih => exact ih

/-- The order of operands does not show in the sort steps, and neither does what is sorted
depend on anything but the order of operands. -/
theorem splitSorts_of_commuted (commuted : a.Commuted b)
    (steps : b.splitSorts.1 = orders.map PropertyOrder.step) :
    a.splitSorts.1 = orders.map PropertyOrder.step ∧ a.splitSorts.2.Commuted b.splitSorts.2 := by
  induction commuted generalizing orders with
  | refl q => exact ⟨steps, .refl _⟩
  | trans _ _ first second =>
    obtain ⟨between, rest⟩ := second steps
    obtain ⟨here, start⟩ := first between
    exact ⟨here, start.trans rest⟩
  | inter_comm l r => exact ⟨steps, .inter_comm l r⟩
  | union_comm l r => exact ⟨steps, .union_comm l r⟩
  | root operand _ => exact ⟨steps, .root operand⟩
  | compl operand _ => exact ⟨steps, .compl operand⟩
  | inter left right _ _ => exact ⟨steps, .inter left right⟩
  | union left right _ _ => exact ⟨steps, .union left right⟩
  | diff left right _ _ => exact ⟨steps, .diff left right⟩
  | concat left right _ _ => exact ⟨steps, .concat left right⟩
  | linkedInto link targetType targets _ => exact ⟨steps, .linkedInto link targetType targets⟩
  | sort alike _ ih =>
    cases orders with
    | nil => cases steps
    | cons order orders =>
      obtain ⟨first, rest⟩ := List.cons.inj steps
      obtain ⟨below, start⟩ := ih rest
      subst first
      obtain rfl := PropertyOrder.eq_of_alike alike
      exact ⟨congrArg (order.step :: ·) below, start⟩

/-- The leaves of a query are those below the sort steps at its top. -/
theorem allLeaves_splitSorts (property : Query → Bool) (q : Query) :
    (Interpretation.allLeaves property true).of q.splitSorts.2
      = (Interpretation.allLeaves property true).of q := by
  induction q with
  | sort order c ih => exact ih.trans (Bool.true_and _).symm
  | _ => rfl

/-- Without sort steps, it does not matter whether there may be any. -/
theorem allLeaves_of_unsorted (property : Query → Bool) :
    ∀ q : Query, q.unsorted = true → (Interpretation.allLeaves property true).of q
      = (Interpretation.allLeaves property false).of q := by
  intro q
  induction q with
  | root c ih | compl c ih => exact ih
  | inter l r ihl ihr | union l r ihl ihr | diff l r ihl ihr | concat l r ihl ihr =>
    intro unsorted
    obtain ⟨left, right⟩ := (Bool.and_eq_true _ _).mp unsorted
    show (_ && _) = (_ && _)
    rw [ihl left, ihr right]
  | sort => exact fun unsorted => by cases unsorted
  | _ => exact fun _ => rfl

theorem unsorted_of_conditional (conditional : q.conditional = true) : q.unsorted = true :=
  unsorted_of_unranged (unranged_of_conditional conditional)

/-- A query whose sort steps are at its top is made of conditions below them, if all of its
leaves are conditions. -/
theorem Topped.conditional (topped : q.Topped)
    (leaves : (Interpretation.allLeaves (isLookUp fun _ _ => false) true).of q = true) :
    q.splitSorts.2.conditional = true := by
  rw [← allLeaves_splitSorts, allLeaves_of_unsorted _ _ topped] at leaves
  exact leaves

end Query

/-! ### Comparing by several orders -/

namespace Store

variable {store : Store} {names : List String} {orders : List PropertyOrder} {x y : EntityId}

/-- The comparison by several orders: the first one that tells two entities apart
decides. -/
def compareByAll (store : Store) : List PropertyOrder → Comparison EntityId
  | [] => fun _ _ => .eq
  | order :: orders => fun x y => (store.compareBy order x y).then (compareByAll store orders x y)

theorem isLE_of_leads {cmp : Comparison EntityId} {before : EntityId → EntityId → Prop}
    {rest : Ordering} (leads : Leads cmp before x y) (below : before x y → rest.isLE = true) :
    ((cmp x y).then rest).isLE = true := by
  rcases leads with smaller | ⟨equal, earlier⟩
  · rw [smaller]
    rfl
  · rw [equal]
    exact below earlier

/-- Ranked entities of one type are ordered by all orders, one after the other. -/
theorem isLE_compareByAll (ranks : store.Ranks names orders x y)
    (sameType : store.byType names x y = .eq) : (store.compareByAll orders x y).isLE = true := by
  induction orders with
  | nil => rfl
  | cons order inner ih =>
    refine isLE_of_leads ranks fun below => ih ?_
    rcases below with earlier | ⟨-, below⟩
    · rw [sameType] at earlier
      cases earlier
    · exact below

theorem isLE_of_ranks {order : PropertyOrder} (ranks : store.Ranks names (order :: orders) x y) :
    ((store.compareBy order x y).then
      ((store.byType names x y).then (store.compareByAll orders x y))).isLE = true := by
  refine isLE_of_leads ranks fun below => ?_
  rcases below with earlier | ⟨sameType, below⟩
  · rw [earlier]
    rfl
  · rw [sameType]
    exact isLE_compareByAll below sameType

end Store

namespace Session

variable {session : Session} {type : String} {names : List String} {q body : Query}
  {orders : List PropertyOrder}

/-! ### Optimized queries -/

/-- What optimization leaves of a query with sort steps by properties. -/
theorem steps_of_optimizes {optimized : Optimized} (conditional : body.conditional = true)
    (optimizes : session.Optimizes (body.sortedBy orders) optimized) :
    optimized.steps.1.conditional = true ∧
      optimized.steps.2 = orders.reverse.map PropertyOrder.step := by
  obtain ⟨q', notices, commuted, found⟩ := optimizes
  have unsorted := Query.unsorted_of_conditional conditional
  have split : (body.sortedBy orders).splitSorts = (orders.map PropertyOrder.step, body) :=
    Query.splitSorts_sortedBy unsorted
  obtain ⟨steps, below⟩ := Query.splitSorts_of_commuted commuted (congrArg Prod.fst split)
  rw [split] at below
  have topped : q'.Topped :=
    ((Interpretation.commutes_allLeaves _ _).of_commuted (fun _ _ _ _ => rfl) below).trans unsorted
  have leaves : (Interpretation.allLeaves (Query.isLookUp fun _ _ => false) true).of q' = true := by
    rw [← Query.allLeaves_splitSorts, Query.allLeaves_of_unsorted _ _ topped]
    exact (allLeaves_of_commuted below).trans conditional
  obtain ⟨topped', same⟩ := Rewrite.steps_optimize found topped
  refine ⟨topped'.conditional ?_, ?_⟩
  · exact Rewrite.optimize_allLeaves (leafInvariant_isLookUp _) found leaves
  · rw [same, steps, List.map_reverse]

/-! ### Listed rows -/

section Listed

variable {nested : Engine.Nested}

/-- An operation on listed rows is left to the backend. -/
theorem yields_combine_listed (operation : SetOperation) {left right : Rows}
    (listed : left.Listed) (listed' : right.Listed) :
    session.Yields (session.engine.combine operation left right) Rows.Listed := by
  unfold Engine.combine
  cases left with
  | computed => exact absurd listed id
  | empty =>
    cases right with
    | computed => exact absurd listed' id
    | empty | native => cases operation <;> exact yields_pure trivial
  | native left =>
    cases right with
    | computed => exact absurd listed' id
    | empty => cases operation <;> exact yields_pure trivial
    | native right =>
      have undecided : Engine.shortcut? operation (.native left) (.native right) = none := by
        cases operation <;> rfl
      rw [undecided]
      refine yields_bind ?_ fun rows listed =>
        yields_bind_done (yields_countWork _) fun _ => yields_pure listed
      exact yields_bind_done (yields_memory_combine operation left right).done fun _ =>
        yields_pure trivial

theorem yields_having_listed (type property : String) :
    session.Yields (session.engine.having type property) Rows.Listed := by
  unfold Engine.having
  split
  · exact yields_bind_done (yields_lookUp _ _ _).done fun _ => yields_pure trivial
  · exact yields_bind_done (yields_lookUp _ _ _).done fun _ => yields_pure trivial

theorem yields_evaluateType_listed (unranged : q.unranged = true) :
    ∀ type, session.Yields (session.engine.evaluateType nested q type) Rows.Listed := by
  have lookedUp : ∀ {x : Effect Listing}, session.Yields x (fun _ => True) →
      session.Yields (do return Rows.native (← x)) Rows.Listed := fun look =>
    yields_bind_done look fun _ => yields_pure trivial
  have both : ∀ operation {x y : Effect Rows}, session.Yields x Rows.Listed →
      session.Yields y Rows.Listed → session.Yields
        (do
          let left ← x
          let right ← y
          session.engine.combine operation left right) Rows.Listed :=
    fun operation _ _ first second => yields_bind first fun _ listed =>
      yields_bind second fun _ listed' => yields_combine_listed operation listed listed'
  induction q with
  | root c ih => exact ih unranged
  | all => exact fun type => lookedUp (yields_lookUp _ _ _).done
  | linksFrom source link => exact fun _ => lookedUp (yields_linkTargets source link).done
  | equals property value =>
    intro type
    cases value with
    | some value => exact lookedUp (yields_lookUp _ _ _).done
    | none =>
      refine yields_bind_done (yields_lookUp _ _ _).done fun all => ?_
      exact yields_bind (yields_having_listed type property) fun _ listed =>
        yields_combine_listed .diff trivial listed
  | startsWith property start => exact fun _ => lookedUp (yields_lookUp _ _ _).done
  | hasProperty property => exact fun type => yields_having_listed type property
  | linkedTo link target =>
    intro type
    cases target with
    | some target => exact lookedUp (yields_lookUp _ _ _).done
    | none =>
      refine yields_bind_done (yields_lookUp _ _ _).done fun all => ?_
      exact yields_bind_done (yields_lookUp _ _ _).done fun _ =>
        yields_combine_listed .diff trivial trivial
  | hasLink link => exact fun _ => lookedUp (yields_lookUp _ _ _).done
  | inter l r ihl ihr =>
    intro type
    obtain ⟨left, right⟩ := (Bool.and_eq_true _ _).mp unranged
    unfold Engine.evaluateType
    simp only [Query.linkedTargets?_of_unranged left, Query.linkedTargets?_of_unranged right]
    exact both .inter (ihl left type) (ihr right type)
  | union l r ihl ihr =>
    obtain ⟨left, right⟩ := (Bool.and_eq_true _ _).mp unranged
    exact fun type => both .union (ihl left type) (ihr right type)
  | diff l r ihl ihr =>
    intro type
    obtain ⟨left, right⟩ := (Bool.and_eq_true _ _).mp unranged
    refine yields_bind (ihl left type) fun rows listed => ?_
    split
    · exact yields_pure trivial
    · exact both .diff (yields_pure listed) (ihr right type)
  | concat l r ihl ihr =>
    obtain ⟨left, right⟩ := (Bool.and_eq_true _ _).mp unranged
    exact fun type => both .concat (ihl left type) (ihr right type)
  | compl c ih =>
    intro type
    refine yields_bind_done (yields_lookUp _ _ _).done fun all => ?_
    exact yields_bind (ih unranged type) fun _ listed => yields_combine_listed .diff trivial listed
  | between | linkedInto | sort | custom | slot | converter => cases unranged

theorem yields_joinParts_listed {parts : List Rows} (listed : ∀ part ∈ parts, part.Listed) :
    session.Yields (session.engine.joinParts parts) Rows.Listed := by
  cases parts with
  | nil => exact yields_pure trivial
  | cons first rest =>
    refine yields_foldlM (fun _ => Rows.Listed) rest ?_ (listed first List.mem_cons_self)
    exact fun _ rows part mem before =>
      yields_combine_listed _ before (listed part (.tail _ mem))

theorem yields_evaluateEach_listed (unranged : q.unranged = true) :
    session.Yields (session.engine.evaluateEach nested q type) Rows.Listed := by
  refine yields_bind (yields_mapM (R := fun _ => Rows.Listed) _ fun each _ =>
    yields_evaluateType_listed unranged each) fun parts evaluated => ?_
  refine yields_joinParts_listed fun part mem => ?_
  obtain ⟨_, -, listed⟩ := exists_of_forall₂ evaluated.flip mem
  exact listed

/-- The backend lists the answer of a query without queries in it. -/
theorem yields_evaluate_listed (unranged : q.unranged = true) :
    session.Yields (session.engine.evaluate nested q type) Rows.Listed := by
  have ways : ∀ {q : Query}, q.unranged = true →
      session.Yields (session.engine.evaluateApart nested q type) Rows.Listed →
      session.Yields (session.engine.evaluate nested q type) Rows.Listed := by
    intro q unranged apart
    rw [Engine.evaluate_eq]
    split
    · exact yields_evaluateType_listed unranged type
    split
    · exact yields_evaluateEach_listed unranged
    · exact apart
  induction q with
  | root c ih => exact ways unranged (ih unranged)
  | inter l r ihl ihr | union l r ihl ihr | concat l r ihl ihr =>
    obtain ⟨left, right⟩ := (Bool.and_eq_true _ _).mp unranged
    exact ways unranged (yields_bind (ihl left) fun _ listed =>
      yields_bind (ihr right) fun _ listed' => yields_combine_listed _ listed listed')
  | diff l r ihl ihr =>
    obtain ⟨left, right⟩ := (Bool.and_eq_true _ _).mp unranged
    refine ways unranged (yields_bind (ihl left) fun rows listed => ?_)
    split
    · exact yields_pure trivial
    · exact yields_bind (ihr right) fun _ listed' => yields_combine_listed _ listed listed'
  | compl c ih =>
    exact ways unranged (yields_bind (yields_evaluateEach_listed rfl) fun _ listed =>
      yields_bind (ih unranged) fun _ listed' => yields_combine_listed _ listed listed')
  | between | linkedInto | sort | custom | slot | converter => cases unranged
  | _ => exact ways unranged (yields_evaluateEach_listed unranged)

end Listed

/-! ### Ranked rows -/

theorem isOf_of_inHierarchy {id : EntityId} (tree : session.metadata.Tree type names)
    (inside : session.inHierarchy type id = true) :
    ∃ name ∈ names, session.store.isOf name id = true := by
  obtain ⟨name, below, record, has⟩ := inHierarchy_iff.mp inside
  exact ⟨name, tree.mem_iff.mpr below, Store.isOf_iff.mpr has.1⟩

/-- Listed entities of a tree, in whatever order. -/
theorem ranked_of_inHierarchy {rows : Rows} (tree : session.metadata.Tree type names)
    (listed : rows.Listed) (inside : ∀ id ∈ rows.ids, session.inHierarchy type id = true) :
    session.Ranked names (session.store.Ranks names []) rows where
  listed := listed
  inside id mem := isOf_of_inHierarchy tree (inside id mem)
  ordered := List.pairwise_of_forall fun _ _ => trivial

/-- Sorting entities of a tree ranks them, in whatever order they were listed. -/
theorem yields_sortRows_ranks {extent : Effect Rows} {rows : Rows}
    (tree : session.metadata.Tree type names)
    (unmixed : ∀ order ∈ orders, session.store.Unmixed order.name)
    (ranked : session.Ranked names (session.store.Ranks names []) rows) :
    session.Yields
      (session.engine.sortRows extent type (orders.reverse.map PropertyOrder.step) rows)
      fun sorted => session.Ranked names (session.store.Ranks names orders) sorted ∧
        sorted.ids.Perm rows.ids := by
  have unordered : IsTrans EntityId (session.store.Ranks names []) := ⟨fun _ _ _ _ _ => trivial⟩
  refine (yields_sortRows_ranked tree (fun order mem => unmixed order (List.mem_reverse.mp mem))
    ranked).mono ?_
  rintro sorted ⟨ranked, same⟩
  rw [List.reverse_reverse] at ranked
  exact ⟨Store.ranks_eq_ranksOver _ _ orders ▸ ranked, same⟩

/-- The entities of a query without queries in it are of the types of the tree. -/
theorem yields_evaluate_ranked (tree : session.metadata.Tree type names) (nested : Engine.Nested)
    (conditional : q.conditional = true) :
    session.Yields (session.engine.evaluate nested q type)
      (session.Ranked names (session.store.Ranks names [])) := by
  have unranged := Query.unranged_of_conditional conditional
  intro s rows s' reached ran
  obtain ⟨reached', listed⟩ := yields_evaluate_listed unranged reached ran
  rw [Engine.evaluate_congr nested session.engine.answer unranged] at ran
  obtain ⟨-, finds⟩ :=
    yields_evaluate_finds answersNested_answer (Query.plain_of_unranged unranged) reached ran
  refine ⟨reached', ranked_of_inHierarchy tree listed fun id mem => ?_⟩
  exact inHierarchy_of_admits
    (((finds id).eq_admits conditional).symm.trans (List.contains_iff_mem.mpr mem))

/-- What the engine answers for conditions below sort steps, over a tree: ranked entities,
whether the first step sorts rows or the whole extent. -/
theorem yields_answerOptimized_ranked (tree : session.metadata.Tree type names)
    (nested : Engine.Nested) {optimized : Optimized}
    (conditional : optimized.steps.1.conditional = true)
    (steps : optimized.steps.2 = orders.reverse.map PropertyOrder.step)
    (oneKind : ∀ order ∈ orders, session.store.OneKind order.name) :
    session.Yields (session.engine.answerOptimized nested type optimized)
      (session.Ranked names (session.store.Ranks names orders)) := by
  have counted : ∀ rows : Rows, session.Ranked names (session.store.Ranks names orders) rows →
      session.Yields
        (do
          countWork Work.instantiation
          pure rows) (session.Ranked names (session.store.Ranks names orders)) :=
    fun rows ranked => yields_bind_done (yields_countWork _) fun _ => yields_pure ranked
  have unmixed : ∀ order ∈ orders.reverse, session.store.Unmixed order.name :=
    fun order mem => (oneKind order (List.mem_reverse.mp mem)).unmixed
  have unordered : IsTrans EntityId fun _ _ => True := ⟨fun _ _ _ _ _ => trivial⟩
  have ranks : session.store.RanksOver names (fun _ _ => True) orders.reverse.reverse
      = session.store.Ranks names orders := by
    rw [List.reverse_reverse, Store.ranks_eq_ranksOver]
  unfold Engine.answerOptimized
  generalize optimized.steps = result at conditional steps ⊢
  obtain ⟨body, orders'⟩ := result
  simp only at conditional steps ⊢
  subst steps
  split
  case h_1 order rest innermost =>
    -- the innermost order sorts the whole extent, and the others sort rows
    obtain ⟨first, others, reverse, rfl, rfl⟩ := List.map_eq_cons_iff.mp innermost
    refine yields_bind ?_ counted
    rw [reverse] at unmixed ranks
    refine (yields_sortExtent_ranked tree unmixed fun name _ =>
      List.pairwise_of_forall fun _ _ => trivial).mono ?_
    exact fun rows ranked => ranks ▸ ranked.1
  case h_2 =>
    have unmixed : ∀ order ∈ orders, session.store.Unmixed order.name :=
      fun order mem => (oneKind order mem).unmixed
    exact yields_bind (yields_evaluate_ranked tree nested conditional) fun rows unsorted =>
      yields_bind (yields_sortRows_ranks tree unmixed unsorted) fun rows sorted =>
        counted rows sorted.1

/-! ### The order of the answer -/

/-- A sorted query over a tree, evaluated for the first time, lists the entities by the
outermost order, then by the place of their types in the tree, then by the inner orders.
This holds whatever the session has answered before and still remembers. -/
theorem sorted_ranked (session : Session) {order : PropertyOrder} {inner : List PropertyOrder}
    {ids : List EntityId} {s s' : State} (tree : session.metadata.Tree type names)
    (oneKind : ∀ other ∈ order :: inner, session.store.OneKind other.name)
    (conditional : body.conditional = true) (fresh : session.Fresh)
    (history : session.ReachesBy (·.legible = true) s)
    (queried : (do
      (← (← Selection.ofQuery type (body.sortedBy (order :: inner))).evaluate
        session.engine).collect) s = .ok ids s') :
    (∀ id ∈ ids, ∃ name ∈ names, session.store.isOf name id = true) ∧
      ids.Pairwise fun x y =>
        ((session.store.compareBy order x y).then ((session.store.byType names x y).then
          (session.store.compareByAll inner x y))).isLE = true := by
  have legible : (body.sortedBy (order :: inner)).legible = true :=
    Query.legible_sortedBy (Query.legible_of_unranged (Query.unranged_of_conditional conditional))
  obtain ⟨selection, s₁, making, queried⟩ := Effect.exists_of_bind queried
  cases making
  obtain ⟨rows, s₂, evaluating, collecting⟩ := Effect.exists_of_bind queried
  obtain ⟨optimized, s₃, optimizing, answering⟩ := Effect.exists_of_bind evaluating
  obtain ⟨reached, optimizes⟩ :=
    optimizes_of_optimizeOnce (ready_of_reachesBy fresh history legible) optimizing
  obtain ⟨conditional', steps⟩ := steps_of_optimizes conditional optimizes
  obtain ⟨reached', ranked⟩ :=
    yields_answerOptimized_ranked tree _ conditional' steps oneKind reached answering
  obtain ⟨-, rfl⟩ := yields_collect rows reached' collecting
  exact ⟨ranked.inside, ranked.ordered.imp Store.isLE_of_ranks⟩

/-! ### Animals by weight and age -/

/-- A session over a store with two animals and a cat, all of the same weight.  The cat is
the youngest of them. -/
def weighed : Session where
  metadata := animals.metadata
  settings := .default
  start := .initial
    { tables :=
        #[⟨"animal", #[⟨[("weight", .int 5), ("age", .int 3)], [], []⟩,
            ⟨[("weight", .int 5), ("age", .int 2)], [], []⟩]⟩,
          ⟨"cat", #[⟨[("weight", .int 5), ("age", .int 1)], [], []⟩]⟩]
      failure := none
      searchesLinks := true
      ordersByTargets := true }
    (.create 16 false 1)

end Session

namespace PropertyOrder

/-- The lighter ones first. -/
def byWeight : PropertyOrder := ⟨"weight", true⟩

/-- The younger ones first. -/
def byAge : PropertyOrder := ⟨"age", true⟩

end PropertyOrder

open PropertyOrder (byWeight byAge)

namespace Session

theorem fresh_weighed : weighed.Fresh where
  nothingRemembered := Cache.QueryCache.get?_create _ _ _
  nothingDecided := rfl

theorem tree_weighed : weighed.metadata.Tree "animal" ["animal", "cat"] where
  unfolds := by
    have noneBelow : weighed.metadata.Unfolds (weighed.metadata.directSubtypes "cat") [] := .nil
    have below : weighed.metadata.Unfolds (weighed.metadata.directSubtypes "animal") ["cat"] :=
      Metadata.Unfolds.cons noneBelow .nil
    exact Metadata.Unfolds.cons below .nil
  nodup := by decide

theorem oneKind_weighed : ∀ order ∈ [byWeight, byAge], weighed.store.OneKind order.name := by
  intro order mem
  simp only [List.mem_cons, List.not_mem_nil, or_false] at mem
  rcases mem with rfl | rfl <;> exact Store.oneKind_of_records .int (by decide)

set_option maxRecDepth 10000 in
theorem exists_of_weighed :
    ∃ s,
      (do
        (← (← Selection.ofQuery "animal" (Query.all.sortedBy [byWeight, byAge])).evaluate
          weighed.engine).collect) weighed.start = .ok [⟨0, 1⟩, ⟨0, 0⟩, ⟨1, 0⟩] s := by
  have queried : EStateM.run'
      (do
        (← (← Selection.ofQuery "animal" (Query.all.sortedBy [byWeight, byAge])).evaluate
          weighed.engine).collect) weighed.start = some [⟨0, 1⟩, ⟨0, 0⟩, ⟨1, 0⟩] := by decide +kernel
  exact Effect.exists_of_run' queried

/-- Animals of the same weight are listed by age, and the cat after them. -/
theorem sorted_ranked_weighed :
    ∃ s,
      (do
        (← (← Selection.ofQuery "animal" (Query.all.sortedBy [byWeight, byAge])).evaluate
          weighed.engine).collect) weighed.start = .ok [⟨0, 1⟩, ⟨0, 0⟩, ⟨1, 0⟩] s ∧
      [(⟨0, 1⟩ : EntityId), ⟨0, 0⟩, ⟨1, 0⟩].Pairwise fun x y =>
        ((weighed.store.compareBy byWeight x y).then
          ((weighed.store.byType ["animal", "cat"] x y).then
            (weighed.store.compareByAll [byAge] x y))).isLE = true := by
  obtain ⟨s, queried⟩ := exists_of_weighed
  exact ⟨s, queried,
    (weighed.sorted_ranked tree_weighed oneKind_weighed rfl fresh_weighed .refl queried).2⟩

/-- The cat is younger and of the same weight, and it is listed last all the same: a sort by
several orders does not put the first of them that tells two entities apart in charge. -/
theorem sorted_not_byAll :
    weighed.metadata.Tree "animal" ["animal", "cat"] ∧
      (∀ order ∈ [byWeight, byAge], weighed.store.OneKind order.name) ∧ weighed.Fresh ∧
      ∃ s,
        (do
          (← (← Selection.ofQuery "animal" (Query.all.sortedBy [byWeight, byAge])).evaluate
            weighed.engine).collect) weighed.start = .ok [⟨0, 1⟩, ⟨0, 0⟩, ⟨1, 0⟩] s ∧
        ¬ [(⟨0, 1⟩ : EntityId), ⟨0, 0⟩, ⟨1, 0⟩].Pairwise fun x y =>
          (weighed.store.compareByAll [byWeight, byAge] x y).isLE = true := by
  obtain ⟨s, queried⟩ := exists_of_weighed
  exact ⟨tree_weighed, oneKind_weighed, fresh_weighed, s, queried, by decide⟩

end Session

end ExtentQuery

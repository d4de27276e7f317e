import ExtentQuery.Proofs.Evaluation.Standing

/-!
# Splicing a filter into a query that waits

A selection that waits for its evaluation and is filtered over the same type becomes one query
(`Query.andThen`).  The other way is to evaluate it first, and to filter its rows.  Both ways
select the same entities, and they list them in the same order unless both queries are sorted
and are joined by an intersection.

* `Query.andThen_cases` — the three ways of splicing;
* `Session.standing_of_spliced`, `Session.standing_of_resolved` — the order of either answer;
* `Session.spliced_agrees` — when the two agree;
* `Session.spliced_disagrees` — two crates that the two ways list in opposite orders.

**Whose steps come first.**  Rows that are sorted by the filter are sorted last by it, so its steps
are the outermost ones.  In an intersection, the steps of the left operand are met first when they
are taken out, and the left operand is the query that is filtered.
-/

namespace ExtentQuery

open Effect
open Rewrite (Optimized maxHoisted)

/-! ### Sorted queries -/

namespace Query

section Sorted

variable {body : Query} (orders : List PropertyOrder)

theorem orders_sortedBy (unsorted : body.unsorted = true) :
    (body.sortedBy orders).orders = orders.map PropertyOrder.step := by
  induction orders with
  | nil => exact orders_eq_nil_iff.mpr unsorted
  | cons order orders ih => exact congrArg (order.step :: ·) ih

theorem lone_sortedBy (unsorted : body.unsorted = true) : (body.sortedBy orders).lone = true := by
  induction orders with
  | nil => exact lone_of_unsorted unsorted
  | cons order orders ih => exact ih

theorem topped_sortedBy (unsorted : body.unsorted = true) : (body.sortedBy orders).Topped := by
  rw [Topped, splitSorts_sortedBy unsorted]
  exact unsorted

theorem orderly_sortedBy (orderly : body.orderly = true) :
    (body.sortedBy orders).orderly = true := by
  induction orders with
  | nil => exact orderly
  | cons order orders ih => exact ih

end Sorted

theorem propertyOrders_eq {q : Query} {orders : List PropertyOrder}
    (steps : q.orders = orders.map PropertyOrder.step) : q.propertyOrders = orders := by
  rw [propertyOrders, steps, PropertyOrder.filterMap_ofStep?]

theorem byProperties_of_orders {q : Query} {orders : List PropertyOrder}
    (steps : q.orders = orders.map PropertyOrder.step) : q.byProperties = true := by
  rw [byProperties, steps, List.all_map]
  exact List.all_eq_true.mpr fun _ _ => rfl

theorem settled_sortedBy {body : Query} (orders : List PropertyOrder)
    (orderly : body.orderly = true) (unsorted : body.unsorted = true) :
    (body.sortedBy orders).Settled where
  orderly := orderly_sortedBy orders orderly
  byProperties := byProperties_of_orders (orders_sortedBy orders unsorted)
  lifted := .inr (topped_sortedBy orders unsorted)

/-! ### Splicing -/

/-- A step that sorts everything goes on top, everything is replaced by what filters it, and all
else is joined. -/
theorem andThen_cases (outer filter : Query) :
    (∃ order, filter = .sort order .all ∧ outer.andThen filter = .sort order outer) ∨
      (outer = .all ∧ outer.andThen filter = filter) ∨
      outer.andThen filter = .inter outer filter := by
  unfold andThen
  split
  case h_1 => exact .inl ⟨_, rfl, rfl⟩
  case h_2 => exact .inr (.inl ⟨rfl, rfl⟩)
  case h_3 => exact .inr (.inr rfl)

variable {b₁ b₂ : Query} {orders₁ orders₂ : List PropertyOrder}

/-- Unless they are joined, the steps of the filter come to stand above those of the query. -/
theorem andThen_sortedBy (orders₁ orders₂ : List PropertyOrder)
    (unsorted₁ : b₁.unsorted = true) (unsorted₂ : b₂.unsorted = true) :
    (∃ body, (body = b₁ ∨ body = b₂) ∧
        (b₁.sortedBy orders₁).andThen (b₂.sortedBy orders₂) = body.sortedBy (orders₂ ++ orders₁)) ∨
      (b₁.sortedBy orders₁).andThen (b₂.sortedBy orders₂)
        = .inter (b₁.sortedBy orders₁) (b₂.sortedBy orders₂) := by
  have steps₁ := orders_sortedBy orders₁ unsorted₁
  have steps₂ := orders_sortedBy orders₂ unsorted₂
  rcases andThen_cases (b₁.sortedBy orders₁) (b₂.sortedBy orders₂) with
    ⟨order, onTop, spliced⟩ | ⟨everything, spliced⟩ | spliced
  · rw [onTop] at steps₂
    obtain ⟨only, rest, rfl, rfl, none⟩ := List.map_eq_cons_iff.mp steps₂.symm
    obtain rfl := List.map_eq_nil_iff.mp none
    exact .inl ⟨b₁, .inl rfl, spliced⟩
  · rw [everything] at steps₁
    obtain rfl := List.map_eq_nil_iff.mp steps₁.symm
    refine .inl ⟨b₂, .inr rfl, ?_⟩
    rw [List.append_nil, spliced]
  · exact .inr spliced

/-- What is known of the sort steps of a spliced query: the steps of the filter are the outermost
ones, unless both queries have steps and are joined.  If they are joined, there has to be room
for all of their steps. -/
theorem settled_andThen (orderly₁ : b₁.orderly = true) (unsorted₁ : b₁.unsorted = true)
    (orderly₂ : b₂.orderly = true) (unsorted₂ : b₂.unsorted = true) {q : Query}
    (spliced : (b₁.sortedBy orders₁).andThen (b₂.sortedBy orders₂) = q)
    (few : q = .inter (b₁.sortedBy orders₁) (b₂.sortedBy orders₂) →
      orders₁.length + orders₂.length ≤ maxHoisted) :
    q.Settled ∧ q.propertyOrders.Perm (orders₂ ++ orders₁) ∧
      ((q = .inter (b₁.sortedBy orders₁) (b₂.sortedBy orders₂) → orders₁ = [] ∨ orders₂ = []) →
        q.lone = true ∧ q.propertyOrders = orders₂ ++ orders₁) := by
  rcases andThen_sortedBy orders₁ orders₂ unsorted₁ unsorted₂ with ⟨body, either, sorted⟩ | joined
  · obtain ⟨orderly, unsorted⟩ : body.orderly = true ∧ body.unsorted = true := by
      rcases either with same | same <;> rw [same]
      · exact ⟨orderly₁, unsorted₁⟩
      · exact ⟨orderly₂, unsorted₂⟩
    obtain rfl := spliced.symm.trans sorted
    have orders := propertyOrders_eq (orders_sortedBy (orders₂ ++ orders₁) unsorted)
    refine ⟨settled_sortedBy _ orderly unsorted, ?_, fun _ => ⟨lone_sortedBy _ unsorted, orders⟩⟩
    rw [orders]
  · obtain rfl := spliced.symm.trans joined
    have steps : (inter (b₁.sortedBy orders₁) (b₂.sortedBy orders₂)).orders
        = (orders₁ ++ orders₂).map PropertyOrder.step := by
      rw [orders, orders_sortedBy orders₁ unsorted₁, orders_sortedBy orders₂ unsorted₂,
        List.map_append]
    have orders := propertyOrders_eq steps
    refine ⟨⟨?_, byProperties_of_orders steps, .inl ?_⟩, ?_, fun one => ?_⟩
    · exact (Bool.and_eq_true _ _).mpr
        ⟨orderly_sortedBy orders₁ orderly₁, orderly_sortedBy orders₂ orderly₂⟩
    · rw [steps, List.length_map, List.length_append]
      exact few rfl
    · rw [orders]
      exact List.perm_append_comm
    · rw [orders, lone, lone_sortedBy orders₁ unsorted₁, lone_sortedBy orders₂ unsorted₂,
        orders_sortedBy orders₁ unsorted₁, orders_sortedBy orders₂ unsorted₂]
      rcases one rfl with rfl | rfl <;> simp

end Query

namespace Session

variable {session : Session} {type : String} {names : List String} {b₁ b₂ : Query}
  {orders₁ orders₂ : List PropertyOrder} {id : EntityId} {s s' : State} {ids : List EntityId}

theorem admits_sortedBy (body : Query) (orders : List PropertyOrder) :
    session.admits type (body.sortedBy orders) id = session.admits type body id := by
  induction orders with
  | nil => rfl
  | cons order orders ih => exact ih

/-- A spliced query admits what the filter admits of what the query admits. -/
theorem admits_andThen (outer filter : Query) :
    session.admits type (outer.andThen filter) id
      = (session.admits type filter id && session.admits type outer id) := by
  have whole : ∀ q : Query, session.admits type q id
      = (session.admits type .all id && session.admits type q id) := by
    intro q
    cases inside : session.inHierarchy type id with
    | true => rw [admits_all inside, Bool.true_and]
    | false => rw [admits_of_outside inside, Bool.and_false]
  rcases Query.andThen_cases outer filter with ⟨order, rfl, spliced⟩ | ⟨rfl, spliced⟩ | spliced
  · rw [spliced]
    exact whole outer
  · rw [spliced, Bool.and_comm]
    exact whole filter
  · rw [spliced]
    exact (admits_joinedQuery .inter outer filter).trans (Bool.and_comm _ _)

/-! ### Both ways -/

/-- A query over a type, filtered before it is evaluated. -/
def spliced (session : Session) (type : String) (outer filter : Query) :
    Effect (List EntityId) := do
  let selection ← Selection.ofQuery type outer
  let filtered ← selection.filter type filter
  (← filtered.evaluate session.engine).collect

/-- A query over a type, evaluated and filtered after that. -/
def resolved (session : Session) (type : String) (outer filter : Query) :
    Effect (List EntityId) := do
  let selection ← Selection.ofQuery type outer
  let rows ← selection.evaluate session.engine
  let filtered ← (Selection.rows rows).filter type filter
  (← filtered.evaluate session.engine).collect

section Ways

variable (sound : session.Sound s) (tree : session.metadata.Tree type names)
  (unmixed : ∀ order ∈ orders₂ ++ orders₁, session.store.Unmixed order.name)
  (orderly₁ : b₁.orderly = true) (unsorted₁ : b₁.unsorted = true)
  (orderly₂ : b₂.orderly = true) (unsorted₂ : b₂.unsorted = true)

include sound tree unmixed orderly₁ unsorted₁ orderly₂ unsorted₂

/-- What the spliced query is answered with: the steps of the filter are the outermost ones,
unless both queries have steps and are joined. -/
theorem standing_of_spliced {q : Query}
    (splices : (b₁.sortedBy orders₁).andThen (b₂.sortedBy orders₂) = q)
    (few : q = .inter (b₁.sortedBy orders₁) (b₂.sortedBy orders₂) →
      orders₁.length + orders₂.length ≤ maxHoisted)
    (ran : session.spliced type (b₁.sortedBy orders₁) (b₂.sortedBy orders₂) s = .ok ids s') :
    ∃ rows orders, rows.ids = ids ∧ orders.Perm (orders₂ ++ orders₁) ∧
      ((q = .inter (b₁.sortedBy orders₁) (b₂.sortedBy orders₂) → orders₁ = [] ∨ orders₂ = []) →
        orders = orders₂ ++ orders₁) ∧
      session.Standing names orders
        (fun id => session.admits type b₂ id && session.admits type b₁ id) rows := by
  obtain ⟨settled, same, lone⟩ :=
    Query.settled_andThen orderly₁ unsorted₁ orderly₂ unsorted₂ splices few
  obtain ⟨selection, s₁, making, ran⟩ := Effect.exists_of_bind ran
  cases making
  obtain ⟨filtered, s₂, filtering, ran⟩ := Effect.exists_of_bind ran
  obtain ⟨sound₁, -⟩ := sound.stamped q
  obtain ⟨sound₂, fits⟩ := sound₁.stamped q
  -- the selection that is filtered is over the same type, so the queries become one
  have made : filtered = .deferred (s.nextStamp + 1) type q ∧
      s₂ = { s with nextStamp := s.nextStamp + 1 + 1 } := by
    unfold Selection.filter at filtering
    obtain ⟨stamp, s₃, stamping, filtering⟩ := Effect.exists_of_bind filtering
    cases stamping
    simp only [if_pos, splices] at filtering
    cases filtering
    exact ⟨rfl, rfl⟩
  obtain ⟨rfl, rfl⟩ := made
  obtain ⟨rows, s₃, evaluating, collecting⟩ := Effect.exists_of_bind ran
  obtain ⟨sound₃, ⟨orders, same', lone', standing⟩, -⟩ := evaluate_standing sound₂ settled fits
    (fun _ => tree) (fun order mem => unmixed order (same.subset mem)) evaluating
  obtain ⟨-, rfl⟩ := yields_collect rows sound₃.reached collecting
  refine ⟨rows, orders, rfl, same'.trans same, fun one => ?_, standing.congr fun id => ?_⟩
  · obtain ⟨isLone, orders⟩ := lone one
    rw [lone' isLone, orders]
  · rw [← splices, admits_andThen, admits_sortedBy, admits_sortedBy]

/-- What the rows of the query are filtered to: the steps of the filter are the outermost
ones. -/
theorem standing_of_resolved
    (ran : session.resolved type (b₁.sortedBy orders₁) (b₂.sortedBy orders₂) s = .ok ids s') :
    ∃ rows, rows.ids = ids ∧ session.Standing names (orders₂ ++ orders₁)
      (fun id => session.admits type b₂ id && session.admits type b₁ id) rows := by
  have unmixed₁ : ∀ order ∈ orders₁, session.store.Unmixed order.name :=
    fun order mem => unmixed order (List.mem_append_right _ mem)
  have orders : ∀ {b : Query} (orders : List PropertyOrder), b.unsorted = true →
      (b.sortedBy orders).propertyOrders = orders := fun orders unsorted =>
    Query.propertyOrders_eq (Query.orders_sortedBy orders unsorted)
  obtain ⟨selection, s₁, making, ran⟩ := Effect.exists_of_bind ran
  cases making
  obtain ⟨sound₁, fits⟩ := sound.stamped (b₁.sortedBy orders₁)
  obtain ⟨source, s₂, evaluating, ran⟩ := Effect.exists_of_bind ran
  obtain ⟨sound₂, ⟨_, -, lone, standing⟩, -⟩ := evaluate_standing sound₁
    (Query.settled_sortedBy orders₁ orderly₁ unsorted₁) fits (fun _ => tree)
    (by rwa [orders orders₁ unsorted₁]) evaluating
  obtain rfl := lone (Query.lone_sortedBy orders₁ unsorted₁)
  rw [orders orders₁ unsorted₁] at standing
  obtain ⟨filtered, s₃, filtering, ran⟩ := Effect.exists_of_bind ran
  obtain ⟨sound₃, fits⟩ := sound₂.stamped (b₂.sortedBy orders₂)
  cases filtering
  obtain ⟨rows, s₄, evaluating, collecting⟩ := Effect.exists_of_bind ran
  obtain ⟨optimized, s₅, optimizing, filtering⟩ := Effect.exists_of_bind evaluating
  have settled := Query.settled_sortedBy orders₂ orderly₂ unsorted₂
  obtain ⟨sound₅, optimizes, -⟩ :=
    sound₃.optimizeOnce (Query.legible_of_orderly settled.orderly) fits optimizing
  obtain ⟨outer, lifted, -, lone⟩ := lifted_of_optimizes type settled optimizes
  obtain rfl := lone (Query.lone_sortedBy orders₂ unsorted₂)
  rw [orders orders₂ unsorted₂] at lifted
  obtain ⟨reached, standing⟩ := yields_filter_standing lifted (fun _ => tree) unmixed
    (fun _ => inHierarchy_of_admits) standing sound₅.reached filtering
  obtain ⟨-, rfl⟩ := yields_collect rows reached collecting
  refine ⟨rows, rfl, standing.congr fun id => ?_⟩
  rw [admits_sortedBy, admits_sortedBy]

end Ways

/-- Filtering a sorted query over a tree before its evaluation, and filtering its rows after that,
select the same entities, whatever the session has answered before and still remembers.  They list
them in the same order, unless both queries have sort steps and are joined by an intersection. -/
theorem spliced_agrees (session : Session) {direct : List EntityId} {t t' : State}
    (tree : session.metadata.Tree type names)
    (unmixed : ∀ order ∈ orders₂ ++ orders₁, session.store.Unmixed order.name)
    (orderly₁ : b₁.orderly = true) (unsorted₁ : b₁.unsorted = true)
    (orderly₂ : b₂.orderly = true) (unsorted₂ : b₂.unsorted = true)
    (few : (b₁.sortedBy orders₁).andThen (b₂.sortedBy orders₂)
        = .inter (b₁.sortedBy orders₁) (b₂.sortedBy orders₂) →
      orders₁.length + orders₂.length ≤ maxHoisted)
    (fresh : session.Fresh) (history : session.ReachesBy (·.legible = true) s)
    (history' : session.ReachesBy (·.legible = true) t)
    (ran : session.spliced type (b₁.sortedBy orders₁) (b₂.sortedBy orders₂) s = .ok ids s')
    (ran' : session.resolved type (b₁.sortedBy orders₁) (b₂.sortedBy orders₂) t
      = .ok direct t') :
    ids.Perm direct ∧
      (((b₁.sortedBy orders₁).andThen (b₂.sortedBy orders₂)
          = .inter (b₁.sortedBy orders₁) (b₂.sortedBy orders₂) → orders₁ = [] ∨ orders₂ = []) →
        ids = direct) := by
  obtain ⟨rows, orders, rfl, same, one, standing⟩ :=
    standing_of_spliced (sound_of_reachesBy fresh history) tree unmixed orderly₁ unsorted₁ orderly₂
      unsorted₂ rfl few ran
  obtain ⟨rows', rfl, standing'⟩ :=
    standing_of_resolved (sound_of_reachesBy fresh history') tree unmixed orderly₁ unsorted₁
      orderly₂ unsorted₂ ran'
  have unmixed' : ∀ order ∈ orders, session.store.Unmixed order.name :=
    fun order mem => unmixed order (same.subset mem)
  refine ⟨standing.perm standing'.toArranged unmixed' unmixed, fun only => ?_⟩
  obtain rfl := one only
  exact standing.ids_eq standing'.toArranged unmixed

/-! ### Crates by weight and age -/

/-- A session over a store with three crates: a heavy new one, and two light ones, the first of
them older than the second. -/
def stock : Session where
  metadata :=
    { subtypeNames := []
      subtypes := fun _ => []
      association := fun _ _ => none
      storage := fun _ _ => .primitive }
  settings := .default
  start := .initial
    { tables :=
        #[⟨"crate", #[⟨[("weight", .int 2), ("age", .int 1)], [], []⟩,
            ⟨[("weight", .int 1), ("age", .int 3)], [], []⟩,
            ⟨[("weight", .int 1), ("age", .int 2)], [], []⟩]⟩]
      failure := none
      searchesLinks := true
      ordersByTargets := true }
    (.create 16 false 1)

theorem fresh_stock : stock.Fresh where
  nothingRemembered := Cache.QueryCache.get?_create _ _ _
  nothingDecided := rfl

open PropertyOrder (byWeight byAge)

theorem unmixed_stock : ∀ order ∈ [byAge, byWeight], stock.store.Unmixed order.name := by
  intro order mem
  simp only [List.mem_cons, List.not_mem_nil, or_false] at mem
  rcases mem with rfl | rfl <;> exact (Store.oneKind_of_records .int (by decide)).unmixed

end Session

/-- The crates that are not three years old. -/
def Query.notThree : Query :=
  .compl (.equals "age" (some (.int 3)))

namespace Session

open PropertyOrder (byWeight byAge)

set_option maxRecDepth 10000 in
/-- Crates by weight and age, without those that are three years old. -/
theorem spliced_agrees_notThree :
    ∃ s s',
      stock.spliced "crate" (Query.all.sortedBy [byWeight, byAge]) .notThree stock.start
        = .ok [⟨0, 2⟩, ⟨0, 0⟩] s ∧
      stock.resolved "crate" (Query.all.sortedBy [byWeight, byAge]) .notThree stock.start
        = .ok [⟨0, 2⟩, ⟨0, 0⟩] s' ∧
      [(⟨0, 2⟩ : EntityId), ⟨0, 0⟩] = [⟨0, 2⟩, ⟨0, 0⟩] := by
  have spliced : EStateM.run'
      (stock.spliced "crate" (Query.all.sortedBy [byWeight, byAge]) .notThree) stock.start
        = some [⟨0, 2⟩, ⟨0, 0⟩] := by decide +kernel
  have resolved : EStateM.run'
      (stock.resolved "crate" (Query.all.sortedBy [byWeight, byAge]) .notThree) stock.start
        = some [⟨0, 2⟩, ⟨0, 0⟩] := by decide +kernel
  obtain ⟨s, spliced⟩ := Effect.exists_of_run' spliced
  obtain ⟨s', resolved⟩ := Effect.exists_of_run' resolved
  have tree : stock.metadata.Tree "crate" ["crate"] := Metadata.tree_of_childless rfl
  have unmixed : ∀ order ∈ [] ++ [byWeight, byAge], stock.store.Unmixed order.name :=
    fun order mem => unmixed_stock order ((List.Perm.swap _ _ _).subset mem)
  have unsorted : Query.notThree = Query.notThree.sortedBy [] := rfl
  rw [unsorted] at spliced resolved
  refine ⟨s, s', spliced, resolved, ?_⟩
  exact (stock.spliced_agrees tree unmixed rfl rfl rfl rfl (fun _ => by decide) fresh_stock .refl
    .refl spliced resolved).2 fun _ => .inr rfl

set_option maxRecDepth 10000 in
/-- Crates by weight, sorted by age when they are filtered.  Spliced, the weight counts first.
Filtered one after the other, the age does. -/
theorem spliced_disagrees :
    stock.metadata.directSubtypes "crate" = [] ∧ stock.Fresh ∧
      (∀ order ∈ [byAge, byWeight], stock.store.Unmixed order.name) ∧
      ∃ s s',
        stock.spliced "crate" (Query.all.sortedBy [byWeight])
          ((Query.hasProperty "weight").sortedBy [byAge]) stock.start
          = .ok [⟨0, 2⟩, ⟨0, 1⟩, ⟨0, 0⟩] s ∧
        stock.resolved "crate" (Query.all.sortedBy [byWeight])
          ((Query.hasProperty "weight").sortedBy [byAge]) stock.start
          = .ok [⟨0, 0⟩, ⟨0, 2⟩, ⟨0, 1⟩] s' ∧
        [(⟨0, 2⟩ : EntityId), ⟨0, 1⟩, ⟨0, 0⟩] ≠ [⟨0, 0⟩, ⟨0, 2⟩, ⟨0, 1⟩] := by
  have spliced : EStateM.run'
      (stock.spliced "crate" (Query.all.sortedBy [byWeight])
        ((Query.hasProperty "weight").sortedBy [byAge])) stock.start
        = some [⟨0, 2⟩, ⟨0, 1⟩, ⟨0, 0⟩] := by decide +kernel
  have resolved : EStateM.run'
      (stock.resolved "crate" (Query.all.sortedBy [byWeight])
        ((Query.hasProperty "weight").sortedBy [byAge])) stock.start
        = some [⟨0, 0⟩, ⟨0, 2⟩, ⟨0, 1⟩] := by decide +kernel
  obtain ⟨s, spliced⟩ := Effect.exists_of_run' spliced
  obtain ⟨s', resolved⟩ := Effect.exists_of_run' resolved
  exact ⟨rfl, fresh_stock, unmixed_stock, s, s', spliced, resolved, by decide⟩

end Session

end ExtentQuery

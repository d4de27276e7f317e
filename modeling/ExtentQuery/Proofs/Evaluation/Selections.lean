import ExtentQuery.Proofs.Evaluation.Splicing

/-!
# What a selection lists

A selection is evaluated in one way or another, depending on what it was made of and on what the
session remembers.  All ways list the same entities in the same order, and this module says which.

* `Session.Lists` — the list that a selection stands for: rows list what they hold, a query that
  waits lists what it admits in its only order, and a filter what it keeps of its source;
* `Session.Proper` — selections of which this is known;
* `Session.Lists.unique` — a selection stands for one list only;
* `Session.Awaits` — a state in which selections wait for their evaluation;
* `Session.lists_of_evaluate` — an evaluation yields the list, and leaves the others waiting;
* `Session.offers_of_filter` — filtering a selection, whether it is spliced or not.

**A part of the hierarchy.**  A filter of a query over another type may be answered over the
narrower one of both types.  Entities of the subtype then stand by their places in the tree of
the subtype, which is a part of the tree of the type.
-/

namespace ExtentQuery

open Effect
open Rewrite (Optimized maxHoisted)

/-- The stamps and the queries of all that waits within a selection. -/
def Selection.waiting : Selection → List (Nat × Query)
  | rows _ => []
  | typed _ _ inner => inner.waiting
  | deferred stamp _ query => [(stamp, query)]
  | filtered stamp _ query source => (stamp, query) :: source.waiting

/-- What a filter becomes: a selection that keeps its source, or the query of its source spliced
with its own if both are over one type. -/
theorem Selection.exists_of_filter {type : String} {q : Query} {source selection : Selection}
    {s s' : State} (making : source.filter type q s = .ok selection s') :
    s' = { s with nextStamp := s.nextStamp + 1 } ∧
      (selection = filtered s.nextStamp type q source ∨
        (∃ stamp outer, source = deferred stamp type outer ∧
          selection = deferred s.nextStamp type (outer.andThen q)) ∨
        ∃ stamp outer inner, source = filtered stamp type outer inner ∧
          selection = filtered s.nextStamp type (outer.andThen q) inner) := by
  obtain ⟨stamp, s₁, stamping, making⟩ := Effect.exists_of_bind making
  cases stamping
  cases source with
  | rows | typed =>
    cases making
    exact ⟨rfl, .inl rfl⟩
  | deferred stamp ancestor outer =>
    by_cases same : ancestor = type
    · simp only [if_pos same] at making
      subst same
      cases making
      exact ⟨rfl, .inr (.inl ⟨stamp, outer, rfl, rfl⟩)⟩
    · simp only [if_neg same] at making
      cases making
      exact ⟨rfl, .inl rfl⟩
  | filtered stamp ancestor outer inner =>
    by_cases same : ancestor = type
    · simp only [if_pos same] at making
      subst same
      cases making
      exact ⟨rfl, .inr (.inr ⟨stamp, outer, inner, rfl, rfl⟩)⟩
    · simp only [if_neg same] at making
      cases making
      exact ⟨rfl, .inl rfl⟩

/-- The narrower one of two types is a subtype of both. -/
theorem Engine.isSubtype_of_narrowerType? {engine : Engine} {a b type : String}
    (found : engine.narrowerType? a b = some type) :
    engine.metadata.isSubtype type a = true ∧ engine.metadata.isSubtype type b = true := by
  unfold narrowerType? at found
  split at found
  case isTrue below =>
    obtain rfl := Option.some.inj found
    exact ⟨Metadata.isSubtype_self _ _, below⟩
  case isFalse =>
    obtain ⟨below, same⟩ := Option.ite_none_right_eq_some.mp found
    obtain rfl := Option.some.inj same
    exact ⟨below, Metadata.isSubtype_self _ _⟩

namespace Session

variable {session : Session} {type ancestor : String} {names : List String}
  {orders : List PropertyOrder} {q outer : Query} {selection source : Selection}
  {ids : List EntityId} {id : EntityId} {admitted : EntityId → Bool} {rows : Rows}
  {s s' : State} {waiting : List (Nat × Query)}

/-! ### Parts of what is arranged -/

theorem Arranged.of_tree {names' : List String} (tree : session.SortsTree type names orders)
    (tree' : session.SortsTree type names' orders)
    (arranged : session.Arranged names orders admitted ids) :
    session.Arranged names' orders admitted ids := by
  by_cases none : orders = []
  · subst none
    exact ⟨arranged.contains, arranged.ordered⟩
  · rw [(tree' none).unique (tree none)]
    exact arranged

/-- What is kept of arranged entities is arranged, also as entities of a subtype. -/
theorem exists_arranged_filter {keep kept : EntityId → Bool}
    (below : session.metadata.isSubtype type ancestor = true)
    (tree : session.SortsTree ancestor names orders)
    (arranged : session.Arranged names orders admitted ids)
    (inside : ∀ id, kept id = true → session.inHierarchy type id = true)
    (same : ∀ id, kept id = (admitted id && keep id)) :
    ∃ names', session.SortsTree type names' orders ∧
      session.Arranged names' orders kept (ids.filter keep) := by
  have contains : ∀ id, (ids.filter keep).contains id = kept id := by
    intro id
    rw [same id, ← arranged.contains id, Bool.eq_iff_iff, List.contains_iff_mem, List.mem_filter,
      Bool.and_eq_true, List.contains_iff_mem]
  have ordered := arranged.ordered.filter keep
  by_cases none : orders = []
  · subst none
    exact ⟨[], fun sorted => absurd rfl sorted, contains, ordered⟩
  have mem : type ∈ names := (tree none).mem_iff.mpr
    (Metadata.mem_family_of_isSubtype below List.mem_cons_self)
  obtain ⟨before, block, after, rfl, subtree⟩ := (tree none).exists_subtree mem
  refine ⟨block, fun _ => subtree, contains, ordered.imp_of_mem fun {x y} here here' ranked => ?_⟩
  have ofBlock : ∀ {id}, id ∈ ids.filter keep → ∃ name ∈ block, session.store.isOf name id = true :=
    fun {id} here => isOf_of_inHierarchy subtree
      (inside id (contains id ▸ List.contains_iff_mem.mpr here))
  have alike := Store.byType_block (tree none).nodup (ofBlock here) (ofBlock here')
  exact (Store.ranksOver_of_byType alike).mp ranked

/-! ### The list of a selection -/

/-- A query that can wait for its evaluation: it consists of conditions and at most as many sort
steps as there is room for, they are by properties whose values can be compared, and sort a tree,
and at most one operand of each intersection and each union has any. -/
structure Waits (session : Session) (type : String) (q : Query) : Prop where
  orderly : q.orderly = true
  byProperties : q.byProperties = true
  lone : q.lone = true
  few : q.orders.length ≤ maxHoisted
  tree : ∃ names, session.SortsTree type names q.propertyOrders
  unmixed : ∀ order ∈ q.propertyOrders, session.store.Unmixed order.name

theorem Waits.settled (waits : session.Waits type q) : q.Settled :=
  ⟨waits.orderly, waits.byProperties, .inl waits.few⟩

/-- Conditions without sort steps can always wait. -/
theorem waits_of_unsorted (type : String) (orderly : q.orderly = true)
    (unsorted : q.unsorted = true) : session.Waits type q := by
  have none := Query.orders_eq_nil_iff.mpr unsorted
  have noOrders : q.propertyOrders = [] := by rw [Query.propertyOrders, none, List.filterMap_nil]
  refine ⟨orderly, ?_, Query.lone_of_unsorted unsorted, none ▸ Nat.zero_le _,
    ⟨[], fun sorted => absurd noOrders sorted⟩, fun order mem => ?_⟩
  · rw [Query.byProperties, none, List.all_nil]
  · rw [noOrders] at mem
    exact absurd mem List.not_mem_nil

/-- The steps of a query may stand somewhere else. -/
theorem Waits.of_orders {q' : Query} (waits : session.Waits ancestor q)
    (orders : q'.orders = q.orders) (orderly : q'.orderly = true) (lone : q'.lone = true)
    (tree : ∃ names, session.SortsTree type names q.propertyOrders) : session.Waits type q' := by
  have same : q'.propertyOrders = q.propertyOrders := by
    rw [Query.propertyOrders, orders, Query.propertyOrders]
  refine ⟨orderly, ?_, lone, orders ▸ waits.few, same ▸ tree, same ▸ waits.unmixed⟩
  rw [Query.byProperties, orders]
  exact waits.byProperties

/-- Whether a selection stands for a list. -/
def Lists (session : Session) : Selection → List EntityId → Prop
  | .rows rows, ids => ids = rows.ids
  | .typed _ _ inner, ids => session.Lists inner ids
  | .deferred _ type q, ids => ∃ names, session.SortsTree type names q.propertyOrders ∧
      session.Arranged names q.propertyOrders (session.admits type q) ids
  | .filtered _ type q source, ids => ∃ whole, session.Lists source whole ∧
      ids = whole.filter (session.admits type q)

/-- Whether all that a selection stands for belongs to the hierarchy of a type. -/
def Truthful (session : Session) (type : String) (selection : Selection) : Prop :=
  ∀ ids, session.Lists selection ids → ∀ id ∈ ids, session.inHierarchy type id = true

/-- Whether the parts of a selection can wait for their evaluation, and entities that are known to
be of a type are. -/
def Proper (session : Session) : Selection → Prop
  | .rows _ => True
  | .typed _ type inner => session.Proper inner ∧ session.Truthful type inner
  | .deferred _ type q => session.Waits type q
  | .filtered _ type q source => (q.orderly = true ∧ q.unsorted = true) ∧
      session.Proper source ∧ session.Truthful type source

theorem Lists.unique {ids' : List EntityId} (proper : session.Proper selection)
    (lists : session.Lists selection ids) (lists' : session.Lists selection ids') : ids = ids' := by
  induction selection generalizing ids ids' with
  | rows rows => exact lists.trans lists'.symm
  | typed stamp type inner ih => exact ih proper.1 lists lists'
  | deferred stamp type q =>
    obtain ⟨names, tree, arranged⟩ := lists
    obtain ⟨names', tree', arranged'⟩ := lists'
    exact arranged.ids_eq (arranged'.of_tree tree' tree) (Waits.unmixed proper)
  | filtered stamp type q source ih =>
    obtain ⟨whole, lists, rfl⟩ := lists
    obtain ⟨whole', lists', rfl⟩ := lists'
    rw [ih proper.2.1 lists lists']

/-- What is known to be of a type without an evaluation is of this type. -/
theorem Lists.inside (proper : session.Proper selection) (lists : session.Lists selection ids)
    (known : selection.knownType? = some type) :
    ∀ id ∈ ids, session.inHierarchy type id = true := by
  cases selection with
  | rows => cases known
  | typed stamp type inner =>
    cases known
    exact proper.2 ids lists
  | deferred stamp type q =>
    cases known
    obtain ⟨names, -, arranged⟩ := lists
    exact fun id mem => inHierarchy_of_admits (arranged.mem_iff.mp mem)
  | filtered stamp type q source =>
    cases known
    obtain ⟨whole, -, rfl⟩ := lists
    exact fun id mem => inHierarchy_of_admits (List.mem_filter.mp mem).2

/-- A query that waits stands for a list, evaluated or not. -/
theorem exists_lists_deferred (stamp : Nat) (waits : session.Waits type q) :
    ∃ ids, session.Lists (.deferred stamp type q) ids := by
  obtain ⟨names, tree⟩ := waits.tree
  obtain ⟨ids, arranged⟩ := exists_arranged (fun _ => inHierarchy_of_admits) waits.unmixed
  exact ⟨ids, names, tree, arranged⟩

/-! ### Selections that wait -/

/-- A state in which selections wait for their evaluation: what is remembered and what is decided
for their stamps was made of their queries, and each stamp stands for one query. -/
structure Awaits (session : Session) (s : State) (waiting : List (Nat × Query)) : Prop where
  sound : session.Sound s
  fits : ∀ entry ∈ waiting, session.Fits s entry.1 entry.2
  single : ∀ entry ∈ waiting, ∀ other ∈ waiting, entry.1 = other.1 → entry.2 = other.2

theorem Awaits.of_sameMemory (awaits : session.Awaits s waiting) (same : s.SameMemory s')
    (reached : session.Reaches s') : session.Awaits s' waiting :=
  ⟨awaits.sound.of_sameMemory same reached,
    fun entry mem => (awaits.fits entry mem).of_sameMemory same, awaits.single⟩

/-- A selection that is made waits, too. -/
theorem Awaits.stamped (awaits : session.Awaits s waiting) (q : Query) :
    session.Awaits { s with nextStamp := s.nextStamp + 1 } ((s.nextStamp, q) :: waiting) := by
  obtain ⟨sound, fits⟩ := awaits.sound.stamped q
  have apart : ∀ entry ∈ waiting, entry.1 ≠ s.nextStamp :=
    fun entry mem => Nat.ne_of_lt (awaits.fits entry mem).handedOut
  refine ⟨sound, List.forall_mem_cons.mpr ⟨fits, fun entry mem => ?_⟩, ?_⟩
  · exact (awaits.fits entry mem).of_sameMemory ⟨rfl, rfl, Nat.le_succ _⟩
  · intro entry mem other mem' same
    rcases List.mem_cons.mp mem with rfl | mem <;> rcases List.mem_cons.mp mem' with rfl | mem'
    · rfl
    · exact absurd same.symm (apart other mem')
    · exact absurd same (apart entry mem)
    · exact awaits.single entry mem other mem' same

/-- Whether a selection stands for a list, and waits for its evaluation in some state. -/
structure Offers (session : Session) (s : State) (selection : Selection)
    (ids : List EntityId) : Prop where
  proper : session.Proper selection
  lists : session.Lists selection ids
  awaits : ∃ waiting, session.Awaits s waiting ∧ selection.waiting ⊆ waiting

/-- Rows have nothing to wait for. -/
theorem offers_rows (sound : session.Sound s) (same : rows.ids = ids) :
    session.Offers s (.rows rows) ids :=
  ⟨trivial, same.symm, [], ⟨sound, nofun, nofun⟩, List.nil_subset _⟩

/-! ### Evaluating a selection -/

section Evaluating

variable {nested : Engine.Nested} {body : Query}

/-- What a filter begins with is its result, if it has no sort steps. -/
theorem exists_of_finishFilter {beginning : Engine.Beginning} {start : Effect Rows}
    (begins : beginning = .now start ∨ beginning = .later start)
    (awaits : session.Awaits s waiting)
    (ran : session.engine.finishFilter nested type beginning [] s = .ok rows s') :
    ∃ t t', session.Awaits t waiting ∧ start t = .ok rows t' ∧
      (session.Awaits t' waiting → session.Awaits s' waiting) := by
  have counts : ∀ {t t' : State}, session.Awaits t waiting →
      countWork .instantiation t = .ok () t' → session.Awaits t' waiting :=
    fun awaits counting => awaits.of_sameMemory (remembersNothing_countWork _ counting)
      (yields_countWork _ awaits.sound.reached counting).1
  rcases begins with rfl | rfl
  · obtain ⟨first, t', starting, ran⟩ := Effect.exists_of_bind ran
    obtain ⟨_, _, sorting, ran⟩ := Effect.exists_of_bind ran
    cases sorting
    obtain ⟨_, _, counting, ran⟩ := Effect.exists_of_bind ran
    cases ran
    exact ⟨s, t', awaits, starting, fun awaits => counts awaits counting⟩
  · obtain ⟨_, t, counting, starting⟩ := Effect.exists_of_bind ran
    exact ⟨t, s', counts awaits counting, starting, id⟩

/-- A query that is restricted by conditions has its own sort steps. -/
theorem Waits.joined {operation : SetOperation} (waits : session.Waits ancestor outer)
    (restricts : operation = .inter ∨ operation = .diff) (orderly : body.orderly = true)
    (unsorted : body.unsorted = true)
    (tree : ∃ names, session.SortsTree type names outer.propertyOrders) :
    session.Waits type (Engine.joinedQuery operation outer body) ∧
      (Engine.joinedQuery operation outer body).propertyOrders = outer.propertyOrders := by
  have none := Query.orders_eq_nil_iff.mpr unsorted
  have both : (outer.orderly && body.orderly) = true :=
    (Bool.and_eq_true _ _).mpr ⟨waits.orderly, orderly⟩
  have same : (Engine.joinedQuery operation outer body).orders = outer.orders := by
    rcases restricts with rfl | rfl <;>
      rw [Engine.joinedQuery, Query.orders, none, List.append_nil]
  refine ⟨waits.of_orders same ?_ ?_ tree, ?_⟩
  · rcases restricts with rfl | rfl <;> exact both
  · rcases restricts with rfl | rfl <;>
      simp only [Engine.joinedQuery, Query.lone, waits.lone, Query.lone_of_unsorted unsorted, none,
        List.isEmpty_nil, Bool.or_true, Bool.and_self]
  · rw [Query.propertyOrders, same, Query.propertyOrders]

/-- What two queries admit over the narrower one of their types. -/
theorem admits_of_narrowerType? {narrower : String}
    (found : session.engine.narrowerType? ancestor type = some narrower) (outer body : Query)
    (id : EntityId) : session.admits narrower (.inter outer body) id
      = (session.admits ancestor outer id && session.admits type body id) := by
  have joins : session.engine.joinedType? .inter ancestor type = some narrower := found
  exact (admits_joinedQuery .inter outer body).trans (admits_of_joinedType?
    (l := ⟨0, ancestor, outer, none⟩) (r := ⟨0, type, body, none⟩) joins)

/-- A filter of a query that waits, answered over the narrower type. -/
theorem lists_of_answer {narrower : String} {stamp : Nat} (awaits : session.Awaits s waiting)
    (waits : session.Waits ancestor outer) (orderly : body.orderly = true)
    (unsorted : body.unsorted = true)
    (admits : ∀ id, session.admits type body id = session.admits type q id)
    (found : session.engine.narrowerType? ancestor type = some narrower)
    (ran : session.engine.answer narrower (.inter outer body) s = .ok rows s') :
    session.Awaits s' waiting ∧ ∃ whole, session.Lists (.deferred stamp ancestor outer) whole ∧
      rows.ids = whole.filter (session.admits type q) := by
  obtain ⟨whole, names, tree, arranged⟩ := exists_lists_deferred stamp waits
  have same : ∀ id, session.admits narrower (.inter outer body) id
      = (session.admits ancestor outer id && session.admits type q id) :=
    fun id => admits id ▸ admits_of_narrowerType? found outer body id
  obtain ⟨names', tree', arranged'⟩ := exists_arranged_filter
    (Engine.isSubtype_of_narrowerType? found).1 tree arranged (fun _ => inHierarchy_of_admits) same
  obtain ⟨waits', orders⟩ := waits.joined (.inl rfl) orderly unsorted ⟨names', tree'⟩
  obtain ⟨sound, ⟨_, -, lone, standing⟩, others⟩ := answer_standing awaits.sound waits'.settled
    (orders ▸ tree') waits'.unmixed ran
  obtain rfl := lone waits'.lone
  rw [orders] at standing
  refine ⟨⟨sound, fun entry mem => others _ _ (awaits.fits entry mem), awaits.single⟩, whole,
    ⟨names, tree, arranged⟩, ?_⟩
  exact standing.toArranged.ids_eq arranged' waits.unmixed

/-- What a filter without sort steps keeps of its source, given what the source lists. -/
theorem lists_of_finishFilter (awaits : session.Awaits s waiting) (orderly : body.orderly = true)
    (unsorted : body.unsorted = true)
    (admits : ∀ id, session.admits type body id = session.admits type q id)
    (proper : session.Proper source) (truthful : session.Truthful type source)
    (evaluates : ∀ {t t' : State} {rows : Rows}, session.Awaits t waiting →
      source.evaluate session.engine t = .ok rows t' →
        session.Awaits t' waiting ∧ session.Lists source rows.ids)
    (ran : session.engine.finishFilter nested type
      (session.engine.beginFilter nested type body source (source.evaluate session.engine)) [] s
        = .ok rows s') :
    session.Awaits s' waiting ∧ ∃ whole, session.Lists source whole ∧
      rows.ids = whole.filter (session.admits type q) := by
  unfold Engine.beginFilter at ran
  split at ran
  case isTrue whole =>
    -- nothing is left out of the source, since all of it is of the type
    obtain ⟨t, t', awaits, starting, after⟩ := exists_of_finishFilter (.inr rfl) awaits ran
    obtain ⟨awaits', lists⟩ := evaluates awaits starting
    refine ⟨after awaits', rows.ids, lists, (List.filter_eq_self.mpr fun id mem => ?_).symm⟩
    rw [← admits id, whole]
    exact admits_all (truthful _ lists id mem)
  split at ran
  case isTrue empty =>
    obtain ⟨t, t', awaits, starting, after⟩ := exists_of_finishFilter (.inl rfl) awaits ran
    cases starting
    cases source with
    | rows given =>
      obtain rfl := Rows.eq_empty_of_knownEmpty empty
      exact ⟨after awaits, [], rfl, rfl⟩
    | typed | deferred | filtered => cases empty
  case isFalse =>
    split at ran
    case h_1 narrower joined found =>
      obtain ⟨t, t', awaits, starting, after⟩ := exists_of_finishFilter (.inr rfl) awaits ran
      cases source with
      | rows | typed | filtered => cases found
      | deferred stamp ancestor outer =>
        obtain ⟨_, narrows, same⟩ := Option.map_eq_some_iff.mp found
        cases same
        obtain ⟨awaits', lists⟩ :=
          lists_of_answer awaits proper orderly unsorted admits narrows starting
        exact ⟨after awaits', lists⟩
    case h_2 =>
      obtain ⟨t, t', awaits, starting, after⟩ := exists_of_finishFilter (.inl rfl) awaits ran
      obtain ⟨whole, t₁, evaluating, filtering⟩ := Effect.exists_of_bind starting
      obtain ⟨awaits₁, lists⟩ := evaluates awaits evaluating
      have unranged := Query.unranged_of_conditional
        (Query.conditional_of_orderly orderly unsorted)
      have quiet : RemembersNothing (session.engine.filterRows nested type body whole) :=
        (remembersNothing_evaluate unranged type).bind fun _ =>
          (remembersNothing_countWork _).bind fun _ => remembersNothing_combine _ _ _
      have filters : session.Yields (session.engine.filterRows nested type body whole) fun rows =>
          rows.ids = whole.ids.filter (session.admits type q) := by
        refine yields_bind (yields_evaluate_standing [] orderly unsorted)
          fun unfiltered filter => ?_
        refine yields_bind_done (yields_countWork _) fun _ => ?_
        refine (yields_combine .inter whole unfiltered).mono fun rows combines => ?_
        rw [combines.ids (by decide)]
        exact List.filter_congr fun id _ => (filter.contains id).trans (admits id)
      obtain ⟨reached, ids⟩ := filters awaits₁.sound.reached filtering
      exact ⟨after (awaits₁.of_sameMemory (quiet filtering) reached), whole.ids, lists, ids⟩

/-- An evaluation of a selection yields the list that it stands for, and all else goes on
waiting. -/
theorem lists_of_evaluate (awaits : session.Awaits s waiting)
    (within : selection.waiting ⊆ waiting) (proper : session.Proper selection)
    (ran : selection.evaluate session.engine s = .ok rows s') :
    session.Awaits s' waiting ∧ session.Lists selection rows.ids := by
  induction selection generalizing s s' rows with
  | rows given =>
    cases ran
    exact ⟨awaits, rfl⟩
  | typed stamp type inner ih => exact ih awaits within proper.1 ran
  | deferred stamp type q =>
    have waits : session.Waits type q := proper
    have mem : (stamp, q) ∈ waiting := within List.mem_cons_self
    obtain ⟨names, tree⟩ := waits.tree
    obtain ⟨sound, ⟨_, -, lone, standing⟩, others⟩ :=
      evaluate_standing awaits.sound waits.settled (awaits.fits _ mem) tree waits.unmixed ran
    obtain rfl := lone waits.lone
    refine ⟨⟨sound, fun entry here => ?_, awaits.single⟩, names, tree, standing.toArranged⟩
    exact others _ _ (awaits.fits entry here) fun same => awaits.single entry here _ mem same
  | filtered stamp type q source ih =>
    obtain ⟨⟨orderly, unsorted⟩, proper, truthful⟩ := proper
    have mem : (stamp, q) ∈ waiting := within List.mem_cons_self
    have waits := session.waits_of_unsorted type orderly unsorted
    obtain ⟨optimized, s₁, optimizing, filtering⟩ := Effect.exists_of_bind ran
    obtain ⟨sound₁, optimizes, others⟩ := awaits.sound.optimizeOnce
      (Query.legible_of_orderly orderly) (awaits.fits _ mem) optimizing
    have awaits₁ : session.Awaits s₁ waiting :=
      ⟨sound₁, fun entry here => others _ _ (awaits.fits entry here) fun same =>
        awaits.single entry here _ mem same, awaits.single⟩
    obtain ⟨_, lifted, -, lone⟩ := lifted_of_optimizes type waits.settled optimizes
    obtain rfl := lone waits.lone
    have noSteps : optimized.steps.2 = [] := by
      rw [lifted.steps, Query.propertyOrders, Query.orders_eq_nil_iff.mpr unsorted]
      rfl
    simp only [noSteps] at filtering
    exact lists_of_finishFilter awaits₁ lifted.orderly lifted.unsorted lifted.admits proper truthful
      (fun awaits evaluating => ih awaits (List.Subset.trans (List.subset_cons_self _ _) within)
        proper evaluating) filtering

theorem lists_of_collected (awaits : session.Awaits s waiting)
    (within : selection.waiting ⊆ waiting) (proper : session.Proper selection)
    (ran : (do (← selection.evaluate session.engine).collect) s = .ok ids s') :
    session.Lists selection ids := by
  obtain ⟨rows, s₁, evaluating, collecting⟩ := Effect.exists_of_bind ran
  obtain ⟨awaits₁, lists⟩ := lists_of_evaluate awaits within proper evaluating
  obtain ⟨-, rfl⟩ := yields_collect rows awaits₁.sound.reached collecting
  exact lists

/-- What is collected from a selection is the list that it stands for. -/
theorem Offers.collected {found : List EntityId} (offers : session.Offers s selection ids)
    (ran : (do (← selection.evaluate session.engine).collect) s = .ok found s') : found = ids := by
  obtain ⟨waiting, awaits, within⟩ := offers.awaits
  exact (lists_of_collected awaits within offers.proper ran).unique offers.proper offers.lists

end Evaluating

/-! ### Filtering a selection -/

/-- A query that is spliced with conditions has its own sort steps, and they stay on top. -/
theorem Waits.andThen {q : Query} (waits : session.Waits type outer) (orderly : q.orderly = true)
    (unsorted : q.unsorted = true) :
    session.Waits type (outer.andThen q) ∧
      (outer.andThen q).propertyOrders = outer.propertyOrders := by
  rcases Query.andThen_cases outer q with ⟨order, rfl, -⟩ | ⟨rfl, spliced⟩ | spliced
  · cases unsorted
  · rw [spliced]
    refine ⟨waits_of_unsorted type orderly unsorted, ?_⟩
    rw [Query.propertyOrders, Query.orders_eq_nil_iff.mpr unsorted]
    rfl
  · rw [spliced]
    exact waits.joined (.inl rfl) orderly unsorted waits.tree

/-- A filter lists what it keeps, whether it is spliced into what it filters or not. -/
theorem offers_of_filter (awaits : session.Awaits s waiting) (within : source.waiting ⊆ waiting)
    (proper : session.Proper source) (lists : session.Lists source ids)
    (orderly : q.orderly = true) (unsorted : q.unsorted = true)
    (truthful : session.Truthful type source)
    (making : source.filter type q s = .ok selection s') :
    session.Offers s' selection (ids.filter (session.admits type q)) := by
  obtain ⟨rfl, rfl | ⟨stamp, outer, rfl, rfl⟩ | ⟨stamp, outer, inner, rfl, rfl⟩⟩ :=
    Selection.exists_of_filter making
  · exact ⟨⟨⟨orderly, unsorted⟩, proper, truthful⟩, ⟨ids, lists, rfl⟩, _, awaits.stamped q,
      List.cons_subset_cons _ within⟩
  · obtain ⟨waits, orders⟩ := Waits.andThen proper orderly unsorted
    refine ⟨waits, ?_, _, awaits.stamped (outer.andThen q), ?_⟩
    · obtain ⟨names, tree, arranged⟩ := lists
      obtain ⟨names', tree', arranged'⟩ := exists_arranged_filter
        (Metadata.isSubtype_self _ _) tree arranged (fun _ => inHierarchy_of_admits)
        fun id => (admits_andThen outer q).trans (Bool.and_comm _ _)
      exact ⟨names', orders ▸ tree', orders ▸ arranged'⟩
    · exact List.cons_subset_cons _ (List.nil_subset _)
  · obtain ⟨⟨orderly', unsorted'⟩, proper, truthful⟩ := proper
    obtain ⟨whole, lists, rfl⟩ := lists
    refine ⟨⟨?_, proper, truthful⟩, ⟨whole, lists, ?_⟩, _,
      awaits.stamped (outer.andThen q), List.cons_subset_cons _ fun entry mem =>
        within (.tail _ mem)⟩
    · rcases Query.andThen_cases outer q with ⟨order, rfl, -⟩ | ⟨rfl, spliced⟩ | spliced
      · cases unsorted
      · rw [spliced]
        exact ⟨orderly, unsorted⟩
      · rw [spliced]
        exact ⟨(Bool.and_eq_true _ _).mpr ⟨orderly', orderly⟩,
          (Bool.and_eq_true _ _).mpr ⟨unsorted', unsorted⟩⟩
    · rw [List.filter_filter]
      exact List.filter_congr fun id _ => (admits_andThen outer q).symm

end Session

end ExtentQuery

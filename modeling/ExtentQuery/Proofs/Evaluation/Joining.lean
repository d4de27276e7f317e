import ExtentQuery.Proofs.Evaluation.Remembering
import ExtentQuery.Proofs.Evaluation.Subtypes
import ExtentQuery.Selection.Algebra

/-!
# Joining two queries instead of combining their answers

An operation on two selections that are not evaluated yet may join their queries into one,
which is then optimized and evaluated over one of the two types.  The other way is to
evaluate both selections and to combine their rows.  This module shows that both ways
select the same entities.

* `Session.admits` — what a query over a type says of an entity, without evaluation;
* `Session.Waiting` — a state in which a selection waits for its evaluation;
* `Session.evaluate_contains` — what a waiting selection holds once it is evaluated;
* `Session.joined_agrees` — joining and combining agree.

**The narrower type.**  Two queries over different types are joined over the narrower one.  What a
query says of an entity depends on the entity and on nothing else, except that entities
outside the hierarchy are not selected (`Session.admits_of_isSubtype`).  So narrowing the
type of one operand loses only entities that the other operand does not select either.  A
union has no such operand, and is joined over one and the same type only.

**The common source.**  Two selections that filter the same rows are joined into one that
filters these rows.  A query that is optimized to the whole extent lets all of them pass,
also those outside the hierarchy, so the rows have to be inside the hierarchies of both types.
-/

namespace ExtentQuery

open Effect
open Rewrite (Optimized)

/-- Leaving entities out of both operands leaves them out of the result. -/
theorem SetOperation.truth_and (operation : SetOperation) (x y kept : Bool) :
    operation.truth (x && kept) (y && kept) = (operation.truth x y && kept) := by
  cases operation <;> cases x <;> cases y <;> cases kept <;> rfl

namespace Query

/-- A query without sort steps all of whose leaves are conditions other than ranges. -/
def conditional (q : Query) : Bool :=
  (Interpretation.allLeaves (isLookUp fun _ _ => false) false).of q

/-- Without targets of links, it does not matter what is known of them. -/
theorem allLeaves_of_conditional {q : Query} (known : EntityId → String → Bool)
    (conditional : q.conditional = true) :
    (Interpretation.allLeaves (isLookUp known) false).of q = true := by
  refine Interpretation.allLeaves_mono (fun leaf isLookUp => ?_) conditional
  cases leaf with
  | linksFrom => cases isLookUp
  | _ => exact isLookUp

theorem unranged_of_conditional {q : Query} (conditional : q.conditional = true) :
    q.unranged = true :=
  allLeaves_of_conditional _ conditional

theorem conditional_joinedQuery {operation : SetOperation} {l r : Query}
    (left : l.conditional = true) (right : r.conditional = true) :
    (Engine.joinedQuery operation l r).conditional = true := by
  have both : (l.conditional && r.conditional) = true := (Bool.and_eq_true _ _).mpr ⟨left, right⟩
  cases operation <;> exact both

end Query

namespace Session

variable {session : Session} {type : String} {id : EntityId} {q : Query}

/-! ### What a query says of an entity -/

/-- Whether a query over a type selects an entity: it belongs to the hierarchy, and the
query holds of it. -/
def admits (session : Session) (type : String) (q : Query) (id : EntityId) : Bool :=
  (session.store.record? id).any fun record =>
    (session.types type).any fun each =>
      session.store.typeId? each == some id.typeId &&
        (session.readingOf each id record).holds q

theorem admits_of_has {each : String} {record : Record} (mem : each ∈ session.types type)
    (has : session.store.Has each id record) :
    session.admits type q id = (session.readingOf each id record).holds q := by
  have only : ∀ other, session.store.typeId? other = some id.typeId → other = each :=
    fun other named => (Store.Has.unique ⟨named, has.2⟩ has).1
  rw [Bool.eq_iff_iff, admits, has.2, Option.any_some, List.any_eq_true]
  constructor
  · rintro ⟨other, -, here⟩
    obtain ⟨named, holds⟩ := (Bool.and_eq_true _ _).mp here
    rw [← only other (beq_iff_eq.mp named)]
    exact holds
  · intro holds
    exact ⟨each, mem, (Bool.and_eq_true _ _).mpr ⟨beq_iff_eq.mpr has.1, holds⟩⟩

theorem inHierarchy_of_admits (admitted : session.admits type q id = true) :
    session.inHierarchy type id = true := by
  unfold admits at admitted
  cases found : session.store.record? id with
  | none =>
    rw [found] at admitted
    cases admitted
  | some record =>
    rw [found, Option.any_some] at admitted
    obtain ⟨each, mem, here⟩ := List.any_eq_true.mp admitted
    have named := beq_iff_eq.mp ((Bool.and_eq_true _ _).mp here).1
    exact inHierarchy_iff.mpr ⟨each, mem, record, named, found⟩

theorem admits_of_outside (outside : session.inHierarchy type id = false) :
    session.admits type q id = false :=
  Bool.eq_false_iff.mpr fun admitted => by
    rw [inHierarchy_of_admits admitted] at outside
    cases outside

/-- Everything of the hierarchy is in the whole extent. -/
theorem admits_all (inside : session.inHierarchy type id = true) :
    session.admits type .all id = true := by
  obtain ⟨each, mem, record, has⟩ := inHierarchy_iff.mp inside
  exact admits_of_has mem has

/-- A joined query decides about an entity by what its operands say of it. -/
theorem admits_joinedQuery (operation : SetOperation) (l r : Query) :
    session.admits type (Engine.joinedQuery operation l r) id
      = operation.truth (session.admits type l id) (session.admits type r id) := by
  cases inside : session.inHierarchy type id with
  | true =>
    obtain ⟨each, mem, record, has⟩ := inHierarchy_iff.mp inside
    rw [admits_of_has mem has, admits_of_has mem has, admits_of_has mem has]
    cases operation <;> rfl
  | false =>
    rw [admits_of_outside inside, admits_of_outside inside, admits_of_outside inside]
    cases operation <;> rfl

/-- A query over a subtype selects what the query over the type selects, as far as it
belongs to the subtype. -/
theorem admits_of_isSubtype {ancestor : String}
    (below : session.metadata.isSubtype type ancestor = true) :
    session.admits type q id = (session.inHierarchy type id && session.admits ancestor q id) := by
  cases inside : session.inHierarchy type id with
  | true =>
    obtain ⟨each, mem, record, has⟩ := inHierarchy_iff.mp inside
    have mem' : each ∈ session.types ancestor := Metadata.mem_family_of_isSubtype below mem
    rw [admits_of_has mem has, admits_of_has mem' has, Bool.true_and]
  | false => rw [admits_of_outside inside, Bool.false_and]

/-! ### Optimized queries -/

/-- What is known of an optimized query that was made of conditions. -/
theorem conditional_of_optimizes {optimized : Optimized} (conditional : q.conditional = true)
    (optimizes : session.Optimizes q optimized) :
    optimized.query.conditional = true ∧ optimized.hoisted = .empty := by
  obtain ⟨q', notices, commuted, found⟩ := optimizes
  have conditional' : q'.conditional = true := (allLeaves_of_commuted commuted).trans conditional
  have unsorted := Query.unsorted_of_unranged (Query.unranged_of_conditional conditional')
  exact ⟨Rewrite.optimize_allLeaves (leafInvariant_isLookUp _) found conditional',
    (Rewrite.unsorted_optimize found unsorted).2⟩

/-- An optimized query admits what the query admits. -/
theorem admits_of_optimizes {optimized : Optimized} (optimizes : session.Optimizes q optimized) :
    session.admits type optimized.query id = session.admits type q id := by
  cases inside : session.inHierarchy type id with
  | true =>
    obtain ⟨each, mem, record, has⟩ := inHierarchy_iff.mp inside
    rw [admits_of_has mem has, admits_of_has mem has]
    exact holds_of_optimizes _ (fun _ _ _ _ => rfl) optimizes
  | false => rw [admits_of_outside inside, admits_of_outside inside]

/-- A query that is made of conditions finds what it admits. -/
theorem Finds.eq_admits {x : Bool} (conditional : q.conditional = true)
    (finds : session.Finds type id q x) : x = session.admits type q id := by
  cases inside : session.inHierarchy type id with
  | true =>
    obtain ⟨each, mem, record, has⟩ := inHierarchy_iff.mp inside
    rw [admits_of_has mem has]
    exact finds.eq_holds mem has (Query.unranged_of_conditional conditional)
  | false =>
    rw [admits_of_outside inside]
    exact finds.eq_false inside (Query.allLeaves_of_conditional _ conditional)

/-! ### Evaluating a selection -/

/-- Whether a list holds what a query over a type selects from some rows, or from
everything. -/
def Holds (session : Session) (type : String) (q : Query) (source : Option Rows)
    (ids : List EntityId) : Prop :=
  ∀ id, ids.contains id
    = (session.admits type q id && source.all fun rows => rows.ids.contains id)

/-- Whether some rows, if given, hold only entities of the hierarchy of a type. -/
def Inside (session : Session) (type : String) (source : Option Rows) : Prop :=
  ∀ rows ∈ source, ∀ id ∈ rows.ids, session.inHierarchy type id = true

variable {nested : Engine.Nested}

/-- How rows are filtered by a query that is optimized already. -/
theorem yields_filter {source : Rows} (conditional : q.conditional = true)
    (inside : session.Inside type (some source)) :
    session.Yields
      (session.engine.finishFilter nested type
        (session.engine.beginFilter nested type q (.rows source) (pure source)) [])
      (fun rows => session.Holds type q (some source) rows.ids) := by
  have unranged := Query.unranged_of_conditional conditional
  have counted : ∀ {x : Effect Rows} {P : Rows → Prop}, session.Yields x P →
      session.Yields
        (do
          let rows ← x
          countWork .instantiation
          pure rows) P :=
    fun yields => yields_bind yields fun rows holds =>
      yields_bind_done (yields_countWork _) fun _ => yields_pure holds
  unfold Engine.beginFilter
  split
  case isTrue whole =>
    -- the rows pass as they are, and all of them are in the whole extent
    subst whole
    refine yields_bind_done (yields_countWork _) fun _ => yields_pure fun id => ?_
    rw [Option.all_some]
    cases here : source.ids.contains id with
    | true => rw [admits_all (inside source rfl id (List.contains_iff_mem.mp here)), Bool.and_self]
    | false => rw [Bool.and_false]
  case isFalse =>
    split
    case isTrue empty =>
      obtain rfl := Rows.eq_empty_of_knownEmpty empty
      exact counted (yields_pure fun id => (Bool.and_false _).symm)
    case isFalse =>
      refine counted ?_
      show session.Yields (do
        let rows ← pure source
        session.engine.filterRows nested type q rows) _
      rw [pure_bind]
      unfold Engine.filterRows
      rw [Engine.evaluate_congr nested session.engine.answer unranged]
      refine yields_bind
        (yields_evaluate_finds answersNested_answer (Query.plain_of_unranged unranged)) ?_
      intro unfiltered found
      refine yields_bind_done (yields_countWork _) fun _ => ?_
      refine (yields_combine .inter source unfiltered).mono fun rows combines id => ?_
      rw [combines.contains id, (found id).eq_admits conditional, Option.all_some]
      exact Bool.and_comm _ _

theorem remembersNothing_filter {source : Rows} (conditional : q.conditional = true) :
    RemembersNothing (session.engine.finishFilter nested type
      (session.engine.beginFilter nested type q (.rows source) (pure source)) []) := by
  have counted : ∀ {x : Effect Rows}, RemembersNothing x → RemembersNothing (do
      let rows ← x
      countWork .instantiation
      pure rows) :=
    fun quiet => quiet.bind fun rows => (remembersNothing_countWork _).bind fun _ =>
      remembersNothing_pure rows
  unfold Engine.beginFilter
  split
  · exact (remembersNothing_countWork _).bind fun _ => remembersNothing_pure source
  split
  · exact counted (remembersNothing_pure Rows.empty)
  · refine counted (RemembersNothing.bind (remembersNothing_pure source) fun rows => ?_)
    exact (remembersNothing_evaluate (Query.unranged_of_conditional conditional) type).bind
      fun unfiltered => (remembersNothing_countWork _).bind fun _ =>
        remembersNothing_combine .inter rows unfiltered

/-- What a selection holds that waits for its evaluation, and what the evaluation leaves
behind. -/
theorem evaluate_holds {selection : Selection} {waiting : Selection.Deferral}
    {source : Option Rows} {rows : Rows} {s s' : State} (sound : session.Sound s)
    (fits : session.Fits s waiting.stamp waiting.query)
    (deferral : selection.deferral? = some waiting)
    (filters : waiting.source = source.map .rows)
    (conditional : waiting.query.conditional = true)
    (inside : session.Inside waiting.type source)
    (ran : selection.evaluate session.engine s = .ok rows s') :
    session.Sound s' ∧ session.Holds waiting.type waiting.query source rows.ids ∧
      ∀ stamp q, session.Fits s stamp q → (stamp = waiting.stamp → q = waiting.query) →
        session.Fits s' stamp q := by
  have legible := Query.legible_of_unranged (Query.unranged_of_conditional conditional)
  cases selection with
  | rows | typed => cases deferral
  | deferred stamp type query =>
    cases deferral
    obtain rfl : source = none := Option.map_eq_none_iff.mp filters.symm
    obtain ⟨optimized, s₁, optimizing, answering⟩ := Effect.exists_of_bind ran
    obtain ⟨sound₁, optimizes, others⟩ := sound.optimizeOnce legible fits optimizing
    obtain ⟨conditional', empty⟩ := conditional_of_optimizes conditional optimizes
    have unranged' := Query.unranged_of_conditional conditional'
    obtain ⟨query', hoisted⟩ := optimized
    subst empty
    obtain ⟨reached, finds⟩ := yields_answerOptimized_finds _ unranged' sound₁.reached answering
    have same := remembersNothing_answerOptimized unranged' type answering
    refine ⟨sound₁.of_sameMemory same reached, fun id => ?_, fun stamp q other apart =>
      (others stamp q other apart).of_sameMemory same⟩
    rw [(finds id).eq_admits conditional', admits_of_optimizes optimizes, Option.all_none,
      Bool.and_true]
  | filtered stamp type query inner =>
    cases deferral
    obtain ⟨source, rfl, rfl⟩ := Option.map_eq_some_iff.mp filters.symm
    obtain ⟨optimized, s₁, optimizing, filtering⟩ := Effect.exists_of_bind ran
    obtain ⟨sound₁, optimizes, others⟩ := sound.optimizeOnce legible fits optimizing
    obtain ⟨conditional', empty⟩ := conditional_of_optimizes conditional optimizes
    have unranged' := Query.unranged_of_conditional conditional'
    obtain ⟨query', hoisted⟩ := optimized
    subst empty
    have noSteps : (⟨query', .empty⟩ : Optimized).steps = (query', []) := by
      simp only [Optimized.steps, Query.splitSorts_of_unranged unranged']
      rfl
    simp only [noSteps] at filtering
    obtain ⟨reached, holds⟩ := yields_filter conditional' inside sound₁.reached filtering
    have same := remembersNothing_filter conditional' filtering
    refine ⟨sound₁.of_sameMemory same reached, fun id => ?_, fun stamp q other apart =>
      (others stamp q other apart).of_sameMemory same⟩
    rw [holds id, admits_of_optimizes optimizes]

/-! ### Which way an operation goes -/

end Session

namespace Engine

/-- An operation on two selections. -/
def operate (engine : Engine) : SetOperation → Selection → Selection → Effect Selection
  | .inter => engine.inter
  | .union => engine.union
  | .diff => engine.diff
  | .concat => engine.concat

section Ways

variable {engine : Engine} {left right : Selection} {l r : Selection.Deferral}
  {source : Option Rows}

theorem sameSource_rows (source : Option Rows) :
    sameSource (source.map .rows) (source.map .rows) = true := by
  cases source with
  | none => rfl
  | some rows =>
    cases rows with
    | empty => rfl
    | native | computed => exact beq_self_eq_true _

theorem knownEmpty_of_deferral? (deferral : left.deferral? = some l) :
    left.knownEmpty = false := by
  cases left <;> first | rfl | cases deferral

theorem knownType?_of_deferral? (deferral : left.deferral? = some l) :
    left.knownType? = some l.type := by
  cases left <;> cases deferral <;> rfl

/-- Selections of the same source are joined, if their types permit it. -/
theorem joinQueries_eq (deferralLeft : left.deferral? = some l)
    (deferralRight : right.deferral? = some r) (filters : l.source = source.map .rows)
    (filters' : r.source = source.map .rows) (operation : SetOperation) :
    engine.joinQueries operation left right =
      (engine.joinedType? operation l.type r.type).map fun type =>
        Selection.defer type (joinedQuery operation l.query r.query) l.source := by
  have same : sameSource l.source r.source = true := by
    rw [filters, filters']
    exact sameSource_rows source
  unfold joinQueries
  simp only [deferralLeft, deferralRight, Option.bind_eq_bind, Option.bind_some, same, if_true]
  cases engine.joinedType? operation l.type r.type <;> rfl

/-- Two queries over one type can be joined in every operation but a concatenation. -/
theorem joinedType?_self (engine : Engine) {operation : SetOperation}
    (other : operation ≠ .concat) (type : String) : (engine.joinedType? operation type type).isSome = true := by
  have self := engine.metadata.isSubtype_self type
  cases operation with
  | inter => simp only [joinedType?, narrowerType?, self, if_true, Option.isSome_some]
  | union => simp only [joinedType?, if_true, Option.isSome_some]
  | diff => simp only [joinedType?, self, if_true, Option.isSome_some]
  | concat => exact absurd rfl other

/-- Queries are joined over the type of one of them. -/
theorem joinedType?_eq_or {operation : SetOperation} {a b type : String}
    (found : engine.joinedType? operation a b = some type) : type = a ∨ type = b := by
  cases operation with
  | concat => cases found
  | union | diff => exact .inl (Option.some.inj (Option.ite_none_right_eq_some.mp found).2).symm
  | inter =>
    replace found : engine.narrowerType? a b = some type := found
    unfold narrowerType? at found
    by_cases below : engine.metadata.isSubtype a b = true
    · exact .inl (Option.some.inj ((if_pos below).symm.trans found)).symm
    · have found := (if_neg below).symm.trans found
      exact .inr (Option.some.inj (Option.ite_none_right_eq_some.mp found).2).symm

/-- Selections that wait for their evaluation are told apart by their stamps. -/
theorem same_eq_of_deferral? (deferralLeft : left.deferral? = some l)
    (deferralRight : right.deferral? = some r) : left.same right = (l.stamp == r.stamp) := by
  cases left <;> cases deferralLeft <;> cases right <;> cases deferralRight <;> rfl

/-- An operation on two selections that are not evaluated yet and filter the same rows:
copies of one selection decide it at once, otherwise it is joined if the types permit it,
and combined if they do not.  The extent of a type decides nothing here, because two
queries over one type are joined. -/
theorem operate_eq (deferralLeft : left.deferral? = some l)
    (deferralRight : right.deferral? = some r) (filters : l.source = source.map .rows)
    (filters' : r.source = source.map .rows) (operation : SetOperation) :
    engine.operate operation left right =
      if left.same right = true ∧ operation ≠ .concat then
        pure (if operation = .diff then .none else left)
      else
        match engine.joinedType? operation l.type r.type with
        | some type => Selection.defer type (joinedQuery operation l.query r.query) l.source
        | none => engine.combineEvaluated operation left right := by
  have fullLeft := knownEmpty_of_deferral? deferralLeft
  have fullRight := knownEmpty_of_deferral? deferralRight
  have joined : ∀ decided : Option Selection,
      (operation = .concat ∨ l.type ≠ r.type → decided = none) →
      engine.combineDeferred operation left right decided =
        match engine.joinedType? operation l.type r.type with
        | some type => Selection.defer type (joinedQuery operation l.query r.query) l.source
        | none => engine.combineEvaluated operation left right := by
    intro decided undecided
    unfold combineDeferred
    rw [joinQueries_eq deferralLeft deferralRight filters filters']
    cases join : engine.joinedType? operation l.type r.type with
    | some type => rfl
    | none =>
      have nothing : decided = none := by
        by_cases concat : operation = .concat
        · exact undecided (.inl concat)
        · refine undecided (.inr fun same => ?_)
          have found := engine.joinedType?_self concat r.type
          rw [same] at join
          rw [join] at found
          cases found
      rw [nothing]
      rfl
  have unlike : l.type ≠ r.type → sameKnownType left right = false := by
    intro types
    unfold sameKnownType
    rw [knownType?_of_deferral? deferralLeft, knownType?_of_deferral? deferralRight]
    exact beq_false_of_ne types
  cases operation with
  | concat =>
    simp only [operate, concat, fullLeft, fullRight, joinedType?, ne_eq, not_true_eq_false,
      and_false, if_false, Bool.false_eq_true]
  | inter | union | diff =>
    simp only [operate, inter, union, diff, fullLeft, fullRight, Bool.or_false, Bool.false_eq_true,
      if_false, ne_eq, reduceCtorEq, not_false_eq_true, and_true, if_true]
    split
    · rfl
    · refine joined _ fun either => ?_
      simp only [unlike (either.resolve_left (by decide)), Bool.not_false, if_true, Bool.false_and,
        Bool.false_eq_true, if_false]

end Ways

end Engine

namespace Session

variable {session : Session} {operation : SetOperation} {left right : Selection}
  {l r : Selection.Deferral} {source : Option Rows} {type : String} {q : Query}

/-! ### Joining and combining agree -/

/-- A state of a session in which two selections wait for their evaluation: the queries so
far were legible, and what is decided for either selection was made of its query. -/
structure Waiting (session : Session) (s : State) (l r : Selection.Deferral) : Prop where
  history : session.ReachesBy (·.legible = true) s
  left : session.Fits s l.stamp l.query
  right : session.Fits s r.stamp r.query

/-- Two queries are joined over a type only if joining them decides about each entity as
they do over their own types. -/
theorem admits_of_joinedType? {type : String} {id : EntityId}
    (found : session.engine.joinedType? operation l.type r.type = some type) :
    operation.truth (session.admits type l.query id) (session.admits type r.query id)
      = operation.truth (session.admits l.type l.query id) (session.admits r.type r.query id) := by
  -- what the operand over the subtype selects belongs to the subtype
  have narrow : ∀ {type ancestor : String} {p q : Query},
      session.metadata.isSubtype type ancestor = true → session.admits type p id = true →
      session.admits type q id = session.admits ancestor q id := by
    intro type ancestor p q below admitted
    rw [admits_of_isSubtype below, inHierarchy_of_admits admitted, Bool.true_and]
  cases operation with
  | concat => cases found
  | union =>
    obtain ⟨types, same⟩ := Option.ite_none_right_eq_some.mp found
    rw [← types, Option.some.inj same]
  | diff =>
    obtain ⟨below, same⟩ := Option.ite_none_right_eq_some.mp found
    obtain rfl := Option.some.inj same
    cases admitted : session.admits l.type l.query id with
    | true => rw [narrow below admitted]
    | false => rfl
  | inter =>
    replace found : session.engine.narrowerType? l.type r.type = some type := found
    unfold Engine.narrowerType? at found
    by_cases below : session.metadata.isSubtype l.type r.type = true
    · obtain rfl := Option.some.inj ((if_pos below).symm.trans found)
      cases admitted : session.admits l.type l.query id with
      | true => rw [narrow below admitted]
      | false => rfl
    · obtain ⟨below, same⟩ := Option.ite_none_right_eq_some.mp ((if_neg below).symm.trans found)
      obtain rfl := Option.some.inj same
      cases admitted : session.admits r.type r.query id with
      | true => rw [narrow below admitted]
      | false => rw [SetOperation.truth, SetOperation.truth, Bool.and_false, Bool.and_false]

/-! ### New selections -/

/-- What making a selection does. -/
theorem deferral?_of_defer {selection : Selection} {s s' : State}
    (making : Selection.defer type q (source.map .rows) s = .ok selection s') :
    selection.deferral? = some ⟨s.nextStamp, type, q, source.map .rows⟩ ∧
      s' = { s with nextStamp := s.nextStamp + 1 } := by
  cases source with
  | none =>
    cases making
    exact ⟨rfl, rfl⟩
  | some rows =>
    cases making
    exact ⟨rfl, rfl⟩

/-- Nothing is decided for a stamp that was not handed out before. -/
theorem Sound.stamped {s : State} (sound : session.Sound s) (q : Query) :
    session.Sound { s with nextStamp := s.nextStamp + 1 } ∧
      session.Fits { s with nextStamp := s.nextStamp + 1 } s.nextStamp q := by
  refine ⟨⟨sound.reached.step (.stamped s), sound.remembers, fun entry mem => ?_⟩,
    ⟨Nat.lt_succ_self _, fun optimized found => ?_⟩⟩
  · exact Nat.lt_succ_of_lt (sound.handedOut entry mem)
  · have undecided : s.memo.lookup s.nextStamp = none :=
      List.lookup_eq_none_iff.mpr fun entry mem =>
        bne_iff_ne.mpr (Nat.ne_of_gt (sound.handedOut entry mem))
    rw [undecided] at found
    cases found

/-- Two selections that were made one after the other wait for their evaluation. -/
theorem waiting_of_defer (fresh : session.Fresh) {s s₁ s₂ : State} {type' : String} {q' : Query}
    (history : session.ReachesBy (·.legible = true) s)
    (making : Selection.defer type q (source.map .rows) s = .ok left s₁)
    (making' : Selection.defer type' q' (source.map .rows) s₁ = .ok right s₂) :
    ∃ l r, left.deferral? = some l ∧ right.deferral? = some r ∧ l.stamp ≠ r.stamp ∧
      session.Waiting s₂ l r := by
  obtain ⟨deferralLeft, rfl⟩ := deferral?_of_defer making
  obtain ⟨deferralRight, rfl⟩ := deferral?_of_defer making'
  obtain ⟨sound₁, fits⟩ := (sound_of_reachesBy fresh history).stamped q
  obtain ⟨-, fits'⟩ := sound₁.stamped q'
  refine ⟨_, _, deferralLeft, deferralRight, Nat.ne_of_lt (Nat.lt_succ_self _), ?_, ?_, fits'⟩
  · exact (history.tail (.stamped s)).tail (.stamped _)
  · exact fits.of_sameMemory ⟨rfl, rfl, Nat.le_succ _⟩

/-! ### Both ways -/

section Ways

variable {s s' : State} {id : EntityId}

/-- What two selections hold that are evaluated and combined. -/
theorem contains_of_combined {selection : Selection} (sound : session.Sound s)
    (fits : session.Fits s l.stamp l.query) (fits' : session.Fits s r.stamp r.query)
    (deferralLeft : left.deferral? = some l) (deferralRight : right.deferral? = some r)
    (copies : left.same right = true → left = right)
    (filters : l.source = source.map .rows) (filters' : r.source = source.map .rows)
    (conditional : l.query.conditional = true) (conditional' : r.query.conditional = true)
    (inside : session.Inside l.type source) (inside' : session.Inside r.type source)
    (combining : session.engine.combineEvaluated operation left right s = .ok selection s') :
    session.Reaches s' ∧ ∃ rows, selection = .rows rows ∧ ∀ id, rows.ids.contains id
      = (operation.truth (session.admits l.type l.query id) (session.admits r.type r.query id)
        && source.all fun rows => rows.ids.contains id) := by
  have apart : r.stamp = l.stamp → r.query = l.query := by
    intro stamps
    have same := copies (Engine.same_eq_of_deferral? deferralLeft deferralRight ▸
      beq_iff_eq.mpr stamps.symm)
    subst same
    rw [Option.some.inj (deferralLeft.symm.trans deferralRight)]
  obtain ⟨rowsLeft, s₁, evaluating, combining⟩ := Effect.exists_of_bind combining
  obtain ⟨sound₁, holdsLeft, others⟩ :=
    evaluate_holds sound fits deferralLeft filters conditional inside evaluating
  obtain ⟨rowsRight, s₂, evaluating', combining⟩ := Effect.exists_of_bind combining
  obtain ⟨sound₂, holdsRight, -⟩ :=
    evaluate_holds sound₁ (others _ _ fits' apart) deferralRight filters' conditional' inside'
      evaluating'
  obtain ⟨rows, s₃, combining, made⟩ := Effect.exists_of_bind combining
  obtain ⟨reached, combines⟩ := yields_combine operation rowsLeft rowsRight sound₂.reached combining
  cases made
  refine ⟨reached, rows, rfl, fun id => ?_⟩
  rw [combines.contains id, holdsLeft id, holdsRight id, SetOperation.truth_and]

/-- The list that is collected from a selection that waits. -/
theorem holds_of_collected {selection : Selection} {waiting : Selection.Deferral}
    {ids : List EntityId} (sound : session.Sound s)
    (fits : session.Fits s waiting.stamp waiting.query)
    (deferral : selection.deferral? = some waiting) (filters : waiting.source = source.map .rows)
    (conditional : waiting.query.conditional = true) (inside : session.Inside waiting.type source)
    (ran : (do (← selection.evaluate session.engine).collect) s = .ok ids s') :
    session.Holds waiting.type waiting.query source ids := by
  obtain ⟨rows, s₁, evaluating, collecting⟩ := Effect.exists_of_bind ran
  obtain ⟨sound₁, holds, -⟩ :=
    evaluate_holds sound fits deferral filters conditional inside evaluating
  obtain ⟨-, rfl⟩ := yields_collect rows sound₁.reached collecting
  exact holds

theorem ids_of_collected_rows (rows : Rows) {ids : List EntityId} (reached : session.Reaches s)
    (ran : (do (← (Selection.rows rows).evaluate session.engine).collect) s = .ok ids s') :
    ids = rows.ids := by
  obtain ⟨_, _, kept, collecting⟩ := Effect.exists_of_bind ran
  cases kept
  exact (yields_collect rows reached collecting).2

/-- What a selection holds that an operation makes of two others, whichever way it goes. -/
theorem contains_of_operated {ids : List EntityId} (sound : session.Sound s)
    (fits : session.Fits s l.stamp l.query) (fits' : session.Fits s r.stamp r.query)
    (deferralLeft : left.deferral? = some l) (deferralRight : right.deferral? = some r)
    (copies : left.same right = true → left = right)
    (filters : l.source = source.map .rows) (filters' : r.source = source.map .rows)
    (conditional : l.query.conditional = true) (conditional' : r.query.conditional = true)
    (inside : session.Inside l.type source) (inside' : session.Inside r.type source)
    (ran : (do
      (← (← session.engine.operate operation left right).evaluate session.engine).collect) s
        = .ok ids s') (id : EntityId) :
    ids.contains id
      = (operation.truth (session.admits l.type l.query id) (session.admits r.type r.query id)
        && source.all fun rows => rows.ids.contains id) := by
  obtain ⟨selection, s₁, operating, ran⟩ := Effect.exists_of_bind ran
  rw [Engine.operate_eq deferralLeft deferralRight filters filters' operation] at operating
  by_cases copy : left.same right = true ∧ operation ≠ .concat
  -- an operation on copies of one selection
  · rw [if_pos copy] at operating
    obtain rfl := copies copy.1
    obtain rfl := Option.some.inj (deferralLeft.symm.trans deferralRight)
    cases operating
    cases operation with
    | concat => exact absurd rfl copy.2
    | diff =>
      obtain rfl := ids_of_collected_rows .empty sound.reached ran
      rw [SetOperation.truth, Bool.and_not_self, Bool.false_and]
      rfl
    | inter | union =>
      simp only [SetOperation.truth, Bool.and_self, Bool.or_self]
      exact holds_of_collected sound fits deferralLeft filters conditional inside ran id
  · rw [if_neg copy] at operating
    cases join : session.engine.joinedType? operation l.type r.type with
    | none =>
      rw [join] at operating
      obtain ⟨reached, rows, rfl, contains⟩ := contains_of_combined sound fits fits' deferralLeft
        deferralRight copies filters filters' conditional conditional' inside inside' operating
      rw [ids_of_collected_rows rows reached ran, contains id]
    | some type =>
      rw [join, filters] at operating
      obtain ⟨deferral, rfl⟩ := deferral?_of_defer operating
      obtain ⟨sound₁, fits₁⟩ := sound.stamped (Engine.joinedQuery operation l.query r.query)
      have insideJoined : session.Inside type source := by
        rcases Engine.joinedType?_eq_or join with rfl | rfl
        · exact inside
        · exact inside'
      rw [holds_of_collected sound₁ fits₁ deferral rfl
        (Query.conditional_joinedQuery conditional conditional') insideJoined ran id,
        admits_joinedQuery, admits_of_joinedType? join]

end Ways

/-- An operation on two selections that are not evaluated yet, and the same operation on their
evaluated rows, select the same entities: for every store and every hierarchy, whether the
queries are joined or not, whatever the session has answered before, and whether or not the
selections were evaluated before.  The queries are made of conditions other than ranges, and
both select from everything or from the same rows, which lie in the hierarchies of both
types. -/
theorem joined_agrees (session : Session) (operation : SetOperation) {left right : Selection}
    {l r : Selection.Deferral} {source : Option Rows} {ids direct : List EntityId}
    {s s' t t' : State} (fresh : session.Fresh)
    (deferralLeft : left.deferral? = some l) (deferralRight : right.deferral? = some r)
    (copies : left.same right = true → left = right)
    (filters : l.source = source.map .rows) (filters' : r.source = source.map .rows)
    (conditional : l.query.conditional = true) (conditional' : r.query.conditional = true)
    (inside : session.Inside l.type source) (inside' : session.Inside r.type source)
    (waiting : session.Waiting s l r) (waiting' : session.Waiting t l r)
    (joined : (do
      (← (← session.engine.operate operation left right).evaluate session.engine).collect) s
        = .ok ids s')
    (combined : (do
      (← (← session.engine.combineEvaluated operation left right).evaluate
        session.engine).collect) t = .ok direct t') :
    ∀ id, id ∈ ids ↔ id ∈ direct := by
  intro id
  have joinedContains := contains_of_operated (sound_of_reachesBy fresh waiting.history)
    waiting.left waiting.right deferralLeft deferralRight copies filters filters' conditional
    conditional' inside inside' joined id
  obtain ⟨selection, t₁, combining, combined⟩ := Effect.exists_of_bind combined
  obtain ⟨reached, rows, rfl, contains⟩ := contains_of_combined
    (sound_of_reachesBy fresh waiting'.history) waiting'.left waiting'.right deferralLeft
    deferralRight copies filters filters' conditional conditional' inside inside' combining
  obtain rfl := ids_of_collected_rows rows reached combined
  rw [← List.contains_iff_mem, joinedContains, ← contains id, List.contains_iff_mem]

/-! ### Cats with a name among the animals with an owner -/

/-- One cat, as the result of some computation. -/
def oneCat : Rows := .computed 0 [⟨1, 0⟩]

/-- Those of the given rows that are cats with a name. -/
def namedCats : Selection := .filtered 1 "cat" (.hasProperty "name") (.rows oneCat)

/-- Those of the given rows that are animals without an owner. -/
def ownerless : Selection := .filtered 2 "animal" (.compl (.hasLink "owner")) (.rows oneCat)

/-- The state after these selections were made. -/
def afterMaking : State := { animals.start with nextStamp := 3 }

set_option maxRecDepth 10000 in
/-- The difference is joined over the narrower type, the cats.  The animals without an owner
are then looked for among the cats only. -/
theorem joined_agrees_namedCats :
    ∃ s s',
      (do
        (← (← animals.engine.operate .diff namedCats ownerless).evaluate animals.engine).collect)
        afterMaking = .ok [⟨1, 0⟩] s ∧
      (do
        (← (← animals.engine.combineEvaluated .diff namedCats ownerless).evaluate
          animals.engine).collect)
        afterMaking = .ok [⟨1, 0⟩] s' ∧
      animals.engine.joinedType? .diff "cat" "animal" = some "cat" ∧
      ∀ id, id ∈ [(⟨1, 0⟩ : EntityId)] ↔ id ∈ [(⟨1, 0⟩ : EntityId)] := by
  have joined : EStateM.run'
      (do
        (← (← animals.engine.operate .diff namedCats ownerless).evaluate animals.engine).collect)
      afterMaking = some [⟨1, 0⟩] := by decide +kernel
  have combined : EStateM.run'
      (do
        (← (← animals.engine.combineEvaluated .diff namedCats ownerless).evaluate
          animals.engine).collect)
      afterMaking = some [⟨1, 0⟩] := by decide +kernel
  obtain ⟨s, joined⟩ := Effect.exists_of_run' joined
  obtain ⟨s', combined⟩ := Effect.exists_of_run' combined
  have inside : animals.Inside "cat" (some oneCat) ∧ animals.Inside "animal" (some oneCat) := by
    refine ⟨fun rows here id mem => ?_, fun rows here id mem => ?_⟩ <;>
    · obtain rfl := Option.some.inj here
      obtain rfl := List.mem_singleton.mp mem
      decide +kernel
  -- the rows took the first stamp, and the selections were made after them
  have history : animals.ReachesBy (·.legible = true) { animals.start with nextStamp := 1 } :=
    Relation.ReflTransGen.refl.tail (.stamped _)
  have making : Selection.defer "cat" (.hasProperty "name") ((some oneCat).map .rows)
      { animals.start with nextStamp := 1 }
        = .ok namedCats { animals.start with nextStamp := 2 } := rfl
  have making' : Selection.defer "animal" (.compl (.hasLink "owner")) ((some oneCat).map .rows)
      { animals.start with nextStamp := 2 } = .ok ownerless afterMaking := rfl
  obtain ⟨l, r, deferralLeft, deferralRight, -, waiting⟩ :=
    waiting_of_defer fresh_animals history making making'
  obtain rfl := Option.some.inj deferralLeft
  obtain rfl := Option.some.inj deferralRight
  have filters : some (Selection.rows oneCat) = (some oneCat).map .rows := rfl
  exact ⟨s, s', joined, combined, by decide +kernel,
    animals.joined_agrees .diff fresh_animals rfl rfl (fun same => absurd same (by decide))
      filters filters rfl rfl inside.1 inside.2 waiting waiting joined combined⟩

end Session

end ExtentQuery

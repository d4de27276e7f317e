import ExtentQuery.Proofs.Caching.Canonical
import ExtentQuery.Proofs.Caching.Entries
import ExtentQuery.Proofs.Evaluation.Hierarchy
import ExtentQuery.Proofs.Rewriting.Leaves
import ExtentQuery.Proofs.Rewriting.Reading
import Mathlib

/-!
# Optimized and direct evaluation agree on the hierarchy

A selection of a query is optimized before it is evaluated.  The rules of optimization
take the whole extent for everything there is, which is right about the entities of the
hierarchy and about no others.  So the two ways of answering a query agree on these
entities.

* `Session.readingOf` — what the leaves of queries say of one entity of the hierarchy, as
  a `Reading`;
* `Session.Ready` — a state that holds nothing wrong for a query, which is the case after
  any history of queries without custom leaves (`Session.ready_of_reachesBy`);
* `Session.query_agrees` — the optimized and the direct answer hold the same entities of
  the hierarchy, and the same entities altogether if the targets of links that the query
  asks for are in the hierarchy;
* `Session.query_disagrees` — an entity outside the hierarchy that only one of the answers
  holds.

**Outside the hierarchy.**  Only `Query.linksFrom` reaches entities of other types.  Next to the
whole extent in a union, it is taken to add nothing and is rewritten away; evaluated
directly, it does add its targets.

**Ranges are left out**, since the common range of two ranges may hold other values than
both ranges do (see `Reading`).
-/

namespace ExtentQuery

open Effect
open Rewrite (Optimized)

/-! ### Values -/

theorem Double.compare?_of_equals {a b : Double} (same : a.equals b = true) (x : Double) :
    x.compare? a = x.compare? b := by
  unfold equals at same
  have compared : a.compare? b = some .eq := beq_iff_eq.mp same
  unfold compare? at compared ⊢
  split at compared
  case isTrue => cases compared
  case isFalse numbers =>
    have ranks : a.rank = b.rank := Std.LawfulEqCmp.eq_of_compare (Option.some.inj compared)
    simp only [Bool.or_eq_true, not_or, Bool.not_eq_true] at numbers
    rw [numbers.1, numbers.2, ranks]

/-- Values that are the same in a query compare alike with every value. -/
theorem Value.compare?_of_same {a b : Value} (same : a.same b = true) (x : Value) :
    x.compare? a = x.compare? b := by
  cases a <;> cases b <;> simp only [Value.same, beq_iff_eq, Bool.false_eq_true] at same
  case float.float a b =>
    cases x <;> simp only [Value.compare?, Double.compare?_of_equals same]
  all_goals rw [same]

/-! ### The leaves that agree -/

namespace Query

/-- Whether a leaf is a condition other than a range, or the targets of a link of which
something is known. -/
def isLookUp (known : EntityId → String → Bool) : Query → Bool
  | linksFrom source link => known source link
  | between .. => false
  | leaf => leaf.isCondition

/-- A query without sort steps whose leaves are targets of links, and conditions other
than ranges. -/
def unranged (q : Query) : Bool :=
  (Interpretation.allLeaves (isLookUp fun _ _ => true) false).of q

theorem plain_of_unranged {q : Query} : q.unranged = true → q.plain = true :=
  Interpretation.allLeaves_mono fun leaf isLookUp => by cases leaf <;> first | rfl | cases isLookUp

theorem unsorted_of_unranged {q : Query} : q.unranged = true → q.unsorted = true :=
  Interpretation.allLeaves_mono fun _ _ => rfl

theorem legible_of_isLookUp {known : EntityId → String → Bool} {leaf : Query}
    (lookUp : leaf.isLookUp known = true) : leaf.legible = true := by
  cases leaf <;> first | rfl | cases lookUp

theorem legible_of_unranged {q : Query} (unranged : q.unranged = true) : q.legible = true := by
  rw [Query.unranged, ← Interpretation.allNodes_true] at unranged
  rw [← allLeaves_legible, ← Interpretation.allNodes_true]
  exact Interpretation.allNodes_mono (fun _ _ => legible_of_isLookUp) (fun _ => rfl) id unranged

theorem splitSorts_of_unranged {q : Query} (unranged : q.unranged = true) :
    q.splitSorts = ([], q) := by
  cases q <;> first | rfl | cases unranged

theorem linkedTargets?_of_unranged {q : Query} (unranged : q.unranged = true) :
    q.linkedTargets? = none := by
  cases q <;> first | rfl | cases unranged

end Query

theorem leafInvariant_isLookUp (known : EntityId → String → Bool) :
    LeafInvariant (Query.isLookUp known) where
  same a b isLeaf same := by
    cases a <;> cases b <;> first
      | rfl
      | simp_all [Query.same, Query.arity, Query.isLookUp]
  all := rfl
  absentProperty _ _ := rfl
  absentLink _ _ := rfl
  commonRange left right accepted isLookUp _ := by
    unfold Transformation.accepts at accepted
    split at accepted
    case h_1 both =>
      obtain ⟨rfl, rfl⟩ := Query.inter.inj both
      cases isLookUp
    all_goals simp_all

/-! ### Queries without queries inside them -/

namespace Engine

variable {engine : Engine} {q : Query}

/-- How queries within a query are answered does not matter if there are none. -/
theorem evaluateType_congr (nested nested' : Nested) (unranged : q.unranged = true) :
    engine.evaluateType nested q = engine.evaluateType nested' q := by
  funext type
  induction q with
  | root c ih => exact ih unranged
  | equals property value => cases value <;> rfl
  | linkedTo link target => cases target <;> rfl
  | inter l r ihl ihr =>
    obtain ⟨left, right⟩ := (Bool.and_eq_true _ _).mp unranged
    simp only [evaluateType, Query.linkedTargets?_of_unranged left,
      Query.linkedTargets?_of_unranged right, ihl left, ihr right]
  | union l r ihl ihr | diff l r ihl ihr | concat l r ihl ihr =>
    obtain ⟨left, right⟩ := (Bool.and_eq_true _ _).mp unranged
    simp only [evaluateType, ihl left, ihr right]
  | compl c ih => simp only [evaluateType, ih unranged]
  | between | linkedInto | sort | custom | slot | converter => cases unranged
  | _ => rfl

theorem evaluateEach_congr (nested nested' : Nested) (unranged : q.unranged = true)
    (type : String) : engine.evaluateEach nested q type = engine.evaluateEach nested' q type := by
  unfold evaluateEach
  rw [evaluateType_congr nested nested' unranged]

theorem evaluate_congr (nested nested' : Nested) (unranged : q.unranged = true)
    (type : String) : engine.evaluate nested q type = engine.evaluate nested' q type := by
  have ways : ∀ {q : Query}, q.unranged = true →
      engine.evaluateApart nested q type = engine.evaluateApart nested' q type →
      engine.evaluate nested q type = engine.evaluate nested' q type := by
    intro q unranged apart
    rw [evaluate_eq, evaluate_eq, evaluateType_congr nested nested' unranged,
      evaluateEach_congr nested nested' unranged, apart]
  induction q with
  | root c ih => exact ways unranged (ih unranged)
  | inter l r ihl ihr | union l r ihl ihr | diff l r ihl ihr | concat l r ihl ihr =>
    obtain ⟨left, right⟩ := (Bool.and_eq_true _ _).mp unranged
    exact ways unranged (by simp only [evaluateApart, ihl left, ihr right])
  | compl c ih =>
    refine ways unranged ?_
    simp only [evaluateApart, ih unranged, evaluateEach_congr nested nested' (q := .all) rfl]
  | between | linkedInto | sort | custom | slot | converter => cases unranged
  | _ => exact ways unranged (evaluateEach_congr nested nested' unranged type)

end Engine

namespace Session

variable {session : Session} {type : String} {id : EntityId}

/-- Whether an entity is a target of a link. -/
def isTarget (session : Session) (source : EntityId) (link : String) (id : EntityId) : Bool :=
  (session.store.record? source).any fun record => (record.targets link).contains id

/-- What a leaf says of an entity with a type and a record. -/
def leafOf (session : Session) (each : String) (id : EntityId) (record : Record) :
    Query → Bool
  | .linksFrom source link => session.isTarget source link id
  | .between .. => false
  | leaf => leaf.selects session.metadata each record

/-- What the leaves say of an entity with a type and a record. -/
def readingOf (session : Session) (each : String) (id : EntityId) (record : Record) :
    Reading where
  leaf := session.leafOf each id record
  leaf_all := rfl
  leaf_same a b isLeaf same := by
    cases a <;> cases b <;> simp_all [Query.same, Query.arity, leafOf, Query.selects]
    case equals.equals property value property' value' =>
      cases value <;> cases value' <;> simp_all [Value.sameOption]
      case some.some v v' => simp only [Value.compare?_of_same same.2]
  leaf_absentProperty _ := rfl
  leaf_absentLink _ := (Bool.not_not _).symm
  leaf_commonRange := by
    intro left right accepted
    unfold Transformation.accepts at accepted
    split at accepted
    case h_1 same =>
      simp only [Query.inter.injEq] at same
      obtain ⟨rfl, rfl⟩ := same
      simp only [Bool.and_eq_true] at accepted
      simp only [Transformation.convert, accepted.1.1, if_true, leafOf, Bool.and_false]
    all_goals simp_all

/-! ### What the leaves find -/

theorem Finds.eq_leafOf {each : String} {record : Record}
    (has : session.store.Has each id record) (inside : session.inHierarchy type id = true)
    {leaf : Query} {x : Bool} (isLeaf : leaf.arity = 0)
    (isLookUp : leaf.isLookUp (fun _ _ => true) = true)
    (finds : session.Finds type id leaf x) : x = session.leafOf each id record leaf := by
  cases finds with
  | target found => simp only [leafOf, isTarget, found, Option.any_some]
  | condition condition _ has' =>
    obtain ⟨rfl, rfl⟩ := has.unique has'
    cases leaf with
    | linksFrom => cases condition
    | between => cases isLookUp
    | _ => rfl
  | conditionOutside _ outside => rw [inside] at outside; cases outside
  | linked | linkedOutside => cases isLookUp
  | root | inter | interLeft | interRight | union | diff | diffLeft | concat | compl => cases isLeaf

/-- Of an entity of the hierarchy, a query finds what its reading holds. -/
theorem Finds.eq_holds {each : String} {record : Record} (mem : each ∈ session.types type)
    (has : session.store.Has each id record) {q : Query} {x : Bool}
    (finds : session.Finds type id q x) (unranged : q.unranged = true) :
    x = (session.readingOf each id record).holds q := by
  have inside : session.inHierarchy type id = true := inHierarchy_iff.mpr ⟨each, mem, record, has⟩
  have same : session.verdict type id (session.leafOf each id record)
      = (session.readingOf each id record).connectives := by
    simp only [verdict, Reading.connectives, readingOf, inside, Bool.true_and]
    rfl
  -- inside the hierarchy, a complement is what the reading takes it for
  rw [finds.eq_verdict (Finds.eq_leafOf has inside) unranged, same]
  rfl

/-- Whether all targets of a link are entities of the hierarchy. -/
def staysInside (session : Session) (type : String) (source : EntityId) (link : String) :
    Bool :=
  (session.store.record? source).all fun record =>
    (record.targets link).all (session.inHierarchy type)

/-- A query whose links stay inside the hierarchy finds nothing outside. -/
theorem Finds.eq_false {sorts : Bool} (outside : session.inHierarchy type id = false)
    {q : Query} {x : Bool} (finds : session.Finds type id q x) :
    (Interpretation.allLeaves (Query.isLookUp (session.staysInside type)) sorts).of q = true →
      x = false := by
  have notHas : ∀ {each record}, each ∈ session.types type → ¬ session.store.Has each id record :=
    fun mem has => by
      rw [inHierarchy_iff.mpr ⟨_, mem, _, has⟩] at outside
      cases outside
  induction finds with
  | @target source link record found =>
    intro stays
    have inside : session.staysInside type source link = true := stays
    simp only [staysInside, found, Option.all_some, List.all_eq_true] at inside
    refine Bool.eq_false_iff.mpr fun isTarget => ?_
    rw [inside id (List.contains_iff_mem.mp isTarget)] at outside
    cases outside
  | condition _ mem has => exact absurd has (notHas mem)
  | linked mem has => exact absurd has (notHas mem)
  | conditionOutside | linkedOutside => exact fun _ => rfl
  | root _ ih => exact ih
  | inter _ _ ihl =>
    intro stays
    rw [ihl ((Bool.and_eq_true _ _).mp stays).1, Bool.false_and]
  | diff _ _ ihl =>
    intro stays
    rw [ihl ((Bool.and_eq_true _ _).mp stays).1, Bool.false_and]
  | union _ _ ihl ihr | concat _ _ ihl ihr =>
    intro stays
    obtain ⟨left, right⟩ := (Bool.and_eq_true _ _).mp stays
    rw [ihl left, ihr right, Bool.or_false]
  | interLeft | interRight | diffLeft => exact fun _ => rfl
  | compl => exact fun _ => by rw [outside, Bool.false_and]

/-! ### What is remembered -/

/-- A session that starts with nothing remembered and nothing decided. -/
structure Fresh (session : Session) : Prop where
  nothingRemembered : ∀ key, session.start.cache.get? key = none
  nothingDecided : session.start.memo = []

/-- Everything that a session remembers was made by optimizing a query. -/
theorem remembers_of_reachesBy {allowed : Query → Prop} (fresh : session.Fresh) {s : State}
    (reached : session.ReachesBy allowed s) :
    s.cache.Remembers fun q optimized => allowed q ∧
      ∃ notices, Rewrite.optimize session.settings.maxRewrites q [] = .ok optimized notices := by
  induction reached with
  | refl => exact Cache.QueryCache.remembers_of_empty fresh.nothingRemembered
  | tail _ step ih =>
    cases step with
    | lookedUp => exact ih.count
    | remembered isAllowed found => exact ih.store ⟨isAllowed, _, found⟩
    | forgot => exact .clear
    | _ => exact ih

/-- What is decided is decided for stamps that were handed out. -/
theorem lt_nextStamp_of_reaches (fresh : session.Fresh) {s : State} (reached : session.Reaches s) :
    ∀ entry ∈ s.memo, entry.1 < s.nextStamp := by
  induction reached with
  | refl =>
    rw [fresh.nothingDecided]
    exact nofun
  | tail _ step ih =>
    cases step with
    | stamped => exact fun entry mem => Nat.lt_succ_of_lt (ih entry mem)
    | decided _ handedOut =>
      intro entry mem
      rcases List.mem_cons.mp mem with rfl | mem
      · exact handedOut
      · exact ih entry mem
    | _ => exact ih

/-- Whether a query was made by optimizing another one, up to the order of commuting
operands. -/
def Optimizes (session : Session) (q : Query) (optimized : Optimized) : Prop :=
  ∃ q' notices, q'.Commuted q ∧
    Rewrite.optimize session.settings.maxRewrites q' [] = .ok optimized notices

/-- A state that holds nothing wrong for a query: nothing is decided yet for the next
selection, and what is remembered under the text of the query was made of it, up to the
order of commuting operands. -/
structure Ready (session : Session) (s : State) (q : Query) : Prop where
  reached : session.Reaches s
  undecided : s.memo.lookup s.nextStamp = none
  remembered : ∀ optimized, s.cache.get? q.canonical = some optimized →
    session.Optimizes q optimized

/-- A session that has remembered nothing but legible queries is ready for every legible
query, since the text of a legible query stands for no other. -/
theorem ready_of_reachesBy (fresh : session.Fresh) {s : State}
    (history : session.ReachesBy (·.legible = true) s) {q : Query} (legible : q.legible = true) :
    session.Ready s q where
  reached := history.reaches
  undecided := by
    refine List.lookup_eq_none_iff.mpr fun entry mem => ?_
    have before := lt_nextStamp_of_reaches fresh history.reaches entry mem
    exact bne_iff_ne.mpr (Nat.ne_of_gt before)
  remembered optimized found := by
    obtain ⟨q', text, legible', notices, made⟩ :=
      remembers_of_reachesBy fresh history _ optimized found
    exact ⟨q', notices, Query.commuted_of_canonical legible' legible text, made⟩

/-! ### The optimized answer -/

/-- What the engine takes for the optimized query, be it remembered or not. -/
theorem optimizes_of_optimize {q : Query} {s s' : State} {optimized : Optimized}
    (reached : session.Reaches s)
    (remembered : ∀ optimized, s.cache.get? q.canonical = some optimized →
      session.Optimizes q optimized)
    (ran : session.engine.optimize q s = .ok optimized s') :
    session.Optimizes q optimized := by
  obtain ⟨found, s₁, lookUp, ran⟩ := Effect.exists_of_bind ran
  have counted : session.Reaches s₁ ∧ found = s.cache.get? q.canonical := by
    cases lookUp
    exact ⟨reached.step (.lookedUp s q.canonical), rfl⟩
  obtain ⟨reached₁, rfl⟩ := counted
  -- a look-up that counts changes nothing of what it finds
  cases entry : s.cache.get? q.canonical with
  | some here =>
    rw [entry] at ran
    obtain ⟨_, _, answered, ran⟩ := Effect.exists_of_bind ran
    cases answered
    obtain ⟨_, _, _, ran⟩ := Effect.exists_of_bind ran
    cases ran
    exact remembered _ entry
  | none =>
    rw [entry] at ran
    obtain ⟨answer, _, optimizing, ran⟩ := Effect.exists_of_bind ran
    obtain ⟨_, _, _, ran⟩ := Effect.exists_of_bind ran
    cases ran
    obtain ⟨notices, found⟩ := (yields_optimizeNow q reached₁ optimizing).2
    exact ⟨q, notices, .refl q, found⟩

/-- Optimizing takes back no stamp. -/
theorem nextStamp_le_of_optimize {q : Query} {s s' : State} {optimized : Optimized}
    (ran : session.engine.optimize q s = .ok optimized s') : s.nextStamp ≤ s'.nextStamp := by
  -- the same engine, in a session that starts here
  let later : Session := { session with start := s }
  exact (later.yields_optimize q reaches_start ran).1.nextStamp_le

/-- The first evaluation of the next selection decides for an optimized query. -/
theorem optimizes_of_optimizeOnce {q : Query} {s s' : State} (ready : session.Ready s q)
    {optimized : Optimized}
    (ran : session.engine.optimizeOnce s.nextStamp q { s with nextStamp := s.nextStamp + 1 }
      = .ok optimized s') :
    session.Reaches s' ∧ session.Optimizes q optimized := by
  have reached : session.Reaches { s with nextStamp := s.nextStamp + 1 } :=
    ready.reached.step (.stamped s)
  obtain ⟨_, _, read, ran⟩ := Effect.exists_of_bind ran
  cases read
  simp only [ready.undecided] at ran
  obtain ⟨_, s₁, optimizing, ran⟩ := Effect.exists_of_bind ran
  obtain ⟨_, _, deciding, ran⟩ := Effect.exists_of_bind ran
  cases deciding
  cases ran
  have reached₁ := (yields_optimize q reached optimizing).1
  exact ⟨reached₁.step (.decided s₁ _ (nextStamp_le_of_optimize optimizing)),
    optimizes_of_optimize reached ready.remembered optimizing⟩

/-- Without sort steps, the answer is the evaluated query. -/
theorem yields_answerOptimized_finds (nested : Engine.Nested) {q : Query}
    (unranged : q.unranged = true) :
    session.Yields (session.engine.answerOptimized nested type ⟨q, .empty⟩)
      (session.FoundBy type q) := by
  have noSteps : (⟨q, .empty⟩ : Optimized).steps = (q, []) := by
    simp only [Optimized.steps, Query.splitSorts_of_unranged unranged]
    rfl
  unfold Engine.answerOptimized
  simp only [noSteps, Engine.evaluate_congr nested session.engine.answer unranged]
  refine yields_bind
    (yields_evaluate_finds answersNested_answer (Query.plain_of_unranged unranged)) ?_
  intro rows found
  refine yields_bind (yields_pure found) fun rows found => ?_
  exact yields_bind_done (yields_countWork _) fun _ => yields_pure found

/-- The order of operands does not show in the properties of leaves that are look-ups. -/
theorem allLeaves_of_commuted {known : EntityId → String → Bool} {sorts : Bool} {a b : Query}
    (commuted : a.Commuted b) :
    (Interpretation.allLeaves (Query.isLookUp known) sorts).of a
      = (Interpretation.allLeaves (Query.isLookUp known) sorts).of b :=
  (leafInvariant_isLookUp known).fair.toCommutes.of_commuted (fun _ _ _ _ => rfl) commuted

/-- A selection of a query, evaluated for the first time, holds what an optimized query
finds. -/
theorem exists_of_query {q : Query} {ids : List EntityId} {s s' : State}
    (ready : session.Ready s q) (unranged : q.unranged = true)
    (queried : (do (← (← Selection.ofQuery type q).evaluate session.engine).collect) s
      = .ok ids s') :
    ∃ optimized, session.Optimizes q optimized ∧ optimized.query.unranged = true ∧
      ∀ id, session.Finds type id optimized.query (ids.contains id) := by
  obtain ⟨selection, s₁, making, queried⟩ := Effect.exists_of_bind queried
  cases making
  obtain ⟨rows, s₂, evaluating, collecting⟩ := Effect.exists_of_bind queried
  obtain ⟨⟨query, hoisted⟩, s₃, optimizing, answering⟩ := Effect.exists_of_bind evaluating
  obtain ⟨reached, optimizes⟩ := optimizes_of_optimizeOnce ready optimizing
  obtain ⟨q', notices, commuted, found⟩ := optimizes
  have unranged' : q'.unranged = true := (allLeaves_of_commuted commuted).trans unranged
  have rewritten : query.unranged = true :=
    Rewrite.optimize_allLeaves (leafInvariant_isLookUp _) found unranged'
  obtain rfl : hoisted = .empty :=
    (Rewrite.unsorted_optimize found (Query.unsorted_of_unranged unranged')).2
  obtain ⟨reached', finds⟩ := yields_answerOptimized_finds _ rewritten reached answering
  obtain ⟨-, rfl⟩ := yields_collect rows reached' collecting
  exact ⟨⟨query, .empty⟩, ⟨q', notices, commuted, found⟩, rewritten, finds⟩

/-- The reading of an entity holds of an optimized query what it holds of the query. -/
theorem holds_of_optimizes {q : Query} {optimized : Optimized} (v : Reading)
    (decorated : ∀ link targets targets' targetType,
      v.leaf (.linkedInto link targets targetType) = v.leaf (.linkedInto link targets' targetType))
    (optimizes : session.Optimizes q optimized) : v.holds optimized.query = v.holds q := by
  obtain ⟨q', notices, commuted, found⟩ := optimizes
  obtain ⟨_, hoisted, c, -, rfl, rest⟩ := Rewrite.optimize_eq_ok_iff.mp found
  have same : v.holds q' = v.holds q := v.fair.toCommutes.of_commuted decorated commuted
  exact (v.holds_of_rounds rest).trans same

/-- A selection of a query over a type, optimized and evaluated, and the query, evaluated as
it is, hold the same entities of the hierarchy, whatever the session has answered before and
still remembers.  If all targets of links that the query asks for are in the hierarchy,
they hold the same entities altogether. -/
theorem query_agrees (session : Session) {type : String} {q : Query}
    {ids direct : List EntityId} {s s' s₁ s₂ : State} (unranged : q.unranged = true)
    (fresh : session.Fresh) (history : session.ReachesBy (·.legible = true) s)
    (queried : (do (← (← Selection.ofQuery type q).evaluate session.engine).collect) s
      = .ok ids s')
    (reached : session.Reaches s₁)
    (evaluated : (do (← session.engine.evaluate session.engine.answer q type).collect) s₁
      = .ok direct s₂) :
    (∀ id, session.inHierarchy type id = true → (id ∈ ids ↔ id ∈ direct)) ∧
      ((Interpretation.allLeaves (Query.isLookUp (session.staysInside type)) false).of q = true →
        ∀ id, id ∈ ids ↔ id ∈ direct) := by
  have ready : session.Ready s q :=
    ready_of_reachesBy fresh history (Query.legible_of_unranged unranged)
  obtain ⟨optimized, optimizes, unranged', findsOptimized⟩ := exists_of_query ready unranged queried
  have findsDirect : ∀ id, session.Finds type id q (direct.contains id) :=
    (yields_collect_evaluate (Query.plain_of_unranged unranged) reached evaluated).2
  have inside : ∀ id, session.inHierarchy type id = true →
      ids.contains id = direct.contains id := by
    intro id inHierarchy
    obtain ⟨each, mem, record, has⟩ := inHierarchy_iff.mp inHierarchy
    rw [(findsOptimized id).eq_holds mem has unranged', (findsDirect id).eq_holds mem has unranged]
    exact holds_of_optimizes _ (fun _ _ _ _ => rfl) optimizes
  -- optimizing brings in no other leaves, so the optimized query finds nothing there either
  have outside : (Interpretation.allLeaves
        (Query.isLookUp (session.staysInside type)) false).of q = true →
      ∀ id, session.inHierarchy type id = false → ids.contains id = direct.contains id := by
    intro stays id out
    obtain ⟨q', notices, commuted, found⟩ := optimizes
    have stays' := Rewrite.optimize_allLeaves (leafInvariant_isLookUp _) found
      ((allLeaves_of_commuted commuted).trans stays)
    rw [(findsOptimized id).eq_false out stays', (findsDirect id).eq_false out stays]
  have member : ∀ {id}, ids.contains id = direct.contains id → (id ∈ ids ↔ id ∈ direct) :=
    fun same => by rw [← List.contains_iff_mem, same, List.contains_iff_mem]
  refine ⟨fun id inHierarchy => member (inside id inHierarchy), fun stays id => member ?_⟩
  cases inHierarchy : session.inHierarchy type id with
  | true => exact inside id inHierarchy
  | false => exact outside stays id inHierarchy

end Session

/-! ### Inside and outside the hierarchy -/

/-- The animals without a name, and the owners of the cat. -/
def Query.namelessOrOwner : Query :=
  .union (.compl (.hasProperty "name")) (.linksFrom ⟨1, 0⟩ "owner")

/-- Everything of a type, and the owners of the cat. -/
def Query.allOrOwner : Query :=
  .union .all (.linksFrom ⟨1, 0⟩ "owner")

namespace Session

theorem fresh_animals : animals.Fresh where
  nothingRemembered := Cache.QueryCache.get?_create _ _ _
  nothingDecided := rfl

set_option maxRecDepth 10000 in
/-- The owner is an animal, so both answers hold the same animals. -/
theorem query_agrees_namelessOrOwner :
    ∃ s s',
      (do (← (← Selection.ofQuery "animal" .namelessOrOwner).evaluate animals.engine).collect)
        animals.start = .ok [⟨0, 0⟩, ⟨0, 1⟩] s ∧
      (do (← animals.engine.evaluate animals.engine.answer .namelessOrOwner "animal").collect)
        animals.start = .ok [⟨0, 1⟩, ⟨0, 0⟩] s' ∧
      ∀ id, id ∈ [(⟨0, 0⟩ : EntityId), ⟨0, 1⟩] ↔ id ∈ [(⟨0, 1⟩ : EntityId), ⟨0, 0⟩] := by
  have queried : EStateM.run'
      (do (← (← Selection.ofQuery "animal" .namelessOrOwner).evaluate animals.engine).collect)
      animals.start = some [⟨0, 0⟩, ⟨0, 1⟩] := by decide +kernel
  have evaluated : EStateM.run'
      (do (← animals.engine.evaluate animals.engine.answer .namelessOrOwner "animal").collect)
      animals.start = some [⟨0, 1⟩, ⟨0, 0⟩] := by decide +kernel
  obtain ⟨s, queried⟩ := Effect.exists_of_run' queried
  obtain ⟨s', evaluated⟩ := Effect.exists_of_run' evaluated
  obtain ⟨-, same⟩ := animals.query_agrees rfl fresh_animals .refl queried reaches_start evaluated
  exact ⟨s, s', queried, evaluated, same (by decide +kernel)⟩

set_option maxRecDepth 10000 in
/-- The owner is not a cat.  Evaluated as it is, the query holds the owner all the same;
optimized, it does not. -/
theorem query_disagrees :
    animals.Fresh ∧ ∃ s s',
      (do (← (← Selection.ofQuery "cat" .allOrOwner).evaluate animals.engine).collect)
        animals.start = .ok [⟨1, 0⟩] s ∧
      (do (← animals.engine.evaluate animals.engine.answer .allOrOwner "cat").collect)
        animals.start = .ok [⟨1, 0⟩, ⟨0, 0⟩] s' ∧
      ¬ ∀ id, id ∈ [(⟨1, 0⟩ : EntityId)] ↔ id ∈ [(⟨1, 0⟩ : EntityId), ⟨0, 0⟩] := by
  have queried : EStateM.run'
      (do (← (← Selection.ofQuery "cat" .allOrOwner).evaluate animals.engine).collect)
      animals.start = some [⟨1, 0⟩] := by decide +kernel
  have evaluated : EStateM.run'
      (do (← animals.engine.evaluate animals.engine.answer .allOrOwner "cat").collect)
      animals.start = some [⟨1, 0⟩, ⟨0, 0⟩] := by decide +kernel
  obtain ⟨s, queried⟩ := Effect.exists_of_run' queried
  obtain ⟨s', evaluated⟩ := Effect.exists_of_run' evaluated
  refine ⟨fresh_animals, s, s', queried, evaluated, fun same => ?_⟩
  exact absurd ((same ⟨0, 0⟩).mpr (by decide)) (by decide)

end Session

end ExtentQuery

import ExtentQuery.Proofs.Caching.Serving
import ExtentQuery.Proofs.Evaluation.Faults
import ExtentQuery.Proofs.Evaluation.Outcomes
import ExtentQuery.Proofs.Rewriting.Nesting

/-!
# What comes before the first read

An engine that answers a query optimizes it first, and then the query that is evaluated first
within it, and so on, until it reads the store.  If the store is told to fail, this is where the
answering ends, and what it leaves behind is a cache that was asked for these queries.

* `State.told` — a state in which the store is told to fail, or not to fail any more;
* `Session.ReadsAfter` — computations that read the store right after they have asked for some
  queries, if they are answered in a certain way;
* `Session.ReadsAfter.fails`, `Session.ReadsAfter.resumes` — such a computation fails if the
  store is told to, and it has the same outcome with caches that answer the same and end up the
  same;
* `Session.reads_evaluate`, `Session.reads_answerOptimized` — evaluation is such a computation, if
  the answering of queries within the query is.

**No answer without a read.**  Leaves that select from a type read the type, whatever it is.
Only leaves that follow the links of an entity, custom leaves and placeholders do not.
-/

namespace ExtentQuery

open Effect
open Rewrite (Optimized)
open Cache (QueryCache)

/-! ### Stores that are told to fail -/

namespace State

/-- A state in which the store is told to fail in a certain way, or not to fail. -/
def told (s : State) (failure : Option String) : State :=
  { s with store := { s.store with failure } }

theorem bare_ext {s t : State} (stores : s.store = t.store) (stamps : s.nextStamp = t.nextStamp)
    (memos : s.memo = t.memo) (caches : s.cache.bare = t.cache.bare) : s.bare = t.bare := by
  simp only [bare, stores, stamps, memos, caches]

end State

/-! ### What optimization makes of a query -/

namespace Session

variable {session : Session} {q : Query} {s : State}

/-- What is made of a query by optimizing it. -/
def made (session : Session) (q : Query) : Optimized :=
  match Rewrite.optimize session.settings.maxRewrites q [] with
  | .ok optimized _ => optimized
  | .error _ _ => ⟨q, .empty⟩

theorem exists_made (session : Session) (legible : q.legible = true) :
    ∃ notices, Rewrite.optimize session.settings.maxRewrites q [] = .ok (session.made q) notices := by
  obtain ⟨optimized, notices, found⟩ :=
    Rewrite.optimize_total session.settings.maxRewrites (Query.ground_of_legible legible) []
  refine ⟨notices, ?_⟩
  rw [made, found]

/-- A legible query is always optimized, and what this leaves behind is a cache that was asked
for it. -/
theorem exists_optimize (session : Session) (legible : q.legible = true) (s : State) :
    ∃ s', session.engine.optimize q s = .ok (s.cache.answerTo session.made q) s' ∧
      s'.bare = ({ s with cache := s.cache.ask session.made q } : State).bare := by
  unfold QueryCache.answerTo QueryCache.ask
  cases entry : s.cache.get? q.canonical with
  | some optimized => exact ⟨_, Engine.optimize_of_hit entry, rfl⟩
  | none =>
    obtain ⟨notices, found⟩ := session.exists_made legible
    exact ⟨_, Engine.optimize_of_miss entry found, rfl⟩

/-! ### Computations that read after asking -/

/-- Whether a computation reads before anything else, so that it ends at once if the store is
told to fail. -/
def FailsAtOnce {α : Type} (x : Effect α) : Prop :=
  ∀ (s : State) (message : String), s.store.failure = some message →
    outcome x s = (.error (.backend message), s.bare)

/-- Whether a computation reads the store after it has asked for queries, one after the other, if
they are answered in a certain way. -/
inductive ReadsAfter (session : Session) :
    {α : Type} → Effect α → List Query → List Optimized → Prop where
  | now {α : Type} {x : Effect α} (steady : Steady x) (fails : FailsAtOnce x) :
      ReadsAfter session x [] []
  | asking {α : Type} {f : Optimized → Effect α} {q : Query} {optimized : Optimized}
      {asked : List Query} {answers : List Optimized} (legible : q.legible = true)
      (steady : ∀ optimized, Steady (f optimized))
      (rest : ReadsAfter session (f optimized) asked answers) :
      ReadsAfter session (session.engine.optimize q >>= f) (q :: asked) (optimized :: answers)
  | andThen {α β : Type} {x : Effect α} {f : α → Effect β} {asked : List Query}
      {answers : List Optimized} (first : ReadsAfter session x asked answers)
      (steady : ∀ a, Steady (f a)) : ReadsAfter session (x >>= f) asked answers

section ReadsAfter

variable {α β : Type} {x : Effect α} {f : α → Effect β} {asked : List Query}
  {answers : List Optimized}

/-- A computation that is answered in this way and whose store is told to fail ends in the
failure, and nothing but the queries that it has asked for is left behind. -/
theorem ReadsAfter.fails (reads : session.ReadsAfter x asked answers) {message : String}
    (answered : s.cache.answersTo session.made asked = answers)
    (told : s.store.failure = some message) :
    outcome x s = (.error (.backend message),
      ({ s with cache := s.cache.askAll session.made asked } : State).bare) := by
  induction reads generalizing s with
  | now _ fails => exact fails s message told
  | asking legible steady rest ih =>
    obtain ⟨rfl, others⟩ := List.cons.inj answered
    obtain ⟨s₁, ran, left⟩ := session.exists_optimize legible s
    rw [outcome_bind_of_ok ran, steady _ _ _ left]
    exact ih others told
  | andThen first steady ih =>
    obtain ⟨s₁, failed, left⟩ := exists_of_outcome_error (ih answered told)
    rw [outcome_bind_of_error failed, left]

/-- States that differ in their caches only are as good as each other for a computation that is
answered in the same way in both, if the caches end up the same. -/
theorem ReadsAfter.resumes (reads : session.ReadsAfter x asked answers) {t : State}
    (stores : t.store = s.store) (stamps : t.nextStamp = s.nextStamp) (memos : t.memo = s.memo)
    (answered : s.cache.answersTo session.made asked = answers)
    (again : t.cache.answersTo session.made asked = answers)
    (left : (t.cache.askAll session.made asked).bare = (s.cache.askAll session.made asked).bare) :
    outcome x t = outcome x s := by
  induction reads generalizing s t with
  | now steady => exact steady t s (State.bare_ext stores stamps memos left)
  | asking legible steady rest ih =>
    obtain ⟨rfl, others⟩ := List.cons.inj answered
    obtain ⟨same, others'⟩ := List.cons.inj again
    obtain ⟨s₁, ran, bare⟩ := session.exists_optimize legible s
    obtain ⟨t₁, ran', bare'⟩ := session.exists_optimize legible t
    rw [outcome_bind_of_ok ran, outcome_bind_of_ok ran', same, steady _ _ _ bare,
      steady _ _ _ bare']
    exact ih stores stamps memos others others' left
  | andThen first steady ih =>
    exact outcome_bind_congr (ih stores stamps memos answered again left) steady

/-- Whether a computation reads the store after it has asked for queries in a way that is taken
for granted. -/
def Reads (session : Session) (granted : List Query → List Optimized → Prop) (x : Effect α) :
    Prop :=
  ∃ asked answers, granted asked answers ∧ session.ReadsAfter x asked answers

variable {granted : List Query → List Optimized → Prop}

theorem Reads.bind (reads : session.Reads granted x) (steady : ∀ a, Steady (f a)) :
    session.Reads granted (x >>= f) := by
  obtain ⟨asked, answers, holds, first⟩ := reads
  exact ⟨asked, answers, holds, first.andThen steady⟩

end ReadsAfter

/-! ### The backend -/

section Evaluation

variable {granted : List Query → List Optimized → Prop} (atOnce : granted [] [])

include atOnce

/-- A call is counted, and then the store fails if it is told to. -/
theorem reads_of_check {α : Type} {rest : Effect α} (call : Call) (steady : Steady rest) :
    session.Reads granted (do countCall call; Backend.Memory.check; rest) := by
  have checks : Steady Backend.Memory.check := composes_steady.of_reading _
  refine ⟨[], [], atOnce, .now ?_ fun s message told => ?_⟩
  · exact composes_steady.of_bind (composes_steady.of_countCall call) fun _ =>
      composes_steady.of_bind checks fun _ => steady
  · have counted : countCall call s = .ok () { s with calls := s.calls.add call } := rfl
    have checked : Backend.Memory.check { s with calls := s.calls.add call }
        = .error (.backend message) { s with calls := s.calls.add call } := by
      simp only [Backend.Memory.check, reading, bind, EStateM.bind, get, getThe, MonadStateOf.get,
        EStateM.get, told]
      rfl
    rw [outcome_bind_of_ok counted, outcome_bind_of_error checked]
    rfl

theorem reads_lookUp (call : Call) (type : String) (keep : Record → Bool) :
    session.Reads granted (Backend.Memory.lookUp call type keep) := by
  unfold Backend.Memory.lookUp
  exact reads_of_check atOnce call (composes_steady.of_bind (composes_steady.of_reading _)
    fun _ => composes_steady.of_snapshot _ _)

theorem reads_listed (call : Call) (type : String) (keep : Record → Bool) :
    session.Reads granted (do return Rows.native (← Backend.Memory.lookUp call type keep)) :=
  (reads_lookUp atOnce call type keep).bind fun listing => steady_pure (Rows.native listing)

theorem reads_having (type property : String) :
    session.Reads granted (session.engine.having type property) := by
  unfold Engine.having
  split
  · exact reads_listed atOnce _ _ _
  · exact reads_listed atOnce _ _ _

/-- Sorting a hierarchy begins with the type at its top. -/
theorem reads_sortTypes (type property : String) (source : Option Listing) (ascending : Bool) :
    session.Reads granted (session.engine.sortTypes type property source ascending) := by
  have first : session.Reads granted
      (Backend.Memory.sortType type property source ascending) := by
    unfold Backend.Memory.sortType
    refine reads_of_check atOnce .sort ?_
    refine composes_steady.of_bind (composes_steady.of_extentOf type source) fun _ => ?_
    exact composes_steady.of_bind (composes_steady.of_reading _) fun _ =>
      composes_steady.of_snapshot _ _
  refine first.bind fun own => ?_
  split
  · exact steady_pure own
  · refine composes_steady.of_bind (composes_steady.of_mapM (fun subtype =>
      composes_steady.of_sortTypesWithin _ subtype property source ascending) _) fun parts => ?_
    exact composes_steady.of_bind (composes_steady.of_countWork _) fun _ =>
      composes_steady.of_merge _ _ _

/-! ### Evaluation -/

variable {nested : Engine.Nested} (steady : ∀ type q, Steady (nested type q))

include steady

theorem reads_evaluateType (reads : q.reads = true)
    (within : ∀ d ∈ q.targets, ∀ type, session.Reads granted (nested type d)) (type : String) :
    session.Reads granted (session.engine.evaluateType nested q type) := by
  have steadily : ∀ (q : Query) (type : String),
      Steady (session.engine.evaluateType nested q type) :=
    composes_steady.of_evaluateType steady_report steady
  have combined : ∀ operation left right, Steady (session.engine.combine operation left right) :=
    composes_steady.of_combine
  have narrowed : ∀ source link targets targetType, Steady
      (session.engine.narrowByNested nested type source link targets targetType) :=
    composes_steady.of_narrowByNested steady_report steady type
  induction q with
  | root c ih => exact ih reads within
  | all | between | startsWith | hasLink => exact reads_listed atOnce _ _ _
  | equals property value =>
    cases value with
    | some value => exact reads_listed atOnce _ _ _
    | none =>
      exact (reads_lookUp atOnce _ _ _).bind fun all =>
        composes_steady.of_bind (composes_steady.of_having type property) fun present =>
          combined .diff (.native all) present
  | hasProperty property => exact reads_having atOnce type property
  | linkedTo link target =>
    cases target with
    | some target => exact reads_listed atOnce _ _ _
    | none =>
      exact (reads_lookUp atOnce _ _ _).bind fun all =>
        composes_steady.of_bind (composes_steady.of_lookUp _ _ _) fun linked =>
          combined .diff (.native all) (.native linked)
  | linkedInto link targets targetType =>
    exact (within targets (List.mem_singleton_self _) targetType).bind fun rows =>
      composes_steady.of_linkedToAny type link rows
  | inter l r ihl ihr =>
    obtain ⟨left, right⟩ := (Bool.and_eq_true _ _).mp reads
    have first := ihl left fun d mem => within d (List.mem_append_left _ mem)
    unfold Engine.evaluateType
    split
    · exact first.bind fun source => narrowed source _ _ _
    · exact (ihr right fun d mem => within d (List.mem_append_right _ mem)).bind fun source =>
        narrowed source _ _ _
    · exact first.bind fun left => composes_steady.of_bind (steadily r type) (combined _ left)
  | union l r ihl | concat l r ihl =>
    exact (ihl ((Bool.and_eq_true _ _).mp reads).1 fun d mem =>
      within d (List.mem_append_left _ mem)).bind fun left =>
        composes_steady.of_bind (steadily r type) (combined _ left)
  | diff l r ihl =>
    refine (ihl ((Bool.and_eq_true _ _).mp reads).1 fun d mem =>
      within d (List.mem_append_left _ mem)).bind fun left => ?_
    split
    · exact steady_pure _
    · exact composes_steady.of_bind (steadily r type) (combined .diff left)
  | compl c =>
    exact (reads_lookUp atOnce _ _ _).bind fun all =>
      composes_steady.of_bind (steadily c type) (combined .diff (.native all))
  | sort order c ih =>
    exact (ih reads within).bind fun source =>
      composes_steady.of_sort (steady type .all) type order (some source)
  | linksFrom | custom | slot | converter => cases reads

/-- The types of a hierarchy are never none. -/
theorem reads_evaluateEach (reads : q.reads = true)
    (within : ∀ d ∈ q.targets, ∀ type, session.Reads granted (nested type d)) (type : String) :
    session.Reads granted (session.engine.evaluateEach nested q type) := by
  have parts : session.Reads granted ((type :: session.engine.metadata.closure type).mapM
      fun each => session.engine.evaluateType nested q each) := by
    rw [List.mapM_cons]
    refine (reads_evaluateType atOnce steady reads within type).bind fun part => ?_
    refine composes_steady.of_bind (composes_steady.of_mapM (fun each =>
      composes_steady.of_evaluateType steady_report steady q each) _) fun parts => ?_
    exact steady_pure _
  exact parts.bind fun parts => composes_steady.of_joinParts parts

theorem reads_evaluate (reads : q.reads = true)
    (within : ∀ d ∈ q.targets, ∀ type, session.Reads granted (nested type d)) (type : String) :
    session.Reads granted (session.engine.evaluate nested q type) := by
  have steadily : ∀ q : Query, Steady (session.engine.evaluate nested q type) := fun q =>
    composes_steady.of_evaluate steady_report steady q type
  have combined : ∀ operation left right, Steady (session.engine.combine operation left right) :=
    composes_steady.of_combine
  have ways : ∀ {q : Query}, q.reads = true →
      (∀ d ∈ q.targets, ∀ type, session.Reads granted (nested type d)) →
      session.Reads granted (session.engine.evaluateApart nested q type) →
      session.Reads granted (session.engine.evaluate nested q type) := by
    intro q reads within apart
    rw [Engine.evaluate_eq]
    split
    · exact reads_evaluateType atOnce steady reads within type
    split
    · exact reads_evaluateEach atOnce steady reads within type
    · exact apart
  induction q with
  | root c ih => exact ways reads within (ih reads within)
  | inter l r ihl | union l r ihl | concat l r ihl =>
    have first := ihl ((Bool.and_eq_true _ _).mp reads).1 fun d mem =>
      within d (List.mem_append_left _ mem)
    exact ways reads within (first.bind fun left =>
      composes_steady.of_bind (steadily r) (combined _ left))
  | diff l r ihl =>
    have first := ihl ((Bool.and_eq_true _ _).mp reads).1 fun d mem =>
      within d (List.mem_append_left _ mem)
    refine ways reads within (first.bind fun left => ?_)
    split
    · exact steady_pure _
    · exact composes_steady.of_bind (steadily r) (combined .diff left)
  | compl c =>
    have first : session.Reads granted (session.engine.evaluateEach nested .all type) :=
      reads_evaluateEach atOnce steady rfl (fun _ mem => absurd mem List.not_mem_nil) type
    exact ways reads within (first.bind fun all =>
      composes_steady.of_bind (steadily c) (combined .diff all))
  | sort order c ih =>
    exact ways reads within ((ih reads within).bind fun source =>
      composes_steady.of_sort (steady type .all) type order (some source))
  | linksFrom | custom | slot | converter => cases reads
  | _ => exact ways reads within (reads_evaluateEach atOnce steady reads within type)

/-- The first step over a whole extent lets the backend sort it, or asks for the extent. -/
theorem reads_sortExtent {order : SortStep} (orders : List SortStep)
    (whole : ∀ type, session.Reads granted (nested type .all)) (type : String) :
    session.Reads granted
      (session.engine.sortExtent (nested type .all) type (order :: orders)) := by
  have first : session.Reads granted
      (session.engine.sort (nested type .all) type order none) := by
    cases order with
    | property name ascending =>
      exact (reads_sortTypes atOnce type name none ascending).bind fun sorted =>
        steady_pure (Rows.native sorted)
    | linkedProperty targetType property link ascending =>
      exact (whole type).bind fun rows =>
        composes_steady.of_sortLinked targetType property type link rows ascending
    | key number label key ascending =>
      exact (whole type).bind fun rows => composes_steady.of_sortKeyed rows key ascending
  exact first.bind fun rows => composes_steady.of_sortRows (steady type .all) type orders rows

end Evaluation

end Session

/-! ### Optimized queries -/

/-- The queries that are asked for next, one of them or none, when an optimized query is
answered. -/
def Rewrite.Optimized.follows (optimized : Optimized) : List Query :=
  optimized.steps.1.targets ++ if optimized.steps.2 = [] then [] else [.all]

namespace Session

variable {session : Session} {granted : List Query → List Optimized → Prop}
  {nested : Engine.Nested} {optimized : Optimized}

theorem reads_answerOptimized (atOnce : granted [] []) (steady : ∀ type q, Steady (nested type q))
    (reads : optimized.steps.1.reads = true)
    (within : ∀ d ∈ optimized.follows, ∀ type, session.Reads granted (nested type d))
    (type : String) :
    session.Reads granted (session.engine.answerOptimized nested type optimized) := by
  have targets : ∀ d ∈ optimized.steps.1.targets, ∀ type, session.Reads granted (nested type d) :=
    fun d mem => within d (List.mem_append_left _ mem)
  have extent : optimized.steps.2 ≠ [] → ∀ type, session.Reads granted (nested type .all) := by
    refine fun sorts => within .all (List.mem_append_right _ ?_)
    rw [if_neg sorts]
    exact List.mem_singleton_self _
  have counted : ∀ rows : Rows, Steady (do
      countWork .instantiation
      return rows) := fun rows =>
    composes_steady.of_bind (composes_steady.of_countWork _) fun _ => steady_pure rows
  unfold Engine.answerOptimized
  generalize optimized.steps = steps at reads targets extent ⊢
  obtain ⟨body, orders⟩ := steps
  dsimp only
  split
  · exact (reads_sortExtent atOnce steady _ (extent (List.cons_ne_nil _ _)) type).bind counted
  · refine (reads_evaluate atOnce steady reads targets type).bind fun rows => ?_
    exact composes_steady.of_bind (composes_steady.of_sortRows (steady type .all) type _ rows) counted

end Session

end ExtentQuery

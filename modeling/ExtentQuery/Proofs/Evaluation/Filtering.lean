import ExtentQuery.Proofs.Caching.Serving
import ExtentQuery.Proofs.Evaluation.Exactness
import ExtentQuery.Proofs.Evaluation.Selections

/-!
# Filtering what is there already

A query that is asked of rows, or of a selection that is known to be of a type, is not joined with
anything.  It is optimized and evaluated over its own type, and what it selects is kept of the
selection, entry by entry.

* `Session.yields_evaluate_whole`, `Session.faultsWithin_evaluate` — conditions over a registered
  hierarchy are evaluated without a fault, unless the store is told to fail;
* `Session.collects_evaluate` — and always with the same list;
* `Session.reaches_of_selection` — evaluating a selection takes steps of the session;
* `Session.Shows` — the list of a selection, however much work was counted before;
* `Session.filter_restricts` — the filter lists what the query lists of the selection, in the
  order of the selection and as often.

**The whole extent.**  A query that is optimized to the whole extent is not evaluated at all, so
then the filter is the selection itself.
-/

namespace ExtentQuery

open Effect
open Rewrite (Optimized)

/-- Conditions without concatenations look at one type at a time. -/
theorem Query.typeLocal_of_orderly {q : Query} (orderly : q.orderly = true)
    (unsorted : q.unsorted = true) : q.typeLocal = true :=
  Query.typeLocal_of_keepsOrder
    (Query.plain_of_unranged (Query.unranged_of_conditional
      (Query.conditional_of_orderly orderly unsorted)))
    (Query.keepsOrder_of_orderly orderly)

namespace Engine

variable {engine : Engine} {q : Query}

/-- A query without placeholders is optimized, whatever is remembered. -/
theorem exists_optimize (ground : q.ground = true) (s : State) :
    ∃ optimized s', engine.optimize q s = .ok optimized s' := by
  cases entry : s.cache.get? q.canonical with
  | some kept => exact ⟨kept, _, optimize_of_hit entry⟩
  | none =>
    obtain ⟨optimized, notices, made⟩ := Rewrite.optimize_total engine.settings.maxRewrites ground []
    exact ⟨optimized, _, optimize_of_miss entry made⟩

theorem exists_decided (ground : q.ground = true) (stamp : Nat) (s : State) :
    ∃ optimized s', engine.optimizeOnce stamp q s = .ok optimized s' := by
  cases decided : s.memo.lookup stamp with
  | some kept =>
    refine ⟨kept, s, ?_⟩
    simp only [optimizeOnce, bind, EStateM.bind, get, getThe, MonadStateOf.get, EStateM.get, decided]
    rfl
  | none =>
    obtain ⟨optimized, s', ran⟩ := engine.exists_optimize ground s
    refine ⟨optimized, { s' with memo := (stamp, optimized) :: s'.memo }, ?_⟩
    simp only [optimizeOnce, bind, EStateM.bind, get, getThe, MonadStateOf.get, EStateM.get,
      decided, ran]
    rfl

end Engine

/-- Rows that do not end in a fault list what they hold. -/
theorem Rows.Whole.collects {rows : Rows} (whole : rows.Whole) (s : State) :
    (pure rows : Effect Rows).Collects s rows.ids := by
  cases rows with
  | empty | computed => exact ⟨s, rfl⟩
  | native listing =>
    have failure : listing.failure = none := whole
    have collects : ∃ s', listing.collect s = .ok listing.ids s' := by
      cases origin : listing.origin <;>
        simp only [Listing.collect, Listing.start, Listing.finish, origin, failure] <;>
        exact ⟨_, rfl⟩
    exact collects

namespace Session

variable {session : Session} {type : String} {q : Query} {nested : Engine.Nested}
  {s s' : State} {ids listed : List EntityId}

/-! ### Conditions are evaluated -/

/-- A query without anything that needs the answer of another query. -/
theorem linkedTargets?_of_orderly (orderly : q.orderly = true) (unsorted : q.unsorted = true) :
    q.linkedTargets? = none :=
  Query.linkedTargets?_of_unranged
    (Query.unranged_of_conditional (Query.conditional_of_orderly orderly unsorted))

/-- What begins with something that never answers. -/
theorem yields_bind_never {α β : Type} {x : Effect α} {f : α → Effect β} {P : β → Prop}
    (first : session.Yields x fun _ => False) : session.Yields (x >>= f) P :=
  yields_bind first fun _ never => never.elim

/-- A store that is told to fail never answers a condition. -/
theorem yields_evaluateType_never (failing : session.store.failure ≠ none)
    (orderly : q.orderly = true) (unsorted : q.unsorted = true) (type : String) :
    session.Yields (session.engine.evaluateType nested q type) fun _ => False := by
  have lookUp : ∀ call keep, session.Yields (Backend.Memory.lookUp call type keep)
      fun _ => False := fun call keep =>
    (yields_lookUp_whole call type keep).mono fun _ found => failing found.2
  induction q with
  | root c ih => exact ih orderly unsorted
  | all | startsWith | hasLink => exact yields_bind_never (lookUp _ _)
  | equals property value => cases value <;> exact yields_bind_never (lookUp _ _)
  | hasProperty property =>
    show session.Yields (session.engine.having type property) _
    unfold Engine.having
    split
    · exact yields_bind_never (lookUp _ _)
    · exact yields_bind_never (lookUp _ _)
  | linkedTo link target => cases target <;> exact yields_bind_never (lookUp _ _)
  | inter l r ihl =>
    obtain ⟨left, right⟩ := (Bool.and_eq_true _ _).mp orderly
    obtain ⟨left', right'⟩ := (Bool.and_eq_true _ _).mp unsorted
    simp only [Engine.evaluateType, linkedTargets?_of_orderly left left',
      linkedTargets?_of_orderly right right']
    exact yields_bind_never (ihl left left')
  | union l r ihl | diff l r ihl =>
    obtain ⟨left, right⟩ := (Bool.and_eq_true _ _).mp orderly
    obtain ⟨left', right'⟩ := (Bool.and_eq_true _ _).mp unsorted
    exact yields_bind_never (ihl left left')
  | compl c => exact yields_bind_never (lookUp _ _)
  | concat | linksFrom | between | linkedInto | custom | slot | converter => cases orderly
  | sort => cases unsorted

/-- Conditions over exactly one registered type are evaluated, unless the store is told to fail. -/
theorem faultsWithin_evaluateType (known : (session.store.typeId? type).isSome = true)
    (orderly : q.orderly = true) (unsorted : q.unsorted = true) :
    session.FaultsWithin session.store.Told
      (session.engine.evaluateType session.engine.answer q type) := by
  have lookUp : ∀ call keep, session.FaultsWithin session.store.Told
      (Backend.Memory.lookUp call type keep) := faultsWithin_lookUp known
  have lookedUp : ∀ call keep, session.FaultsWithin session.store.Told (do
      return Rows.native (← Backend.Memory.lookUp call type keep)) := fun call keep =>
    faultsWithin_bind (lookUp call keep) (yields_lookUp call type keep) fun _ _ =>
      faultsWithin_pure _
  have having : ∀ property, session.FaultsWithin session.store.Told
      (session.engine.having type property) := by
    intro property
    unfold Engine.having
    split
    · exact lookedUp _ _
    · exact lookedUp _ _
  have exact : ∀ {q : Query}, q.orderly = true → q.unsorted = true → session.Yields
      (session.engine.evaluateType session.engine.answer q type) (session.Exact type) :=
    fun orderly unsorted => yields_evaluateType_exact answered_answer
      (Query.typeLocal_of_orderly orderly unsorted) type
  induction q with
  | root c ih => exact ih orderly unsorted
  | all | startsWith | hasLink => exact lookedUp _ _
  | equals property value =>
    cases value with
    | some value => exact lookedUp _ _
    | none =>
      exact faultsWithin_bind (lookUp _ _) (yields_lookUp_exact _ type _) fun _ all =>
        faultsWithin_bind (having property) (yields_having_exact type property) fun _ present =>
          faultsWithin_combine .diff all.whole present.whole
  | hasProperty property => exact having property
  | linkedTo link target =>
    cases target with
    | some target => exact lookedUp _ _
    | none =>
      exact faultsWithin_bind (lookUp _ _) (yields_lookUp_exact _ type _) fun _ all =>
        faultsWithin_bind (lookUp _ _) (yields_lookUp_exact _ type _) fun _ linked =>
          faultsWithin_combine .diff all.whole linked.whole
  | inter l r ihl ihr =>
    obtain ⟨left, right⟩ := (Bool.and_eq_true _ _).mp orderly
    obtain ⟨left', right'⟩ := (Bool.and_eq_true _ _).mp unsorted
    simp only [Engine.evaluateType, linkedTargets?_of_orderly left left',
      linkedTargets?_of_orderly right right']
    exact faultsWithin_bind (ihl left left') (exact left left') fun _ here =>
      faultsWithin_bind (ihr right right') (exact right right') fun _ there =>
        faultsWithin_combine .inter here.whole there.whole
  | union l r ihl ihr =>
    obtain ⟨left, right⟩ := (Bool.and_eq_true _ _).mp orderly
    obtain ⟨left', right'⟩ := (Bool.and_eq_true _ _).mp unsorted
    exact faultsWithin_bind (ihl left left') (exact left left') fun _ here =>
      faultsWithin_bind (ihr right right') (exact right right') fun _ there =>
        faultsWithin_combine .union here.whole there.whole
  | diff l r ihl ihr =>
    obtain ⟨left, right⟩ := (Bool.and_eq_true _ _).mp orderly
    obtain ⟨left', right'⟩ := (Bool.and_eq_true _ _).mp unsorted
    refine faultsWithin_bind (ihl left left') (exact left left') fun _ here => ?_
    split
    · exact faultsWithin_pure _
    · exact faultsWithin_bind (ihr right right') (exact right right') fun _ there =>
        faultsWithin_combine .diff here.whole there.whole
  | compl c ih =>
    exact faultsWithin_bind (lookUp _ _) (yields_lookUp_exact _ type _) fun _ all =>
      faultsWithin_bind (ih orderly unsorted) (exact orderly unsorted) fun _ excluded =>
        faultsWithin_combine .diff all.whole excluded.whole
  | concat | linksFrom | between | linkedInto | custom | slot | converter => cases orderly
  | sort => cases unsorted

/-! ### The parts of a hierarchy -/

theorem yields_joinParts_whole {parts : List Rows} (whole : ∀ part ∈ parts, part.Whole) :
    session.Yields (session.engine.joinParts parts) Rows.Whole := by
  cases parts with
  | nil => exact yields_pure trivial
  | cons first rest =>
    exact yields_foldlM (fun _ => Rows.Whole) rest (fun _ rows part mem here =>
      yields_combine_whole _ here (whole part (.tail _ mem))) (whole first List.mem_cons_self)

theorem faultsWithin_joinParts {faults : Fault → Prop} {parts : List Rows}
    (whole : ∀ part ∈ parts, part.Whole) :
    session.FaultsWithin faults (session.engine.joinParts parts) := by
  cases parts with
  | nil => exact faultsWithin_pure _
  | cons first rest =>
    exact faultsWithin_foldlM (I := Rows.Whole) rest
      (fun rows part mem here => faultsWithin_combine _ here (whole part (.tail _ mem)))
      (fun rows part mem here => yields_combine_whole _ here (whole part (.tail _ mem)))
      (whole first List.mem_cons_self)

section Conditions

variable (orderly : q.orderly = true) (unsorted : q.unsorted = true)

include orderly unsorted

/-- Conditions are evaluated type by type, whatever answers the queries within a query. -/
theorem evaluate_eq_each : session.engine.evaluate nested q type
    = session.engine.evaluateEach session.engine.answer q type := by
  have unranged := Query.unranged_of_conditional (Query.conditional_of_orderly orderly unsorted)
  have typeLocal := Query.typeLocal_of_orderly orderly unsorted
  rw [Engine.evaluate_congr nested session.engine.answer unranged, Engine.evaluate_eq,
    Query.spansTypes_of_typeLocal typeLocal, typeLocal]
  rfl

theorem yields_evaluate_never (failing : session.store.failure ≠ none) :
    session.Yields (session.engine.evaluate nested q type) fun _ => False := by
  rw [evaluate_eq_each orderly unsorted]
  unfold Engine.evaluateEach
  rw [List.mapM_cons, bind_assoc]
  exact yields_bind_never (yields_evaluateType_never failing orderly unsorted type)

/-- The parts of a hierarchy, one for each type. -/
theorem yields_parts_whole (types : List String) :
    session.Yields (types.mapM fun each =>
      session.engine.evaluateType session.engine.answer q each)
      fun parts => ∀ part ∈ parts, part.Whole := by
  have typeLocal := Query.typeLocal_of_orderly orderly unsorted
  refine (yields_mapM (R := fun _ => Rows.Whole) types fun each _ =>
    (yields_evaluateType_exact answered_answer typeLocal each).mono fun _ exact =>
      exact.whole).mono fun parts whole part mem => ?_
  obtain ⟨_, -, here⟩ := exists_of_forall₂ whole.flip mem
  exact here

theorem yields_evaluate_whole :
    session.Yields (session.engine.evaluate nested q type) Rows.Whole := by
  rw [evaluate_eq_each orderly unsorted]
  exact yields_bind (yields_parts_whole orderly unsorted _) fun _ whole =>
    yields_joinParts_whole whole

/-- Conditions over a registered hierarchy are evaluated, unless the store is told to fail. -/
theorem faultsWithin_evaluate (registered : session.Registered type) :
    session.FaultsWithin session.store.Told (session.engine.evaluate nested q type) := by
  rw [evaluate_eq_each orderly unsorted]
  refine faultsWithin_bind (faultsWithin_mapM _ (fun each mem => ?_) fun each _ =>
    yields_evaluateType answered_answer q each) (yields_parts_whole orderly unsorted _)
      fun _ whole => faultsWithin_joinParts whole
  exact faultsWithin_evaluateType (registered each (Metadata.mem_family_iff.mp mem)) orderly unsorted

/-- Evaluating a query over a registered hierarchy lists the same entities in every state, or faults
in every state as the store is told to. -/
theorem collects_evaluate (registered : session.Registered type) :
    (session.store.failure = none ∧ ∃ direct, (∀ id, direct.contains id = session.admits type q id) ∧
      ∀ s, session.Reaches s → (session.engine.evaluate nested q type).Collects s direct) ∨
    ∃ message, session.store.failure = some message ∧
      ∀ s, session.Reaches s →
        (session.engine.evaluate nested q type).Fails s (.backend message) := by
  have within : session.FaultsWithin session.store.Told (session.engine.evaluate nested q type) :=
    faultsWithin_evaluate orderly unsorted registered
  cases told : session.store.failure with
  | none =>
    refine .inl ⟨rfl, ?_⟩
    obtain ⟨direct, arranged⟩ : ∃ ids, session.Arranged [] [] (session.admits type q) ids :=
      exists_arranged (fun _ => inHierarchy_of_admits) nofun
    have listed : session.Yields (do (← session.engine.evaluate nested q type).collect)
        (· = direct) :=
      yields_then_collect ((yields_evaluate_standing [] orderly unsorted).mono fun rows standing =>
        standing.toArranged.ids_eq arranged nofun)
    refine ⟨direct, arranged.contains, fun s reached => ?_⟩
    rcases (faultsWithin_then_collect within (yields_evaluate_whole orderly unsorted)).exists_or
      listed reached with ⟨_, s', ran, rfl⟩ | ⟨fault, -, -, faulted⟩
    · exact ⟨s', ran⟩
    · exact absurd faulted (Store.not_told told fault)
  | some message =>
    refine .inr ⟨message, rfl, fun s reached => ?_⟩
    have never : session.Yields (session.engine.evaluate nested q type) fun _ => False :=
      yields_evaluate_never orderly unsorted fun unfailing => nomatch told.symm.trans unfailing
    rcases within.exists_or never reached with ⟨_, _, -, no⟩ | ⟨fault, s', ran, faulted⟩
    · exact no.elim
    · cases fault with
      | backend other =>
        obtain rfl := Option.some.inj (told.symm.trans faulted)
        exact ⟨s', Effect.bind_eq_error ran⟩
      | _ => exact faulted.elim

end Conditions

/-! ### Evaluating a selection -/

/-- The session that goes on from a later state. -/
def since (session : Session) (s : State) : Session :=
  { session with start := s }

theorem Reaches.since (reached : session.Reaches s) (later : (session.since s).Reaches s') :
    session.Reaches s' :=
  Relation.ReflTransGen.trans reached later

/-- Evaluating a selection whose stamps were handed out before takes steps of the session. -/
theorem yields_selection {selection : Selection}
    (handedOut : ∀ entry ∈ selection.waiting, entry.1 < session.start.nextStamp) :
    session.Yields (selection.evaluate session.engine) fun _ => True := by
  have decides : ∀ {stamp q}, (stamp, q) ∈ selection.waiting →
      session.Yields (session.engine.optimizeOnce stamp q) fun _ => True := by
    intro stamp q mem
    refine yields_bind_done yields_get.done fun s => ?_
    split
    · exact yields_pure trivial
    · refine yields_bind_done (yields_optimize q) fun optimized => ?_
      intro s _ s' reached ran
      cases ran
      have before := Nat.lt_of_lt_of_le (handedOut _ mem) reached.nextStamp_le
      exact ⟨reached.step (.decided s optimized before), trivial⟩
  induction selection with
  | rows given => exact yields_pure trivial
  | typed stamp type inner ih => exact ih handedOut decides
  | deferred stamp type q =>
    exact yields_bind_done (decides List.mem_cons_self) fun optimized =>
      yields_answerOptimized (answered_answerWithin _) type optimized
  | filtered stamp type q source ih =>
    have within := ih (fun entry mem => handedOut entry (.tail _ mem))
      fun mem => decides (.tail _ mem)
    refine yields_bind_done (decides List.mem_cons_self) fun optimized => ?_
    have answered : session.Answered (session.engine.answerWithin q.levels) :=
      answered_answerWithin _
    have finished : ∀ {beginning : Engine.Beginning} {start : Effect Rows},
        beginning = .now start ∨ beginning = .later start →
        session.Yields start (fun _ => True) →
        session.Yields (session.engine.finishFilter (session.engine.answerWithin q.levels) type
          beginning optimized.steps.2) fun _ => True := fun begins start =>
      yields_finishFilter begins start fun rows _ => yields_sortRows (answered type .all) type _ rows
    show session.Yields (session.engine.finishFilter (session.engine.answerWithin q.levels) type
      (session.engine.beginFilter (session.engine.answerWithin q.levels) type optimized.steps.1
        source (source.evaluate session.engine)) optimized.steps.2) _
    unfold Engine.beginFilter
    split
    · exact finished (.inr rfl) within
    split
    · exact finished (.inl rfl) (yields_pure trivial)
    split
    · exact finished (.inr rfl) (answered_answer _ _)
    · refine finished (.inl rfl) (yields_bind_done within fun rows => ?_)
      exact yields_bind_done (yields_evaluate answered _ type) fun unfiltered =>
        yields_bind_done (yields_countWork _) fun _ => (yields_combine .inter rows unfiltered).done

/-- Evaluating a selection leads to a state of the session. -/
theorem reaches_of_selection {selection : Selection} {rows : Rows} (reached : session.Reaches s)
    (handedOut : ∀ entry ∈ selection.waiting, entry.1 < s.nextStamp)
    (ran : selection.evaluate session.engine s = .ok rows s') : session.Reaches s' := by
  -- the same engine, in the session that goes on from here
  let later := session.since s
  have yields : later.Yields (selection.evaluate later.engine) fun _ => True :=
    yields_selection handedOut
  exact reached.since (yields reaches_start ran).1

/-- Whether a selection lists some entities in a state, however much work was counted before. -/
def Shows (session : Session) (selection : Selection) (s : State) (ids : List EntityId) : Prop :=
  ∀ work, (selection.evaluate session.engine).Collects { s with work } ids

/-- Rows that do not end in a fault always list what they hold. -/
theorem shows_rows {rows : Rows} (whole : rows.Whole) (s : State) :
    session.Shows (.rows rows) s rows.ids :=
  fun _ => whole.collects _

theorem shows_typed {inner : Selection} (stamp : Nat) (type : String)
    (shows : session.Shows inner s ids) : session.Shows (.typed stamp type inner) s ids :=
  shows

/-! ### Filtering a selection -/

/-- The rows of a selection that are kept by conditions that were optimized already. -/
theorem collects_finishFilter {body : Query} {source : Selection} (reached : session.Reaches s)
    (orderly : body.orderly = true) (unsorted : body.unsorted = true)
    (registered : session.Registered type) (unfailing : session.store.failure = none)
    (resolved : source.deferral? = none)
    (handedOut : ∀ entry ∈ source.waiting, entry.1 < s.nextStamp)
    (shows : session.Shows source s listed)
    (inside : ∀ id ∈ listed, session.inHierarchy type id = true) :
    (session.engine.finishFilter nested type
      (session.engine.beginFilter nested type body source (source.evaluate session.engine))
      []).Collects s (listed.filter (session.admits type body)) := by
  unfold Engine.beginFilter
  split
  case isTrue whole =>
    -- nothing is left out, since all that is listed is of the type
    subst whole
    rw [List.filter_eq_self.mpr fun id mem => admits_all (inside id mem)]
    exact .bind rfl (shows _)
  split
  case isTrue empty =>
    cases source with
    | rows given =>
      obtain rfl := Rows.eq_empty_of_knownEmpty empty
      obtain ⟨_, ran⟩ := shows s.work
      cases ran
      exact ⟨_, rfl⟩
    | typed | deferred | filtered => cases empty
  case isFalse =>
    have apart : session.engine.joinWithSource type body source = none := by
      cases source with
      | rows | typed => rfl
      | deferred | filtered => cases resolved
    rw [apart]
    obtain ⟨_, ran⟩ := shows s.work
    obtain ⟨rows, s₁, evaluating, collecting⟩ := Effect.exists_of_bind ran
    obtain ⟨whole, rfl⟩ := whole_of_collect collecting
    have reached₁ := reaches_of_selection reached handedOut evaluating
    have evaluated : session.Yields (session.engine.evaluate nested body type) fun unfiltered =>
        unfiltered.Whole ∧ ∀ id, unfiltered.ids.contains id = session.admits type body id :=
      (yields_evaluate_whole orderly unsorted).and
        ((yields_evaluate_standing [] orderly unsorted).mono fun _ standing => standing.contains)
    have filters : session.Yields (session.engine.filterRows nested type body rows) fun kept =>
        kept.Whole ∧ kept.ids = rows.ids.filter (session.admits type body) := by
      refine yields_bind evaluated fun unfiltered ⟨whole', contains⟩ => ?_
      refine yields_bind_done (yields_countWork _) fun _ => ?_
      refine ((yields_combine_whole .inter whole whole').and
        (yields_combine .inter rows unfiltered)).mono fun kept ⟨wholeKept, combines⟩ =>
          ⟨wholeKept, ?_⟩
      rw [combines.ids (by decide)]
      exact List.filter_congr fun id _ => contains id
    have within : session.FaultsWithin session.store.Told
        (session.engine.filterRows nested type body rows) :=
      faultsWithin_bind (faultsWithin_evaluate orderly unsorted registered) evaluated
        fun unfiltered found => faultsWithin_bind (faultsWithin_countWork _) (yields_countWork _)
          fun _ _ => faultsWithin_combine .inter whole found.1
    rcases within.exists_or filters reached₁ with ⟨kept, s₂, filtering, wholeKept, ids⟩ |
      ⟨fault, -, -, told⟩
    · rw [← ids]
      refine .bind ((Effect.bind_eq_of_ok evaluating).trans filtering) (.bind rfl (.bind rfl ?_))
      exact wholeKept.collects _
    · exact absurd told (Store.not_told unfailing fault)

/-- **A query on a selection filters the selection.**  The selection is given by rows, or is known
to be of a type; it may be in any order, with repetitions.  The query consists of conditions.
Once it is optimized, it keeps what the selection lists then, if all of this belongs to the
hierarchy: the entities that an evaluation of the query lists, in the order of the selection and as
often as they are there.  If the store is told to fail, no evaluation of the query lists anything. -/
theorem filter_restricts (given : Selection) (fresh : session.Fresh)
    (history : session.ReachesBy (·.legible = true) s) (orderly : q.orderly = true)
    (unsorted : q.unsorted = true) (registered : session.Registered type)
    (resolved : given.deferral? = none)
    (handedOut : ∀ entry ∈ given.waiting, entry.1 < s.nextStamp) :
    ∃ selection s₁ optimized s₂,
      given.filter type q s = .ok selection s₁ ∧
      session.engine.optimizeOnce s.nextStamp q s₁ = .ok optimized s₂ ∧
      ((∃ direct,
          (∀ u, session.Reaches u →
            (session.engine.evaluate session.engine.answer q type).Collects u direct) ∧
          ∀ listed, session.Shows given s₂ listed →
            (∀ id ∈ listed, session.inHierarchy type id = true) →
            (selection.evaluate session.engine).Collects s₁ (listed.filter direct.contains)) ∨
        ∃ message, session.store.failure = some message ∧
          ∀ u, session.Reaches u →
            (session.engine.evaluate session.engine.answer q type).Fails u (.backend message)) := by
  have legible := Query.legible_of_orderly orderly
  obtain ⟨sound, fits⟩ := (sound_of_reachesBy fresh history).stamped q
  obtain ⟨optimized, s₂, optimizing⟩ := session.engine.exists_decided
    (Query.ground_of_legible legible) s.nextStamp { s with nextStamp := s.nextStamp + 1 }
  have made : given.filter type q s = .ok (.filtered s.nextStamp type q given)
      { s with nextStamp := s.nextStamp + 1 } := by
    cases given with
    | rows | typed => rfl
    | deferred | filtered => cases resolved
  refine ⟨_, _, optimized, s₂, made, optimizing, ?_⟩
  rcases collects_evaluate orderly unsorted registered with
    ⟨unfailing, direct, contains, evaluates⟩ | failing
  · refine .inl ⟨direct, evaluates, fun listed shows inside => ?_⟩
    obtain ⟨sound₂, optimizes, others⟩ := sound.optimizeOnce legible fits optimizing
    have waits := session.waits_of_unsorted type orderly unsorted
    obtain ⟨_, lifted, -, lone⟩ := lifted_of_optimizes type waits.settled optimizes
    obtain rfl := lone waits.lone
    have noSteps : optimized.steps.2 = [] := by
      rw [lifted.steps, Query.propertyOrders, Query.orders_eq_nil_iff.mpr unsorted]
      rfl
    have same : listed.filter direct.contains
        = listed.filter (session.admits type optimized.steps.1) :=
      List.filter_congr fun id _ => (contains id).trans (lifted.admits id).symm
    have handedOut₂ : ∀ entry ∈ given.waiting, entry.1 < s₂.nextStamp := fun entry mem =>
      Nat.lt_trans (handedOut entry mem) (others _ _ fits fun _ => rfl).handedOut
    have kept : (session.engine.finishFilter (session.engine.answerWithin q.levels) type
        (session.engine.beginFilter (session.engine.answerWithin q.levels) type optimized.steps.1
          given (given.evaluate session.engine)) optimized.steps.2).Collects s₂
        (listed.filter (session.admits type optimized.steps.1)) := by
      rw [noSteps]
      exact collects_finishFilter sound₂.reached lifted.orderly lifted.unsorted registered unfailing
        resolved handedOut₂ shows inside
    rw [same]
    exact .bind optimizing kept
  · exact .inr failing

theorem fresh_household : household.Fresh where
  nothingRemembered := Cache.QueryCache.get?_create _ _ _
  nothingDecided := rfl

end Session

/-- The cat, an animal, the cat again, and another animal. -/
def Selection.catTwice : Selection :=
  .typed 0 "animal" (.rows (.computed 1 [⟨1, 0⟩, ⟨0, 0⟩, ⟨1, 0⟩, ⟨0, 1⟩]))

/-- What is not three years old, in other words. -/
def Query.notThreeAtAll : Query :=
  .inter (.union (.hasProperty "name") .all) .notThree

set_option maxRecDepth 100000 in
/-- The first animal is three years old, and is left out.  The cat is listed twice. -/
theorem Session.filter_restricts_notThree :
    Query.notThreeAtAll.orderly = true ∧ Query.notThreeAtAll.unsorted = true ∧
      household.Registered "animal" ∧ Selection.catTwice.deferral? = none ∧
      ∃ selection s₁,
        Selection.catTwice.filter "animal" .notThreeAtAll household.start = .ok selection s₁ ∧
        (household.engine.evaluate household.engine.answer .notThreeAtAll "animal").Collects
          household.start [⟨0, 1⟩, ⟨1, 0⟩] ∧
        (selection.evaluate household.engine).Collects s₁ [⟨1, 0⟩, ⟨1, 0⟩, ⟨0, 1⟩] := by
  obtain ⟨selection, s₁, optimized, s₂, made, -, ⟨direct, evaluates, restricts⟩ | ⟨_, told, -⟩⟩ :=
    filter_restricts .catTwice fresh_household .refl (rfl : Query.notThreeAtAll.orderly = true) rfl
      registered_household rfl nofun
  · have ran : EStateM.run' (do (← household.engine.evaluate household.engine.answer
        .notThreeAtAll "animal").collect) household.start = some [⟨0, 1⟩, ⟨1, 0⟩] := by decide +kernel
    obtain ⟨s', ran⟩ := Effect.exists_of_run' ran
    obtain ⟨_, listed⟩ := evaluates household.start reaches_start
    cases listed.symm.trans ran
    refine ⟨rfl, rfl, registered_household, rfl, selection, s₁, made, ⟨s', ran⟩, ?_⟩
    have inside : [(⟨1, 0⟩ : EntityId), ⟨0, 0⟩, ⟨1, 0⟩, ⟨0, 1⟩].all
        (household.inHierarchy "animal") = true := by decide +kernel
    have whole : (Rows.computed 1 [⟨1, 0⟩, ⟨0, 0⟩, ⟨1, 0⟩, ⟨0, 1⟩]).Whole := trivial
    exact restricts _ (shows_typed 0 "animal" (shows_rows whole s₂)) (List.all_eq_true.mp inside)
  · cases told

end ExtentQuery

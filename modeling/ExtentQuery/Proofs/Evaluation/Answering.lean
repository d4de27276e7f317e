import ExtentQuery.Proofs.Evaluation.Linking

/-!
# Answering a query takes steps of the session

Whatever an engine does to answer a query — looking up, combining, sorting, optimizing,
answering the queries within the query — changes the state by the steps of a session and
in no other way.  This module carries that through the engine, function by function.  It
says nothing about what is answered, except that what the backend sorts is not taken to be in
the order of identities, and that what it orders after targets is what it is given.

* `Session.yields_sort` — sorting rows, for every kind of sort step;
* `Session.yields_evaluateType`, `Session.yields_evaluate` — evaluating any query, given
  that the queries within it are answered by steps;
* `Session.answered_answer` — answering any query.
-/

namespace ExtentQuery

open Effect

/-- Evaluates a query over a type and its subtypes by taking it apart. -/
def Engine.evaluateApart (engine : Engine) (nested : Nested) (q : Query) (type : String) :
    Effect Rows :=
  match q with
  | .root c => engine.evaluate nested c type
  | .inter l r => do
    engine.combine .inter (← engine.evaluate nested l type) (← engine.evaluate nested r type)
  | .union l r => do
    engine.combine .union (← engine.evaluate nested l type) (← engine.evaluate nested r type)
  | .diff l r => do
    let left ← engine.evaluate nested l type
    if left.knownEmpty then return .empty
    engine.combine .diff left (← engine.evaluate nested r type)
  | .concat l r => do
    engine.combine .concat (← engine.evaluate nested l type) (← engine.evaluate nested r type)
  | .compl c => do
    engine.combine .diff (← engine.evaluateEach nested .all type)
      (← engine.evaluate nested c type)
  | .sort order c => do
    engine.sort (nested type .all) type order (some (← engine.evaluate nested c type))
  | leaf => engine.evaluateEach nested leaf type

/-- The three ways of evaluating a query over a type and its subtypes. -/
theorem Engine.evaluate_eq (engine : Engine) (nested : Nested) (q : Query) (type : String) :
    engine.evaluate nested q type =
      if q.spansTypes then engine.evaluateType nested q type
      else if q.typeLocal then engine.evaluateEach nested q type
      else engine.evaluateApart nested q type := by
  cases q <;> rfl

/-! ### Sorting -/

/-- Entities with a rank and entities without are all that there are. -/
theorem Backend.Memory.arrangeRanked_perm (ascending : Bool)
    (ranked : List (EntityId × Option Nat)) :
    (arrangeRanked ascending ranked).Perm (ranked.map (·.1)) := by
  have linked : (ranked.filterMap fun entry => entry.2.map fun rank => (rank, entry.1)).map (·.2)
      = (ranked.filter fun entry => !entry.2.isNone).map (·.1) := by
    induction ranked with
    | nil => rfl
    | cons entry ranked ih =>
      obtain ⟨id, rank | rank⟩ := entry
      · exact ih
      · exact congrArg (id :: ·) ih
  have sorted := ((List.mergeSort_perm (ranked.filterMap fun entry =>
    entry.2.map fun rank => (rank, entry.1)) fun a b => a.1 ≤ b.1).map (·.2)).trans (.of_eq linked)
  have all : ((ranked.filter (·.2.isNone)).map (·.1)
      ++ (ranked.filter fun entry => !entry.2.isNone).map (·.1)).Perm (ranked.map (·.1)) := by
    rw [← List.map_append]
    exact (List.filter_append_perm _ ranked).map _
  unfold arrangeRanked
  cases ascending with
  | true => exact (List.perm_append_comm.trans (sorted.append_left _)).trans all
  | false => exact (sorted.append_left _).trans all

namespace Session

variable {session : Session}

theorem yields_extentOf (type : String) (source : Option Listing) :
    session.Yields (Backend.Memory.extentOf type source) fun _ => True := by
  cases source with
  | none => exact (yields_reading (·.scan type fun _ => true)).done
  | some source =>
    refine yields_bind_done (yields_reading _).done fun typeId => ?_
    exact yields_bind_done (yields_listing_collect source).done fun _ => yields_pure trivial

/-- The backend does not take sorted entities to be in the order of identities. -/
theorem yields_sortType (type property : String) (source : Option Listing) (ascending : Bool) :
    session.Yields (session.engine.backend.sortType type property source ascending)
      fun sorted => sorted.inIdOrder = false := by
  refine yields_bind_done (yields_countCall _) fun _ => ?_
  refine yields_bind_done (yields_reading _).done fun _ => ?_
  refine yields_bind_done (yields_extentOf type source) fun ids => ?_
  refine yields_bind_done (yields_reading _).done fun sorted => ?_
  exact (yields_snapshot sorted false).mono fun _ made => made.2

theorem yields_merge (listings : List Listing) (key : SortKey) (ascending : Bool) :
    session.Yields (session.engine.backend.merge listings key ascending)
      fun merged => merged.inIdOrder = false := by
  refine yields_bind_done (yields_countCall _) fun _ => ?_
  refine yields_bind_done (yields_forM listings fun listing _ => yields_start listing) fun _ => ?_
  refine yields_bind_done (yields_reading _).done fun merged => ?_
  exact (yields_snapshot merged false).mono fun _ made => made.2

/-- What the backend orders after targets, if it does, is what it is given.  It does not take this
to be in the order of identities either. -/
theorem yields_orderByTargets (request : TargetOrder) :
    session.Yields (session.engine.backend.orderByTargets request) fun answer =>
      ∀ listing ∈ answer, listing.failure = none ∧ listing.inIdOrder = false ∧
        listing.ids.Perm request.source.ids := by
  refine yields_bind_done (yields_countCall _) fun _ => ?_
  refine yields_bind_done yields_get.done fun s => ?_
  cases s.store.ordersByTargets with
  | false => exact yields_pure nofun
  | true =>
    refine yields_bind_done (yields_listing_collect request.targets).done fun targets => ?_
    have ranks : ∀ id ∈ request.source.ids, session.Yields
        (do
          let record ← reading (·.record id)
          return (id, Backend.Memory.firstRank targets record request.link))
        fun entry => entry.1 = id :=
      fun id _ => yields_bind_done (yields_reading _).done fun _ => yields_pure rfl
    refine yields_bind (yields_listing_mapM request.source ranks) fun ranked same => ?_
    have ids : ranked.map (·.1) = request.source.ids :=
      List.forall₂_eq_eq_eq ▸ List.forall₂_map_left_iff.mpr same.flip
    refine yields_bind ((yields_snapshot _ _).and (yields_snapshot_whole _ _)) ?_
    rintro listing ⟨⟨made, unordered⟩, whole, -⟩
    refine yields_pure ?_
    rintro _ ⟨⟩
    refine ⟨whole, unordered, ?_⟩
    rw [made, ← ids]
    exact Backend.Memory.arrangeRanked_perm _ ranked

theorem yields_sortTypesWithin (levels : Nat) :
    ∀ (type property : String) (source : Option Listing) (ascending : Bool),
      session.Yields (session.engine.sortTypesWithin levels type property source ascending)
        fun sorted => sorted.inIdOrder = false := by
  induction levels with
  | zero => exact fun _ _ _ _ => yields_throw _
  | succ levels ih =>
    intro type property source ascending
    refine yields_bind (yields_sortType type property source ascending) fun own unordered => ?_
    split
    · exact yields_pure unordered
    · refine yields_bind_done ?_ fun parts => ?_
      · exact (yields_mapM (R := fun _ _ => True) _ fun subtype _ =>
          (ih subtype property source ascending).done).done
      · exact yields_bind_done (yields_countWork _) fun _ => yields_merge _ _ _

theorem yields_sortTypes (type property : String) (source : Option Listing)
    (ascending : Bool) :
    session.Yields (session.engine.sortTypes type property source ascending)
      fun sorted => sorted.inIdOrder = false :=
  yields_sortTypesWithin _ type property source ascending

theorem yields_sortList (ids : List EntityId) (key : SortKey) (ascending : Bool) :
    session.Yields (session.engine.sortList ids key ascending) fun _ => True :=
  yields_bind_done (yields_reading _).done fun _ =>
    yields_bind_done (yields_countWork _) fun _ => yields_pure trivial

/-- Sorted rows are not taken to be in the order of identities, unless they are. -/
theorem yields_sortProperty (type property : String) (source : Option Rows)
    (ascending : Bool) :
    session.Yields (session.engine.sortProperty type property source ascending)
      fun sorted => sorted.inIdOrder = true → Ascending sorted.ids := by
  have unordered : ∀ {listing : Listing}, listing.inIdOrder = false →
      (Rows.native listing).inIdOrder = true → Ascending (Rows.native listing).ids :=
    fun isFalse isTrue => absurd (isTrue.symm.trans isFalse) (by decide)
  have computed : ∀ ids : List EntityId, session.Yields (Rows.ofIds ids) fun rows =>
      rows.inIdOrder = true → Ascending rows.ids :=
    fun ids => (yields_ofIds ids).mono fun _ made => made.2
  unfold Engine.sortProperty
  split
  · exact yields_bind (yields_sortTypes _ _ _ _) fun _ sorted => yields_pure (unordered sorted)
  · exact yields_pure fun _ => ascending_nil
  · rename_i listing
    refine yields_bind (yields_sortTypes _ _ _ _) fun sorted isSorted => ?_
    refine yields_bind_done (yields_listing_size sorted) fun sortedSize => ?_
    refine yields_bind_done (yields_listing_size listing) fun size => ?_
    split
    · exact yields_pure (unordered isSorted)
    · refine yields_bind_done (yields_listing_collect listing).done fun ids => ?_
      exact yields_bind_done (yields_listing_collect sorted).done fun _ => computed _
  · split
    · exact yields_bind_done (yields_sortList _ _ _) fun _ => computed _
    · refine yields_bind_done (yields_sortTypes _ _ _ _).done fun listing => ?_
      exact yields_bind_done (yields_listing_collect listing).done fun _ => computed _

theorem yields_sortKeyed (source : Rows) (key : SortKey) (ascending : Bool) :
    session.Yields (session.engine.sortKeyed source key ascending) fun _ => True := by
  unfold Engine.sortKeyed
  split
  · exact yields_pure trivial
  · refine yields_bind_done (yields_collect source).done fun ids => ?_
    exact yields_bind_done (yields_sortList ids key ascending) fun _ => (yields_ofIds _).done

theorem yields_withProperty (type property : String) :
    session.Yields (session.engine.withProperty type property) fun _ => True := by
  refine yields_bind_done (yields_lookUp _ _ _).done fun own => ?_
  refine yields_foldlM (fun _ _ => True) (session.engine.metadata.closure type)
    (fun _ keyed subtype _ _ => ?_) trivial
  exact yields_bind_done (yields_lookUp _ _ _).done fun part =>
    (yields_memory_combine .union keyed part).done

theorem yields_sortByTargets (targetType property link : String) (far : Option Association)
    (source : Listing) (ascending : Bool) :
    session.Yields
      (session.engine.sortByTargets targetType property link far source ascending)
      fun _ => True := by
  refine yields_bind_done (yields_withProperty targetType property) fun keyed => ?_
  refine yields_bind_done (yields_sortTypes _ _ _ _).done fun targets => ?_
  split
  · exact yields_pure trivial
  · refine yields_bind_done (yields_orderByTargets _).done fun sorted => ?_
    exact yields_bind_done (yields_countWork _) fun _ => yields_pure trivial

theorem yields_sortLinked (targetType property type link : String) (source : Rows)
    (ascending : Bool) :
    session.Yields
      (session.engine.sortLinked targetType property type link source ascending)
      fun _ => True := by
  unfold Engine.sortLinked
  split
  · split
    · refine yields_bind_done (yields_sortByTargets _ _ _ _ _ _) fun sorted => ?_
      cases sorted with
      | none => exact yields_sortKeyed _ _ _
      | some listing => exact yields_pure trivial
    · rw [pure_bind]
      exact yields_sortKeyed _ _ _
  · rw [pure_bind]
    exact yields_sortKeyed _ _ _

/-- A sort step, given that the whole extent is answered by steps. -/
theorem yields_sort {extent : Effect Rows} (answered : session.Yields extent fun _ => True)
    (type : String) (order : SortStep) (source : Option Rows) :
    session.Yields (session.engine.sort extent type order source) fun _ => True := by
  have start : session.Yields (source.elim extent pure) fun _ => True := by
    cases source with
    | none => exact answered
    | some rows => exact yields_pure trivial
  cases order with
  | property name ascending => exact (yields_sortProperty type name source ascending).done
  | linkedProperty targetType property link ascending =>
    exact yields_bind_done start fun rows => yields_sortLinked _ _ _ _ rows ascending
  | key id cacheable key ascending =>
    exact yields_bind_done start fun rows => yields_sortKeyed rows key ascending

theorem yields_sortRows {extent : Effect Rows} (answered : session.Yields extent fun _ => True)
    (type : String) (orders : List SortStep) (rows : Rows) :
    session.Yields (session.engine.sortRows extent type orders rows) fun _ => True :=
  yields_foldlM (fun _ _ => True) orders
    (fun _ rows order _ _ => yields_sort answered type order (some rows)) trivial

theorem yields_sortExtent {extent : Effect Rows}
    (answered : session.Yields extent fun _ => True) (type : String)
    (orders : List SortStep) :
    session.Yields (session.engine.sortExtent extent type orders) fun _ => True := by
  cases orders with
  | nil => exact answered
  | cons order orders =>
    exact yields_bind_done (yields_sort answered type order none) fun rows =>
      yields_sortRows answered type orders rows

/-! ### Optimizing -/

theorem yields_optimizeNow (q : Query) :
    session.Yields (session.engine.optimizeNow q) fun optimized =>
      ∃ notices, Rewrite.optimize session.settings.maxRewrites q [] = .ok optimized notices := by
  unfold Engine.optimizeNow
  cases found : Rewrite.optimize session.settings.maxRewrites q [] with
  | error fault notices =>
    simp only [EStateM.run, engine, found]
    exact yields_bind_done (yields_forM notices fun notice _ => yields_report notice) fun _ =>
      yields_throw fault
  | ok optimized notices =>
    simp only [EStateM.run, engine, found]
    refine yields_bind_done (yields_forM notices fun notice _ => yields_report notice) fun _ => ?_
    exact yields_bind_done (yields_modify fun s => .remembered s trivial found) fun _ =>
      yields_pure ⟨notices, rfl⟩

/-- Looking a query up in the cache. -/
theorem yields_find (q : Query) :
    session.Yields
      (modifyGet fun s : State => ((s.cache.find q).1, { s with cache := (s.cache.find q).2 }) :
        Effect (Option Rewrite.Optimized)) fun _ => True := by
  rintro s _ _ reached ⟨⟩
  exact ⟨reached.step (.lookedUp s q.canonical), trivial⟩

theorem yields_optimize (q : Query) :
    session.Yields (session.engine.optimize q) fun _ => True := by
  refine yields_bind_done (yields_find q) fun found => ?_
  cases found with
  | none =>
    exact yields_bind_done (yields_optimizeNow q).done fun _ =>
      yields_bind_done (yields_countWork _) fun _ => yields_pure trivial
  | some optimized =>
    exact yields_bind_done (yields_pure trivial) fun _ =>
      yields_bind_done (yields_countWork _) fun _ => yields_pure trivial

/-! ### Evaluating -/

theorem yields_having (type property : String) :
    session.Yields (session.engine.having type property) fun _ => True := by
  unfold Engine.having
  split
  · exact yields_bind_done (yields_lookUp _ _ _).done fun _ => yields_pure trivial
  · exact yields_bind_done (yields_lookUp _ _ _).done fun _ => yields_pure trivial

/-- Whether the queries within a query are answered by steps of the session. -/
def Answered (session : Session) (nested : Engine.Nested) : Prop :=
  ∀ type q, session.Yields (nested type q) fun _ => True

section Nested

variable {nested : Engine.Nested}

theorem yields_narrowByNested (answered : session.Answered nested) (type : String)
    (source : Rows) (link : String) (targets : Query) (targetType : String) :
    session.Yields
      (session.engine.narrowByNested nested type source link targets targetType)
      fun _ => True := by
  unfold Engine.narrowByNested
  split
  · exact yields_pure trivial
  · exact yields_bind_done (answered targetType targets) fun rows =>
      (yields_narrowByLinks type link source rows).done

theorem yields_evaluateType (answered : session.Answered nested) (q : Query) :
    ∀ type, session.Yields (session.engine.evaluateType nested q type) fun _ => True := by
  have lookedUp : ∀ {x : Effect Listing}, session.Yields x (fun _ => True) →
      session.Yields (do return Rows.native (← x)) fun _ => True := fun look =>
    yields_bind_done look fun _ => yields_pure trivial
  have combined : ∀ operation left right,
      session.Yields (session.engine.combine operation left right) fun _ => True :=
    fun operation left right => (yields_combine operation left right).done
  induction q with
  | root c ih => exact ih
  | all => exact fun type => lookedUp (yields_lookUp _ _ _).done
  | linksFrom source link =>
    exact fun _ => lookedUp (yields_linkTargets source link).done
  | equals property value =>
    intro type
    cases value with
    | some value => exact lookedUp (yields_lookUp _ _ _).done
    | none =>
      refine yields_bind_done (yields_lookUp _ _ _).done fun all => ?_
      exact yields_bind_done (yields_having type property) fun _ => combined _ _ _
  | between property low high => exact fun _ => lookedUp (yields_lookUp _ _ _).done
  | startsWith property start => exact fun _ => lookedUp (yields_lookUp _ _ _).done
  | hasProperty property => exact fun type => yields_having type property
  | linkedTo link target =>
    intro type
    cases target with
    | some target => exact lookedUp (yields_lookUp _ _ _).done
    | none =>
      refine yields_bind_done (yields_lookUp _ _ _).done fun all => ?_
      exact yields_bind_done (yields_lookUp _ _ _).done fun _ => combined _ _ _
  | hasLink link => exact fun _ => lookedUp (yields_lookUp _ _ _).done
  | linkedInto link targets targetType =>
    exact fun type => yields_bind_done (answered targetType targets) fun rows =>
      (yields_linkedToAny type link rows).done
  | inter l r ihl ihr =>
    intro type
    unfold Engine.evaluateType
    split
    · exact yields_bind_done (ihl type) fun _ => yields_narrowByNested answered _ _ _ _ _
    · exact yields_bind_done (ihr type) fun _ => yields_narrowByNested answered _ _ _ _ _
    · exact yields_bind_done (ihl type) fun left =>
        yields_bind_done (ihr type) fun right => combined _ left right
  | union l r ihl ihr =>
    exact fun type => yields_bind_done (ihl type) fun left =>
      yields_bind_done (ihr type) fun right => combined _ left right
  | diff l r ihl ihr =>
    intro type
    refine yields_bind_done (ihl type) fun left => ?_
    split
    · exact yields_pure trivial
    · exact yields_bind_done (ihr type) fun right => combined _ left right
  | concat l r ihl ihr =>
    exact fun type => yields_bind_done (ihl type) fun left =>
      yields_bind_done (ihr type) fun right => combined _ left right
  | compl c ih =>
    exact fun type => yields_bind_done (yields_lookUp _ _ _).done fun all =>
      yields_bind_done (ih type) fun excluded => combined _ (.native all) excluded
  | sort order c ih =>
    exact fun type => yields_bind_done (ih type) fun source =>
      yields_sort (answered type .all) type order (some source)
  | custom leaf =>
    intro type
    unfold Engine.evaluateType
    split
    · exact (yields_ofIds _).done
    · refine yields_bind_done (yields_lookUp _ _ _).done fun all => ?_
      exact yields_bind_done (yields_listing_collect all).done fun _ => (yields_ofIds _).done
  | slot number => exact fun _ => yields_throw _
  | converter number conversion => exact fun _ => yields_throw _

theorem yields_joinParts (parts : List Rows) :
    session.Yields (session.engine.joinParts parts) fun _ => True := by
  cases parts with
  | nil => exact yields_pure trivial
  | cons first rest =>
    exact yields_foldlM (fun _ _ => True) rest
      (fun _ rows part _ _ => (yields_combine _ rows part).done) trivial

theorem yields_evaluateEach (answered : session.Answered nested) (q : Query) (type : String) :
    session.Yields (session.engine.evaluateEach nested q type) fun _ => True :=
  yields_bind_done (yields_mapM (R := fun _ _ => True) _ fun each _ =>
    yields_evaluateType answered q each).done fun parts => yields_joinParts parts

theorem yields_evaluate (answered : session.Answered nested) (q : Query) (type : String) :
    session.Yields (session.engine.evaluate nested q type) fun _ => True := by
  have combined : ∀ operation left right,
      session.Yields (session.engine.combine operation left right) fun _ => True :=
    fun operation left right => (yields_combine operation left right).done
  -- only the last way looks into the operands, so the induction is about that one
  have ways : ∀ q, session.Yields (session.engine.evaluateApart nested q type) (fun _ => True) →
      session.Yields (session.engine.evaluate nested q type) fun _ => True := by
    intro q apart
    rw [Engine.evaluate_eq]
    split
    · exact yields_evaluateType answered q type
    split
    · exact yields_evaluateEach answered q type
    · exact apart
  induction q with
  | root c ih => exact ways _ ih
  | inter l r ihl ihr =>
    exact ways _ (yields_bind_done ihl fun left => yields_bind_done ihr fun right =>
      combined .inter left right)
  | union l r ihl ihr =>
    exact ways _ (yields_bind_done ihl fun left => yields_bind_done ihr fun right =>
      combined .union left right)
  | diff l r ihl ihr =>
    refine ways _ (yields_bind_done ihl fun left => ?_)
    split
    · exact yields_pure trivial
    · exact yields_bind_done ihr fun right => combined .diff left right
  | concat l r ihl ihr =>
    exact ways _ (yields_bind_done ihl fun left => yields_bind_done ihr fun right =>
      combined .concat left right)
  | compl c ih =>
    exact ways _ (yields_bind_done (yields_evaluateEach answered .all type) fun all =>
      yields_bind_done ih fun excluded => combined .diff all excluded)
  | sort order c ih =>
    exact ways _ (yields_bind_done ih fun source =>
      yields_sort (answered type .all) type order (some source))
  | _ => exact ways _ (yields_evaluateEach answered _ type)

/-! ### Answering -/

theorem yields_answerOptimized (answered : session.Answered nested) (type : String)
    (optimized : Rewrite.Optimized) :
    session.Yields (session.engine.answerOptimized nested type optimized) fun _ => True := by
  have counted : ∀ rows : Rows, session.Yields
      (do
        countWork Work.instantiation
        pure rows) fun _ => True :=
    fun rows => yields_bind_done (yields_countWork _) fun _ => yields_pure trivial
  unfold Engine.answerOptimized
  split
  split
  · exact yields_bind_done (yields_sortExtent (answered type .all) type _) counted
  · refine yields_bind_done (yields_evaluate answered _ type) fun rows => ?_
    exact yields_bind_done (yields_sortRows (answered type .all) type _ rows) counted

end Nested

theorem answered_answerWithin (levels : Nat) :
    session.Answered (session.engine.answerWithin levels) := by
  induction levels with
  -- no level is left for the queries within the query
  | zero => exact fun _ _ => yields_throw _
  | succ levels ih =>
    exact fun type q => yields_bind_done (yields_optimize q) fun optimized =>
      yields_answerOptimized ih type optimized

/-- An engine answers every query by steps of its session. -/
theorem answered_answer : session.Answered session.engine.answer :=
  fun type q => answered_answerWithin q.levels type q

end Session

end ExtentQuery

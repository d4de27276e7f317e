import ExtentQuery.Proofs.Evaluation.Answering

/-!
# What computations are put together from

Looking entities up, combining and sorting them, and answering queries are put together from a
few steps: counting, handing out stamps, reading the store, and faulting.  A property of
computations that these steps have, and that two computations in sequence have if both have it,
is a property of all of them.

* `Effect.Composes` — such a property;
* one lemma for each operation of the backend and of the engine, from iterations
  (`Effect.Composes.of_collect`) to sorting (`Effect.Composes.of_sortLinked`);
* `Effect.Composes.of_answerWithin` — if optimization has the property and reporting has it,
  then so has answering queries.

**Which operations.**  The engine is the one of a session, over the reference backend.
-/

namespace ExtentQuery

open Effect
open Rewrite (Optimized)

/-- Whether a property of computations is one of counting, handing out stamps, reading the store
and faulting, and of what is put together from computations that have it. -/
structure Effect.Composes (P : {α : Type} → Effect α → Prop) : Prop where
  of_pure {α : Type} (a : α) : P (pure a)
  of_throw {α : Type} (fault : Fault) : P (throw fault : Effect α)
  of_bind {α β : Type} {x : Effect α} {f : α → Effect β} : P x → (∀ a, P (f a)) → P (x >>= f)
  of_countCall (call : Call) : P (countCall call)
  of_countWork (work : Work) : P (countWork work)
  of_freshStamp : P freshStamp
  /-- What goes on with the store alone does not depend on the rest of the state. -/
  of_get {α : Type} {f : State → Effect α} :
    (∀ s t, s.store = t.store → f s = f t) → (∀ s, P (f s)) → P (get >>= f)

namespace Effect.Composes

variable {P : {α : Type} → Effect α → Prop} (law : Composes P) {α β : Type} {session : Session}

include law

theorem of_ofExcept (answer : Except Fault α) : P (ofExcept answer) := by
  cases answer with
  | error fault => exact law.of_throw fault
  | ok a => exact law.of_pure a

theorem of_reading (read : Store → Except Fault α) : P (reading read) :=
  law.of_get (fun _ _ same => by rw [same]) fun _ => law.of_ofExcept _

theorem of_mapM {f : α → Effect β} (each : ∀ a, P (f a)) (l : List α) : P (l.mapM f) := by
  induction l with
  | nil => exact law.of_pure []
  | cons a l ih =>
    rw [List.mapM_cons]
    exact law.of_bind (each a) fun b => law.of_bind ih fun bs => law.of_pure (b :: bs)

theorem of_foldlM {f : β → α → Effect β} (each : ∀ b a, P (f b a)) (l : List α) (b : β) :
    P (l.foldlM f b) := by
  induction l generalizing b with
  | nil => exact law.of_pure b
  | cons a l ih =>
    rw [List.foldlM_cons]
    exact law.of_bind (each b a) ih

theorem of_forM {f : α → Effect Unit} (each : ∀ a, P (f a)) (l : List α) : P (l.forM f) := by
  induction l with
  | nil => exact law.of_pure ()
  | cons a l ih =>
    rw [List.forM_eq_forM, List.forM_cons]
    exact law.of_bind (each a) fun _ => ih

/-! ### Iterations -/

theorem of_start (listing : Listing) : P listing.start := by
  unfold Listing.start
  cases listing.origin with
  | snapshot inIdOrder => exact law.of_countCall _
  | view => exact law.of_countCall _
  | standalone => exact law.of_pure _

theorem of_finish (listing : Listing) : P listing.finish := by
  unfold Listing.finish
  cases listing.failure with
  | none => exact law.of_pure _
  | some fault => exact law.of_throw fault

theorem of_listing_collect (listing : Listing) : P listing.collect :=
  law.of_bind (law.of_start listing) fun _ => law.of_bind (law.of_finish listing) fun _ =>
    law.of_pure _

theorem of_listing_mapM {f : EntityId → Effect α} (each : ∀ id, P (f id)) (listing : Listing) :
    P (listing.mapM f) :=
  law.of_bind (law.of_start listing) fun _ => law.of_bind (law.of_mapM each _) fun results =>
    law.of_bind (law.of_finish listing) fun _ => law.of_pure results

theorem of_listing_foldM {f : α → EntityId → Effect α} (each : ∀ a id, P (f a id))
    (listing : Listing) (a : α) : P (listing.foldM f a) :=
  law.of_bind (law.of_start listing) fun _ => law.of_bind (law.of_foldlM each _ a) fun result =>
    law.of_bind (law.of_finish listing) fun _ => law.of_pure result

theorem of_listing_size (listing : Listing) : P listing.size := by
  unfold Listing.size
  split
  · exact law.of_pure _
  · exact law.of_bind (law.of_listing_collect listing) fun _ => law.of_pure _

theorem of_ofIds (ids : List EntityId) : P (Rows.ofIds ids) := by
  cases ids with
  | nil => exact law.of_pure Rows.empty
  | cons id ids => exact law.of_bind law.of_freshStamp fun _ => law.of_pure _

theorem of_collect (rows : Rows) : P rows.collect := by
  cases rows with
  | empty => exact law.of_pure []
  | native listing => exact law.of_listing_collect listing
  | computed stamp ids => exact law.of_pure ids

theorem of_foldM {f : α → EntityId → Effect α} (each : ∀ a id, P (f a id)) (rows : Rows) (a : α) :
    P (rows.foldM f a) := by
  cases rows with
  | empty => exact law.of_pure a
  | native listing => exact law.of_listing_foldM each listing a
  | computed stamp ids => exact law.of_foldlM each ids a

/-! ### The reference backend -/

theorem of_snapshot (ids : List EntityId) (inIdOrder : Bool) :
    P (Backend.Memory.snapshot ids inIdOrder) :=
  law.of_bind law.of_freshStamp fun _ => law.of_pure _

theorem of_lookUp (call : Call) (type : String) (keep : Record → Bool) :
    P (Backend.Memory.lookUp call type keep) :=
  law.of_bind (law.of_countCall call) fun _ => law.of_bind (law.of_reading _) fun _ =>
    law.of_bind (law.of_reading _) fun ids => law.of_snapshot ids true

theorem of_linkTargets (id : EntityId) (link : String) :
    P (Backend.Memory.linkTargets id link) :=
  law.of_bind (law.of_reading _) fun targets => law.of_snapshot targets false

theorem of_searchLinks (source targets : Listing) (link : String) :
    P (Backend.Memory.searchLinks source targets link) := by
  refine law.of_bind (law.of_countCall _) fun _ => law.of_get (fun _ _ same => by rw [same]) ?_
  intro s
  split
  · exact law.of_pure none
  · refine law.of_bind (law.of_listing_collect targets) fun wanted => ?_
    refine law.of_bind (law.of_listing_mapM (fun id => ?_) source) fun marked =>
      law.of_bind (law.of_snapshot _ _) fun listing => law.of_pure (some listing)
    exact law.of_bind (law.of_reading _) fun record => law.of_pure _

theorem of_backend_combine (operation : SetOperation) (left right : Listing) :
    P (Backend.Memory.combine operation left right) := by
  have l := law.of_listing_collect left
  have r := law.of_listing_collect right
  refine law.of_bind (law.of_countCall _) fun _ => ?_
  cases operation with
  | inter | diff => exact law.of_bind r fun _ => law.of_bind l fun _ => law.of_snapshot _ _
  | concat => exact law.of_bind l fun _ => law.of_bind r fun _ => law.of_snapshot _ _
  | union =>
    refine law.of_bind l fun _ => law.of_bind r fun _ => ?_
    split
    · exact law.of_snapshot _ _
    · exact law.of_snapshot _ _

theorem of_extentOf (type : String) (source : Option Listing) :
    P (Backend.Memory.extentOf type source) := by
  cases source with
  | none => exact law.of_reading (·.scan type fun _ => true)
  | some source =>
    exact law.of_bind (law.of_reading _) fun _ => law.of_bind (law.of_listing_collect source)
      fun _ => law.of_pure _

theorem of_sortType (type property : String) (source : Option Listing) (ascending : Bool) :
    P (Backend.Memory.sortType type property source ascending) :=
  law.of_bind (law.of_countCall _) fun _ => law.of_bind (law.of_reading _) fun _ =>
    law.of_bind (law.of_extentOf type source) fun _ => law.of_bind (law.of_reading _) fun sorted =>
      law.of_snapshot sorted false

theorem of_orderByTargets (request : TargetOrder) :
    P (Backend.Memory.orderByTargets request) := by
  refine law.of_bind (law.of_countCall _) fun _ => law.of_get (fun _ _ same => by rw [same]) ?_
  intro s
  split
  · exact law.of_pure none
  · refine law.of_bind (law.of_listing_collect request.targets) fun targets => ?_
    refine law.of_bind (law.of_listing_mapM (fun id => ?_) request.source) fun ranked =>
      law.of_bind (law.of_snapshot _ _) fun listing => law.of_pure (some listing)
    exact law.of_bind (law.of_reading _) fun record => law.of_pure _

theorem of_merge (listings : List Listing) (key : SortKey) (ascending : Bool) :
    P (Backend.Memory.merge listings key ascending) :=
  law.of_bind (law.of_countCall _) fun _ => law.of_bind (law.of_forM law.of_start listings)
    fun _ => law.of_bind (law.of_reading _) fun merged => law.of_snapshot merged false

/-! ### Operations on rows -/

theorem of_combine (operation : SetOperation) (left right : Rows) :
    P (session.engine.combine operation left right) := by
  have inMemory : P (do
      let l ← left.collect
      let r ← right.collect
      Rows.ofIds (operation.apply l r)) :=
    law.of_bind (law.of_collect left) fun _ => law.of_bind (law.of_collect right) fun _ =>
      law.of_ofIds _
  unfold Engine.combine
  split
  · exact law.of_pure _
  · refine law.of_bind ?_ fun rows => law.of_bind (law.of_countWork _) fun _ => law.of_pure rows
    cases left with
    | native left =>
      cases right with
      | native right =>
        exact law.of_bind (law.of_backend_combine operation left right) fun _ => law.of_pure _
      | empty | computed => exact inMemory
    | empty | computed => exact inMemory

theorem of_listed {x : Effect Listing} (look : P x) : P (do return Rows.native (← x)) :=
  law.of_bind look fun listing => law.of_pure (Rows.native listing)

theorem of_having (type property : String) : P (session.engine.having type property) := by
  unfold Engine.having
  split
  · exact law.of_listed (law.of_lookUp _ _ _)
  · exact law.of_listed (law.of_lookUp _ _ _)

theorem of_joinParts (parts : List Rows) : P (session.engine.joinParts parts) := by
  cases parts with
  | nil => exact law.of_pure Rows.empty
  | cons first rest => exact law.of_foldlM (fun rows part => law.of_combine _ rows part) rest first

theorem of_linkedToEach (type link : String) (targets : Rows) :
    P (session.engine.linkedToEach type link targets) :=
  law.of_foldM (fun rows _ =>
    law.of_bind (law.of_lookUp _ _ _) fun linked => law.of_combine .union rows (.native linked))
    targets .empty

theorem of_linkedToAny (type link : String) (targets : Rows) :
    P (session.engine.linkedToAny type link targets) := by
  cases targets with
  | empty => exact law.of_pure Rows.empty
  | computed stamp ids => exact law.of_linkedToEach type link (.computed stamp ids)
  | native targets =>
    refine law.of_bind (law.of_lookUp _ _ _) fun all => ?_
    refine law.of_bind (law.of_searchLinks all targets link) fun found => ?_
    cases found with
    | none => exact law.of_linkedToEach type link (.native targets)
    | some listing => exact law.of_pure (Rows.native listing)

/-! ### Sorting -/

theorem of_sortTypesWithin (levels : Nat) :
    ∀ (type property : String) (source : Option Listing) (ascending : Bool),
      P (session.engine.sortTypesWithin levels type property source ascending) := by
  induction levels with
  | zero => exact fun _ _ _ _ => law.of_throw _
  | succ levels ih =>
    intro type property source ascending
    refine law.of_bind (law.of_sortType type property source ascending) fun own => ?_
    split
    · exact law.of_pure own
    · exact law.of_bind (law.of_mapM (fun subtype => ih subtype property source ascending) _)
        fun parts => law.of_bind (law.of_countWork _) fun _ => law.of_merge _ _ _

theorem of_sortTypes (type property : String) (source : Option Listing) (ascending : Bool) :
    P (session.engine.sortTypes type property source ascending) :=
  law.of_sortTypesWithin _ type property source ascending

theorem of_sortList (ids : List EntityId) (key : SortKey) (ascending : Bool) :
    P (session.engine.sortList ids key ascending) :=
  law.of_bind (law.of_reading _) fun sorted => law.of_bind (law.of_countWork _) fun _ =>
    law.of_pure sorted

theorem of_sortListing (type property : String) (source : Listing) (ascending : Bool) :
    P (session.engine.sortListing type property source ascending) := by
  refine law.of_bind (law.of_sortTypes type property (some source) ascending) fun sorted => ?_
  refine law.of_bind (law.of_listing_size sorted) fun _ =>
    law.of_bind (law.of_listing_size source) fun _ => ?_
  split
  · exact law.of_pure (Rows.native sorted)
  · exact law.of_bind (law.of_listing_collect source) fun _ =>
      law.of_bind (law.of_listing_collect sorted) fun _ => law.of_ofIds _

theorem of_sortProperty (type property : String) (source : Option Rows) (ascending : Bool) :
    P (session.engine.sortProperty type property source ascending) := by
  unfold Engine.sortProperty
  split
  · exact law.of_listed (law.of_sortTypes type property none ascending)
  · exact law.of_pure Rows.empty
  · exact law.of_sortListing type property _ ascending
  · split
    · exact law.of_bind (law.of_sortList _ _ _) fun _ => law.of_ofIds _
    · exact law.of_bind (law.of_sortTypes type property none ascending) fun sorted =>
        law.of_bind (law.of_listing_collect sorted) fun _ => law.of_ofIds _

theorem of_sortKeyed (source : Rows) (key : SortKey) (ascending : Bool) :
    P (session.engine.sortKeyed source key ascending) := by
  unfold Engine.sortKeyed
  split
  · exact law.of_pure Rows.empty
  · exact law.of_bind (law.of_collect source) fun ids =>
      law.of_bind (law.of_sortList ids key ascending) fun _ => law.of_ofIds _

theorem of_withProperty (type property : String) :
    P (session.engine.withProperty type property) :=
  law.of_bind (law.of_lookUp _ _ _) fun own => law.of_foldlM (fun keyed _ =>
    law.of_bind (law.of_lookUp _ _ _) fun part => law.of_backend_combine .union keyed part) _ own

theorem of_sortByTargets (targetType property link : String) (far : Option Association)
    (source : Listing) (ascending : Bool) :
    P (session.engine.sortByTargets targetType property link far source ascending) := by
  refine law.of_bind (law.of_withProperty targetType property) fun keyed => ?_
  refine law.of_bind (law.of_sortTypes targetType property (some keyed) ascending) fun targets => ?_
  split
  · exact law.of_pure none
  · exact law.of_bind (law.of_orderByTargets _) fun sorted =>
      law.of_bind (law.of_countWork _) fun _ => law.of_pure sorted

theorem of_sortLinked (targetType property type link : String) (source : Rows)
    (ascending : Bool) :
    P (session.engine.sortLinked targetType property type link source ascending) := by
  unfold Engine.sortLinked
  split
  · split
    · refine law.of_bind (law.of_sortByTargets _ _ _ _ _ _) fun sorted => ?_
      cases sorted with
      | some listing => exact law.of_pure (Rows.native listing)
      | none => exact law.of_sortKeyed _ _ ascending
    · rw [pure_bind]
      exact law.of_sortKeyed _ _ ascending
  · rw [pure_bind]
    exact law.of_sortKeyed _ _ ascending

section Extent

variable {extent : Effect Rows} (whole : P extent)

include whole

theorem of_sort (type : String) (order : SortStep) (source : Option Rows) :
    P (session.engine.sort extent type order source) := by
  have start : P (source.elim extent pure) := by
    cases source with
    | none => exact whole
    | some rows => exact law.of_pure rows
  cases order with
  | property name ascending => exact law.of_sortProperty type name source ascending
  | linkedProperty targetType property link ascending =>
    exact law.of_bind start fun rows => law.of_sortLinked targetType property type link rows ascending
  | key number label key ascending =>
    exact law.of_bind start fun rows => law.of_sortKeyed rows key ascending

theorem of_sortRows (type : String) (orders : List SortStep) (rows : Rows) :
    P (session.engine.sortRows extent type orders rows) :=
  law.of_foldlM (fun rows order => law.of_sort whole type order (some rows)) orders rows

theorem of_sortExtent (type : String) (orders : List SortStep) :
    P (session.engine.sortExtent extent type orders) := by
  cases orders with
  | nil => exact whole
  | cons order orders =>
    exact law.of_bind (law.of_sort whole type order none) fun rows =>
      law.of_sortRows whole type orders rows

end Extent

/-! ### Evaluation -/

section Reports

variable (reports : ∀ notice, P (report notice))

include reports

theorem of_compareWays (link : String) (shortcut direct : List EntityId) :
    P (Engine.compareWays link shortcut direct) := by
  unfold Engine.compareWays
  split
  · exact reports _
  · split
    · exact reports _
    · exact law.of_pure ()

theorem of_traceLinks (type link : String) (source targets found : Rows) :
    P (session.engine.traceLinks type link source targets found) := by
  unfold Engine.traceLinks
  split
  · exact law.of_bind (law.of_linkedToAny type link targets) fun linked =>
      law.of_bind (law.of_combine .inter source linked) fun direct =>
        law.of_bind (law.of_collect found) fun shortcut =>
          law.of_bind (law.of_collect direct) fun ids => law.of_compareWays reports link shortcut ids
  · exact law.of_pure ()

theorem of_narrowByLinks (type link : String) (source targets : Rows) :
    P (session.engine.narrowByLinks type link source targets) := by
  have direct : P (do
      let linked ← session.engine.linkedToAny type link targets
      session.engine.combine .inter source linked) :=
    law.of_bind (law.of_linkedToAny type link targets) fun linked =>
      law.of_combine .inter source linked
  unfold Engine.narrowByLinks
  split
  · refine law.of_bind (law.of_searchLinks _ _ link) fun found => ?_
    cases found with
    | some listing =>
      exact law.of_bind (law.of_traceLinks reports type link _ _ _) fun _ => law.of_pure _
    | none => exact direct
  · rw [pure_bind]
    exact direct

section Nested

variable {nested : Engine.Nested} (within : ∀ type q, P (nested type q))

include within

theorem of_narrowByNested (type : String) (source : Rows) (link : String) (targets : Query)
    (targetType : String) :
    P (session.engine.narrowByNested nested type source link targets targetType) := by
  unfold Engine.narrowByNested
  split
  · exact law.of_pure _
  · exact law.of_bind (within targetType targets) fun rows =>
      law.of_narrowByLinks reports type link source rows

/-- A query over exactly one type. -/
theorem of_evaluateType (q : Query) (type : String) :
    P (session.engine.evaluateType nested q type) := by
  induction q with
  | root c ih => exact ih
  | all | between | startsWith | hasLink => exact law.of_listed (law.of_lookUp _ _ _)
  | linksFrom source link => exact law.of_listed (law.of_linkTargets source link)
  | equals property value =>
    cases value with
    | some value => exact law.of_listed (law.of_lookUp _ _ _)
    | none =>
      exact law.of_bind (law.of_lookUp _ _ _) fun all => law.of_bind (law.of_having type property)
        fun present => law.of_combine .diff (.native all) present
  | hasProperty property => exact law.of_having type property
  | linkedTo link target =>
    cases target with
    | some target => exact law.of_listed (law.of_lookUp _ _ _)
    | none =>
      exact law.of_bind (law.of_lookUp _ _ _) fun all => law.of_bind (law.of_lookUp _ _ _)
        fun linked => law.of_combine .diff (.native all) (.native linked)
  | linkedInto link targets targetType =>
    exact law.of_bind (within targetType targets) fun rows => law.of_linkedToAny type link rows
  | inter l r ihl ihr =>
    unfold Engine.evaluateType
    split
    · exact law.of_bind ihl fun source => law.of_narrowByNested reports within type source _ _ _
    · exact law.of_bind ihr fun source => law.of_narrowByNested reports within type source _ _ _
    · exact law.of_bind ihl fun left => law.of_bind ihr fun right => law.of_combine _ left right
  | union l r ihl ihr | concat l r ihl ihr =>
    exact law.of_bind ihl fun left => law.of_bind ihr fun right => law.of_combine _ left right
  | diff l r ihl ihr =>
    refine law.of_bind ihl fun left => ?_
    split
    · exact law.of_pure _
    · exact law.of_bind ihr fun right => law.of_combine _ left right
  | compl c ih =>
    exact law.of_bind (law.of_lookUp _ _ _) fun all => law.of_bind ih fun excluded =>
      law.of_combine _ (.native all) excluded
  | sort order c ih =>
    exact law.of_bind ih fun source => law.of_sort (within type .all) type order (some source)
  | custom leaf =>
    unfold Engine.evaluateType
    split
    · exact law.of_ofIds _
    · exact law.of_bind (law.of_lookUp _ _ _) fun all =>
        law.of_bind (law.of_listing_collect all) fun _ => law.of_ofIds _
  | slot | converter => exact law.of_throw _

theorem of_evaluateEach (q : Query) (type : String) :
    P (session.engine.evaluateEach nested q type) :=
  law.of_bind (law.of_mapM (law.of_evaluateType reports within q) _) fun parts =>
    law.of_joinParts parts

/-- A query over a type and its subtypes. -/
theorem of_evaluate (q : Query) (type : String) :
    P (session.engine.evaluate nested q type) := by
  have ways : ∀ {q : Query}, P (session.engine.evaluateApart nested q type) →
      P (session.engine.evaluate nested q type) := by
    intro q apart
    rw [Engine.evaluate_eq]
    split
    · exact law.of_evaluateType reports within q type
    split
    · exact law.of_evaluateEach reports within q type
    · exact apart
  induction q with
  | root c ih => exact ways ih
  | inter l r ihl ihr | union l r ihl ihr | concat l r ihl ihr =>
    exact ways (law.of_bind ihl fun left => law.of_bind ihr fun right =>
      law.of_combine _ left right)
  | diff l r ihl ihr =>
    refine ways (law.of_bind ihl fun left => ?_)
    split
    · exact law.of_pure _
    · exact law.of_bind ihr fun right => law.of_combine _ left right
  | compl c ih =>
    exact ways (law.of_bind (law.of_evaluateEach reports within .all type) fun all =>
      law.of_bind ih fun excluded => law.of_combine _ all excluded)
  | sort order c ih =>
    exact ways (law.of_bind ih fun source =>
      law.of_sort (within type .all) type order (some source))
  | _ => exact ways (law.of_evaluateEach reports within _ type)

theorem of_answerOptimized (type : String) (optimized : Optimized) :
    P (session.engine.answerOptimized nested type optimized) := by
  have counted : ∀ rows : Rows, P (do
      countWork .instantiation
      return rows) := fun rows => law.of_bind (law.of_countWork _) fun _ => law.of_pure rows
  unfold Engine.answerOptimized
  obtain ⟨body, orders⟩ := optimized.steps
  dsimp only
  split
  · exact law.of_bind (law.of_sortExtent (within type .all) type _) counted
  · exact law.of_bind (law.of_evaluate reports within _ type) fun rows =>
      law.of_bind (law.of_sortRows (within type .all) type _ rows) counted

end Nested

/-- Answering queries, with the queries within them. -/
theorem of_answerWithin (optimizes : ∀ q, P (session.engine.optimize q)) (levels : Nat) :
    ∀ type q, P (session.engine.answerWithin levels type q) := by
  induction levels with
  | zero => exact fun _ _ => law.of_throw _
  | succ levels ih =>
    exact fun type q => law.of_bind (optimizes q) fun optimized =>
      law.of_answerOptimized reports ih type optimized

end Reports

end Effect.Composes

end ExtentQuery

import ExtentQuery.Proofs.Evaluation.Faults

/-!
# Rows of exactly one type

A query all of whose parts look at one type at a time is evaluated for exactly one type, and then
no other entities come in, whatever the queries within it answer.  So every entity that is found
has a record, and an operation on such rows has nothing to stumble over.

* `Session.yields_combine_whole`, `Session.faultsWithin_combine` — operations on rows that do not
  end in a fault;
* `Session.Exact` — rows of exactly one type, which list their entities without a fault and
  which a store that is told to fail does not come up with, unless they are known to be empty;
* `Session.yields_evaluateType_exact` — evaluation over exactly one type makes such rows;
* `Session.faultsWithin_narrowByLinks` — narrowing such rows by links does not fault.
-/

namespace ExtentQuery

open Effect

/-- What is known to be empty decides an operation for nothing or for one of its operands. -/
theorem Engine.eq_of_shortcut {operation : SetOperation} {left right rows : Rows}
    (decided : Engine.shortcut? operation left right = some rows) :
    rows = .empty ∨ rows = left ∨ rows = right := by
  unfold Engine.shortcut? at decided
  split at decided <;> cases decided <;> simp

namespace Session

variable {session : Session} {type link : String} {left right rows source targets : Rows}
  {faults : Fault → Prop}

/-! ### Operations on rows that do not end in a fault -/

theorem yields_lookUp_whole (call : Call) (type : String) (keep : Record → Bool) :
    session.Yields (Backend.Memory.lookUp call type keep) fun listing =>
      listing.failure = none ∧ session.store.failure = none := by
  refine yields_bind_done (yields_countCall call) fun _ => ?_
  refine yields_bind (yields_reading _) fun _ checked => ?_
  have unfailing : session.store.failure = none := by
    split at checked
    case h_1 => cases checked
    case h_2 untold => exact untold
  refine yields_bind_done (yields_reading _).done fun ids => ?_
  exact (yields_snapshot_whole ids true).mono fun _ made => ⟨made.1, unfailing⟩

theorem yields_memory_combine_whole (operation : SetOperation) (left right : Listing) :
    session.Yields (Backend.Memory.combine operation left right) fun listing =>
      listing.failure = none := by
  have made : ∀ ids inIdOrder, session.Yields (Backend.Memory.snapshot ids inIdOrder)
      fun listing => listing.failure = none := fun ids inIdOrder =>
    (yields_snapshot_whole ids inIdOrder).mono fun _ made => made.1
  have l : session.Yields left.collect fun _ => True := (yields_listing_collect left).done
  have r : session.Yields right.collect fun _ => True := (yields_listing_collect right).done
  refine yields_bind_done (yields_countCall _) fun _ => ?_
  cases operation with
  | inter | diff => exact yields_bind_done r fun _ => yields_bind_done l fun _ => made _ _
  | concat => exact yields_bind_done l fun _ => yields_bind_done r fun _ => made _ _
  | union =>
    refine yields_bind_done l fun _ => yields_bind_done r fun _ => ?_
    split
    · exact made _ _
    · exact made _ _

theorem yields_combine_whole (operation : SetOperation) (wholeLeft : left.Whole)
    (wholeRight : right.Whole) :
    session.Yields (session.engine.combine operation left right) Rows.Whole := by
  have inMemory : session.Yields (do
      let l ← left.collect
      let r ← right.collect
      Rows.ofIds (operation.apply l r)) Rows.Whole :=
    yields_bind_done (yields_collect left).done fun _ =>
      yields_bind_done (yields_collect right).done fun _ => yields_ofIds_whole _
  unfold Engine.combine
  split
  case h_1 decided =>
    refine yields_pure ?_
    rcases Engine.eq_of_shortcut decided with rfl | rfl | rfl
    · trivial
    · exact wholeLeft
    · exact wholeRight
  case h_2 =>
    refine yields_bind ?_ fun rows whole => yields_bind_done (yields_countWork _) fun _ =>
      yields_pure whole
    cases left with
    | native left =>
      cases right with
      | native right =>
        exact yields_bind (yields_memory_combine_whole operation left right) fun _ whole =>
          yields_pure whole
      | empty | computed => exact inMemory
    | empty | computed => exact inMemory

theorem faultsWithin_memory_combine (operation : SetOperation) {left right : Listing}
    (wholeLeft : left.failure = none) (wholeRight : right.failure = none) :
    session.FaultsWithin faults (Backend.Memory.combine operation left right) := by
  have l : session.FaultsWithin faults left.collect := faultsWithin_listing_collect wholeLeft
  have r : session.FaultsWithin faults right.collect := faultsWithin_listing_collect wholeRight
  have yl : session.Yields left.collect (· = left.ids) := yields_listing_collect left
  have yr : session.Yields right.collect (· = right.ids) := yields_listing_collect right
  refine faultsWithin_bind (faultsWithin_countCall _) (yields_countCall _) fun _ _ => ?_
  cases operation with
  | inter | diff =>
    exact faultsWithin_bind r yr fun _ _ => faultsWithin_bind l yl fun _ _ =>
      faultsWithin_snapshot _ _
  | concat =>
    exact faultsWithin_bind l yl fun _ _ => faultsWithin_bind r yr fun _ _ =>
      faultsWithin_snapshot _ _
  | union =>
    refine faultsWithin_bind l yl fun _ _ => faultsWithin_bind r yr fun _ _ => ?_
    split
    · exact faultsWithin_snapshot _ _
    · exact faultsWithin_snapshot _ _

/-- Combining rows that do not end in a fault does not fault. -/
theorem faultsWithin_combine (operation : SetOperation) (wholeLeft : left.Whole)
    (wholeRight : right.Whole) :
    session.FaultsWithin faults (session.engine.combine operation left right) := by
  have inMemory : session.FaultsWithin faults (do
      let l ← left.collect
      let r ← right.collect
      Rows.ofIds (operation.apply l r)) :=
    faultsWithin_bind (faultsWithin_collect wholeLeft) (yields_collect left) fun _ _ =>
      faultsWithin_bind (faultsWithin_collect wholeRight) (yields_collect right) fun _ _ =>
        faultsWithin_ofIds _
  unfold Engine.combine
  split
  · exact faultsWithin_pure _
  · have counted : ∀ rows : Rows, session.FaultsWithin faults (do
        countWork .setOperation
        return rows) := fun rows =>
      faultsWithin_bind (faultsWithin_countWork _) (yields_countWork _) fun _ _ =>
        faultsWithin_pure rows
    have inMemoryDone : session.Yields (do
        let l ← left.collect
        let r ← right.collect
        Rows.ofIds (operation.apply l r)) fun _ => True :=
      yields_bind_done (yields_collect left).done fun _ =>
        yields_bind_done (yields_collect right).done fun _ => (yields_ofIds _).done
    cases left with
    | native left =>
      cases right with
      | native right =>
        refine faultsWithin_bind (P := fun _ => True) ?_ ?_ fun rows _ => counted rows
        · exact faultsWithin_bind (faultsWithin_memory_combine operation wholeLeft wholeRight)
            (yields_memory_combine operation left right) fun _ _ => faultsWithin_pure _
        · exact yields_bind_done (yields_memory_combine operation left right).done fun _ =>
            yields_pure trivial
      | empty | computed => exact faultsWithin_bind inMemory inMemoryDone fun rows _ => counted rows
    | empty | computed => exact faultsWithin_bind inMemory inMemoryDone fun rows _ => counted rows

/-- A look-up of a registered type answers, unless the store is told to fail. -/
theorem faultsWithin_lookUp (known : (session.store.typeId? type).isSome = true) (call : Call)
    (keep : Record → Bool) :
    session.FaultsWithin session.store.Told (Backend.Memory.lookUp call type keep) := by
  refine faultsWithin_bind (faultsWithin_countCall call) (yields_countCall call) fun _ _ => ?_
  refine faultsWithin_bind faultsWithin_check (yields_reading _).done fun _ _ => ?_
  exact faultsWithin_bind (faultsWithin_scan known keep) (yields_reading _).done fun _ _ =>
    faultsWithin_snapshot _ _

/-! ### Exact rows -/

/-- Whether rows list entities of exactly one type, and do so without a fault.  A store that is
told to fail finds nothing, so then only rows that are known to be empty are made. -/
structure Exact (session : Session) (type : String) (rows : Rows) : Prop where
  typed : ∀ id ∈ rows.ids, ∃ record, session.store.Has type id record
  whole : rows.Whole
  unfailing : rows = .empty ∨ session.store.failure = none

theorem exact_empty : session.Exact type .empty where
  typed _ mem := nomatch mem
  whole := trivial
  unfailing := .inl rfl

theorem yields_lookUp_exact (call : Call) (type : String) (keep : Record → Bool) :
    session.Yields (Backend.Memory.lookUp call type keep) fun listing =>
      session.Exact type (.native listing) :=
  ((yields_lookUp call type keep).and (yields_lookUp_whole call type keep)).mono
    fun _ ⟨selected, whole, unfailing⟩ =>
      { typed := fun id mem =>
          let ⟨record, has, _⟩ := (selected.mem_iff id).mp mem
          ⟨record, has⟩
        whole := whole
        unfailing := .inr unfailing }

/-- An operation on exact rows makes exact rows. -/
theorem yields_combine_exact (operation : SetOperation) (exactLeft : session.Exact type left)
    (exactRight : session.Exact type right) :
    session.Yields (session.engine.combine operation left right) (session.Exact type) := by
  by_cases failing : session.store.failure = none
  · refine ((yields_combine operation left right).and
      (yields_combine_whole operation exactLeft.whole exactRight.whole)).mono ?_
    rintro rows ⟨combines, whole⟩
    refine ⟨fun id mem => ?_, whole, .inr failing⟩
    rcases SetOperation.or_of_truth ((combines.mem_iff id).mp mem) with here | here
    · exact exactLeft.typed id (List.contains_iff_mem.mp here)
    · exact exactRight.typed id (List.contains_iff_mem.mp here)
  · obtain rfl := exactLeft.unfailing.resolve_right failing
    obtain rfl := exactRight.unfailing.resolve_right failing
    cases operation <;> exact yields_pure exact_empty

theorem yields_searchLinks_whole (source targets : Listing) (link : String) :
    session.Yields (Backend.Memory.searchLinks source targets link) fun found =>
      ∀ listing ∈ found, listing.failure = none := by
  refine yields_bind_done (yields_countCall _) fun _ => ?_
  refine yields_bind_done yields_get.done fun s => ?_
  split
  · exact yields_pure nofun
  · refine yields_bind_done (yields_listing_collect targets).done fun wanted => ?_
    have marked : session.Yields (source.mapM fun id => do
        let record ← reading (·.record id)
        return (id, (record.targets link).any wanted.contains)) fun _ => True :=
      (yields_listing_mapM (R := fun _ _ => True) source fun _ _ =>
        yields_bind_done (yields_reading _).done fun _ => yields_pure trivial).done
    refine yields_bind_done marked fun _ => ?_
    refine yields_bind (yields_snapshot_whole _ _) fun made here => yields_pure ?_
    rintro listing ⟨⟩
    exact here.1

/-- The shortcut for links keeps entities of its source, and does not fault if they exist. -/
theorem yields_searchLinks_exact {source : Listing} (exact : session.Exact type (.native source))
    (targets : Listing) (link : String) :
    session.Yields (Backend.Memory.searchLinks source targets link) fun found =>
      ∀ listing ∈ found, session.Exact type (.native listing) := by
  refine ((yields_searchLinks source targets link).and
    (yields_searchLinks_whole source targets link)).mono ?_
  rintro found ⟨shortcut, whole⟩ listing mem
  refine ⟨fun id here => ?_, whole listing mem, .inr (exact.unfailing.resolve_left nofun)⟩
  rw [Rows.ids_native, (shortcut listing mem).2] at here
  exact exact.typed id (List.mem_filter.mp here).1

theorem yields_linkedToEach_exact (type link : String) (targets : Rows) :
    session.Yields (session.engine.linkedToEach type link targets) (session.Exact type) := by
  refine yields_foldM (fun _ => session.Exact type) ?_ targets exact_empty
  intro _ rows target before
  exact yields_bind (yields_lookUp_exact _ type _) fun linked here =>
    yields_combine_exact .union before here

theorem yields_linkedToAny_exact (type link : String) (targets : Rows) :
    session.Yields (session.engine.linkedToAny type link targets) (session.Exact type) := by
  cases targets with
  | empty => exact yields_pure exact_empty
  | computed stamp ids => exact yields_linkedToEach_exact type link (.computed stamp ids)
  | native targets =>
    refine yields_bind (yields_lookUp_exact .all type _) fun all exact => ?_
    refine yields_bind (yields_searchLinks_exact exact targets link) fun found shortcut => ?_
    cases found with
    | none => exact yields_linkedToEach_exact type link (.native targets)
    | some listing => exact yields_pure (shortcut listing rfl)

theorem yields_narrowByLinks_exact (exact : session.Exact type source) (link : String)
    (targets : Rows) :
    session.Yields (session.engine.narrowByLinks type link source targets)
      (session.Exact type) := by
  have longWay : session.Yields (do
      let linked ← session.engine.linkedToAny type link targets
      session.engine.combine .inter source linked) (session.Exact type) :=
    yields_bind (yields_linkedToAny_exact type link targets) fun linked here =>
      yields_combine_exact .inter exact here
  unfold Engine.narrowByLinks
  split
  · refine yields_bind (yields_searchLinks_exact exact _ link) fun found shortcut => ?_
    cases found with
    | some listing =>
      exact yields_bind_done (yields_traceLinks _ _ _ _ _) fun _ =>
        yields_pure (shortcut listing rfl)
    | none => exact longWay
  · refine yields_bind (P := (· = none)) (yields_pure rfl) ?_
    rintro _ rfl
    exact longWay

/-! ### Evaluation over exactly one type -/

section Nested

variable {nested : Engine.Nested}

theorem yields_narrowByNested_exact (answered : session.Answered nested)
    (exact : session.Exact type source) (link : String) (targets : Query) (targetType : String) :
    session.Yields (session.engine.narrowByNested nested type source link targets targetType)
      (session.Exact type) := by
  unfold Engine.narrowByNested
  split
  · exact yields_pure exact_empty
  · exact yields_bind_done (answered targetType targets) fun rows =>
      yields_narrowByLinks_exact exact link rows

theorem yields_having_exact (type property : String) :
    session.Yields (session.engine.having type property) (session.Exact type) := by
  unfold Engine.having
  split
  · exact yields_bind (yields_lookUp_exact _ type _) fun _ exact => yields_pure exact
  · exact yields_bind (yields_lookUp_exact _ type _) fun _ exact => yields_pure exact

/-- A query all of whose parts look at one type at a time finds entities of this type only. -/
theorem yields_evaluateType_exact (answered : session.Answered nested) {q : Query}
    (typeLocal : q.typeLocal = true) (type : String) :
    session.Yields (session.engine.evaluateType nested q type) (session.Exact type) := by
  have lookedUp : ∀ call keep, session.Yields (do
      return Rows.native (← Backend.Memory.lookUp call type keep)) (session.Exact type) :=
    fun call keep => yields_bind (yields_lookUp_exact call type keep) fun _ exact =>
      yields_pure exact
  induction q with
  | root c ih => exact ih typeLocal
  | all | between | startsWith | hasLink => exact lookedUp _ _
  | equals property value =>
    cases value with
    | some value => exact lookedUp _ _
    | none =>
      exact yields_bind (yields_lookUp_exact _ type _) fun _ all =>
        yields_bind (yields_having_exact type property) fun _ present =>
          yields_combine_exact .diff all present
  | hasProperty property => exact yields_having_exact type property
  | linkedTo link target =>
    cases target with
    | some target => exact lookedUp _ _
    | none =>
      exact yields_bind (yields_lookUp_exact _ type _) fun _ all =>
        yields_bind (yields_lookUp_exact _ type _) fun _ linked =>
          yields_combine_exact .diff all linked
  | linkedInto link targets targetType =>
    exact yields_bind_done (answered targetType targets) fun rows =>
      yields_linkedToAny_exact type link rows
  | inter l r ihl ihr =>
    obtain ⟨left, right⟩ := (Bool.and_eq_true _ _).mp typeLocal
    unfold Engine.evaluateType
    split
    · exact yields_bind (ihl left) fun _ exact => yields_narrowByNested_exact answered exact _ _ _
    · exact yields_bind (ihr right) fun _ exact => yields_narrowByNested_exact answered exact _ _ _
    · exact yields_bind (ihl left) fun _ exact => yields_bind (ihr right) fun _ exact' =>
        yields_combine_exact .inter exact exact'
  | union l r ihl ihr =>
    obtain ⟨left, right⟩ := (Bool.and_eq_true _ _).mp typeLocal
    exact yields_bind (ihl left) fun _ exact => yields_bind (ihr right) fun _ exact' =>
      yields_combine_exact .union exact exact'
  | diff l r ihl ihr =>
    obtain ⟨left, right⟩ := (Bool.and_eq_true _ _).mp typeLocal
    refine yields_bind (ihl left) fun rows exact => ?_
    split
    · exact yields_pure exact_empty
    · exact yields_bind (ihr right) fun _ exact' => yields_combine_exact .diff exact exact'
  | compl c ih =>
    exact yields_bind (yields_lookUp_exact _ type _) fun _ all =>
      yields_bind (ih typeLocal) fun _ excluded => yields_combine_exact .diff all excluded
  | custom leaf =>
    have notSpanning : leaf.spansTypes = false := by simpa [Query.typeLocal] using typeLocal
    simp only [Engine.evaluateType, notSpanning, Bool.false_eq_true, if_false]
    refine yields_bind (yields_lookUp_exact _ type _) fun all exact => ?_
    refine yields_bind (yields_listing_collect all) ?_
    rintro extent rfl
    refine ((yields_ofIds _).and (yields_ofIds_whole _)).mono ?_
    rintro rows ⟨⟨ids, -⟩, whole⟩
    have unfailing : session.store.failure = none := exact.unfailing.resolve_left (by rintro ⟨⟩)
    refine ⟨fun id mem => ?_, whole, .inr unfailing⟩
    rw [ids] at mem
    exact exact.typed id (List.contains_iff_mem.mp (List.mem_filter.mp mem).2)
  | slot | converter => exact yields_throw _
  | linksFrom | concat | sort => cases typeLocal

end Nested

/-! ### Narrowing without faults -/

theorem faultsWithin_searchLinks {source targets : Listing}
    (exact : session.Exact type (.native source)) (whole : targets.failure = none)
    (link : String) :
    session.FaultsWithin faults (Backend.Memory.searchLinks source targets link) := by
  have record : ∀ id ∈ source.ids, session.FaultsWithin faults (reading (·.record id)) := by
    intro id mem
    obtain ⟨record, has⟩ := exact.typed id mem
    refine faultsWithin_reading fun fault faulted => ?_
    rw [Store.record_eq_ok.mpr has.2] at faulted
    cases faulted
  refine faultsWithin_bind (faultsWithin_countCall _) (yields_countCall _) fun _ _ => ?_
  refine faultsWithin_bind faultsWithin_get yields_get fun s _ => ?_
  split
  · exact faultsWithin_pure _
  · refine faultsWithin_bind (faultsWithin_listing_collect whole) (yields_listing_collect targets)
      fun wanted _ => ?_
    have marked : ∀ id ∈ source.ids, session.Yields (do
        let record ← reading (·.record id)
        return (id, (record.targets link).any wanted.contains)) fun _ => True := fun id _ =>
      yields_bind_done (yields_reading _).done fun _ => yields_pure trivial
    refine faultsWithin_bind (faultsWithin_listing_mapM exact.whole (fun id mem => ?_) marked)
      (yields_listing_mapM (R := fun _ _ => True) source marked) fun _ _ => ?_
    · exact faultsWithin_bind (record id mem) (yields_reading _).done fun _ _ => faultsWithin_pure _
    · exact faultsWithin_bind (faultsWithin_snapshot _ _) (yields_snapshot _ _) fun _ _ =>
        faultsWithin_pure _

variable (known : (session.store.typeId? type).isSome = true)

include known

theorem faultsWithin_linkedToEach (whole : targets.Whole) (link : String) :
    session.FaultsWithin session.store.Told (session.engine.linkedToEach type link targets) := by
  refine faultsWithin_foldM (I := session.Exact type) whole ?_ ?_ exact_empty
  · intro rows target exact
    exact faultsWithin_bind (faultsWithin_lookUp known _ _) (yields_lookUp_exact _ type _)
      fun linked here => faultsWithin_combine .union exact.whole here.whole
  · intro rows target exact
    exact yields_bind (yields_lookUp_exact _ type _) fun linked here =>
      yields_combine_exact .union exact here

theorem faultsWithin_linkedToAny (whole : targets.Whole) (link : String) :
    session.FaultsWithin session.store.Told (session.engine.linkedToAny type link targets) := by
  cases targets with
  | empty => exact faultsWithin_pure _
  | computed stamp ids => exact faultsWithin_linkedToEach known whole link
  | native targets =>
    refine faultsWithin_bind (faultsWithin_lookUp known _ _) (yields_lookUp_exact .all type _)
      fun all exact => ?_
    refine faultsWithin_bind (faultsWithin_searchLinks exact whole link)
      (yields_searchLinks_exact exact targets link) fun found _ => ?_
    cases found with
    | none => exact faultsWithin_linkedToEach known whole link
    | some listing => exact faultsWithin_pure _

theorem faultsWithin_traceLinks {found : Rows} (exact : session.Exact type source)
    (whole : targets.Whole) (wholeFound : found.Whole) (link : String) :
    session.FaultsWithin session.store.Told
      (session.engine.traceLinks type link source targets found) := by
  have compared : ∀ shortcut direct, session.FaultsWithin session.store.Told
      (Engine.compareWays link shortcut direct) := by
    intro shortcut direct
    unfold Engine.compareWays
    split
    · exact faultsWithin_report _
    · split
      · exact faultsWithin_report _
      · exact faultsWithin_pure _
  unfold Engine.traceLinks
  split
  · refine faultsWithin_bind (faultsWithin_linkedToAny known whole link)
      (yields_linkedToAny_exact type link targets) fun linked here => ?_
    refine faultsWithin_bind (faultsWithin_combine .inter exact.whole here.whole)
      (yields_combine_whole .inter exact.whole here.whole) fun direct wholeDirect => ?_
    refine faultsWithin_bind (faultsWithin_collect wholeFound) (yields_collect found) fun _ _ => ?_
    exact faultsWithin_bind (faultsWithin_collect wholeDirect) (yields_collect direct) fun _ _ =>
      compared _ _
  · exact faultsWithin_pure _

/-- Narrowing exact rows answers, unless the store is told to fail. -/
theorem faultsWithin_narrowByLinks (exact : session.Exact type source) (whole : targets.Whole)
    (link : String) :
    session.FaultsWithin session.store.Told
      (session.engine.narrowByLinks type link source targets) := by
  have longWay : session.FaultsWithin session.store.Told (do
      let linked ← session.engine.linkedToAny type link targets
      session.engine.combine .inter source linked) :=
    faultsWithin_bind (faultsWithin_linkedToAny known whole link)
      (yields_linkedToAny_exact type link targets) fun linked here =>
        faultsWithin_combine .inter exact.whole here.whole
  unfold Engine.narrowByLinks
  split
  · refine faultsWithin_bind (faultsWithin_searchLinks exact whole link)
      (yields_searchLinks_exact exact _ link) fun found shortcut => ?_
    cases found with
    | some listing =>
      exact faultsWithin_bind (faultsWithin_traceLinks known exact whole (shortcut listing rfl).whole
        link) (yields_traceLinks _ _ _ _ _) fun _ _ => faultsWithin_pure _
    | none => exact longWay
  · refine faultsWithin_bind (P := (· = none)) (faultsWithin_pure _) (yields_pure rfl) ?_
    rintro _ rfl
    exact longWay

end Session

end ExtentQuery

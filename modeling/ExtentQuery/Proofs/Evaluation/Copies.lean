import ExtentQuery.Proofs.Evaluation.Gathering

/-!
# How often a selection lists an entity

A selection may list an entity several times, if it was made of rows that do, and a filter keeps the
copies of its source.  This module says what a selection lists whichever way it is evaluated, and
how often, as long as none of its queries has concatenations.

* `Session.belongs`, `Session.copies` — what a selection lists, and how often;
* `Session.Regular` — selections of which this is known;
* `Session.obtains_selection`, `Session.obtains_collected` — a selection that is evaluated;
* `Session.promises_of_filter` — filtering a selection, whether it is spliced or not.
-/

namespace ExtentQuery

open Effect
open Interpretation (allNodes)

/-! ### Queries that are spliced -/

namespace Query

variable {outer q : Query}

theorem allNodes_andThen (property : Query → Bool) (sorts concats : Bool)
    (whole : (allNodes property sorts concats).of outer = true)
    (part : (allNodes property sorts concats).of q = true) :
    (allNodes property sorts concats).of (outer.andThen q) = true := by
  rcases andThen_cases outer q with ⟨order, rfl, spliced⟩ | ⟨rfl, spliced⟩ | spliced <;>
    rw [spliced]
  · exact (Bool.and_eq_true _ _).mpr ⟨((Bool.and_eq_true _ _).mp part).1, whole⟩
  · exact part
  · exact (Bool.and_eq_true _ _).mpr ⟨whole, part⟩

theorem orders_andThen_subset (outer q : Query) :
    (outer.andThen q).orders ⊆ outer.orders ++ q.orders := by
  rcases andThen_cases outer q with ⟨order, rfl, spliced⟩ | ⟨rfl, spliced⟩ | spliced <;>
    rw [spliced]
  · exact List.cons_subset.mpr ⟨List.mem_append_right _ (.head _), List.subset_append_left _ _⟩
  · exact List.subset_append_right _ _
  · exact List.Subset.refl _

end Query

/-- Whether the queries of a selection have no concatenations. -/
def Selection.orderly : Selection → Bool
  | rows _ => true
  | typed _ _ inner => inner.orderly
  | deferred _ _ q => q.orderly
  | filtered _ _ q source => q.orderly && source.orderly

/-! ### What is listed, and how often -/

/-- Whether rows list what belongs to them, and as many copies as there are if these are known. -/
structure Rows.Tallied (known : Prop) (belongs : EntityId → Bool) (copies : EntityId → Nat)
    (rows : Rows) : Prop where
  contains : ∀ id, rows.ids.contains id = belongs id
  truthful : rows.Truthful
  count : known → ∀ id, rows.ids.count id = copies id

namespace Rows

variable {known single : Prop} {belongs belongs' admitted : EntityId → Bool}
  {copies copies' : EntityId → Nat} {rows rows' : Rows}

theorem Tallied.of_rearranged (tallied : rows.Tallied known belongs copies)
    (rearranged : rows.Rearranged rows') : rows'.Tallied known belongs copies where
  contains id := rearranged.perm.contains_eq.trans (tallied.contains id)
  truthful := rearranged.truthful
  count isKnown id := (rearranged.perm.count_eq id).trans (tallied.count isKnown id)

theorem Tallied.congr {known' : Prop} (tallied : rows.Tallied known belongs copies)
    (fewer : known' → known) (same : ∀ id, belongs id = belongs' id)
    (same' : known' → ∀ id, copies id = copies' id) : rows.Tallied known' belongs' copies' where
  contains id := (tallied.contains id).trans (same id)
  truthful := tallied.truthful
  count isKnown id := (tallied.count (fewer isKnown) id).trans (same' isKnown id)

/-- There is no copy of what does not belong to rows. -/
theorem Tallied.copies_eq_zero {id : EntityId} (tallied : rows.Tallied known belongs copies)
    (isKnown : known) (outside : belongs id ≠ true) : copies id = 0 := by
  rw [← tallied.count isKnown id, List.count_eq_zero, ← List.contains_iff_mem, tallied.contains id]
  exact outside

/-- Rows of what is admitted list one copy of it. -/
theorem Gathered.tallied (gathered : rows.Gathered single admitted) :
    rows.Tallied single admitted fun id => if admitted id then 1 else 0 where
  contains := gathered.contains
  truthful := gathered.truthful
  count isSingle id := by
    rw [(gathered.nodup isSingle).count, ← gathered.contains id]
    exact if_congr List.contains_iff_mem.symm rfl rfl

end Rows

namespace Session

variable {session : Session} {type ancestor : String} {outer q : Query}
  {selection source left right : Selection} {rows : Rows} {waiting : List (Nat × Query)}
  {s s' : State} {nested : Engine.Nested}

/-- Whether an entity is listed by a selection. -/
def belongs (session : Session) : Selection → EntityId → Bool
  | .rows rows, id => rows.ids.contains id
  | .typed _ _ inner, id => session.belongs inner id
  | .deferred _ type q, id => session.admits type q id
  | .filtered _ type q source, id => session.belongs source id && session.admits type q id

/-- How often an entity is listed by a selection whose queries have no concatenations. -/
def copies (session : Session) : Selection → EntityId → Nat
  | .rows rows, id => rows.ids.count id
  | .typed _ _ inner, id => session.copies inner id
  | .deferred _ type q, id => if session.admits type q id then 1 else 0
  | .filtered _ type q source, id =>
    if session.admits type q id then session.copies source id else 0

/-- Whether all that a selection lists belongs to the hierarchy of a type. -/
def Confined (session : Session) (type : String) (selection : Selection) : Prop :=
  ∀ id, session.belongs selection id = true → session.inHierarchy type id = true

/-- Whether it is known what a selection lists: its queries consist of conditions and of sort steps,
and those by a property of the entities go over trees; entities are of the type that they are known
to be of; and rows that are taken to be in the order of identities are. -/
def Regular (session : Session) : Selection → Prop
  | .rows rows => rows.Truthful
  | .typed _ type inner => session.Regular inner ∧ session.Confined type inner
  | .deferred _ type q => q.selective = true ∧ session.Treelike type q.orders
  | .filtered _ type q source => (q.selective = true ∧ session.Treelike type q.orders) ∧
      session.Regular source ∧ session.Confined type source

/-- Whether rows are what a selection lists. -/
abbrev Gathers (session : Session) (selection : Selection) (rows : Rows) : Prop :=
  rows.Tallied (selection.orderly = true) (session.belongs selection) (session.copies selection)

/-- What is known to be of a type without an evaluation is of this type. -/
theorem confined_of_knownType? (regular : session.Regular selection)
    (known : selection.knownType? = some type) : session.Confined type selection := by
  cases selection with
  | rows => cases known
  | typed stamp type inner =>
    cases known
    exact regular.2
  | deferred stamp type q =>
    cases known
    exact fun _ => inHierarchy_of_admits
  | filtered stamp type q source =>
    cases known
    exact fun _ mem => inHierarchy_of_admits ((Bool.and_eq_true _ _).mp mem).2

/-! ### Evaluating a selection -/

/-- What a filter begins with is sorted, whether it is there at once or not. -/
theorem obtains_finishFilter {P : Rows → Prop} {beginning : Engine.Beginning}
    {start : Effect Rows} {steps : List SortStep}
    (begins : beginning = .now start ∨ beginning = .later start)
    (first : session.Obtains waiting start P)
    (sorts : ∀ rows, P rows →
      session.Obtains waiting (session.engine.sortRows (nested type .all) type steps rows) P) :
    session.Obtains waiting (session.engine.finishFilter nested type beginning steps) P := by
  have sorted : session.Obtains waiting
      (do
        let rows ← session.engine.sortRows (nested type .all) type steps (← start)
        countWork .instantiation
        return rows) P :=
    first.bind fun rows holds => (sorts rows holds).bind fun sorted holds =>
      obtains_counted _ holds
  rcases begins with rfl | rfl
  · exact sorted
  · cases steps with
    | cons => exact sorted
    | nil =>
      exact (obtains_of_quiet (yields_countWork _).done (quiet_countWork _)).bind
        fun _ _ => first

/-- What is kept of the rows of a source. -/
theorem obtains_filterRows {known : Prop} {f : EntityId → Bool} {copies : EntityId → Nat}
    (selective : q.selective = true) (treelike : session.Treelike type q.orders)
    (tallied : rows.Tallied known f copies) :
    session.Obtains waiting (session.engine.filterRows nested type q rows)
      (Rows.Tallied known (fun id => f id && session.admits type q id)
        fun id => if session.admits type q id then copies id else 0) := by
  refine (obtains_evaluate selective treelike).bind fun unfiltered gathered => ?_
  refine (obtains_of_quiet (yields_countWork _).done (quiet_countWork _)).bind fun _ _ => ?_
  refine obtains_of_quiet (((yields_combine .inter rows unfiltered).and
    (yields_combine_rows_truthful .inter tallied.truthful gathered.truthful)).mono ?_)
    (quiet_combine _ _ _)
  rintro kept ⟨combines, truthful⟩
  have same : ∀ id, unfiltered.ids.contains id = session.admits type q id := gathered.contains
  refine ⟨fun id => ?_, truthful, fun isKnown id => ?_⟩
  · rw [combines.contains id, same, tallied.contains id]
    rfl
  · rw [combines.ids (by decide), ← tallied.count isKnown id]
    split
    case isTrue admitted => exact List.count_filter ((same id).trans admitted)
    case isFalse left =>
      exact List.count_eq_zero.mpr fun mem => left ((same id).symm.trans (List.mem_filter.mp mem).2)

section Filtered

variable {stamp : Nat} {body : Query} {steps : List SortStep}

/-- A filter of a query that waits, answered over the narrower type. -/
theorem obtains_filtered_answer {narrower : String} {stamp' : Nat}
    (distilled : session.Distilled type q body steps)
    (regular : session.Regular (.deferred stamp' ancestor outer))
    (found : session.engine.narrowerType? ancestor type = some narrower) :
    session.Obtains waiting (session.engine.answer narrower (.inter outer body))
      (session.Gathers (.filtered stamp type q (.deferred stamp' ancestor outer))) := by
  obtain ⟨selective, treelike⟩ := regular
  obtain ⟨below, below'⟩ := Engine.isSubtype_of_narrowerType? found
  have treelike' : session.Treelike narrower (Query.inter outer body).orders :=
    treelike_append.mpr ⟨treelike.of_isSubtype below,
      (treelike_append.mp distilled.treelike).2.of_isSubtype below'⟩
  have same : ∀ id, session.admits narrower (.inter outer body) id
      = (session.admits ancestor outer id && session.admits type q id) :=
    fun id => distilled.admits id ▸ admits_of_narrowerType? found outer body id
  have both : (Query.inter outer body).selective = true :=
    (Bool.and_eq_true _ _).mpr ⟨selective, distilled.selective⟩
  refine (obtains_answer both treelike').mono fun rows gathered => ?_
  refine gathered.tallied.congr (fun orderly => ?_) same fun _ id => ?_
  · obtain ⟨part, whole⟩ := (Bool.and_eq_true _ _).mp orderly
    exact (Bool.and_eq_true _ _).mpr ⟨whole, distilled.orderly part⟩
  · rw [same id]
    simp only [copies]
    cases session.admits type q id <;> simp

/-- What a filter keeps of its source, given what the source lists. -/
theorem obtains_filtered (distilled : session.Distilled type q body steps)
    (regular : session.Regular source) (confined : session.Confined type source)
    (evaluates : session.Obtains waiting (source.evaluate session.engine)
      (session.Gathers source)) :
    session.Obtains waiting
      (session.engine.finishFilter nested type
        (session.engine.beginFilter nested type body source (source.evaluate session.engine)) steps)
      (session.Gathers (.filtered stamp type q source)) := by
  obtain ⟨above, below⟩ := treelike_append.mp distilled.treelike
  have fewer : (Selection.filtered stamp type q source).orderly = true → source.orderly = true :=
    fun orderly => ((Bool.and_eq_true _ _).mp orderly).2
  have sorts : ∀ rows, session.Gathers (.filtered stamp type q source) rows →
      session.Obtains waiting (session.engine.sortRows (nested type .all) type steps rows)
        (session.Gathers (.filtered stamp type q source)) := fun rows gathers =>
    (obtains_of_quiet (yields_sortRows_rearranged above gathers.truthful)
      (quiet_sortRows steps rows)).mono fun _ => gathers.of_rearranged
  unfold Engine.beginFilter
  split
  case isTrue whole =>
    -- nothing is left out of the source, since all of it is of the type
    have admits : ∀ id, session.belongs source id = true → session.admits type q id = true := by
      intro id mem
      rw [← distilled.admits id, whole]
      exact admits_all (confined id mem)
    refine obtains_finishFilter (.inr rfl) (evaluates.mono fun rows gathers => ?_) sorts
    refine gathers.congr fewer (fun id => ?_) fun isKnown id => ?_
    · exact (Bool.and_eq_left_iff_imp.mpr (admits id)).symm
    · simp only [copies]
      split
      case isTrue => rfl
      case isFalse left =>
        exact gathers.copies_eq_zero (fewer isKnown) fun mem => left (admits id mem)
  split
  case isTrue empty =>
    refine obtains_finishFilter (.inl rfl) (obtains_pure ?_) sorts
    cases source with
    | rows given =>
      obtain rfl := Rows.eq_empty_of_knownEmpty empty
      exact ⟨fun _ => rfl, fun _ => ascending_nil, fun _ id => (ite_self _).symm⟩
    | typed | deferred | filtered => cases empty
  case isFalse =>
    split
    case h_1 narrower joined found =>
      refine obtains_finishFilter (.inr rfl) ?_ sorts
      cases source with
      | rows | typed | filtered => cases found
      | deferred stamp' ancestor outer =>
        obtain ⟨_, narrows, same⟩ := Option.map_eq_some_iff.mp found
        cases same
        exact obtains_filtered_answer distilled regular narrows
    case h_2 =>
      refine obtains_finishFilter (.inl rfl) (evaluates.bind fun rows gathers => ?_) sorts
      refine (obtains_filterRows distilled.selective below gathers).mono fun kept tallied => ?_
      exact tallied.congr fewer (fun id => congrArg (_ && ·) (distilled.admits id))
        fun _ id => if_congr (Bool.eq_iff_iff.mp (distilled.admits id)) rfl rfl

end Filtered

/-- A selection that is evaluated lists what belongs to it, and all else goes on waiting. -/
theorem obtains_selection (regular : session.Regular selection)
    (within : selection.waiting ⊆ waiting) :
    session.Obtains waiting (selection.evaluate session.engine) (session.Gathers selection) := by
  induction selection with
  | rows rows => exact obtains_pure ⟨fun _ => rfl, regular, fun _ _ => rfl⟩
  | typed stamp type inner ih => exact ih regular.1 within
  | deferred stamp type q =>
    obtain ⟨selective, treelike⟩ := regular
    refine (obtains_optimizeOnce (Query.legible_of_selective selective)
      (within List.mem_cons_self)).bind fun optimized optimizes => ?_
    refine (obtains_answerOptimized (distilled_of_optimizes selective treelike optimizes) ?_).mono
      fun rows gathered => gathered.tallied
    exact (obtains_answerWithin _ (q := .all) rfl nofun).mono fun _ gathered =>
      gathered.congr (fun _ => rfl) fun _ => rfl
  | filtered stamp type q source ih =>
    obtain ⟨⟨selective, treelike⟩, regular, confined⟩ := regular
    refine (obtains_optimizeOnce (Query.legible_of_selective selective)
      (within List.mem_cons_self)).bind fun optimized optimizes => ?_
    exact obtains_filtered (distilled_of_optimizes selective treelike optimizes) regular confined
      (ih regular (List.Subset.trans (List.subset_cons_self _ _) within))

/-! ### Filtering a selection -/

/-- Whether a selection waits in some state, and certain entities belong to it. -/
structure Promises (session : Session) (s : State) (listed : EntityId → Bool)
    (selection : Selection) : Prop where
  regular : session.Regular selection
  belongs : ∀ id, session.belongs selection id = listed id
  awaits : ∃ waiting, session.Awaits s waiting ∧ selection.waiting ⊆ waiting

/-- Whether a filter keeps the copies of its source. -/
structure Keeps (session : Session) (type : String) (q : Query) (source selection : Selection) :
    Prop where
  orderly : q.orderly = true → source.orderly = true → selection.orderly = true
  copies : ∀ id, session.copies selection id
    = if session.admits type q id then session.copies source id else 0

/-- A filter lists what it keeps, whether it is spliced into what it filters or not. -/
theorem promises_of_filter (awaits : session.Awaits s waiting) (within : source.waiting ⊆ waiting)
    (regular : session.Regular source) (confined : session.Confined type source)
    (selective : q.selective = true) (treelike : session.Treelike type q.orders)
    (making : source.filter type q s = .ok selection s') :
    session.Promises s' (fun id => session.belongs source id && session.admits type q id)
        selection ∧
      session.Keeps type q source selection := by
  have spliced : ∀ {outer : Query}, outer.selective = true → session.Treelike type outer.orders →
      (outer.andThen q).selective = true ∧ session.Treelike type (outer.andThen q).orders :=
    fun {outer} selective' treelike' => ⟨Query.allNodes_andThen _ true true selective' selective,
      (treelike_append.mpr ⟨treelike', treelike⟩).subset (Query.orders_andThen_subset outer q)⟩
  have both : ∀ (outer : Query) (id : EntityId) (n : Nat),
      (if session.admits type (outer.andThen q) id then n else 0)
        = if session.admits type q id then (if session.admits type outer id then n else 0)
          else 0 := by
    intro outer id n
    simp only [admits_andThen, Bool.and_eq_true, ite_and]
  obtain ⟨rfl, rfl | ⟨stamp, outer, rfl, rfl⟩ | ⟨stamp, outer, inner, rfl, rfl⟩⟩ :=
    Selection.exists_of_filter making
  · refine ⟨⟨⟨⟨selective, treelike⟩, regular, confined⟩, fun _ => rfl, _, awaits.stamped q,
      List.cons_subset_cons _ within⟩, fun orderly orderly' => ?_, fun _ => rfl⟩
    exact (Bool.and_eq_true _ _).mpr ⟨orderly, orderly'⟩
  · obtain ⟨selective', treelike'⟩ := regular
    refine ⟨⟨spliced selective' treelike', fun id => ?_, _, awaits.stamped (outer.andThen q),
      List.cons_subset_cons _ (List.nil_subset _)⟩, fun orderly orderly' => ?_, fun id => ?_⟩
    · exact (admits_andThen outer q).trans (Bool.and_comm _ _)
    · exact Query.allNodes_andThen _ true false orderly' orderly
    · exact both outer id 1
  · obtain ⟨⟨selective', treelike'⟩, regular, confined⟩ := regular
    refine ⟨⟨⟨spliced selective' treelike', regular, confined⟩, fun id => ?_, _,
      awaits.stamped (outer.andThen q), List.cons_subset_cons _ fun entry mem =>
        within (.tail _ mem)⟩, fun orderly orderly' => ?_, fun id => both outer id _⟩
    · simp only [belongs]
      rw [admits_andThen, Bool.and_comm (session.admits _ q id), Bool.and_assoc]
    · obtain ⟨here, below⟩ := (Bool.and_eq_true _ _).mp orderly'
      exact (Bool.and_eq_true _ _).mpr ⟨Query.allNodes_andThen _ true false here orderly, below⟩

/-! ### What is collected -/

/-- Whether a selection lists no entity twice, and its queries have no concatenations. -/
structure Singly (session : Session) (selection : Selection) : Prop where
  orderly : selection.orderly = true
  copies : ∀ id, session.copies selection id ≤ 1

theorem singly_deferred {stamp : Nat} (orderly : q.orderly = true) :
    session.Singly (.deferred stamp type q) := by
  refine ⟨orderly, fun id => ?_⟩
  rw [copies]
  split <;> decide

/-- Whether a list has what belongs to a selection, as often as this is known. -/
structure Collected (session : Session) (selection : Selection) (ids : List EntityId) : Prop where
  mem_iff : ∀ id, id ∈ ids ↔ session.belongs selection id = true
  count : selection.orderly = true → ∀ id, ids.count id = session.copies selection id

theorem obtains_collected (regular : session.Regular selection)
    (within : selection.waiting ⊆ waiting) :
    session.Obtains waiting (do (← selection.evaluate session.engine).collect)
      (session.Collected selection) := by
  refine (obtains_selection regular within).bind fun rows gathers => ?_
  refine obtains_of_quiet ((yields_collect rows).mono ?_) rows.quiet_collect
  rintro _ rfl
  exact ⟨fun id => List.contains_iff_mem.symm.trans (Bool.eq_iff_iff.mp (gathers.contains id)),
    gathers.count⟩

namespace Collected

variable {ids : List EntityId}

theorem nodup (collected : session.Collected selection ids) (singly : session.Singly selection) :
    ids.Nodup :=
  List.nodup_iff_count_le_one.mpr fun id =>
    (collected.count singly.orderly id).trans_le (singly.copies id)

theorem singly (collected : session.Collected selection ids) (orderly : selection.orderly = true)
    (nodup : ids.Nodup) : session.Singly selection :=
  ⟨orderly, fun id => (collected.count orderly id).symm.trans_le
    (List.nodup_iff_count_le_one.mp nodup id)⟩

theorem eq_nil (collected : session.Collected selection ids)
    (none : ∀ id, session.belongs selection id = false) : ids = [] :=
  List.eq_nil_iff_forall_not_mem.mpr fun id mem =>
    Bool.eq_false_iff.mp (none id) ((collected.mem_iff id).mp mem)

end Collected

end Session

end ExtentQuery

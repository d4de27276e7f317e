import ExtentQuery.Proofs.Evaluation.Extents
import ExtentQuery.Proofs.Evaluation.Session

/-!
# What look-ups and operations list

The results of the reference backend and of the engine's operations on rows, as sets of
entities and as lists in the order of identities.

* `Rows.ids`, `Rows.Ordered` — what rows list, and rows that are known to be in the order
  of identities and are;
* `Session.yields_lookUp` — a look-up lists the entities of one type that it asks for;
* `Session.yields_combine` — an operation decides about an entity by what the operands say
  of it.

**Known to be in order.**  A listing that is known to be in the order of identities is merged
by that order.  What comes out lists the right entities even if an operand is not in
order after all, so membership and order are independent of one another.
-/

namespace ExtentQuery

/-! ### Lists and their operations -/

/-- What an operation says of an entity, from what its operands say. -/
def SetOperation.truth : SetOperation → Bool → Bool → Bool
  | inter, x, y => x && y
  | union, x, y => x || y
  | diff, x, y => x && !y
  | concat, x, y => x || y

theorem SetOperation.contains_apply (operation : SetOperation) (left right : List EntityId)
    (id : EntityId) :
    (operation.apply left right).contains id
      = operation.truth (left.contains id) (right.contains id) := by
  rw [Bool.eq_iff_iff]
  cases operation with
  | inter => simp [truth, mem_apply_inter]
  | union => simp [truth, mem_apply_union]
  | diff => simp [truth, mem_apply_diff]
  | concat => simp [truth, mem_apply_concat]

theorem SetOperation.or_of_truth {operation : SetOperation} {x y : Bool}
    (holds : operation.truth x y = true) : x = true ∨ y = true := by
  cases operation <;> cases x <;> simp_all [truth]

theorem SetOperation.contains_unionById (left right : List EntityId) (id : EntityId) :
    (unionById left right).contains id = (left.contains id || right.contains id) := by
  rw [Bool.eq_iff_iff]
  simp [mem_unionById]

/-- An intersection and a difference keep the order of the left operand. -/
theorem SetOperation.ascending_apply {operation : SetOperation}
    (restricts : operation = .inter ∨ operation = .diff) {left : List EntityId}
    (ascending : Ascending left) (right : List EntityId) :
    Ascending (operation.apply left right) := by
  rcases restricts with rfl | rfl <;> exact ascending.filter _

theorem nodup_eraseDups (ids : List EntityId) : ids.eraseDups.Nodup := by
  induction length : ids.length using Nat.strong_induction_on generalizing ids with
  | _ n ih =>
    cases ids with
    | nil => exact List.nodup_nil
    | cons id ids =>
      subst length
      rw [List.eraseDups_cons, List.nodup_cons]
      refine ⟨by simp, ih _ ?_ _ rfl⟩
      exact Nat.lt_succ_of_le (List.length_filter_le _ _)

/-- An operation other than a concatenation brings in no repetitions. -/
theorem SetOperation.nodup_apply {operation : SetOperation} (other : operation ≠ .concat)
    {left : List EntityId} (nodup : left.Nodup) (right : List EntityId) :
    (operation.apply left right).Nodup := by
  cases operation with
  | inter | diff => exact nodup.filter _
  | union => exact nodup_eraseDups _
  | concat => exact absurd rfl other

namespace Rows

/-- The entities that rows list. -/
def ids : Rows → List EntityId
  | empty => []
  | native listing => listing.ids
  | computed _ ids => ids

theorem ids_native (listing : Listing) : (native listing).ids = listing.ids :=
  rfl

/-- Whether rows are known to be in the order of identities, and are. -/
def Ordered (rows : Rows) : Prop :=
  rows.inIdOrder = true ∧ Ascending rows.ids

theorem ordered_empty : Rows.empty.Ordered :=
  ⟨rfl, ascending_nil⟩

/-- Whether rows list no entity twice, and are in the order of identities if they are known to
be. -/
structure Distinct (rows : Rows) : Prop where
  nodup : rows.ids.Nodup
  truthful : rows.inIdOrder = true → Ascending rows.ids

theorem Ordered.distinct {rows : Rows} (ordered : rows.Ordered) : rows.Distinct :=
  ⟨ordered.2.nodup, fun _ => ordered.2⟩

theorem eq_empty_of_knownEmpty {rows : Rows} (empty : rows.knownEmpty = true) :
    rows = .empty := by
  cases rows with
  | empty => rfl
  | native listing => cases empty
  | computed stamp ids => cases empty

/-- Whether rows are what an operation makes of two others: they list the right entities,
and they are in order if the operands are, unless one follows the other.  Only a union may
list them in another way than the operation on lists does. -/
structure Combines (operation : SetOperation) (left right rows : Rows) : Prop where
  contains : ∀ id, rows.ids.contains id
    = operation.truth (left.ids.contains id) (right.ids.contains id)
  ordered : operation ≠ .concat → left.Ordered → right.Ordered → rows.Ordered
  ids : operation ≠ .union → rows.ids = operation.apply left.ids right.ids
  distinct : operation ≠ .concat → left.Distinct → right.Distinct → rows.Distinct

theorem Combines.mem_iff {operation : SetOperation} {left right rows : Rows}
    (combines : Combines operation left right rows) (id : EntityId) :
    id ∈ rows.ids ↔
      operation.truth (left.ids.contains id) (right.ids.contains id) = true := by
  rw [← combines.contains id, List.contains_iff_mem]

/-- An operation in memory lists the right entities, but is not known to be in order. -/
theorem combines_of_ids {operation : SetOperation} {left right rows : Rows}
    (ids : rows.ids = operation.apply left.ids right.ids)
    (unordered : left.inIdOrder = false ∨ right.inIdOrder = false ∨ operation = .concat)
    (truthful : rows.inIdOrder = true → Ascending rows.ids) :
    Combines operation left right rows where
  contains id := by rw [ids, operation.contains_apply]
  ordered other ordered ordered' := by
    rcases unordered with no | no | same
    · exact absurd ordered.1 (by rw [no]; decide)
    · exact absurd ordered'.1 (by rw [no]; decide)
    · exact absurd same other
  ids _ := ids
  distinct other distinct _ := by
    refine ⟨?_, truthful⟩
    rw [ids]
    exact operation.nodup_apply other distinct.nodup _

/-- What is known to be empty decides an operation in the way that the operation itself
would. -/
theorem combines_of_shortcut {operation : SetOperation} {left right rows : Rows}
    (decided : Engine.shortcut? operation left right = some rows) :
    Combines operation left right rows := by
  have empty : Rows.empty.Distinct := ordered_empty.distinct
  by_cases leftEmpty : left.knownEmpty = true
  · obtain rfl := eq_empty_of_knownEmpty leftEmpty
    cases operation <;> cases right <;> cases decided <;>
      constructor <;> simp [SetOperation.truth, SetOperation.apply, Rows.ids, ordered_empty, empty]
  · by_cases rightEmpty : right.knownEmpty = true
    · obtain rfl := eq_empty_of_knownEmpty rightEmpty
      cases operation <;> cases left <;> cases decided <;>
        constructor <;> simp +contextual [SetOperation.truth, SetOperation.apply, Rows.ids,
          ordered_empty, empty]
    · simp [Engine.shortcut?, leftEmpty, rightEmpty] at decided

end Rows

namespace Session

variable {session : Session} {α : Type}

/-! ### Iterations -/

theorem yields_start (listing : Listing) : session.Yields listing.start fun _ => True := by
  unfold Listing.start
  cases listing.origin with
  | snapshot inIdOrder => exact yields_countCall _
  | view => exact yields_countCall _
  | standalone => exact yields_pure trivial

theorem yields_finish (listing : Listing) : session.Yields listing.finish fun _ => True := by
  unfold Listing.finish
  cases listing.failure with
  | none => exact yields_pure trivial
  | some fault => exact yields_throw fault

theorem yields_listing_collect (listing : Listing) :
    session.Yields listing.collect fun ids => ids = listing.ids :=
  yields_bind_done (yields_start listing) fun _ =>
    yields_bind_done (yields_finish listing) fun _ => yields_pure rfl

theorem yields_collect (rows : Rows) : session.Yields rows.collect fun ids => ids = rows.ids := by
  cases rows with
  | empty => exact yields_pure rfl
  | native listing => exact yields_listing_collect listing
  | computed stamp ids => exact yields_pure rfl

/-- What holds of the entities of some rows holds of the list that is collected. -/
theorem yields_then_collect {x : Effect Rows} {P : List EntityId → Prop}
    (holds : session.Yields x fun rows => P rows.ids) :
    session.Yields (do (← x).collect) P :=
  yields_bind holds fun rows found => (yields_collect rows).mono fun _ same => same ▸ found

theorem yields_listing_mapM {f : EntityId → Effect α} {R : EntityId → α → Prop}
    (listing : Listing) (each : ∀ id ∈ listing.ids, session.Yields (f id) (R id)) :
    session.Yields (listing.mapM f) (List.Forall₂ R listing.ids) :=
  yields_bind_done (yields_start listing) fun _ =>
    yields_bind (yields_mapM listing.ids each) fun _ results =>
      yields_bind_done (yields_finish listing) fun _ => yields_pure results

/-- An invariant of an iteration over rows. -/
theorem yields_foldM {f : α → EntityId → Effect α} (Inv : List EntityId → α → Prop)
    (each : ∀ done a id, Inv done a → session.Yields (f a id) (Inv (done ++ [id])))
    (rows : Rows) {a : α} (holds : Inv [] a) :
    session.Yields (rows.foldM f a) (Inv rows.ids) := by
  have fold : ∀ ids : List EntityId, session.Yields (ids.foldlM f a) (Inv ids) := fun ids =>
    yields_foldlM Inv ids (fun done a id _ => each done a id) holds
  cases rows with
  | empty => exact yields_pure holds
  | native listing =>
    refine yields_bind_done (yields_start listing) fun _ => ?_
    refine yields_bind (fold listing.ids) fun _ result => ?_
    exact yields_bind_done (yields_finish listing) fun _ => yields_pure result
  | computed stamp ids => exact fold ids

theorem yields_listing_size (listing : Listing) : session.Yields listing.size fun _ => True := by
  unfold Listing.size
  split
  · exact yields_pure trivial
  · exact yields_bind_done (yields_listing_collect listing).done fun _ => yields_pure trivial

theorem yields_ofIds (ids : List EntityId) :
    session.Yields (Rows.ofIds ids) fun rows =>
      rows.ids = ids ∧ (rows.inIdOrder = true → Ascending rows.ids) := by
  cases ids with
  | nil => exact yields_pure ⟨rfl, fun _ => ascending_nil⟩
  | cons id ids => exact yields_bind_done yields_freshStamp fun _ => yields_pure ⟨rfl, nofun⟩

/-! ### The reference backend -/

theorem yields_snapshot (ids : List EntityId) (inIdOrder : Bool) :
    session.Yields (Backend.Memory.snapshot ids inIdOrder) fun listing =>
      listing.ids = ids ∧ listing.inIdOrder = inIdOrder :=
  yields_bind_done yields_freshStamp fun _ => yields_pure ⟨rfl, rfl⟩

theorem yields_snapshot_whole (ids : List EntityId) (inIdOrder : Bool) :
    session.Yields (Backend.Memory.snapshot ids inIdOrder) fun listing =>
      listing.failure = none ∧ listing.ids = ids :=
  yields_bind_done yields_freshStamp fun _ => yields_pure ⟨rfl, rfl⟩

/-- Whether rows are the entities of one type that satisfy a condition, in order. -/
structure Selected (session : Session) (type : String) (keep : Record → Bool) (rows : Rows) :
    Prop where
  ordered : rows.Ordered
  mem_iff : ∀ id, id ∈ rows.ids ↔
    ∃ record, session.store.Has type id record ∧ keep record = true

theorem Selected.contains {type : String} {keep : Record → Bool} {rows : Rows}
    (selected : session.Selected type keep rows) {id : EntityId} {record : Record}
    (has : session.store.Has type id record) : rows.ids.contains id = keep record := by
  rw [Bool.eq_iff_iff, List.contains_iff_mem, selected.mem_iff]
  constructor
  · rintro ⟨record', has', kept⟩
    exact (has.unique has').2 ▸ kept
  · exact fun kept => ⟨record, has, kept⟩

/-- A look-up lists the entities of one type that satisfy its condition, in order. -/
theorem yields_lookUp (call : Call) (type : String) (keep : Record → Bool) :
    session.Yields (Backend.Memory.lookUp call type keep) fun listing =>
      session.Selected type keep (.native listing) := by
  refine yields_bind_done (yields_countCall call) fun _ => ?_
  refine yields_bind_done (yields_reading _).done fun _ => ?_
  refine yields_bind (yields_reading _) fun ids scanned => ?_
  refine (yields_snapshot ids true).mono ?_
  rintro listing ⟨rfl, ordered⟩
  exact ⟨⟨ordered, Store.ascending_scan scanned⟩, fun id => Store.mem_scan scanned⟩

theorem yields_linkTargets (source : EntityId) (link : String) :
    session.Yields (Backend.Memory.linkTargets source link) fun listing =>
      ∃ record, session.store.record? source = some record ∧
        listing.ids = record.targets link := by
  refine yields_bind (yields_reading _) fun targets found => ?_
  obtain ⟨record, here, rfl⟩ := Store.links_eq_ok.mp found
  exact (yields_snapshot _ false).mono fun listing made => ⟨record, here, made.1⟩

/-- An intersection or a difference of listings. -/
theorem yields_restriction {operation : SetOperation}
    (restricts : operation = .inter ∨ operation = .diff) (left right : Listing) :
    session.Yields
      (do
        let r ← right.collect
        let l ← left.collect
        Backend.Memory.snapshot (operation.apply l r) left.inIdOrder) fun listing =>
      Rows.Combines operation (.native left) (.native right) (.native listing) := by
  refine yields_bind (yields_listing_collect right) ?_
  rintro r rfl
  refine yields_bind (yields_listing_collect left) ?_
  rintro l rfl
  refine (yields_snapshot _ _).mono ?_
  rintro listing ⟨ids, order⟩
  constructor
  · intro id
    simp only [Rows.ids, ids, operation.contains_apply]
  · intro _ ordered _
    refine ⟨order.trans ordered.1, ?_⟩
    simp only [Rows.ids, ids]
    exact SetOperation.ascending_apply restricts ordered.2 _
  · exact fun _ => ids
  · intro other distinct _
    refine ⟨?_, fun ordered => ?_⟩ <;> simp only [Rows.ids, ids]
    · exact operation.nodup_apply other distinct.nodup _
    · exact SetOperation.ascending_apply restricts (distinct.truthful (order.symm.trans ordered)) _

theorem yields_memory_combine (operation : SetOperation) (left right : Listing) :
    session.Yields (Backend.Memory.combine operation left right) fun listing =>
      Rows.Combines operation (.native left) (.native right) (.native listing) := by
  refine yields_bind_done (yields_countCall _) fun _ => ?_
  cases operation with
  | inter => exact yields_restriction (.inl rfl) left right
  | diff => exact yields_restriction (.inr rfl) left right
  | union =>
    refine yields_bind (yields_listing_collect left) ?_
    rintro l rfl
    refine yields_bind (yields_listing_collect right) ?_
    rintro r rfl
    -- merging is for listings in order; whatever else comes, the left one goes first
    cases both : left.inIdOrder && right.inIdOrder with
    | true =>
      refine (yields_snapshot _ _).mono ?_
      rintro listing ⟨ids, order⟩
      constructor
      · intro id
        simp only [Rows.ids, ids, SetOperation.contains_unionById, SetOperation.truth]
      · intro _ ordered ordered'
        refine ⟨order, ?_⟩
        simp only [Rows.ids, ids]
        exact SetOperation.ascending_unionById ordered.2 ordered'.2
      · exact fun other => absurd rfl other
      · intro _ distinct distinct'
        obtain ⟨known, known'⟩ := (Bool.and_eq_true _ _).mp both
        refine Rows.Ordered.distinct ⟨order, ?_⟩
        simp only [Rows.ids, ids]
        exact SetOperation.ascending_unionById (distinct.truthful known) (distinct'.truthful known')
    | false =>
      refine (yields_snapshot _ _).mono ?_
      rintro listing ⟨ids, order⟩
      refine Rows.combines_of_ids ids ?_ fun known => absurd (known.symm.trans order) (by decide)
      rcases Bool.and_eq_false_iff.mp both with no | no
      · exact .inl no
      · exact .inr (.inl no)
  | concat =>
    refine yields_bind (yields_listing_collect left) ?_
    rintro l rfl
    refine yields_bind (yields_listing_collect right) ?_
    rintro r rfl
    refine (yields_snapshot _ _).mono ?_
    rintro listing ⟨ids, order⟩
    exact Rows.combines_of_ids ids (.inr (.inr rfl))
      fun known => absurd (known.symm.trans order) (by decide)

/-- A set operation of the engine, whichever way it is computed. -/
theorem yields_combine (operation : SetOperation) (left right : Rows) :
    session.Yields (session.engine.combine operation left right)
      (Rows.Combines operation left right) := by
  have inMemory : left.inIdOrder = false ∨ right.inIdOrder = false → session.Yields
      (do
        let l ← left.collect
        let r ← right.collect
        Rows.ofIds (operation.apply l r)) (Rows.Combines operation left right) := by
    intro unordered
    refine yields_bind (yields_collect left) ?_
    rintro l rfl
    refine yields_bind (yields_collect right) ?_
    rintro r rfl
    exact (yields_ofIds _).mono fun rows ⟨ids, truthful⟩ =>
      Rows.combines_of_ids ids (unordered.imp_right .inl) truthful
  unfold Engine.combine
  cases decided : Engine.shortcut? operation left right with
  | some rows => exact yields_pure (Rows.combines_of_shortcut decided)
  | none =>
    refine yields_bind ?_ fun rows holds =>
      yields_bind_done (yields_countWork _) fun _ => yields_pure holds
    -- empty rows are decided by the shortcut, and only two listings go to the backend
    cases left with
    | empty => cases operation <;> cases right <;> cases decided
    | computed stamp ids => exact inMemory (.inl rfl)
    | native left =>
      cases right with
      | empty => cases operation <;> cases decided
      | computed stamp ids => exact inMemory (.inr rfl)
      | native right =>
        exact yields_bind (yields_memory_combine operation left right) fun listing holds =>
          yields_pure holds

/-- The difference of two selections of one type. -/
theorem Selected.diff {type : String} {keep drop : Record → Bool} {left right rows : Rows}
    (kept : session.Selected type keep left) (dropped : session.Selected type drop right)
    (combines : Rows.Combines .diff left right rows) :
    session.Selected type (fun record => keep record && !drop record) rows where
  ordered := combines.ordered (by decide) kept.ordered dropped.ordered
  mem_iff id := by
    rw [combines.mem_iff, SetOperation.truth, Bool.and_eq_true, List.contains_iff_mem, kept.mem_iff]
    constructor
    · rintro ⟨⟨record, has, keeps⟩, out⟩
      rw [dropped.contains has] at out
      exact ⟨record, has, (Bool.and_eq_true _ _).mpr ⟨keeps, out⟩⟩
    · rintro ⟨record, has, both⟩
      obtain ⟨keeps, out⟩ := (Bool.and_eq_true _ _).mp both
      rw [dropped.contains has]
      exact ⟨⟨record, has, keeps⟩, out⟩

end Session

end ExtentQuery

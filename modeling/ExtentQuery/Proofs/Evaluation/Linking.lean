import ExtentQuery.Proofs.Evaluation.Operations

/-!
# Entities with a link into given ones

A backend may know a shortcut that finds the entities with a link to any of some targets;
without it, the engine looks up what is linked to each target and unites the results.  Both
ways select the same entities, and keep the order of identities.

* `Store.linksInto` — what is selected;
* `Session.yields_linkedToAny` — from the whole extent of a type;
* `Session.yields_narrowByLinks` — from given rows of a type.
-/

namespace ExtentQuery

open Effect

/-- Whether an entity has a link to any of some targets. -/
def Store.linksInto (store : Store) (link : String) (targets : List EntityId)
    (id : EntityId) : Bool :=
  (store.record? id).any fun record => (record.targets link).any targets.contains

theorem Store.Has.linksInto {store : Store} {type : String} {id : EntityId} {record : Record}
    (here : store.Has type id record) (link : String) (targets : List EntityId) :
    store.linksInto link targets id = (record.targets link).any targets.contains := by
  rw [Store.linksInto, here.2, Option.any_some]

/-- Marking the entities of a list and keeping the marked ones is filtering. -/
theorem filter_of_marked {keep : EntityId → Bool} {ids : List EntityId}
    {marked : List (EntityId × Bool)}
    (marks : List.Forall₂ (fun id entry => entry = (id, keep id)) ids marked) :
    (marked.filter (·.2)).map (·.1) = ids.filter keep := by
  induction marks with
  | nil => rfl
  | @cons id entry ids marked mark _ ih =>
    subst mark
    cases kept : keep id <;> simp [kept, ih]

namespace Session

variable {session : Session}

/-! ### The two ways -/

/-- The shortcut keeps the entities with a link to any of the targets, in the order of the
source. -/
theorem yields_searchLinks (source targets : Listing) (link : String) :
    session.Yields (Backend.Memory.searchLinks source targets link) fun found =>
      ∀ listing, found = some listing → listing.inIdOrder = source.inIdOrder ∧
        listing.ids = source.ids.filter (session.store.linksInto link targets.ids) := by
  refine yields_bind_done (yields_countCall _) fun _ => ?_
  refine yields_bind_done yields_get.done fun s => ?_
  cases s.store.searchesLinks with
  | false => exact yields_pure fun _ none => nomatch none
  | true =>
    refine yields_bind (yields_listing_collect targets) ?_
    rintro wanted rfl
    have marks : ∀ id ∈ source.ids, session.Yields
        (do
          let record ← reading (·.record id)
          return (id, (record.targets link).any targets.ids.contains))
        fun entry => entry = (id, session.store.linksInto link targets.ids id) := by
      intro id _
      refine yields_bind (yields_reading _) fun record found => yields_pure ?_
      simp only [Store.linksInto, Store.record_eq_ok.mp found, Option.any_some]
    refine yields_bind (yields_listing_mapM source marks) fun marked marks => ?_
    refine yields_bind (yields_snapshot _ _) ?_
    rintro listing ⟨ids, order⟩
    refine yields_pure ?_
    rintro _ ⟨⟩
    exact ⟨order, ids.trans (filter_of_marked marks)⟩

/-- Whether rows are the entities of a type with a link to any of some targets. -/
abbrev Linked (session : Session) (type link : String) (targets : List EntityId) :
    Rows → Prop :=
  session.Selected type fun record => (record.targets link).any targets.contains

theorem linked_empty (type link : String) : session.Linked type link [] .empty where
  ordered := Rows.ordered_empty
  mem_iff id := by simp [Rows.ids]

/-- Uniting with what is linked to one more target. -/
theorem Selected.addTarget {type link : String} {done : List EntityId} {target : EntityId}
    {rows linked united : Rows} (before : session.Linked type link done rows)
    (here : session.Selected type (fun record => (record.targets link).contains target) linked)
    (combines : Rows.Combines .union rows linked united) :
    session.Linked type link (done ++ [target]) united where
  ordered := combines.ordered (by decide) before.ordered here.ordered
  mem_iff id := by
    have split : ∀ record : Record, (record.targets link).any (done ++ [target]).contains = true ↔
        (record.targets link).any done.contains = true ∨
          (record.targets link).contains target = true := by
      intro record
      simp only [List.any_eq_true, List.contains_iff_mem, List.mem_append, List.mem_singleton]
      constructor
      · rintro ⟨id, linked, mem | rfl⟩
        · exact .inl ⟨id, linked, mem⟩
        · exact .inr linked
      · rintro (⟨id, linked, mem⟩ | linked)
        · exact ⟨id, linked, .inl mem⟩
        · exact ⟨target, linked, .inr rfl⟩
    rw [combines.mem_iff, SetOperation.truth, Bool.or_eq_true, List.contains_iff_mem,
      List.contains_iff_mem, before.mem_iff, here.mem_iff]
    simp only [split, and_or_left, exists_or]

theorem yields_linkedToEach (type link : String) (targets : Rows) :
    session.Yields (session.engine.linkedToEach type link targets)
      (session.Linked type link targets.ids) := by
  refine yields_foldM (session.Linked type link) ?_ targets (linked_empty type link)
  intro done rows target before
  refine yields_bind (yields_lookUp .filter type _) fun linked here => ?_
  exact (yields_combine .union rows (.native linked)).mono fun united combines =>
    before.addTarget here combines

/-- The entities of a type with a link to any of some entities, whichever way they are
found. -/
theorem yields_linkedToAny (type link : String) (targets : Rows) :
    session.Yields (session.engine.linkedToAny type link targets)
      (session.Linked type link targets.ids) := by
  cases targets with
  | empty => exact yields_pure (linked_empty type link)
  | computed stamp ids => exact yields_linkedToEach type link (.computed stamp ids)
  | native targets =>
    refine yields_bind (yields_lookUp .all type _) fun all extent => ?_
    refine yields_bind (yields_searchLinks all targets link) fun found shortcut => ?_
    cases found with
    -- the backend does not know the shortcut
    | none => exact yields_linkedToEach type link (.native targets)
    | some listing =>
      obtain ⟨order, ids⟩ := shortcut listing rfl
      refine yields_pure ⟨⟨order.trans extent.ordered.1, ?_⟩, fun id => ?_⟩
      · rw [Rows.ids_native, ids]
        exact extent.ordered.2.filter _
      · rw [Rows.ids_native, ids, List.mem_filter, ← Rows.ids_native all, extent.mem_iff]
        constructor
        · rintro ⟨⟨record, has, -⟩, linked⟩
          exact ⟨record, has, has.linksInto link targets.ids ▸ linked⟩
        · rintro ⟨record, has, linked⟩
          exact ⟨⟨record, has, rfl⟩, (has.linksInto link targets.ids).symm ▸ linked⟩

/-! ### Narrowing -/

theorem yields_compareWays (link : String) (shortcut direct : List EntityId) :
    session.Yields (Engine.compareWays link shortcut direct) fun _ => True := by
  unfold Engine.compareWays
  split
  · exact yields_report _
  · split
    · exact yields_report _
    · exact yields_pure trivial

theorem yields_traceLinks (type link : String) (source targets found : Rows) :
    session.Yields (session.engine.traceLinks type link source targets found)
      fun _ => True := by
  unfold Engine.traceLinks
  split
  · refine yields_bind_done (yields_linkedToAny type link targets).done fun linked => ?_
    refine yields_bind_done (yields_combine .inter source linked).done fun direct => ?_
    refine yields_bind_done (yields_collect found).done fun shortcut => ?_
    exact yields_bind_done (yields_collect direct).done fun _ => yields_compareWays _ _ _
  · exact yields_pure trivial

/-- Whether rows are those of a source with a link to any of some targets.  The long way
finds only entities of one type, so this is about sources of this type. -/
structure Narrowed (session : Session) (type link : String) (targets : List EntityId)
    (source rows : Rows) : Prop where
  ordered : source.Ordered → rows.Ordered
  mem_iff : ∀ id, (id ∈ source.ids → ∃ record, session.store.Has type id record) →
    (id ∈ rows.ids ↔ id ∈ source.ids ∧ session.store.linksInto link targets id = true)

theorem narrowed_of_filter (type : String) {link : String} {targets : List EntityId}
    {source : Rows} {listing : Listing} (order : listing.inIdOrder = source.inIdOrder)
    (ids : listing.ids = source.ids.filter (session.store.linksInto link targets)) :
    session.Narrowed type link targets source (.native listing) where
  ordered ordered := by
    refine ⟨order.trans ordered.1, ?_⟩
    simp only [Rows.ids, ids]
    exact ordered.2.filter _
  mem_iff id _ := by simp only [Rows.ids, ids, List.mem_filter]

theorem narrowed_of_combines {type link : String} {targets : List EntityId}
    {source linked rows : Rows} (here : session.Linked type link targets linked)
    (combines : Rows.Combines .inter source linked rows) :
    session.Narrowed type link targets source rows where
  ordered ordered := combines.ordered (by decide) ordered here.ordered
  mem_iff id typed := by
    rw [combines.mem_iff, SetOperation.truth, Bool.and_eq_true, List.contains_iff_mem,
      List.contains_iff_mem, here.mem_iff]
    refine and_congr_right fun mem => ?_
    obtain ⟨record, has⟩ := typed mem
    rw [has.linksInto]
    constructor
    · rintro ⟨record', has', linked⟩
      exact (has.unique has').2 ▸ linked
    · exact fun linked => ⟨record, has, linked⟩

/-- The rows with a link to any of some entities, whichever way they are found. -/
theorem yields_narrowByLinks (type link : String) (source targets : Rows) :
    session.Yields (session.engine.narrowByLinks type link source targets)
      (session.Narrowed type link targets.ids source) := by
  have longWay : session.Yields
      (do
        let linked ← session.engine.linkedToAny type link targets
        session.engine.combine .inter source linked)
      (session.Narrowed type link targets.ids source) :=
    yields_bind (yields_linkedToAny type link targets) fun linked here =>
      (yields_combine .inter source linked).mono fun rows => narrowed_of_combines here
  unfold Engine.narrowByLinks
  split
  · rename_i s t
    refine yields_bind (yields_searchLinks s t link) fun found shortcut => ?_
    cases found with
    | some listing =>
      obtain ⟨order, ids⟩ := shortcut listing rfl
      exact yields_bind_done (yields_traceLinks _ _ _ _ _) fun _ =>
        yields_pure (narrowed_of_filter type order ids)
    | none => exact longWay
  -- without two listings, the shortcut is not asked
  · refine yields_bind (P := (· = none)) (yields_pure rfl) ?_
    rintro _ rfl
    exact longWay

end Session

end ExtentQuery

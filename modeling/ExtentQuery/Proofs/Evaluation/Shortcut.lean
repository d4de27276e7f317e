import ExtentQuery.Proofs.Evaluation.Concurrence

/-!
# The shortcut for links agrees with the direct computation

An intersection with what is linked into other entities is computed by filtering the other operand
through the set of targets, if the backend knows how to.  Computed directly, it is the other
operand restricted to the entities that are looked up for one target after the other.

* `Store.linkedTo` — the entities that are looked up for one target;
* `Session.narrowed_agrees` — the intersection is the restriction, entry by entry, and no
  disagreement of the two ways is ever reported.

**Targets.**  Nothing is asked of the targets: they may repeat, they may be of any type or not
exist, and there may be none.
-/

namespace ExtentQuery

open Effect

namespace Store

variable {store : Store} {type link : String} {id target : EntityId} {record : Record}

/-- The entities of exactly one type with a link to a target. -/
def linkedTo (store : Store) (type link : String) (target : EntityId) : List EntityId :=
  (store.scan type fun record => (record.targets link).contains target).toOption.getD []

theorem mem_linkedTo (has : store.Has type id record) :
    id ∈ store.linkedTo type link target ↔ target ∈ record.targets link := by
  cases scanned : store.scan type fun record => (record.targets link).contains target with
  | error fault =>
    simp only [scan, typeId, has.1, bind, Except.bind, pure, Except.pure] at scanned
    cases scanned
  | ok ids =>
    have listed : store.linkedTo type link target = ids := by
      rw [linkedTo, scanned]
      rfl
    rw [listed, mem_scan scanned]
    constructor
    · rintro ⟨record', has', linked⟩
      rw [(has.unique has').2]
      exact List.contains_iff_mem.mp linked
    · exact fun linked => ⟨record, has, List.contains_iff_mem.mpr linked⟩

/-- An entity has a link to any of some targets if it is looked up for one of them. -/
theorem linksInto_eq_any (has : store.Has type id record) (targets : List EntityId) :
    store.linksInto link targets id
      = targets.any fun target => (store.linkedTo type link target).contains id := by
  rw [has.linksInto, Bool.eq_iff_iff]
  simp only [List.any_eq_true, List.contains_iff_mem, mem_linkedTo has]
  exact exists_congr fun _ => And.comm

end Store

namespace Session

variable {session : Session} {type : String} {other : Query}

/-- The backend looks these entities up, unless it is told to fail. -/
theorem yields_linkedTo (type link : String) (target : EntityId) :
    session.Yields (session.engine.backend.linkedTo type link target) fun listing =>
      listing.ids = session.store.linkedTo type link target := by
  refine yields_bind_done (yields_countCall _) fun _ => ?_
  refine yields_bind_done (yields_reading _).done fun _ => ?_
  refine yields_bind (yields_reading _) fun ids scanned => ?_
  refine (yields_snapshot ids true).mono fun listing made => ?_
  rw [made.1, Store.linkedTo, scanned]
  rfl

/-- Narrowing exact rows by what is linked into other ones. -/
theorem collects_narrowByLinks {source decorated : Rows} {s : State}
    (known : (session.store.typeId? type).isSome = true) (reached : session.Reaches s)
    (exact : session.Exact type source) (unfailing : session.store.failure = none)
    (whole : decorated.Whole) (link : String) :
    (session.engine.narrowByLinks type link source decorated).Collects s
      (source.ids.filter fun id =>
        decorated.ids.any fun target => (session.store.linkedTo type link target).contains id) := by
  have narrowed := yields_narrowByLinks_ids exact link decorated
  have within := faultsWithin_then_collect (faultsWithin_narrowByLinks known exact whole link)
    ((yields_narrowByLinks_exact exact link decorated).mono fun _ exact => exact.whole)
  rcases within.exists_or (yields_then_collect (P := (· = _)) narrowed) reached with
    ⟨ids, s', ran, rfl⟩ | ⟨fault, -, -, told⟩
  · refine ⟨s', ran.trans (congrArg (EStateM.Result.ok · s') (List.filter_congr fun id mem => ?_))⟩
    obtain ⟨record, has⟩ := exact.typed id mem
    exact Store.linksInto_eq_any has decorated.ids
  · exact absurd told (Store.not_told unfailing fault)

/-- **The shortcut for links agrees with the direct computation.**  An engine narrows a query
all of whose parts look at one type at a time by what is linked into the answer of another query,
whatever this one is.  It never reports a disagreement, also if a computation faults.  If the
first query is evaluated and the second one is answered and lists its entities, then the entities
that are listed are those of the first query that are looked up for one of these targets, entry by
entry. -/
theorem narrowed_agrees (typeLocal : other.typeLocal = true)
    (known : (session.store.typeId? type).isSome = true) (link : String) (targets : Query)
    (targetType : String) {s : State} (reached : session.Reaches s) :
    let narrowed := session.engine.narrowByQuery session.engine.answer type other
      (.linkedInto link targets targetType)
    Notices.Concurring s.notices (final narrowed s).notices ∧
      ∀ ⦃source s₁ decorated s₂ targetIds s₃⦄,
        session.engine.evaluateType session.engine.answer other type s = .ok source s₁ →
        session.engine.answer targetType targets s₁ = .ok decorated s₂ →
        decorated.collect s₂ = .ok targetIds s₃ →
        narrowed.Collects s (source.ids.filter fun id =>
          targetIds.any fun target => (session.store.linkedTo type link target).contains id) := by
  have evaluated : session.Yields
      (session.engine.evaluateType session.engine.answer other type) (session.Exact type) :=
    yields_evaluateType_exact answered_answer typeLocal type
  constructor
  · have concurs := (concurs_evaluateType concurs_answer answered_answer (.inl typeLocal) type).bind
      evaluated fun source exact =>
        concurs_narrowByNested concurs_answer answered_answer exact link targets targetType
    exact concurs s reached
  · intro source s₁ decorated s₂ targetIds s₃ selected answering listing
    obtain ⟨reached₁, exact⟩ := evaluated reached selected
    have reached₂ := (answered_answer targetType targets reached₁ answering).1
    obtain ⟨whole, rfl⟩ := whole_of_collect listing
    -- what comes after the evaluation of the first query
    suffices narrowing : (session.engine.narrowByNested session.engine.answer type source link
        targets targetType).Collects s₁ (source.ids.filter fun id =>
          decorated.ids.any fun target => (session.store.linkedTo type link target).contains id) by
      exact .bind selected narrowing
    unfold Engine.narrowByNested
    by_cases empty : source.knownEmpty = true
    · obtain rfl := Rows.eq_empty_of_knownEmpty empty
      exact ⟨s₁, rfl⟩
    · have unfailing : session.store.failure = none :=
        exact.unfailing.resolve_left fun none => empty (by rw [none]; rfl)
      rw [if_neg empty]
      exact .bind answering (collects_narrowByLinks known reached₂ exact unfailing whole link)

/-- Three cats, two of them owned by an animal that likes one of them, itself, and this cat
again.  The engine compares both ways. -/
def kennel : Session where
  metadata := animals.metadata
  settings := { Settings.default with comparesShortcut := true }
  start := .initial
    { tables :=
        #[⟨"animal", #[⟨[], [], [("likes", [⟨1, 0⟩, ⟨0, 0⟩, ⟨1, 0⟩])]⟩, .empty]⟩,
          ⟨"cat", #[⟨[("name", .text "Tom")], [], [("owner", [⟨0, 0⟩])]⟩,
            ⟨[], [], [("owner", [⟨0, 0⟩])]⟩,
            ⟨[("name", .text "Kit")], [], [("owner", [⟨0, 1⟩])]⟩]⟩]
      failure := none
      searchesLinks := true
      ordersByTargets := true }
    (.create 16 false 1)

end Session

/-- What has a name and an owner. -/
def Query.owned : Query :=
  .inter (.hasProperty "name") (.linkedInto "owner" .all "animal")

/-- What the first animal likes. -/
def Query.liked : Query :=
  .linksFrom ⟨0, 0⟩ "likes"

set_option maxRecDepth 100000 in
/-- The cats with a name and an owner are found by the shortcut already, and one of the two is
owned by something that is liked, which is listed with a repetition and with a cat. -/
theorem Session.narrowed_agrees_kennel :
    kennel.settings.comparesShortcut = true ∧ kennel.store.searchesLinks = true ∧
      Query.owned.typeLocal = true ∧ (kennel.store.typeId? "cat").isSome = true ∧
      (∃ source s₁ listing s₂ s₃,
        kennel.engine.evaluateType kennel.engine.answer .owned "cat" kennel.start = .ok source s₁ ∧
        source.ids = [⟨1, 0⟩, ⟨1, 2⟩] ∧
        kennel.engine.answer "animal" .liked s₁ = .ok (.native listing) s₂ ∧
        (Rows.native listing).collect s₂ = .ok [⟨1, 0⟩, ⟨0, 0⟩, ⟨1, 0⟩] s₃) ∧
      let narrowed := kennel.engine.narrowByQuery kennel.engine.answer "cat" .owned
        (.linkedInto "owner" .liked "animal")
      narrowed.Collects kennel.start [⟨1, 0⟩] ∧
        Notices.Concurring kennel.start.notices (final narrowed kennel.start).notices := by
  have ran : EStateM.run' (do
      let source ← kennel.engine.evaluateType kennel.engine.answer .owned "cat"
      let decorated ← kennel.engine.answer "animal" .liked
      let targets ← decorated.collect
      return (source, decorated, targets)) kennel.start
        = some (.native ⟨4, .snapshot true, [⟨1, 0⟩, ⟨1, 2⟩], none, 2⟩,
          .native ⟨8, .snapshot false, [⟨1, 0⟩, ⟨0, 0⟩, ⟨1, 0⟩], none, 3⟩,
          [⟨1, 0⟩, ⟨0, 0⟩, ⟨1, 0⟩]) := by decide +kernel
  obtain ⟨_, ran⟩ := Effect.exists_of_run' ran
  obtain ⟨source, s₁, selected, ran⟩ := Effect.exists_of_bind ran
  obtain ⟨decorated, s₂, answering, ran⟩ := Effect.exists_of_bind ran
  obtain ⟨targets, s₃, listed, ran⟩ := Effect.exists_of_bind ran
  cases ran
  have known : (kennel.store.typeId? "cat").isSome = true := by decide +kernel
  obtain ⟨concurring, collects⟩ := narrowed_agrees (rfl : Query.owned.typeLocal = true) known
    "owner" .liked "animal" reaches_start
  have kept : ([⟨1, 0⟩, ⟨1, 2⟩] : List EntityId).filter (fun id =>
      [⟨1, 0⟩, ⟨0, 0⟩, ⟨1, 0⟩].any fun target =>
        (kennel.store.linkedTo "cat" "owner" target).contains id) = [⟨1, 0⟩] := by decide +kernel
  refine ⟨rfl, rfl, rfl, known, ⟨_, s₁, _, s₂, _, selected, rfl, answering, listed⟩, ?_, concurring⟩
  rw [← kept]
  exact collects selected answering listed

end ExtentQuery

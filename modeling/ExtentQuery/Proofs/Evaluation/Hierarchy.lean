import ExtentQuery.Proofs.Evaluation.Meaning
import Mathlib

/-!
# Evaluation over a hierarchy finds what the query means

The evaluation of a query chooses between three ways (`Engine.evaluate_eq`): at once, if every
part ranges over all types; type by type, if every part looks at one type at a time; and
otherwise operand by operand.  This module shows for each way that the rows hold exactly
the entities that the query finds (`Session.Finds`).

* `Session.yields_evaluateType_spanning` — the first way: the type does not matter;
* `Session.Part`, `Session.yields_evaluateType_part` — what is found for one type is in order
  and of this type only;
* `Session.yields_evaluateEach_finds` — the second way: the parts are put together;
* `Session.yields_evaluate_finds` — all three ways;
* `Session.evaluate_finds` — the result for an engine that answers the queries within a
  query itself.

**Why the parts do not mix.**  A part holds only entities of its own type, and an entity has one
type.  So of all parts only that of its own type decides about an entity, and a part for
another type can neither add it nor take it away.
-/

namespace ExtentQuery

open Effect

/-- A query without concatenations and without leaves for the targets of a link, which
list entities in an order of their own. -/
def Query.keepsOrder : Query → Bool
  | linksFrom .. => false
  | concat .. => false
  | root c => c.keepsOrder
  | compl c => c.keepsOrder
  | sort _ c => c.keepsOrder
  | inter l r => l.keepsOrder && r.keepsOrder
  | union l r => l.keepsOrder && r.keepsOrder
  | diff l r => l.keepsOrder && r.keepsOrder
  | _ => true

/-- A query keeps the order if its leaves do and it has no concatenations. -/
theorem Query.allNodes_keepsOrder (q : Query) :
    (Interpretation.allNodes keepsOrder true false).of q = q.keepsOrder := by
  induction q with
  | root c ih | compl c ih | sort order c ih => exact ih
  | inter l r ihl ihr | union l r ihl ihr | diff l r ihl ihr => exact congrArg₂ and ihl ihr
  | _ => rfl

/-- A query looks at one type at a time if its leaves do and it has neither sort steps nor
concatenations. -/
theorem Query.allNodes_typeLocal (q : Query) :
    (Interpretation.allNodes typeLocal false false).of q = q.typeLocal := by
  induction q with
  | root c ih | compl c ih => exact ih
  | inter l r ihl ihr | union l r ihl ihr | diff l r ihl ihr => exact congrArg₂ and ihl ihr
  | _ => rfl

theorem Query.typeLocal_of_keepsOrder {q : Query} (plain : q.plain = true)
    (keepsOrder : q.keepsOrder = true) : q.typeLocal = true := by
  rw [Query.plain, ← Interpretation.allNodes_true] at plain
  rw [← allNodes_keepsOrder] at keepsOrder
  rw [← allNodes_typeLocal]
  refine Interpretation.allNodes_of_both (fun leaf isLeaf plain keepsOrder => ?_)
    (fun unsorted _ => unsorted) (fun _ unjoined => unjoined) plain keepsOrder
  cases leaf with
  | linksFrom => cases keepsOrder
  | custom => cases plain
  | root | inter | union | diff | concat | compl | sort => cases isLeaf
  | _ => rfl

/-- A query none of whose leaves ranges over all types does not do so either. -/
theorem Query.spansTypes_of_allLeaves {q : Query}
    (leaves : (Interpretation.allLeaves (fun leaf => !leaf.spansTypes) true).of q = true) :
    q.spansTypes = false := by
  induction q with
  | compl c => rfl
  | root c ih | sort order c ih => exact ih leaves
  | inter l r ihl | union l r ihl | diff l r ihl | concat l r ihl =>
    rw [spansTypes, ihl ((Bool.and_eq_true _ _).mp leaves).1, Bool.false_and]
  | _ => exact (Bool.not_eq_true' _).mp leaves

/-- A query that looks at one type at a time does not range over all types. -/
theorem Query.spansTypes_of_typeLocal {q : Query} (typeLocal : q.typeLocal = true) :
    q.spansTypes = false := by
  rw [← allNodes_typeLocal] at typeLocal
  refine spansTypes_of_allLeaves
    (Interpretation.allNodes_mono (fun leaf isLeaf typeLocal => ?_) (fun _ => rfl) (fun _ => rfl)
      typeLocal)
  cases leaf with
  | linksFrom => cases typeLocal
  | custom => exact typeLocal
  | root | inter | union | diff | concat | compl | sort => cases isLeaf
  | _ => rfl

theorem Query.eq_of_linkedTargets? {q targets : Query} {link targetType : String}
    (found : q.linkedTargets? = some (link, targets, targetType)) :
    q = .linkedInto link targets targetType := by
  cases q <;> cases found
  rfl

namespace Session

variable {session : Session} {nested : Engine.Nested} {type : String}

/-- Whether the queries within a query get the answers of the session. -/
def AnswersNested (session : Session) (nested : Engine.Nested) : Prop :=
  ∀ type q, session.Yields (nested type q) fun rows => session.Answers type q rows.ids

theorem answersNested_answer : session.AnswersNested session.engine.answer := by
  intro type q s rows s' reached ran
  exact ⟨(answered_answer type q reached ran).1, s, rows, s', reached, ran, rfl⟩

/-! ### Operands -/

section Operands

variable {x y : Effect Rows} {l r node : Query}

/-- Whether rows hold exactly the entities that a query over a type finds. -/
def FoundBy (session : Session) (type : String) (q : Query) (rows : Rows) : Prop :=
  ∀ id, session.Finds type id q (rows.ids.contains id)

/-- Two operands that are evaluated and combined. -/
theorem yields_both (operation : SetOperation)
    (both : ∀ {id x y}, session.Finds type id l x → session.Finds type id r y →
      session.Finds type id node (operation.truth x y))
    (left : session.Yields x (session.FoundBy type l))
    (right : session.Yields y (session.FoundBy type r)) :
    session.Yields
      (do
        let left ← x
        let right ← y
        session.engine.combine operation left right)
      (session.FoundBy type node) :=
  yields_bind left fun left findsLeft =>
    yields_bind right fun right findsRight =>
      (yields_combine operation left right).mono fun _ combines id =>
        combines.contains id ▸ both (findsLeft id) (findsRight id)

/-- A difference whose right operand is not evaluated if the left one is empty. -/
theorem yields_both_diff (left : session.Yields x (session.FoundBy type l))
    (right : session.Yields y (session.FoundBy type r)) :
    session.Yields
      (do
        let left ← x
        if left.knownEmpty then return .empty
        let right ← y
        session.engine.combine .diff left right)
      (session.FoundBy type (.diff l r)) := by
  refine yields_bind left fun left findsLeft => ?_
  split
  case isTrue empty =>
    obtain rfl := Rows.eq_empty_of_knownEmpty empty
    exact yields_pure fun id => .diffLeft (findsLeft id)
  case isFalse =>
    exact yields_both .diff .diff (yields_pure findsLeft) right

end Operands

/-! ### Queries that range over all types -/

/-- A query all of whose parts range over all types finds the same over every type. -/
theorem yields_evaluateType_spanning {q : Query} (plain : q.plain = true)
    (spans : q.spansTypes = true) (each : String) :
    session.Yields (session.engine.evaluateType nested q each) (session.FoundBy type q) := by
  have notLinked : ∀ {q : Query}, q.spansTypes = true → q.linkedTargets? = none := by
    intro q spans
    cases q <;> first | rfl | cases spans
  induction q with
  | root c ih => exact (ih plain spans).mono fun rows finds id => .root (finds id)
  | linksFrom source link =>
    refine yields_bind (yields_linkTargets source link) ?_
    rintro listing ⟨record, found, ids⟩
    refine yields_pure fun id => ?_
    rw [Rows.ids_native, ids]
    exact .target found
  | inter l r ihl ihr =>
    obtain ⟨plainLeft, plainRight⟩ := (Bool.and_eq_true _ _).mp plain
    obtain ⟨left, right⟩ := (Bool.and_eq_true _ _).mp spans
    simp only [Engine.evaluateType, notLinked left, notLinked right]
    exact yields_both .inter .inter (ihl plainLeft left) (ihr plainRight right)
  | union l r ihl ihr =>
    obtain ⟨plainLeft, plainRight⟩ := (Bool.and_eq_true _ _).mp plain
    obtain ⟨left, right⟩ := (Bool.and_eq_true _ _).mp spans
    exact yields_both .union .union (ihl plainLeft left) (ihr plainRight right)
  | diff l r ihl ihr =>
    obtain ⟨plainLeft, plainRight⟩ := (Bool.and_eq_true _ _).mp plain
    obtain ⟨left, right⟩ := (Bool.and_eq_true _ _).mp spans
    exact yields_both_diff (ihl plainLeft left) (ihr plainRight right)
  | concat l r ihl ihr =>
    obtain ⟨plainLeft, plainRight⟩ := (Bool.and_eq_true _ _).mp plain
    obtain ⟨left, right⟩ := (Bool.and_eq_true _ _).mp spans
    exact yields_both .concat .concat (ihl plainLeft left) (ihr plainRight right)
  | custom | sort => cases plain
  | _ => cases spans

/-! ### Queries that look at one type at a time -/

/-- Whether rows are what a query over a hierarchy finds of one of its types: in order, of
this type, and right about each entity of it. -/
structure Part (session : Session) (type each : String) (q : Query) (rows : Rows) : Prop where
  ordered : rows.Ordered
  typed : ∀ id ∈ rows.ids, ∃ record, session.store.Has each id record
  finds : ∀ id record, session.store.Has each id record →
    session.Finds type id q (rows.ids.contains id)

variable {each : String}

theorem Part.empty {q : Query}
    (finds : ∀ id record, session.store.Has each id record → session.Finds type id q false) :
    session.Part type each q .empty where
  ordered := Rows.ordered_empty
  typed _ mem := nomatch mem
  finds := finds

/-- The entities of a type that satisfy a condition are what the condition finds of it. -/
theorem Selected.part {rows : Rows} (leaf : Query)
    (selected : session.Selected each (leaf.selects session.metadata each) rows)
    (condition : leaf.isCondition = true) (mem : each ∈ session.types type) :
    session.Part type each leaf rows where
  ordered := selected.ordered
  typed id here :=
    let ⟨record, has, _⟩ := (selected.mem_iff id).mp here
    ⟨record, has⟩
  finds _ _ has := (Finds.condition condition mem has).cast (selected.contains has).symm

/-- What an operation other than a concatenation makes of two parts is a part. -/
theorem Part.combine {l r node : Query} {left right rows : Rows} {operation : SetOperation}
    (combines : Rows.Combines operation left right rows) (other : operation ≠ .concat)
    (both : ∀ {id x y}, session.Finds type id l x → session.Finds type id r y →
      session.Finds type id node (operation.truth x y))
    (partLeft : session.Part type each l left) (partRight : session.Part type each r right) :
    session.Part type each node rows where
  ordered := combines.ordered other partLeft.ordered partRight.ordered
  typed id mem := by
    rcases SetOperation.or_of_truth ((combines.mem_iff id).mp mem) with here | here
    · exact partLeft.typed id (List.contains_iff_mem.mp here)
    · exact partRight.typed id (List.contains_iff_mem.mp here)
  finds id record has :=
    combines.contains id ▸ both (partLeft.finds id record has) (partRight.finds id record has)

/-- Two operands that are evaluated for one type and combined. -/
theorem yields_both_part {x y : Effect Rows} {l r node : Query} {operation : SetOperation}
    (other : operation ≠ .concat)
    (both : ∀ {id x y}, session.Finds type id l x → session.Finds type id r y →
      session.Finds type id node (operation.truth x y))
    (left : session.Yields x (session.Part type each l))
    (right : session.Yields y (session.Part type each r)) :
    session.Yields
      (do
        let left ← x
        let right ← y
        session.engine.combine operation left right)
      (session.Part type each node) :=
  yields_bind left fun left partLeft =>
    yields_bind right fun right partRight =>
      (yields_combine operation left right).mono fun _ combines =>
        .combine combines other both partLeft partRight

/-- What narrowing makes of a part. -/
theorem Part.narrow {q node targets : Query} {link targetType : String} {ids : List EntityId}
    {source rows : Rows} (mem : each ∈ session.types type)
    (answers : session.Answers targetType targets ids)
    (both : ∀ {id x y}, session.Finds type id q x →
      session.Finds type id (.linkedInto link targets targetType) y →
      session.Finds type id node (x && y))
    (part : session.Part type each q source)
    (narrowed : session.Narrowed each link ids source rows) :
    session.Part type each node rows where
  ordered := narrowed.ordered part.ordered
  typed id here := part.typed id ((narrowed.mem_iff id (part.typed id)).mp here).1
  finds id record has := by
    refine (both (part.finds id record has) (.linked mem has answers)).cast ?_
    rw [Bool.eq_iff_iff, Bool.and_eq_true, List.contains_iff_mem, List.contains_iff_mem,
      narrowed.mem_iff id (part.typed id), has.linksInto]

theorem yields_narrowByNested_part (answers : session.AnswersNested nested)
    (mem : each ∈ session.types type) {q node targets : Query} {link targetType : String}
    {source : Rows} (part : session.Part type each q source)
    (both : ∀ {id x y}, session.Finds type id q x →
      session.Finds type id (.linkedInto link targets targetType) y →
      session.Finds type id node (x && y))
    (none : ∀ {id}, session.Finds type id q false → session.Finds type id node false) :
    session.Yields
      (session.engine.narrowByNested nested each source link targets targetType)
      (session.Part type each node) := by
  unfold Engine.narrowByNested
  split
  case isTrue empty =>
    obtain rfl := Rows.eq_empty_of_knownEmpty empty
    exact yields_pure (.empty fun id record has => none (part.finds id record has))
  case isFalse =>
    refine yields_bind (answers targetType targets) fun rows answered => ?_
    exact (yields_narrowByLinks each link source rows).mono fun found narrowed =>
      part.narrow mem answered both narrowed

theorem yields_having_selected (each property : String) :
    session.Yields (session.engine.having each property)
      (session.Selected each fun record =>
        session.metadata.isPresent each record property) := by
  unfold Engine.having
  cases storage : session.metadata.storage each property with
  | blob =>
    simp only [engine, storage, Metadata.isPresent]
    exact yields_bind (yields_lookUp .filter each _) fun listing selected => yields_pure selected
  | primitive =>
    simp only [engine, storage, Metadata.isPresent]
    exact yields_bind (yields_lookUp .filter each _) fun listing selected => yields_pure selected

/-- A query all of whose parts look at one type at a time finds what it means of the
entities of the type that it is evaluated for. -/
theorem yields_evaluateType_part (answers : session.AnswersNested nested)
    (mem : each ∈ session.types type) {q : Query} (plain : q.plain = true)
    (typeLocal : q.typeLocal = true) :
    session.Yields (session.engine.evaluateType nested q each)
      (session.Part type each q) := by
  have lookedUp : ∀ (leaf : Query) {call : Call}, leaf.isCondition = true → session.Yields
      (do return .native (← Backend.Memory.lookUp call each
        (leaf.selects session.metadata each)))
      (session.Part type each leaf) := fun leaf _ condition =>
    yields_bind (yields_lookUp _ each _) fun _ selected =>
      yields_pure (selected.part leaf condition mem)
  induction q with
  | root c ih =>
    refine (ih plain typeLocal).mono fun rows part => ⟨part.ordered, part.typed, ?_⟩
    exact fun id record has => .root (part.finds id record has)
  | all => exact lookedUp .all rfl
  | equals property value =>
    cases value with
    | some value => exact lookedUp (.equals property (some value)) rfl
    | none =>
      refine yields_bind (yields_lookUp .all each _) fun all extent => ?_
      refine yields_bind (yields_having_selected each property) fun present selected => ?_
      refine (yields_combine .diff (.native all) present).mono fun rows combines => ?_
      exact (extent.diff selected combines).part (.equals property none) rfl mem
  | between property low high => exact lookedUp (.between property low high) rfl
  | startsWith property start => exact lookedUp (.startsWith property start) rfl
  | hasProperty property =>
    exact (yields_having_selected each property).mono fun rows selected =>
      selected.part (.hasProperty property) rfl mem
  | linkedTo link target =>
    cases target with
    | some target => exact lookedUp (.linkedTo link (some target)) rfl
    | none =>
      refine yields_bind (yields_lookUp .all each _) fun all extent => ?_
      refine yields_bind (yields_lookUp .filter each _) fun linked selected => ?_
      refine (yields_combine .diff (.native all) (.native linked)).mono fun rows combines => ?_
      have both := extent.diff selected combines
      simp only [Bool.true_and, Bool.not_not] at both
      exact both.part (.linkedTo link none) rfl mem
  | hasLink link => exact lookedUp (.hasLink link) rfl
  | linkedInto link targets targetType =>
    refine yields_bind (answers targetType targets) fun rows answered => ?_
    refine (yields_linkedToAny each link rows).mono fun found selected => ?_
    refine ⟨selected.ordered, fun id here => ?_, fun id record has => ?_⟩
    · obtain ⟨record, has, -⟩ := (selected.mem_iff id).mp here
      exact ⟨record, has⟩
    · exact (Finds.linked mem has answered).cast (selected.contains has).symm
  | inter l r ihl ihr =>
    obtain ⟨plainLeft, plainRight⟩ := (Bool.and_eq_true _ _).mp plain
    obtain ⟨left, right⟩ := (Bool.and_eq_true _ _).mp typeLocal
    unfold Engine.evaluateType
    split
    case h_1 link targets targetType rightLinked =>
      obtain rfl := Query.eq_of_linkedTargets? rightLinked
      refine yields_bind (ihl plainLeft left) fun source part => ?_
      exact yields_narrowByNested_part answers mem part .inter .interLeft
    -- the operand to be narrowed is evaluated first, so what is found comes the other way round
    case h_2 link targets targetType _ leftLinked =>
      obtain rfl := Query.eq_of_linkedTargets? leftLinked
      refine yields_bind (ihr plainRight right) fun source part => ?_
      exact yields_narrowByNested_part answers mem part
        (fun found linked => (Finds.inter linked found).cast (Bool.and_comm _ _)) .interRight
    case h_3 =>
      exact yields_both_part (by decide) .inter (ihl plainLeft left) (ihr plainRight right)
  | union l r ihl ihr =>
    obtain ⟨plainLeft, plainRight⟩ := (Bool.and_eq_true _ _).mp plain
    obtain ⟨left, right⟩ := (Bool.and_eq_true _ _).mp typeLocal
    exact yields_both_part (by decide) .union (ihl plainLeft left) (ihr plainRight right)
  | diff l r ihl ihr =>
    obtain ⟨plainLeft, plainRight⟩ := (Bool.and_eq_true _ _).mp plain
    obtain ⟨left, right⟩ := (Bool.and_eq_true _ _).mp typeLocal
    refine yields_bind (ihl plainLeft left) fun left partLeft => ?_
    split
    case isTrue empty =>
      obtain rfl := Rows.eq_empty_of_knownEmpty empty
      exact yields_pure (.empty fun id record has => .diffLeft (partLeft.finds id record has))
    exact yields_both_part (by decide) .diff (yields_pure partLeft) (ihr plainRight right)
  | compl c ih =>
    refine yields_bind (yields_lookUp .all each _) fun all extent => ?_
    have whole : session.Part type each .all (.native all) := extent.part .all rfl mem
    exact yields_both_part (by decide) (fun inAll found => inAll.eq_inHierarchy ▸ .compl found)
      (yields_pure whole) (ih plain typeLocal)
  | linksFrom | concat | sort => cases typeLocal
  | custom | slot | converter => cases plain

/-! ### Putting the types together -/

/-- Outside the hierarchy, a query that looks at one type at a time finds nothing. -/
theorem Finds.outside {id : EntityId} (out : session.inHierarchy type id = false) {q : Query}
    (plain : q.plain = true) (typeLocal : q.typeLocal = true) :
    session.Finds type id q false := by
  induction q with
  | root c ih => exact .root (ih plain typeLocal)
  | compl c ih => exact (Finds.compl (ih plain typeLocal)).cast (by rw [out]; rfl)
  | inter l r ihl ihr | diff l r ihl ihr =>
    obtain ⟨plainLeft, -⟩ := (Bool.and_eq_true _ _).mp plain
    obtain ⟨left, -⟩ := (Bool.and_eq_true _ _).mp typeLocal
    first
      | exact .interLeft (ihl plainLeft left)
      | exact .diffLeft (ihl plainLeft left)
  | union l r ihl ihr =>
    obtain ⟨plainLeft, plainRight⟩ := (Bool.and_eq_true _ _).mp plain
    obtain ⟨left, right⟩ := (Bool.and_eq_true _ _).mp typeLocal
    exact .union (ihl plainLeft left) (ihr plainRight right)
  | linkedInto link targets targetType => exact .linkedOutside out
  | linksFrom | concat | sort => cases typeLocal
  | custom | slot | converter => cases plain
  | _ => exact .conditionOutside rfl out

/-- Parts in order are united, and the result is in order. -/
theorem yields_joinParts_ordered {parts : List Rows} (ordered : ∀ part ∈ parts, part.Ordered) :
    session.Yields (session.engine.joinParts parts) fun rows =>
      rows.Ordered ∧ ∀ id, id ∈ rows.ids ↔ ∃ part ∈ parts, id ∈ part.ids := by
  cases parts with
  | nil => exact yields_pure ⟨Rows.ordered_empty, fun id => by simp [Rows.ids]⟩
  | cons first rest =>
    have known : (first :: rest).all Rows.inIdOrder = true :=
      List.all_eq_true.mpr fun part mem => (ordered part mem).1
    unfold Engine.joinParts
    simp only [known, if_true]
    let Joined (done : List Rows) (rows : Rows) : Prop :=
      rows.Ordered ∧ ∀ id, id ∈ rows.ids ↔ ∃ part ∈ first :: done, id ∈ part.ids
    have joined : Joined [] first :=
      ⟨ordered first List.mem_cons_self, fun id => by simp⟩
    refine yields_foldlM Joined rest (fun done rows part mem before => ?_) joined
    obtain ⟨inOrder, mem_iff⟩ := before
    refine (yields_combine .union rows part).mono fun united combines => ⟨?_, fun id => ?_⟩
    · exact combines.ordered (by decide) inOrder (ordered part (.tail _ mem))
    · rw [combines.mem_iff, SetOperation.truth, Bool.or_eq_true, List.contains_iff_mem,
        List.contains_iff_mem, mem_iff]
      simp [or_and_right, exists_or, or_assoc]

theorem exists_of_forall₂ {α β : Type} {R : α → β → Prop} {l : List α} {u : List β}
    (all : List.Forall₂ R l u) {a : α} (mem : a ∈ l) : ∃ b ∈ u, R a b := by
  induction all with
  | nil => cases mem
  | @cons first b l u here _ ih =>
    rcases List.mem_cons.mp mem with rfl | mem
    · exact ⟨b, List.mem_cons_self, here⟩
    · obtain ⟨b', mem', there⟩ := ih mem
      exact ⟨b', .tail _ mem', there⟩

/-- A query all of whose parts look at one type at a time finds over the hierarchy what it
means, in the order of identities. -/
theorem yields_evaluateEach_finds (answers : session.AnswersNested nested) {q : Query}
    (plain : q.plain = true) (typeLocal : q.typeLocal = true) :
    session.Yields (session.engine.evaluateEach nested q type) fun rows =>
      rows.Ordered ∧ session.FoundBy type q rows := by
  have parts : session.Yields
      ((session.types type).mapM fun each => session.engine.evaluateType nested q each)
      (List.Forall₂ (fun each rows => session.Part type each q rows) (session.types type)) :=
    yields_mapM (session.types type) fun each mem =>
      yields_evaluateType_part answers mem plain typeLocal
  refine yields_bind parts fun parts evaluated => ?_
  have ofType : ∀ part ∈ parts, ∃ each, session.Part type each q part := by
    intro part mem
    obtain ⟨each, -, here⟩ := exists_of_forall₂ evaluated.flip mem
    exact ⟨each, here⟩
  have ordered : ∀ part ∈ parts, part.Ordered := fun part mem =>
    let ⟨_, here⟩ := ofType part mem
    here.ordered
  refine (yields_joinParts_ordered ordered).mono ?_
  rintro rows ⟨inOrder, mem_iff⟩
  refine ⟨inOrder, fun id => ?_⟩
  by_cases found : id ∈ rows.ids
  -- a part that holds the entity is the part of its own type
  · rw [List.contains_iff_mem.mpr found]
    obtain ⟨part, mem, here⟩ := (mem_iff id).mp found
    obtain ⟨each, ofEach⟩ := ofType part mem
    obtain ⟨record, has⟩ := ofEach.typed id here
    exact (ofEach.finds id record has).cast (List.contains_iff_mem.mpr here)
  · rw [Bool.eq_false_iff.mpr fun here => found (List.contains_iff_mem.mp here)]
    cases inside : session.inHierarchy type id with
    | false => exact .outside inside plain typeLocal
    | true =>
      -- the part of its own type decides, and the entity is in no part
      obtain ⟨each, memEach, record, has⟩ := inHierarchy_iff.mp inside
      obtain ⟨part, mem, ofEach⟩ := exists_of_forall₂ evaluated memEach
      have absent : id ∉ part.ids := fun here => found ((mem_iff id).mpr ⟨part, mem, here⟩)
      exact (ofEach.finds id record has).cast
        (Bool.eq_false_iff.mpr fun here => absent (List.contains_iff_mem.mp here))

/-! ### The three ways -/

/-- A query finds over the hierarchy what it means, whichever way it is evaluated. -/
theorem yields_evaluate_finds (answers : session.AnswersNested nested) {q : Query}
    (plain : q.plain = true) :
    session.Yields (session.engine.evaluate nested q type) (session.FoundBy type q) := by
  -- only the last way looks into the operands, so the induction is about that one
  have ways : ∀ {q : Query}, q.plain = true →
      (q.typeLocal = false → q.spansTypes = false →
        session.Yields (session.engine.evaluateApart nested q type) (session.FoundBy type q)) →
      session.Yields (session.engine.evaluate nested q type) (session.FoundBy type q) := by
    intro q plain apart
    rw [Engine.evaluate_eq]
    split
    case isTrue spans => exact yields_evaluateType_spanning plain spans type
    case isFalse notSpans =>
      split
      case isTrue typeLocal =>
        exact (yields_evaluateEach_finds answers plain typeLocal).mono fun rows found => found.2
      case isFalse notLocal =>
        exact apart (Bool.eq_false_iff.mpr notLocal) (Bool.eq_false_iff.mpr notSpans)
  induction q with
  | root c ih =>
    exact ways plain fun _ _ => (ih plain).mono fun rows finds id => .root (finds id)
  | inter l r ihl ihr =>
    obtain ⟨left, right⟩ := (Bool.and_eq_true _ _).mp plain
    exact ways plain fun _ _ => yields_both .inter .inter (ihl left) (ihr right)
  | union l r ihl ihr =>
    obtain ⟨left, right⟩ := (Bool.and_eq_true _ _).mp plain
    exact ways plain fun _ _ => yields_both .union .union (ihl left) (ihr right)
  | diff l r ihl ihr =>
    obtain ⟨left, right⟩ := (Bool.and_eq_true _ _).mp plain
    exact ways plain fun _ _ => yields_both_diff (ihl left) (ihr right)
  | concat l r ihl ihr =>
    obtain ⟨left, right⟩ := (Bool.and_eq_true _ _).mp plain
    exact ways plain fun _ _ => yields_both .concat .concat (ihl left) (ihr right)
  | compl c ih =>
    have whole : session.Yields (session.engine.evaluateEach nested .all type)
        (session.FoundBy type .all) :=
      (yields_evaluateEach_finds answers rfl rfl).mono fun _ found => found.2
    exact ways plain fun _ _ =>
      yields_both .diff (fun inAll found => inAll.eq_inHierarchy ▸ .compl found) whole (ih plain)
  | linksFrom source link => exact ways plain fun _ notSpans => nomatch notSpans
  | custom | sort | slot | converter => cases plain
  | _ => exact ways plain fun notLocal _ => nomatch notLocal

/-- Without concatenations and leaves for the targets of a link, the entities are in the
order of identities. -/
theorem yields_evaluate_ordered (answers : session.AnswersNested nested) {q : Query}
    (plain : q.plain = true) (keepsOrder : q.keepsOrder = true) :
    session.Yields (session.engine.evaluate nested q type) fun rows => Ascending rows.ids := by
  have typeLocal := Query.typeLocal_of_keepsOrder plain keepsOrder
  have notSpans := Query.spansTypes_of_typeLocal typeLocal
  rw [Engine.evaluate_eq]
  simp only [typeLocal, notSpans, Bool.false_eq_true, if_false, if_true]
  exact (yields_evaluateEach_finds answers plain typeLocal).mono fun rows found => found.1.2

/-- The list that is collected from a query that the engine evaluates, answering the
queries within it itself. -/
theorem yields_collect_evaluate {q : Query} (plain : q.plain = true) :
    session.Yields (do (← session.engine.evaluate session.engine.answer q type).collect)
      fun ids => ∀ id, session.Finds type id q (ids.contains id) :=
  yields_then_collect (P := fun ids => ∀ id, session.Finds type id q (ids.contains id))
    (yields_evaluate_finds answersNested_answer plain)

end Session

/-- A computation that answers ends in some state. -/
theorem Effect.exists_of_run' {α : Type} {x : Effect α} {s : State} {a : α}
    (ran : EStateM.run' x s = some a) : ∃ s', x s = .ok a s' := by
  unfold EStateM.run' EStateM.run at ran
  cases here : x s with
  | ok b s' =>
    rw [here] at ran
    cases ran
    exact ⟨s', rfl⟩
  | error fault s' =>
    rw [here] at ran
    cases ran

/-- A session over a store with two animals, one of them with a name, and a cat, which is
an animal, too, and which has an owner. -/
def Session.animals : Session where
  metadata :=
    { subtypeNames := ["cat"]
      subtypes := fun type => if type = "animal" then [⟨"cat", List.mem_singleton_self _⟩] else []
      association := fun _ _ => none
      storage := fun _ _ => .primitive }
  settings := .default
  start := .initial
    { tables :=
        #[⟨"animal", #[⟨[("name", .text "Ann")], [], []⟩, .empty]⟩,
          ⟨"cat", #[⟨[("name", .text "Tom")], [], [("owner", [⟨0, 0⟩])]⟩]⟩]
      failure := none
      searchesLinks := true
      ordersByTargets := true }
    (.create 16 false 1)

/-- The animals that have a name, but are not owned by an animal with a name. -/
def Query.strays : Query :=
  .diff (.hasProperty "name") (.linkedInto "owner" (.hasProperty "name") "animal")

end ExtentQuery

import ExtentQuery.Proofs.Evaluation.Answering
import ExtentQuery.Proofs.Rewriting.Interpretation

/-!
# What a query over a hierarchy means

A query over a type is about the entities of the type and of its subtypes, the hierarchy.
This module says of a single entity what a query decides about it, without any mention of
how the query is evaluated.

* `Query.selects` — what a leaf says of an entity of which type and record are known;
* `Session.inHierarchy` — whether an entity belongs to the hierarchy of a type;
* `Session.Finds` — what a query over the type says of an entity;
* `Session.Finds.eq_verdict` — without queries inside it, a query says one thing only, which
  can be computed.

**Targets of any type.**  `Query.linksFrom` selects its targets whether they belong to
the hierarchy or not.  All other leaves look at the entities of the hierarchy only, and
each of these according to its own type: whether a property is a blob is up to the type.

**Queries within queries.**  What a `Query.linkedInto` selects depends on the answer to the
query inside it, so it is about an answer that the session gives (`Session.Answers`).  An
answer may fault, and evaluation does not ask for it where the rest of the query has
decided already; this is what the rules for one operand are for.
-/

namespace ExtentQuery

/-! ### Single entities -/

/-- Whether an entity of a type has a property, be it a value or a blob. -/
def Metadata.isPresent (metadata : Metadata) (type : String) (record : Record)
    (property : String) : Bool :=
  match metadata.storage type property with
  | .blob => record.hasBlob property
  | .primitive => (record.property property).isSome

namespace Query

/-- Whether a leaf is a condition on single entities. -/
def isCondition : Query → Bool
  | all => true
  | equals .. => true
  | between .. => true
  | startsWith .. => true
  | hasProperty _ => true
  | linkedTo .. => true
  | hasLink _ => true
  | _ => false

theorem arity_of_isCondition {leaf : Query} (condition : leaf.isCondition = true) :
    leaf.arity = 0 := by
  cases leaf <;> first | rfl | cases condition

/-- What a condition says of an entity with a type and a record. -/
def selects (metadata : Metadata) (type : String) (record : Record) : Query → Bool
  | all => true
  | equals property (some value) =>
    (record.property property).any fun v => v.compare? value == some .eq
  | equals property none => !metadata.isPresent type record property
  | between property low high => (record.property property).any fun v => v.within low high
  | startsWith property start =>
    match record.property property with
    | some (.text s) => start.toList.isPrefixOf s.toList
    | _ => false
  | hasProperty property => metadata.isPresent type record property
  | linkedTo link (some target) => (record.targets link).contains target
  | linkedTo link none => (record.targets link).isEmpty
  | hasLink link => !(record.targets link).isEmpty
  | _ => false

/-- A query without leaves of particular stores, sort steps and placeholders among its
operands. -/
def plain (q : Query) : Bool :=
  (Interpretation.allLeaves
    (fun
      | custom _ => false
      | leaf => !leaf.isPlaceholder) false).of q

end Query

/-! ### Hierarchies -/

namespace Session

variable {session : Session} {type : String} {id : EntityId}

/-- A type and all its subtypes. -/
def types (session : Session) (type : String) : List String :=
  type :: session.metadata.closure type

/-- Whether an entity is of a type or of one of its subtypes. -/
def inHierarchy (session : Session) (type : String) (id : EntityId) : Bool :=
  (session.store.record? id).isSome &&
    (session.types type).any fun each => session.store.typeId? each == some id.typeId

theorem inHierarchy_iff : session.inHierarchy type id = true ↔
    ∃ each ∈ session.types type, ∃ record, session.store.Has each id record := by
  simp only [inHierarchy, Bool.and_eq_true, Option.isSome_iff_exists, List.any_eq_true, beq_iff_eq,
    Store.Has]
  constructor
  · rintro ⟨⟨record, found⟩, each, mem, named⟩
    exact ⟨each, mem, record, named, found⟩
  · rintro ⟨each, mem, record, named, found⟩
    exact ⟨⟨record, found⟩, each, mem, named⟩

/-- Whether the session answers a query over a type with some entities, in one of the
states that it reaches. -/
def Answers (session : Session) (type : String) (q : Query) (ids : List EntityId) : Prop :=
  ∃ s rows s', session.Reaches s ∧ session.engine.answer type q s = .ok rows s' ∧
    rows.ids = ids

/-- What a query over a type and its subtypes says of an entity. -/
inductive Finds (session : Session) (type : String) (id : EntityId) : Query → Bool → Prop where
  | target {source : EntityId} {link : String} {record : Record} :
      session.store.record? source = some record →
      session.Finds type id (.linksFrom source link) ((record.targets link).contains id)
  | condition {leaf : Query} {each : String} {record : Record} :
      leaf.isCondition = true → each ∈ session.types type → session.store.Has each id record →
      session.Finds type id leaf (leaf.selects session.metadata each record)
  | conditionOutside {leaf : Query} :
      leaf.isCondition = true → session.inHierarchy type id = false →
      session.Finds type id leaf false
  | linked {each link targetType : String} {targets : Query} {record : Record}
      {ids : List EntityId} :
      each ∈ session.types type → session.store.Has each id record →
      session.Answers targetType targets ids →
      session.Finds type id (.linkedInto link targets targetType)
        ((record.targets link).any ids.contains)
  | linkedOutside {link targetType : String} {targets : Query} :
      session.inHierarchy type id = false →
      session.Finds type id (.linkedInto link targets targetType) false
  | root {c : Query} {x : Bool} : session.Finds type id c x → session.Finds type id (.root c) x
  | inter {l r : Query} {x y : Bool} :
      session.Finds type id l x → session.Finds type id r y →
      session.Finds type id (.inter l r) (x && y)
  | interLeft {l r : Query} :
      session.Finds type id l false → session.Finds type id (.inter l r) false
  | interRight {l r : Query} :
      session.Finds type id r false → session.Finds type id (.inter l r) false
  | union {l r : Query} {x y : Bool} :
      session.Finds type id l x → session.Finds type id r y →
      session.Finds type id (.union l r) (x || y)
  | diff {l r : Query} {x y : Bool} :
      session.Finds type id l x → session.Finds type id r y →
      session.Finds type id (.diff l r) (x && !y)
  | diffLeft {l r : Query} :
      session.Finds type id l false → session.Finds type id (.diff l r) false
  | concat {l r : Query} {x y : Bool} :
      session.Finds type id l x → session.Finds type id r y →
      session.Finds type id (.concat l r) (x || y)
  | compl {c : Query} {x : Bool} :
      session.Finds type id c x →
      session.Finds type id (.compl c) (session.inHierarchy type id && !x)

theorem Finds.cast {q : Query} {x y : Bool} (finds : session.Finds type id q x) (eq : x = y) :
    session.Finds type id q y :=
  eq ▸ finds

/-- The whole extent is the hierarchy. -/
theorem Finds.eq_inHierarchy {x : Bool} (finds : session.Finds type id .all x) :
    x = session.inHierarchy type id := by
  cases finds with
  | condition _ mem has => exact (inHierarchy_iff.mpr ⟨_, mem, _, has⟩).symm
  | conditionOutside _ outside => exact outside.symm

/-! ### Computing what a query says -/

/-- What a query finds out about an entity, computed from what its leaves do. -/
def verdict (session : Session) (type : String) (id : EntityId) (leaf : Query → Bool) :
    Interpretation Bool where
  leaf := leaf
  root x := x
  inter := and
  union := or
  diff x y := x && !y
  concat := or
  compl x := session.inHierarchy type id && !x
  sort x := x

/-- If each leaf of a query finds out one thing only, so does the query. -/
theorem Finds.eq_verdict {leaf property : Query → Bool} {sorts : Bool}
    (agrees : ∀ {q x}, q.arity = 0 → property q = true → session.Finds type id q x → x = leaf q)
    {q : Query} {x : Bool} (finds : session.Finds type id q x) :
    (Interpretation.allLeaves property sorts).of q = true →
      x = (session.verdict type id leaf).of q := by
  have atLeaf : ∀ {q x}, q.arity = 0 → session.Finds type id q x →
      (Interpretation.allLeaves property sorts).of q = true →
      x = (session.verdict type id leaf).of q := by
    intro q x isLeaf finds leaves
    rw [Interpretation.of_of_arity isLeaf] at leaves ⊢
    exact agrees isLeaf leaves finds
  -- by the rules: one for a leaf says what a leaf says, one for a node goes by its operands
  induction finds with
  | target found => exact atLeaf rfl (.target found)
  | condition condition mem has =>
    exact atLeaf (Query.arity_of_isCondition condition) (.condition condition mem has)
  | conditionOutside condition outside =>
    exact atLeaf (Query.arity_of_isCondition condition) (.conditionOutside condition outside)
  | linked mem has answers => exact atLeaf rfl (.linked mem has answers)
  | linkedOutside outside => exact atLeaf rfl (.linkedOutside outside)
  | root _ ih => exact ih
  | inter _ _ ihl ihr =>
    intro leaves
    obtain ⟨left, right⟩ := (Bool.and_eq_true _ _).mp leaves
    rw [ihl left, ihr right]
    rfl
  | interLeft _ ih =>
    intro leaves
    have left := ih ((Bool.and_eq_true _ _).mp leaves).1
    show false = (_ && _)
    rw [← left, Bool.false_and]
  | interRight _ ih =>
    intro leaves
    have right := ih ((Bool.and_eq_true _ _).mp leaves).2
    show false = (_ && _)
    rw [← right, Bool.and_false]
  | union _ _ ihl ihr | diff _ _ ihl ihr | concat _ _ ihl ihr =>
    intro leaves
    obtain ⟨left, right⟩ := (Bool.and_eq_true _ _).mp leaves
    rw [ihl left, ihr right]
    rfl
  | diffLeft _ ih =>
    intro leaves
    have left := ih ((Bool.and_eq_true _ _).mp leaves).1
    show false = (_ && !_)
    rw [← left, Bool.false_and]
  | compl _ ih =>
    intro leaves
    rw [ih leaves]
    rfl

end Session

end ExtentQuery

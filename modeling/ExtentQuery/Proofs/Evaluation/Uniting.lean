import ExtentQuery.Proofs.Backend.Runs
import ExtentQuery.Proofs.Evaluation.Copies
import ExtentQuery.Proofs.Evaluation.KeepingOrder

/-!
# Unions

A union lists the entities of both of its operands.  Where rows are put together it lists each of
them once, however often the operands do.  Where it takes a shorter way, it is one of the operands
as it stands, or a filter of what both of them filter, with the copies that there are.

* `Session.yields_union_rows` — a union of rows;
* `Session.unites_of_joined`, `Session.unites_of_combined` — two selections that become one, and two
  that are evaluated and combined;
* `Session.unites_of_union` — any way to a union;
* `Session.union_agrees` — the result against the entities of both sides;
* `Session.union_disagrees` — copies in two filters of one selection.
-/

namespace ExtentQuery

open Effect

/-- What rows that are known to be empty decide of a union. -/
theorem Engine.of_shortcut?_union {left right rows : Rows}
    (decided : shortcut? .union left right = some rows) :
    (left = .empty ∧ rows = right) ∨ (right = .empty ∧ rows = left) := by
  cases empty : left.knownEmpty with
  | true =>
    simp only [shortcut?, empty] at decided
    exact .inl ⟨Rows.eq_empty_of_knownEmpty empty, (Option.some.inj decided).symm⟩
  | false =>
    cases empty' : right.knownEmpty with
    | true =>
      simp only [shortcut?, empty, empty'] at decided
      exact .inr ⟨Rows.eq_empty_of_knownEmpty empty', (Option.some.inj decided).symm⟩
    | false =>
      simp only [shortcut?, empty, empty'] at decided
      cases decided

namespace Session

variable {session : Session} {type : String} {selection source left right : Selection}
  {waiting : List (Nat × Query)} {s s' : State}

/-- Two operands that share what they list: they are one selection, or only one of them lists
anything, or they become one query. -/
def Shares (session : Session) (left right : Selection) : Prop :=
  left.same right = true ∨ (∀ id, session.belongs left id = false) ∨
    (∀ id, session.belongs right id = false) ∨
      (session.engine.joinQueries .union left right).isSome = true

/-- Whether a selection waits in some state, lists what two others list, and nothing twice, provided
that the two do not if they share what they list. -/
structure Unites (session : Session) (s : State) (left right selection : Selection) : Prop where
  promises : session.Promises s
    (fun id => session.belongs left id || session.belongs right id) selection
  singly : (session.Shares left right → session.Singly left ∧ session.Singly right) →
    session.Singly selection

/-- A union of rows lists every entity once, unless one of the operands is known to be empty. -/
theorem yields_union_rows {left right : Rows} (truthful : left.Truthful)
    (truthful' : right.Truthful) :
    session.Yields (session.engine.combine .union left right) fun rows =>
      rows.ids.Nodup ∨ (left = .empty ∧ rows = right) ∨ (right = .empty ∧ rows = left) := by
  have inMemory : session.Yields (do
      let l ← left.collect
      let r ← right.collect
      Rows.ofIds (SetOperation.union.apply l r)) fun rows => rows.ids.Nodup :=
    yields_bind_done (yields_collect left).done fun _ =>
      yields_bind_done (yields_collect right).done fun _ =>
        (yields_ofIds _).mono fun _ made => made.1 ▸ nodup_eraseDups _
  unfold Engine.combine
  split
  case h_1 rows decided =>
    exact yields_pure (.inr (Engine.of_shortcut?_union decided))
  case h_2 =>
    refine yields_bind ?_ fun rows known => yields_bind_done (yields_countWork _) fun _ =>
      yields_pure (.inl known)
    cases left with
    | native left =>
      cases right with
      | native right =>
        exact yields_bind (yields_union_nodup truthful truthful') fun _ known =>
          yields_pure known
      | empty | computed => exact inMemory
    | empty | computed => exact inMemory

theorem belongs_of_knownEmpty (empty : selection.knownEmpty = true) (id : EntityId) :
    session.belongs selection id = false := by
  cases selection with
  | rows given =>
    obtain rfl := Rows.eq_empty_of_knownEmpty empty
    rfl
  | typed | deferred | filtered => cases empty

/-- To the extent of a type belongs its hierarchy, and nothing is in it twice. -/
theorem belongs_of_isExtent (extent : selection.isExtent = true)
    (known : selection.knownType? = some type) :
    session.Singly selection ∧
      ∀ id, session.inHierarchy type id = true → session.belongs selection id = true := by
  cases selection with
  | rows | typed | filtered => cases extent
  | deferred stamp ancestor q =>
    cases q with
    | all =>
      cases known
      exact ⟨singly_deferred rfl, fun _ => admits_all⟩
    | _ => cases extent

/-- A union that is its left operand. -/
theorem unites_left (awaits : session.Awaits s waiting) (within : left.waiting ⊆ waiting)
    (regular : session.Regular left)
    (inside : ∀ id, session.belongs right id = true → session.belongs left id = true)
    (single : session.Singly left ∨ session.Shares left right) :
    session.Unites s left right left where
  promises := ⟨regular, fun id => (Bool.or_eq_left_iff_imp.mpr (inside id)).symm, _, awaits, within⟩
  singly provided := single.elim id fun shares => (provided shares).1

/-- A union that is its right operand. -/
theorem unites_right (awaits : session.Awaits s waiting) (within : right.waiting ⊆ waiting)
    (regular : session.Regular right)
    (inside : ∀ id, session.belongs left id = true → session.belongs right id = true)
    (single : session.Singly right ∨ session.Shares left right) :
    session.Unites s left right right where
  promises :=
    ⟨regular, fun id => (Bool.or_eq_right_iff_imp.mpr (inside id)).symm, _, awaits, within⟩
  singly provided := single.elim id fun shares => (provided shares).2

section Joined

variable {stamp stamp' : Nat} {l r : Query}

/-- Two queries that become one. -/
theorem unites_of_joinedQueries (awaits : session.Awaits s waiting)
    (regular : session.Regular (.deferred stamp type l))
    (regular' : session.Regular (.deferred stamp' type r))
    (shares : session.Shares (.deferred stamp type l) (.deferred stamp' type r))
    (making : Selection.ofQuery type (.union l r) s = .ok selection s') :
    session.Unites s' (.deferred stamp type l) (.deferred stamp' type r) selection := by
  cases making
  refine ⟨⟨⟨(Bool.and_eq_true _ _).mpr ⟨regular.1, regular'.1⟩,
    treelike_append.mpr ⟨regular.2, regular'.2⟩⟩, fun id => admits_joinedQuery .union l r, _,
      awaits.stamped _, List.cons_subset_cons _ (List.nil_subset _)⟩, fun provided => ?_⟩
  obtain ⟨left, right⟩ := provided shares
  exact singly_deferred ((Bool.and_eq_true _ _).mpr ⟨left.orderly, right.orderly⟩)

/-- Two filters of one selection that become one. -/
theorem unites_of_joinedFilters (awaits : session.Awaits s waiting)
    (within : source.waiting ⊆ waiting)
    (regular : session.Regular (.filtered stamp type l source))
    (regular' : session.Regular (.filtered stamp' type r source))
    (shares : session.Shares (.filtered stamp type l source) (.filtered stamp' type r source))
    (making : source.filter type (.union l r) s = .ok selection s') :
    session.Unites s' (.filtered stamp type l source) (.filtered stamp' type r source)
      selection := by
  obtain ⟨⟨selective, treelike⟩, regular, confined⟩ := regular
  obtain ⟨⟨selective', treelike'⟩, -, -⟩ := regular'
  have admits : ∀ id, session.admits type (.union l r) id
      = (session.admits type l id || session.admits type r id) :=
    fun id => admits_joinedQuery .union l r
  obtain ⟨⟨regular, contains, awaits⟩, keeps⟩ := promises_of_filter awaits within regular confined
    (q := .union l r) ((Bool.and_eq_true _ _).mpr ⟨selective, selective'⟩)
    (treelike_append.mpr ⟨treelike, treelike'⟩) making
  refine ⟨⟨regular, fun id => ?_, awaits⟩, fun provided => ?_⟩
  · rw [contains id, admits id, Bool.and_or_distrib_left]
    rfl
  · obtain ⟨⟨orderly, once⟩, ⟨orderly', once'⟩⟩ := provided shares
    obtain ⟨orderlyLeft, orderlySource⟩ := (Bool.and_eq_true _ _).mp orderly
    obtain ⟨orderlyRight, -⟩ := (Bool.and_eq_true _ _).mp orderly'
    refine ⟨keeps.orderly ((Bool.and_eq_true _ _).mpr ⟨orderlyLeft, orderlyRight⟩) orderlySource,
      fun id => ?_⟩
    -- what either filter keeps it lists as often as the source
    have left := once id
    have right := once' id
    rw [keeps.copies id, admits id]
    simp only [copies] at left right
    cases here : session.admits type l id with
    | true => simpa [here] using left
    | false => simpa using right

end Joined

/-- Two selections that become one. -/
theorem unites_of_joined {joined : Effect Selection} (apart : left.ToldApart right)
    (awaits : session.Awaits s waiting) (within : left.waiting ⊆ waiting)
    (regular : session.Regular left) (regular' : session.Regular right)
    (joins : session.engine.joinQueries .union left right = some joined)
    (making : joined s = .ok selection s') : session.Unites s' left right selection := by
  have shares : session.Shares left right := .inr (.inr (.inr (joins ▸ rfl)))
  obtain ⟨l, r, type, deferralLeft, deferralRight, same, found, rfl⟩ :=
    Engine.exists_of_joinQueries joins
  cases left with
  | rows | typed => cases deferralLeft
  | deferred =>
    cases right with
    | rows | typed => cases deferralRight
    | filtered =>
      cases deferralLeft
      cases deferralRight
      cases same
    | deferred =>
      cases deferralLeft
      cases deferralRight
      obtain ⟨rfl, ⟨⟩⟩ := Option.ite_none_right_eq_some.mp found
      exact unites_of_joinedQueries awaits regular regular' shares making
  | filtered stamp a q source =>
    cases right with
    | rows | typed => cases deferralRight
    | deferred =>
      cases deferralLeft
      cases deferralRight
      cases same
    | filtered stamp' b q' source' =>
      cases deferralLeft
      cases deferralRight
      obtain ⟨rfl, ⟨⟩⟩ := Option.ite_none_right_eq_some.mp found
      obtain rfl := apart.sources _ rfl _ rfl source rfl source' rfl same
      exact unites_of_joinedFilters awaits (List.Subset.trans (List.subset_cons_self _ _) within)
        regular regular' shares making

section Uniting

variable (awaits : session.Awaits s waiting) (within : left.waiting ⊆ waiting)
  (within' : right.waiting ⊆ waiting) (regular : session.Regular left)
  (regular' : session.Regular right)

include awaits within within' regular regular'

/-- Two selections that are evaluated and combined. -/
theorem unites_of_combined
    (making : session.engine.combineEvaluated .union left right s = .ok selection s') :
    session.Unites s' left right selection := by
  obtain ⟨l, s₁, evaluating, making⟩ := Effect.exists_of_bind making
  obtain ⟨awaits₁, gathers⟩ := obtains_selection regular within awaits evaluating
  obtain ⟨r, s₂, evaluating', making⟩ := Effect.exists_of_bind making
  obtain ⟨awaits₂, gathers'⟩ := obtains_selection regular' within' awaits₁ evaluating'
  obtain ⟨rows, s₃, combining, made⟩ := Effect.exists_of_bind making
  have unites : session.Yields (session.engine.combine .union l r) _ :=
    ((yields_combine .union l r).and
      (yields_combine_rows_truthful .union gathers.truthful gathers'.truthful)).and
        (yields_union_rows gathers.truthful gathers'.truthful)
  obtain ⟨awaits₃, ⟨combines, truthful⟩, once⟩ :=
    obtains_of_quiet unites (quiet_combine _ _ _) awaits₂ combining
  cases made
  refine ⟨⟨truthful, fun id => ?_, [], ⟨awaits₃.sound, nofun, nofun⟩, List.nil_subset _⟩,
    fun provided => ⟨rfl, fun id => ?_⟩⟩
  · rw [← gathers.contains id, ← gathers'.contains id]
    exact combines.contains id
  · -- what is left as it stands, beside an operand that is known to be empty, is listed singly
    have one : ∀ {operand : Selection} {rows : Rows}, session.Gathers operand rows →
        session.Singly operand → rows.ids.count id ≤ 1 := fun gathers singly =>
      (gathers.count singly.orderly id).trans_le (singly.copies id)
    rcases once with nodup | ⟨rfl, rfl⟩ | ⟨rfl, rfl⟩
    · exact List.nodup_iff_count_le_one.mp nodup id
    · exact one gathers' (provided (.inr (.inl fun id => (gathers.contains id).symm))).2
    · exact one gathers (provided (.inr (.inr (.inl fun id => (gathers'.contains id).symm)))).1

/-- Two selections that become one, or are decided by the extent of a type, or are combined. -/
theorem unites_of_combineDeferred {decided : Option Selection} (apart : left.ToldApart right)
    (decides : ∀ selection ∈ decided, session.Unites s left right selection)
    (making : session.engine.combineDeferred .union left right decided s = .ok selection s') :
    session.Unites s' left right selection := by
  unfold Engine.combineDeferred at making
  cases joins : session.engine.joinQueries .union left right with
  | some joined =>
    rw [joins] at making
    exact unites_of_joined apart awaits within regular regular' joins making
  | none =>
    rw [joins] at making
    cases decided with
    | some here =>
      cases making
      exact decides _ rfl
    | none => exact unites_of_combined awaits within within' regular regular' making

/-- Any way to a union. -/
theorem unites_of_union (apart : left.ToldApart right)
    (making : session.engine.union left right s = .ok selection s') :
    session.Unites s' left right selection := by
  have nothing : ∀ {empty other : Selection}, empty.knownEmpty = true → ∀ id,
      session.belongs empty id = true → session.belongs other id = true := fun empty id here =>
    absurd here (Bool.eq_false_iff.mp (belongs_of_knownEmpty empty id))
  unfold Engine.union at making
  split at making
  case isTrue copies =>
    cases making
    rcases Bool.or_eq_true_iff.mp copies with same | empty
    · obtain rfl := apart.same same
      exact unites_left awaits within regular (fun _ => id) (.inr (.inl same))
    · exact unites_left awaits within regular (nothing empty)
        (.inr (.inr (.inr (.inl (belongs_of_knownEmpty empty)))))
  split at making
  case isTrue empty =>
    cases making
    exact unites_right awaits within' regular' (nothing empty)
      (.inr (.inr (.inl (belongs_of_knownEmpty empty))))
  refine unites_of_combineDeferred awaits within within' regular regular' apart ?_ making
  intro selection decided
  split at decided
  case isTrue => cases decided
  case isFalse same =>
    have same : Engine.sameKnownType left right = true := by simpa using same
    obtain ⟨type, known, known'⟩ := exists_of_sameKnownType same
    split at decided
    case isTrue extent =>
      cases decided
      obtain ⟨singly, hierarchy⟩ := belongs_of_isExtent extent known
      exact unites_left awaits within regular
        (fun id here => hierarchy id (confined_of_knownType? regular' known' id here))
        (.inl singly)
    split at decided
    case isTrue extent =>
      cases decided
      obtain ⟨singly, hierarchy⟩ := belongs_of_isExtent extent known'
      exact unites_right awaits within' regular'
        (fun id here => hierarchy id (confined_of_knownType? regular known id here))
        (.inl singly)
    case isFalse => cases decided

end Uniting

/-- A union lists the entities of both selections and no others, whichever way it goes and whatever
the session has answered before and still remembers.  It lists none of them twice if the operands
are evaluated and put together, however often these do.  If they are one selection, or one of them
has no entities, or they become one query, this takes that the operands list nothing twice, and that
their queries have no concatenations. -/
theorem union_agrees (session : Session) {ids leftIds rightIds : List EntityId}
    {s s' s₁ s₁' s₂ s₂' : State} (fresh : session.Fresh) (apart : left.ToldApart right)
    (regular : session.Regular left) (regular' : session.Regular right)
    (within : left.waiting ⊆ waiting) (within' : right.waiting ⊆ waiting)
    (pending : session.Pending s waiting) (pending₁ : session.Pending s₁ waiting)
    (pending₂ : session.Pending s₂ waiting)
    (ranLeft : (do (← left.evaluate session.engine).collect) s₁ = .ok leftIds s₁')
    (ranRight : (do (← right.evaluate session.engine).collect) s₂ = .ok rightIds s₂')
    (ran : (do (← (← session.engine.union left right).evaluate session.engine).collect) s
      = .ok ids s') :
    (∀ id, id ∈ ids ↔ id ∈ leftIds ∨ id ∈ rightIds) ∧
      ((left.same right = true ∨ leftIds = [] ∨ rightIds = [] ∨
          (session.engine.joinQueries .union left right).isSome = true →
        (left.orderly = true ∧ leftIds.Nodup) ∧ right.orderly = true ∧ rightIds.Nodup) →
      ids.Nodup) := by
  obtain ⟨-, listsLeft⟩ := obtains_collected regular within (pending₁.awaits fresh) ranLeft
  obtain ⟨-, listsRight⟩ := obtains_collected regular' within' (pending₂.awaits fresh) ranRight
  obtain ⟨selection, s₃, making, ran⟩ := Effect.exists_of_bind ran
  obtain ⟨⟨uniting, belongs, waiting', awaits, within''⟩, singly⟩ :=
    unites_of_union (pending.awaits fresh) within within' regular regular' apart making
  obtain ⟨-, lists⟩ := obtains_collected uniting within'' awaits ran
  refine ⟨fun id => ?_, fun provided => lists.nodup (singly fun shares => ?_)⟩
  · rw [lists.mem_iff id, belongs id, Bool.or_eq_true, listsLeft.mem_iff id, listsRight.mem_iff id]
  · have listed : left.same right = true ∨ leftIds = [] ∨ rightIds = [] ∨
        (session.engine.joinQueries .union left right).isSome = true :=
      shares.imp_right fun shares => shares.imp listsLeft.eq_nil fun shares =>
        shares.imp_left listsRight.eq_nil
    obtain ⟨⟨orderly, nodup⟩, orderly', nodup'⟩ := provided listed
    exact ⟨listsLeft.singly orderly nodup, listsRight.singly orderly' nodup'⟩

/-! ### Crates that are listed twice -/

/-- Two crates, the first one twice. -/
def stockCopies : Selection :=
  .rows (.computed 2 [⟨0, 2⟩, ⟨0, 0⟩, ⟨0, 2⟩])

theorem regular_stockThree : stock.Regular stockThree :=
  ⟨rfl, nofun⟩

set_option maxRecDepth 10000 in
/-- The crates that are listed twice and once, and the oldest one: all of them once. -/
theorem union_agrees_stock :
    ∃ s s₁ s₂,
      (do (← (← stock.engine.union stockCopies stockThree).evaluate stock.engine).collect)
        stockPending = .ok [⟨0, 2⟩, ⟨0, 0⟩, ⟨0, 1⟩] s ∧
      (do (← stockCopies.evaluate stock.engine).collect) stockPending
        = .ok [⟨0, 2⟩, ⟨0, 0⟩, ⟨0, 2⟩] s₁ ∧
      (do (← stockThree.evaluate stock.engine).collect) stockPending = .ok [⟨0, 1⟩] s₂ ∧
      (∀ id, id ∈ [(⟨0, 2⟩ : EntityId), ⟨0, 0⟩, ⟨0, 1⟩]
        ↔ id ∈ [(⟨0, 2⟩ : EntityId), ⟨0, 0⟩, ⟨0, 2⟩] ∨ id ∈ [(⟨0, 1⟩ : EntityId)]) ∧
      [(⟨0, 2⟩ : EntityId), ⟨0, 0⟩, ⟨0, 1⟩].Nodup := by
  have ran : EStateM.run' (do
      (← (← stock.engine.union stockCopies stockThree).evaluate stock.engine).collect)
      stockPending = some [⟨0, 2⟩, ⟨0, 0⟩, ⟨0, 1⟩] := by decide +kernel
  have ranLeft : EStateM.run' (do (← stockCopies.evaluate stock.engine).collect) stockPending
      = some [⟨0, 2⟩, ⟨0, 0⟩, ⟨0, 2⟩] := by decide +kernel
  have ranRight : EStateM.run' (do (← stockThree.evaluate stock.engine).collect) stockPending
      = some [⟨0, 1⟩] := by decide +kernel
  obtain ⟨s, ran⟩ := Effect.exists_of_run' ran
  obtain ⟨s₁, ranLeft⟩ := Effect.exists_of_run' ranLeft
  obtain ⟨s₂, ranRight⟩ := Effect.exists_of_run' ranRight
  have apart : stockCopies.ToldApart stockThree := ⟨nofun, nofun⟩
  obtain ⟨mem_iff, nodup⟩ := stock.union_agrees fresh_stock apart (nofun) regular_stockThree
    (List.nil_subset _) (by decide) pending_stock pending_stock pending_stock ranLeft ranRight ran
  exact ⟨s, s₁, s₂, ran, ranLeft, ranRight, mem_iff, nodup (by decide)⟩

/-- The crates among the copies that have some property. -/
def stockCopiesWith (stamp : Nat) (property : String) : Selection :=
  .filtered stamp "crate" (.hasProperty property) stockCopies

set_option maxRecDepth 10000 in
/-- The copies that have an age, and the copies that have a weight: the filters become one, and the
crate that is listed twice by both is listed twice by their union. -/
theorem union_disagrees :
    stock.Fresh ∧ (stockCopiesWith 0 "age").ToldApart (stockCopiesWith 1 "weight") ∧
      stock.Regular (stockCopiesWith 0 "age") ∧ stock.Regular (stockCopiesWith 1 "weight") ∧
      stock.Pending stockPending
        ((stockCopiesWith 1 "weight").waiting ++ (stockCopiesWith 0 "age").waiting) ∧
      ∃ s s₁ s₂,
        (do (← (← stock.engine.union (stockCopiesWith 0 "age")
          (stockCopiesWith 1 "weight")).evaluate stock.engine).collect) stockPending
            = .ok [⟨0, 2⟩, ⟨0, 0⟩, ⟨0, 2⟩] s ∧
        (do (← (stockCopiesWith 0 "age").evaluate stock.engine).collect) stockPending
          = .ok [⟨0, 2⟩, ⟨0, 0⟩, ⟨0, 2⟩] s₁ ∧
        (do (← (stockCopiesWith 1 "weight").evaluate stock.engine).collect) stockPending
          = .ok [⟨0, 2⟩, ⟨0, 0⟩, ⟨0, 2⟩] s₂ ∧
        ¬ [(⟨0, 2⟩ : EntityId), ⟨0, 0⟩, ⟨0, 2⟩].Nodup := by
  have ran : EStateM.run' (do
      (← (← stock.engine.union (stockCopiesWith 0 "age") (stockCopiesWith 1 "weight")).evaluate
        stock.engine).collect) stockPending = some [⟨0, 2⟩, ⟨0, 0⟩, ⟨0, 2⟩] := by decide +kernel
  have ranLeft : EStateM.run' (do
      (← (stockCopiesWith 0 "age").evaluate stock.engine).collect) stockPending
      = some [⟨0, 2⟩, ⟨0, 0⟩, ⟨0, 2⟩] := by decide +kernel
  have ranRight : EStateM.run' (do
      (← (stockCopiesWith 1 "weight").evaluate stock.engine).collect) stockPending
      = some [⟨0, 2⟩, ⟨0, 0⟩, ⟨0, 2⟩] := by decide +kernel
  obtain ⟨s, ran⟩ := Effect.exists_of_run' ran
  obtain ⟨s₁, ranLeft⟩ := Effect.exists_of_run' ranLeft
  obtain ⟨s₂, ranRight⟩ := Effect.exists_of_run' ranRight
  have apart : (stockCopiesWith 0 "age").ToldApart (stockCopiesWith 1 "weight") := by
    refine ⟨nofun, ?_⟩
    rintro _ ⟨⟩ _ ⟨⟩ _ ⟨⟩ _ ⟨⟩ _
    rfl
  have ofType : stock.Confined "crate" stockCopies := by
    intro id mem
    have mem : id ∈ [(⟨0, 2⟩ : EntityId), ⟨0, 0⟩, ⟨0, 2⟩] := List.contains_iff_mem.mp mem
    simp only [List.mem_cons, List.not_mem_nil, or_false] at mem
    rcases mem with rfl | rfl | rfl <;> decide +kernel
  have regular : ∀ stamp property, stock.Regular (stockCopiesWith stamp property) :=
    fun stamp property => ⟨⟨rfl, nofun⟩, nofun, ofType⟩
  exact ⟨fresh_stock, apart, regular _ _, regular _ _,
    (stock.pending_start.stamped fresh_stock _).stamped fresh_stock _, s, s₁, s₂, ran, ranLeft,
    ranRight, by decide⟩

end Session

end ExtentQuery

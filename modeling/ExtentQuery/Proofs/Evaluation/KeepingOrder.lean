import ExtentQuery.Proofs.Evaluation.Concatenation
import ExtentQuery.Proofs.Evaluation.Selections

/-!
# Operations that keep the order of the left side

An intersection and a difference leave entities of the left selection out, and the others stay as
they stand.  There are five ways to such a result: copies and selections that are known to be
empty decide it, two queries become one, the extent of a type decides, and rows are combined.
All of them list the same entities in the same order, with two exceptions.

* `Session.offers_of_joined` — two queries that become one;
* `Session.offers_of_combined` — two selections that are evaluated and combined;
* `Session.offers_of_operate` — any way of the two operations;
* `Session.restricted_agrees` — the result against the left side without what is left out;
* `Session.restricted_disagrees`, `Session.restricted_disagrees_extent` — results in the order of
  the right side.

**Where the right side shows.**  If two queries become one, the sort steps of the right one sort
the result as well.  And if the left selection is the whole extent of a type, an intersection is
the right selection as it stands, which may be in any order.
-/

namespace ExtentQuery

open Effect

/-- A restriction of a list leaves entities out, those that the other list has or has not. -/
theorem SetOperation.apply_of_restricts {operation : SetOperation}
    (restricts : operation = .inter ∨ operation = .diff) (left right : List EntityId) :
    operation.apply left right
      = left.filter fun id => operation.truth true (right.contains id) := by
  rcases restricts with rfl | rfl <;> rfl

theorem SetOperation.truth_of_restricts {operation : SetOperation}
    (restricts : operation = .inter ∨ operation = .diff) (x y : Bool) :
    operation.truth x y = (x && operation.truth true y) := by
  rcases restricts with rfl | rfl <;> rfl

/-- Whether two selections are the very same only if they are equal, and also what they filter. -/
structure Selection.ToldApart (left right : Selection) : Prop where
  same : left.same right = true → left = right
  sources : ∀ l ∈ left.deferral?, ∀ r ∈ right.deferral?, ∀ a ∈ l.source, ∀ b ∈ r.source,
    a.same b = true → a = b

/-- Two queries that were asked at different times. -/
theorem Selection.toldApart_of_deferred {stamp stamp' : Nat} (apart : stamp ≠ stamp')
    (type type' : String) (q q' : Query) :
    (deferred stamp type q).ToldApart (deferred stamp' type' q') := by
  refine ⟨fun same => absurd (beq_iff_eq.mp same) apart, fun l mem r _ a filters => ?_⟩
  rw [← Option.some.inj mem] at filters
  cases filters

namespace Engine

variable {engine : Engine} {operation : SetOperation} {left right : Selection}

/-- Two selections become one if both wait, filter the same selection or none, and their types
permit it. -/
theorem exists_of_joinQueries {joined : Effect Selection}
    (joins : engine.joinQueries operation left right = some joined) :
    ∃ l r type, left.deferral? = some l ∧ right.deferral? = some r ∧
      sameSource l.source r.source = true ∧
      engine.joinedType? operation l.type r.type = some type ∧
      joined = Selection.defer type (joinedQuery operation l.query r.query) l.source := by
  obtain ⟨l, deferralLeft, joins⟩ := Option.bind_eq_some_iff.mp joins
  obtain ⟨r, deferralRight, joins⟩ := Option.bind_eq_some_iff.mp joins
  obtain ⟨same, joins⟩ := Option.ite_none_right_eq_some.mp joins
  obtain ⟨type, found, joins⟩ := Option.bind_eq_some_iff.mp joins
  exact ⟨l, r, type, deferralLeft, deferralRight, same, found, (Option.some.inj joins).symm⟩

theorem isSubtype_of_joinedType? {a b type : String}
    (found : engine.joinedType? operation a b = some type) :
    engine.metadata.isSubtype type a = true := by
  cases operation with
  | inter => exact (isSubtype_of_narrowerType? found).1
  | union | diff =>
    obtain ⟨-, same⟩ := Option.ite_none_right_eq_some.mp found
    rw [← Option.some.inj same]
    exact Metadata.isSubtype_self _ _
  | concat => cases found

end Engine

namespace Session

variable {session : Session} {operation : SetOperation} {left right selection : Selection}
  {leftIds rightIds : List EntityId} {s s' : State} {waiting : List (Nat × Query)}

/-! ### Queries that become one -/

/-- An operation that joins two queries admits what is admitted of the left one and not left out
because of the right one. -/
theorem admits_of_joined {a b type : String} {l r : Query} {id : EntityId}
    (restricts : operation = .inter ∨ operation = .diff)
    (found : session.engine.joinedType? operation a b = some type) :
    session.admits type (Engine.joinedQuery operation l r) id
      = (session.admits a l id && operation.truth true (session.admits b r id)) := by
  rw [admits_joinedQuery, ← SetOperation.truth_of_restricts restricts]
  exact admits_of_joinedType? (l := ⟨0, a, l, none⟩) (r := ⟨0, b, r, none⟩) found

section Joined

variable {a b type : String} {stamp stamp' : Nat} {l r : Query}

/-- Two queries that become one list the left side without what is left out, if the right one has
no sort steps. -/
theorem offers_of_joinedQueries (restricts : operation = .inter ∨ operation = .diff)
    (awaits : session.Awaits s waiting) (waits : session.Waits a l)
    (waits' : session.Waits b r) (unsorted : r.unsorted = true)
    (lists : session.Lists (.deferred stamp a l) leftIds)
    (lists' : session.Lists (.deferred stamp' b r) rightIds)
    (found : session.engine.joinedType? operation a b = some type)
    (making : Selection.ofQuery type (Engine.joinedQuery operation l r) s = .ok selection s') :
    session.Offers s' selection (operation.apply leftIds rightIds) := by
  cases making
  obtain ⟨names, tree, arranged⟩ := lists
  obtain ⟨_, -, arranged'⟩ := lists'
  obtain ⟨names', tree', arranged⟩ := exists_arranged_filter
    (Engine.isSubtype_of_joinedType? found) tree arranged (fun _ => inHierarchy_of_admits)
    fun id => (admits_of_joined restricts found).trans
      (congrArg (_ && operation.truth true ·) (arranged'.contains id).symm)
  rw [← SetOperation.apply_of_restricts restricts] at arranged
  obtain ⟨joined, orders⟩ := waits.joined restricts waits'.orderly unsorted ⟨names', tree'⟩
  exact ⟨joined, ⟨names', orders ▸ tree', orders ▸ arranged⟩, _, awaits.stamped _,
    List.cons_subset_cons _ (List.nil_subset _)⟩

/-- Two filters of one selection that become one. -/
theorem offers_of_joinedFilters {source : Selection}
    (restricts : operation = .inter ∨ operation = .diff) (awaits : session.Awaits s waiting)
    (within : source.waiting ⊆ waiting)
    (proper : session.Proper (.filtered stamp a l source))
    (proper' : session.Proper (.filtered stamp' b r source))
    (lists : session.Lists (.filtered stamp a l source) leftIds)
    (lists' : session.Lists (.filtered stamp' b r source) rightIds)
    (found : session.engine.joinedType? operation a b = some type)
    (making : source.filter type (Engine.joinedQuery operation l r) s = .ok selection s') :
    session.Offers s' selection (operation.apply leftIds rightIds) := by
  obtain ⟨⟨orderly, unsorted⟩, proper, truthful⟩ := proper
  obtain ⟨⟨orderly', unsorted'⟩, -, truthful'⟩ := proper'
  obtain ⟨whole, lists, rfl⟩ := lists
  obtain ⟨_, lists', rfl⟩ := lists'
  obtain rfl := lists.unique proper lists'
  have both : (l.orderly && r.orderly) = true ∧ (l.unsorted && r.unsorted) = true :=
    ⟨(Bool.and_eq_true _ _).mpr ⟨orderly, orderly'⟩,
      (Bool.and_eq_true _ _).mpr ⟨unsorted, unsorted'⟩⟩
  have joined : (Engine.joinedQuery operation l r).orderly = true ∧
      (Engine.joinedQuery operation l r).unsorted = true := by
    rcases restricts with rfl | rfl <;> exact both
  have ofType : session.Truthful type source := by
    rcases Engine.joinedType?_eq_or found with rfl | rfl
    · exact truthful
    · exact truthful'
  have kept : operation.apply (whole.filter (session.admits a l))
      (whole.filter (session.admits b r))
        = whole.filter (session.admits type (Engine.joinedQuery operation l r)) := by
    rw [SetOperation.apply_of_restricts restricts, List.filter_filter]
    refine List.filter_congr fun id mem => ?_
    have here : (whole.filter (session.admits b r)).contains id = session.admits b r id := by
      rw [Bool.eq_iff_iff, List.contains_iff_mem, List.mem_filter, and_iff_right mem]
    rw [here, Bool.and_comm, admits_of_joined restricts found]
  rw [kept]
  exact offers_of_filter awaits within proper lists joined.1 joined.2 ofType making

end Joined

/-- Whatever two selections become, if they become one: the left side without what is left out. -/
theorem offers_of_joined {joined : Effect Selection}
    (restricts : operation = .inter ∨ operation = .diff) (apart : left.ToldApart right)
    (awaits : session.Awaits s waiting) (within : left.waiting ⊆ waiting)
    (proper : session.Proper left) (proper' : session.Proper right)
    (lists : session.Lists left leftIds) (lists' : session.Lists right rightIds)
    (joins : session.engine.joinQueries operation left right = some joined)
    (unsorted : ∀ r ∈ right.deferral?, r.query.unsorted = true)
    (making : joined s = .ok selection s') :
    session.Offers s' selection (operation.apply leftIds rightIds) := by
  obtain ⟨l, r, type, deferralLeft, deferralRight, same, found, rfl⟩ :=
    Engine.exists_of_joinQueries joins
  have unsorted := unsorted r deferralRight
  cases left with
  | rows | typed => cases deferralLeft
  | deferred =>
    cases right with
    | rows | typed => cases deferralRight
    | filtered =>
      cases deferralLeft
      cases deferralRight
      cases same
    | deferred =>
      cases deferralLeft
      cases deferralRight
      exact offers_of_joinedQueries restricts awaits proper proper' unsorted lists lists' found
        making
  | filtered stamp a q source =>
    cases right with
    | rows | typed => cases deferralRight
    | deferred =>
      cases deferralLeft
      cases deferralRight
      cases same
    | filtered stamp' b q' source' =>
      cases deferralLeft
      cases deferralRight
      obtain rfl := apart.sources _ rfl _ rfl source rfl source' rfl same
      exact offers_of_joinedFilters restricts awaits
        (List.Subset.trans (List.subset_cons_self _ _) within) proper proper' lists lists' found
        making

/-! ### Any way of an operation -/

/-- Two selections that are evaluated and combined. -/
theorem offers_of_combined (restricts : operation = .inter ∨ operation = .diff)
    (awaits : session.Awaits s waiting) (within : left.waiting ⊆ waiting)
    (within' : right.waiting ⊆ waiting) (proper : session.Proper left)
    (proper' : session.Proper right) (lists : session.Lists left leftIds)
    (lists' : session.Lists right rightIds)
    (making : session.engine.combineEvaluated operation left right s = .ok selection s') :
    session.Offers s' selection (operation.apply leftIds rightIds) := by
  obtain ⟨l, s₁, evaluating, making⟩ := Effect.exists_of_bind making
  obtain ⟨awaits₁, found⟩ := lists_of_evaluate awaits within proper evaluating
  obtain ⟨r, s₂, evaluating', making⟩ := Effect.exists_of_bind making
  obtain ⟨awaits₂, found'⟩ := lists_of_evaluate awaits₁ within' proper' evaluating'
  obtain ⟨rows, s₃, combining, made⟩ := Effect.exists_of_bind making
  obtain ⟨reached, combines⟩ := yields_combine operation l r awaits₂.sound.reached combining
  have sound := awaits₂.sound.of_sameMemory (remembersNothing_combine _ _ _ combining) reached
  cases made
  refine offers_rows sound ?_
  have other : operation ≠ .union := by
    rcases restricts with rfl | rfl <;> decide
  rw [combines.ids other, lists.unique proper found, lists'.unique proper' found']

/-- Two selections that become one, or are decided by the extent of a type, or are combined. -/
theorem offers_of_combineDeferred {decided : Option Selection}
    (restricts : operation = .inter ∨ operation = .diff) (apart : left.ToldApart right)
    (awaits : session.Awaits s waiting) (within : left.waiting ⊆ waiting)
    (within' : right.waiting ⊆ waiting) (proper : session.Proper left)
    (proper' : session.Proper right) (lists : session.Lists left leftIds)
    (lists' : session.Lists right rightIds)
    (unsorted : (session.engine.joinQueries operation left right).isSome = true →
      ∀ r ∈ right.deferral?, r.query.unsorted = true)
    (decides : ∀ selection ∈ decided,
      session.Offers s selection (operation.apply leftIds rightIds))
    (making : session.engine.combineDeferred operation left right decided s = .ok selection s') :
    session.Offers s' selection (operation.apply leftIds rightIds) := by
  unfold Engine.combineDeferred at making
  cases joins : session.engine.joinQueries operation left right with
  | some joined =>
    rw [joins] at making
    exact offers_of_joined restricts apart awaits within proper proper' lists lists' joins
      (unsorted (joins ▸ rfl)) making
  | none =>
    rw [joins] at making
    cases decided with
    | some here =>
      cases making
      exact decides _ rfl
    | none =>
      exact offers_of_combined restricts awaits within within' proper proper' lists lists' making

/-- The extent of a type lists its hierarchy in the order of identities. -/
theorem Lists.of_isExtent {type : String} (lists : session.Lists left leftIds)
    (extent : left.isExtent = true) (known : left.knownType? = some type) :
    Ascending leftIds ∧ ∀ id, id ∈ leftIds ↔ session.inHierarchy type id = true := by
  cases left with
  | rows | typed | filtered => cases extent
  | deferred stamp type q =>
    cases q with
    | all =>
      cases known
      obtain ⟨names, -, arranged⟩ := lists
      exact ⟨arranged.ordered, fun id =>
        arranged.mem_iff.trans ⟨inHierarchy_of_admits, admits_all⟩⟩
    | _ => cases extent

theorem Lists.of_knownEmpty (lists : session.Lists left leftIds)
    (empty : left.knownEmpty = true) : leftIds = [] := by
  cases left with
  | rows given =>
    obtain rfl := Rows.eq_empty_of_knownEmpty empty
    exact lists
  | typed | deferred | filtered => cases empty

theorem exists_of_sameKnownType (same : Engine.sameKnownType left right = true) :
    ∃ type, left.knownType? = some type ∧ right.knownType? = some type := by
  unfold Engine.sameKnownType at same
  split at same
  case h_1 a b known known' => exact ⟨a, known, (beq_iff_eq.mp same).symm ▸ known'⟩
  case h_2 => cases same

/-- The whole extent restricted to entities of the type, if they are in the order of identities. -/
theorem filter_extent {whole ids : List EntityId} (ascending : Ascending whole)
    (ascending' : Ascending ids) (inside : ∀ id ∈ ids, id ∈ whole) :
    whole.filter (fun id => ids.contains id) = ids := by
  refine List.Pairwise.eq_of_mem_iff (ascending.filter _) ascending' fun id => ?_
  rw [List.mem_filter, List.contains_iff_mem]
  exact and_iff_right_of_imp (inside id)

section Operating

variable (apart : left.ToldApart right) (awaits : session.Awaits s waiting)
  (within : left.waiting ⊆ waiting) (within' : right.waiting ⊆ waiting)
  (proper : session.Proper left) (proper' : session.Proper right)
  (lists : session.Lists left leftIds) (lists' : session.Lists right rightIds)

include apart awaits within within' proper proper' lists lists'

/-- Any way to an intersection. -/
theorem offers_of_inter
    (unsorted : (session.engine.joinQueries .inter left right).isSome = true →
      ∀ r ∈ right.deferral?, r.query.unsorted = true)
    (ascending : left.isExtent = true → Engine.sameKnownType left right = true →
      Ascending rightIds)
    (making : session.engine.inter left right s = .ok selection s') :
    session.Offers s' selection (SetOperation.inter.apply leftIds rightIds) := by
  have whole : (∀ id ∈ leftIds, id ∈ rightIds) →
      session.Offers s left (SetOperation.inter.apply leftIds rightIds) := by
    intro inside
    have kept : SetOperation.inter.apply leftIds rightIds = leftIds :=
      List.filter_eq_self.mpr fun id mem => List.contains_iff_mem.mpr (inside id mem)
    exact ⟨proper, kept.symm ▸ lists, waiting, awaits, within⟩
  unfold Engine.inter at making
  split at making
  case isTrue same =>
    obtain rfl := apart.same same
    obtain rfl := lists.unique proper lists'
    cases making
    exact whole fun _ => id
  split at making
  case isTrue empty =>
    cases making
    refine offers_rows awaits.sound ?_
    rcases Bool.or_eq_true_iff.mp empty with empty | empty
    · rw [lists.of_knownEmpty empty]
      rfl
    · rw [lists'.of_knownEmpty empty]
      exact (List.filter_eq_nil_iff.mpr fun _ _ => Bool.false_ne_true).symm
  refine offers_of_combineDeferred (.inl rfl) apart awaits within within' proper proper' lists
    lists' unsorted ?_ making
  intro selection decided
  split at decided
  case isTrue => cases decided
  case isFalse same =>
    have same : Engine.sameKnownType left right = true := by simpa using same
    obtain ⟨type, known, known'⟩ := exists_of_sameKnownType same
    split at decided
    case isTrue extent =>
      cases decided
      obtain ⟨-, hierarchy⟩ := lists'.of_isExtent extent known'
      exact whole fun id mem => (hierarchy id).mpr (lists.inside proper known id mem)
    split at decided
    case isTrue extent =>
      cases decided
      obtain ⟨ordered, hierarchy⟩ := lists.of_isExtent extent known
      have kept : SetOperation.inter.apply leftIds rightIds = rightIds :=
        filter_extent ordered (ascending extent same)
          fun id mem => (hierarchy id).mpr (lists'.inside proper' known' id mem)
      exact ⟨proper', kept.symm ▸ lists', waiting, awaits, within'⟩
    case isFalse => cases decided

/-- Any way to a difference. -/
theorem offers_of_diff
    (unsorted : (session.engine.joinQueries .diff left right).isSome = true →
      ∀ r ∈ right.deferral?, r.query.unsorted = true)
    (making : session.engine.diff left right s = .ok selection s') :
    session.Offers s' selection (SetOperation.diff.apply leftIds rightIds) := by
  have nothing : (∀ id ∈ leftIds, id ∈ rightIds) →
      session.Offers s .none (SetOperation.diff.apply leftIds rightIds) := by
    intro inside
    refine offers_rows awaits.sound (List.filter_eq_nil_iff.mpr fun id mem => ?_).symm
    rw [List.contains_iff_mem.mpr (inside id mem)]
    exact Bool.false_ne_true
  unfold Engine.diff at making
  split at making
  case isTrue copies =>
    cases making
    rcases Bool.or_eq_true_iff.mp copies with same | empty
    · obtain rfl := apart.same same
      obtain rfl := lists.unique proper lists'
      exact nothing fun _ => id
    · rw [lists.of_knownEmpty empty] at nothing ⊢
      exact nothing nofun
  split at making
  case isTrue empty =>
    cases making
    have kept : SetOperation.diff.apply leftIds rightIds = leftIds := by
      rw [lists'.of_knownEmpty empty]
      exact List.filter_eq_self.mpr fun _ _ => rfl
    exact ⟨proper, kept.symm ▸ lists, waiting, awaits, within⟩
  refine offers_of_combineDeferred (.inr rfl) apart awaits within within' proper proper' lists
    lists' unsorted ?_ making
  intro selection decided
  obtain ⟨extent, none⟩ := Option.ite_none_right_eq_some.mp decided
  obtain ⟨same, extent⟩ := (Bool.and_eq_true _ _).mp extent
  obtain ⟨type, known, known'⟩ := exists_of_sameKnownType same
  obtain ⟨-, hierarchy⟩ := lists'.of_isExtent extent known'
  cases none
  exact nothing fun id mem => (hierarchy id).mpr (lists.inside proper known id mem)

end Operating

/-- A state of a session in which selections wait for their evaluation: the queries so far were
legible, and what is decided for the stamps was made of their queries. -/
structure Pending (session : Session) (s : State) (waiting : List (Nat × Query)) : Prop where
  history : session.ReachesBy (·.legible = true) s
  fits : ∀ entry ∈ waiting, session.Fits s entry.1 entry.2
  single : ∀ entry ∈ waiting, ∀ other ∈ waiting, entry.1 = other.1 → entry.2 = other.2

/-- In the beginning nothing waits. -/
theorem pending_start (session : Session) : session.Pending session.start [] :=
  ⟨.refl, fun _ mem => absurd mem List.not_mem_nil, fun _ mem => absurd mem List.not_mem_nil⟩

theorem Pending.awaits (pending : session.Pending s waiting) (fresh : session.Fresh) :
    session.Awaits s waiting :=
  ⟨sound_of_reachesBy fresh pending.history, pending.fits, pending.single⟩

theorem Pending.stamped (pending : session.Pending s waiting) (fresh : session.Fresh) (q : Query) :
    session.Pending { s with nextStamp := s.nextStamp + 1 } ((s.nextStamp, q) :: waiting) :=
  have awaits := (pending.awaits fresh).stamped q
  ⟨pending.history.tail (.stamped s), awaits.fits, awaits.single⟩

/-- An intersection and a difference list the left selection without what is left out, in its
order and as often, whichever way they go and whatever the session has answered before and still
remembers.  If two queries become one, this takes that the right one is not sorted.  If the left
selection is the extent of the type of the right one, an intersection takes that the right one is
in the order of identities. -/
theorem restricted_agrees (session : Session) {ids : List EntityId} {s₁ s₁' s₂ s₂' : State}
    (restricts : operation = .inter ∨ operation = .diff) (fresh : session.Fresh)
    (apart : left.ToldApart right) (proper : session.Proper left)
    (proper' : session.Proper right)
    (within : left.waiting ⊆ waiting) (within' : right.waiting ⊆ waiting)
    (pending : session.Pending s waiting) (pending₁ : session.Pending s₁ waiting)
    (pending₂ : session.Pending s₂ waiting)
    (unsorted : (session.engine.joinQueries operation left right).isSome = true →
      ∀ r ∈ right.deferral?, r.query.unsorted = true)
    (ascending : operation = .inter → left.isExtent = true →
      Engine.sameKnownType left right = true → Ascending rightIds)
    (ranLeft : (do (← left.evaluate session.engine).collect) s₁ = .ok leftIds s₁')
    (ranRight : (do (← right.evaluate session.engine).collect) s₂ = .ok rightIds s₂')
    (ran : (do
      (← (← session.engine.operate operation left right).evaluate session.engine).collect) s
        = .ok ids s') :
    ids = operation.apply leftIds rightIds := by
  have listsLeft := lists_of_collected (pending₁.awaits fresh) within proper ranLeft
  have listsRight := lists_of_collected (pending₂.awaits fresh) within' proper' ranRight
  have awaits := pending.awaits fresh
  obtain ⟨selection, s₃, making, ran⟩ := Effect.exists_of_bind ran
  refine Offers.collected ?_ ran
  rcases restricts with rfl | rfl
  · exact offers_of_inter apart awaits within within' proper proper' listsLeft listsRight unsorted
      (ascending rfl) making
  · exact offers_of_diff apart awaits within within' proper proper' listsLeft listsRight unsorted
      making

/-! ### Crates that are left out -/

open PropertyOrder (byWeight)

/-- The crates by weight. -/
def stockByWeight : Selection :=
  .deferred 0 "crate" (Query.all.sortedBy [byWeight])

/-- The oldest crate. -/
def stockThree : Selection :=
  .deferred 1 "crate" .three

/-- The state in which both were made. -/
def stockPending : State :=
  { stock.start with nextStamp := 2 }

theorem pending_stock : stock.Pending stockPending
    [(1, .three), (0, Query.all.sortedBy [byWeight])] :=
  (stock.pending_start.stamped fresh_stock (Query.all.sortedBy [byWeight])).stamped fresh_stock
    .three

theorem waits_stockByWeight : stock.Waits "crate" (Query.all.sortedBy [byWeight]) where
  orderly := rfl
  byProperties := rfl
  lone := rfl
  few := by decide
  tree := ⟨["crate"], fun _ => Metadata.tree_of_childless rfl⟩
  unmixed order mem := unmixed_stock order (.tail _ mem)

set_option maxRecDepth 10000 in
/-- The crates by weight without the oldest one, which are still by weight. -/
theorem restricted_agrees_stock :
    ∃ s s₁ s₂,
      (do (← (← stock.engine.operate .diff stockByWeight stockThree).evaluate
        stock.engine).collect) stockPending = .ok [⟨0, 2⟩, ⟨0, 0⟩] s ∧
      (do (← stockByWeight.evaluate stock.engine).collect) stockPending
        = .ok [⟨0, 1⟩, ⟨0, 2⟩, ⟨0, 0⟩] s₁ ∧
      (do (← stockThree.evaluate stock.engine).collect) stockPending = .ok [⟨0, 1⟩] s₂ ∧
      [(⟨0, 2⟩ : EntityId), ⟨0, 0⟩]
        = SetOperation.diff.apply [⟨0, 1⟩, ⟨0, 2⟩, ⟨0, 0⟩] [⟨0, 1⟩] := by
  have ran : EStateM.run' (do
      (← (← stock.engine.operate .diff stockByWeight stockThree).evaluate stock.engine).collect)
      stockPending = some [⟨0, 2⟩, ⟨0, 0⟩] := by decide +kernel
  have ranLeft : EStateM.run' (do (← stockByWeight.evaluate stock.engine).collect) stockPending
      = some [⟨0, 1⟩, ⟨0, 2⟩, ⟨0, 0⟩] := by decide +kernel
  have ranRight : EStateM.run' (do (← stockThree.evaluate stock.engine).collect) stockPending
      = some [⟨0, 1⟩] := by decide +kernel
  obtain ⟨s, ran⟩ := Effect.exists_of_run' ran
  obtain ⟨s₁, ranLeft⟩ := Effect.exists_of_run' ranLeft
  obtain ⟨s₂, ranRight⟩ := Effect.exists_of_run' ranRight
  refine ⟨s, s₁, s₂, ran, ranLeft, ranRight, ?_⟩
  have unsorted : ∀ r ∈ stockThree.deferral?, r.query.unsorted = true := by
    intro r mem
    rw [← Option.some.inj mem]
    rfl
  exact stock.restricted_agrees (.inr rfl) fresh_stock
    (Selection.toldApart_of_deferred (by decide) ..) waits_stockByWeight
    (waits_of_unsorted _ rfl rfl) (by decide) (by decide) pending_stock pending_stock
    pending_stock (fun _ => unsorted) (fun crossed => absurd crossed (by decide))
    ranLeft ranRight ran

/-- The crates that have an age. -/
def stockAged : Selection :=
  .deferred 0 "crate" (.hasProperty "age")

/-- The crates that have a weight, by weight. -/
def stockWeighed : Selection :=
  .deferred 1 "crate" ((Query.hasProperty "weight").sortedBy [byWeight])

theorem waits_stockWeighed :
    stock.Waits "crate" ((Query.hasProperty "weight").sortedBy [byWeight]) where
  orderly := rfl
  byProperties := rfl
  lone := rfl
  few := by decide
  tree := ⟨["crate"], fun _ => Metadata.tree_of_childless rfl⟩
  unmixed order mem := unmixed_stock order (.tail _ mem)

set_option maxRecDepth 10000 in
/-- The crates that have an age, restricted to those that have a weight.  Both hold all crates, but
the result is in the order of the right side, since the weight comes to sort it. -/
theorem restricted_disagrees :
    stock.Fresh ∧ stockAged.ToldApart stockWeighed ∧ stock.Proper stockAged ∧
      stock.Proper stockWeighed ∧
      stock.Pending stockPending (stockWeighed.waiting ++ stockAged.waiting) ∧
      ∃ s s₁ s₂,
        (do (← (← stock.engine.operate .inter stockAged stockWeighed).evaluate
          stock.engine).collect) stockPending = .ok [⟨0, 1⟩, ⟨0, 2⟩, ⟨0, 0⟩] s ∧
        (do (← stockAged.evaluate stock.engine).collect) stockPending
          = .ok [⟨0, 0⟩, ⟨0, 1⟩, ⟨0, 2⟩] s₁ ∧
        (do (← stockWeighed.evaluate stock.engine).collect) stockPending
          = .ok [⟨0, 1⟩, ⟨0, 2⟩, ⟨0, 0⟩] s₂ ∧
        [(⟨0, 1⟩ : EntityId), ⟨0, 2⟩, ⟨0, 0⟩]
          ≠ SetOperation.inter.apply [⟨0, 0⟩, ⟨0, 1⟩, ⟨0, 2⟩] [⟨0, 1⟩, ⟨0, 2⟩, ⟨0, 0⟩] := by
  have ran : EStateM.run' (do
      (← (← stock.engine.operate .inter stockAged stockWeighed).evaluate stock.engine).collect)
      stockPending = some [⟨0, 1⟩, ⟨0, 2⟩, ⟨0, 0⟩] := by decide +kernel
  have ranLeft : EStateM.run' (do (← stockAged.evaluate stock.engine).collect) stockPending
      = some [⟨0, 0⟩, ⟨0, 1⟩, ⟨0, 2⟩] := by decide +kernel
  have ranRight : EStateM.run' (do (← stockWeighed.evaluate stock.engine).collect) stockPending
      = some [⟨0, 1⟩, ⟨0, 2⟩, ⟨0, 0⟩] := by decide +kernel
  obtain ⟨s, ran⟩ := Effect.exists_of_run' ran
  obtain ⟨s₁, ranLeft⟩ := Effect.exists_of_run' ranLeft
  obtain ⟨s₂, ranRight⟩ := Effect.exists_of_run' ranRight
  exact ⟨fresh_stock, Selection.toldApart_of_deferred (by decide) .., waits_of_unsorted _ rfl rfl,
    waits_stockWeighed, (stock.pending_start.stamped fresh_stock _).stamped fresh_stock _, s, s₁,
    s₂, ran, ranLeft, ranRight, by decide⟩

/-- Two crates, the last one first. -/
def stockPicked : Selection :=
  .typed 1 "crate" (.rows (.computed 2 [⟨0, 2⟩, ⟨0, 0⟩]))

set_option maxRecDepth 10000 in
/-- All crates, restricted to two that are given in another order: the result is the right side as
it stands. -/
theorem restricted_disagrees_extent :
    stock.Proper (.deferred 0 "crate" .all) ∧ stock.Proper stockPicked ∧
      ∃ s s₁ s₂,
        (do (← (← stock.engine.operate .inter (.deferred 0 "crate" .all) stockPicked).evaluate
          stock.engine).collect) stockPending = .ok [⟨0, 2⟩, ⟨0, 0⟩] s ∧
        (do (← (Selection.deferred 0 "crate" .all).evaluate stock.engine).collect) stockPending
          = .ok [⟨0, 0⟩, ⟨0, 1⟩, ⟨0, 2⟩] s₁ ∧
        (do (← stockPicked.evaluate stock.engine).collect) stockPending
          = .ok [⟨0, 2⟩, ⟨0, 0⟩] s₂ ∧
        [(⟨0, 2⟩ : EntityId), ⟨0, 0⟩]
          ≠ SetOperation.inter.apply [⟨0, 0⟩, ⟨0, 1⟩, ⟨0, 2⟩] [⟨0, 2⟩, ⟨0, 0⟩] := by
  have ran : EStateM.run' (do
      (← (← stock.engine.operate .inter (.deferred 0 "crate" .all) stockPicked).evaluate
        stock.engine).collect) stockPending = some [⟨0, 2⟩, ⟨0, 0⟩] := by decide +kernel
  have ranLeft : EStateM.run' (do
      (← (Selection.deferred 0 "crate" .all).evaluate stock.engine).collect) stockPending
      = some [⟨0, 0⟩, ⟨0, 1⟩, ⟨0, 2⟩] := by decide +kernel
  have ranRight : EStateM.run' (do (← stockPicked.evaluate stock.engine).collect) stockPending
      = some [⟨0, 2⟩, ⟨0, 0⟩] := by decide +kernel
  obtain ⟨s, ran⟩ := Effect.exists_of_run' ran
  obtain ⟨s₁, ranLeft⟩ := Effect.exists_of_run' ranLeft
  obtain ⟨s₂, ranRight⟩ := Effect.exists_of_run' ranRight
  have ofType : stock.Truthful "crate" (.rows (.computed 2 [⟨0, 2⟩, ⟨0, 0⟩])) := by
    rintro _ rfl id mem
    rcases List.mem_pair.mp mem with rfl | rfl <;> decide +kernel
  exact ⟨waits_of_unsorted _ rfl rfl, ⟨trivial, ofType⟩, s, s₁, s₂, ran, ranLeft, ranRight,
    by decide⟩

end Session

end ExtentQuery

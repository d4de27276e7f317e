import ExtentQuery.Proofs.Rewriting.Walk

/-!
# Interpretations of queries

Whether rewriting keeps the members of a query, or lowers a weight, or keeps a query free
of placeholders, is in each case a statement about a value that is computed from the
leaves upwards.  An `Interpretation` is such a way to compute, and this module says once
how rewriting acts on it.

* `Interpretation`, `Interpretation.of` — the values of queries in a type `α`;
* `Interpretation.Fair` — queries that are the same (`Query.same`) have the same value;
* `Query.Commuted` — queries that differ in the order of operands only, and
  `Interpretation.Commutes.of_commuted`;
* `Interpretation.allNodes`, `Interpretation.allNodes_of_both` — what holds of all leaves of a
  query, and which sort steps and concatenations it may have;
* `Interpretation.assign` — the values of patterns, given values of their slots.

**Rules are checked on values.**  A rule applies to a query that its source matches, and
then the query has the value of the source, and its replacement that of the destination,
both for one assignment of values to the slots (`Interpretation.Fair.of_matchAgainst`,
`Interpretation.of_fill`).  So it is enough to compare the two sides of a rule for all
assignments (`Rule.Related`).  An interpretation that does not see the order of
commuting operands does not see the orientation of a rule either, so one comparison
covers all orientations.

**Related, not equal.**  The two sides of a rule are compared by a relation, for which
equality is one choice.  A relation that the nodes respect (`Interpretation.Respects`)
then relates the two ends of every rewriting (`Pass.Rewrites.related`).
-/

namespace ExtentQuery

/-- A way to compute a value for each query from the leaves upwards. -/
structure Interpretation (α : Type) where
  leaf : Query → α
  root : α → α
  inter : α → α → α
  union : α → α → α
  diff : α → α → α
  concat : α → α → α
  compl : α → α
  sort : α → α

namespace Interpretation

variable {α : Type} (m : Interpretation α)

/-- The value of a query. -/
def of : Query → α
  | .root c => m.root (of c)
  | .inter l r => m.inter (of l) (of r)
  | .union l r => m.union (of l) (of r)
  | .diff l r => m.diff (of l) (of r)
  | .concat l r => m.concat (of l) (of r)
  | .compl c => m.compl (of c)
  | .sort _ c => m.sort (of c)
  | leaf => m.leaf leaf

/-- The order of commuting operands does not show in the value. -/
structure Commutes : Prop where
  inter_comm : ∀ x y, m.inter x y = m.inter y x
  union_comm : ∀ x y, m.union x y = m.union y x

/-- Queries that rewriting takes for the same have the same value. -/
structure Fair : Prop extends Commutes m where
  leaf_same : ∀ a b : Query, a.arity = 0 → a.same b = true → m.leaf a = m.leaf b

/-- A relation that carries over from an operand to the node. -/
structure Keeps (R : α → α → Prop) : Prop where
  root : ∀ {x x'}, R x' x → R (m.root x') (m.root x)
  inter_left : ∀ {x x'} y, R x' x → R (m.inter x' y) (m.inter x y)
  inter_right : ∀ x {y y'}, R y' y → R (m.inter x y') (m.inter x y)
  union_left : ∀ {x x'} y, R x' x → R (m.union x' y) (m.union x y)
  union_right : ∀ x {y y'}, R y' y → R (m.union x y') (m.union x y)
  diff_left : ∀ {x x'} y, R x' x → R (m.diff x' y) (m.diff x y)
  diff_right : ∀ x {y y'}, R y' y → R (m.diff x y') (m.diff x y)
  concat_left : ∀ {x x'} y, R x' x → R (m.concat x' y) (m.concat x y)
  concat_right : ∀ x {y y'}, R y' y → R (m.concat x y') (m.concat x y)
  compl : ∀ {x x'}, R x' x → R (m.compl x') (m.compl x)
  sort : ∀ {x x'}, R x' x → R (m.sort x') (m.sort x)

/-- A relation that can be chained and that carries over from an operand to the node. -/
structure Respects (R : α → α → Prop) : Prop extends Keeps m R where
  refl : ∀ x, R x x
  trans : ∀ {x y z}, R x y → R y z → R x z

theorem respects_eq : m.Respects (· = ·) where
  refl _ := rfl
  trans := Eq.trans
  root eq := congrArg m.root eq
  inter_left y eq := congrArg (m.inter · y) eq
  inter_right x _ _ eq := congrArg (m.inter x) eq
  union_left y eq := congrArg (m.union · y) eq
  union_right x _ _ eq := congrArg (m.union x) eq
  diff_left y eq := congrArg (m.diff · y) eq
  diff_right x _ _ eq := congrArg (m.diff x) eq
  concat_left y eq := congrArg (m.concat · y) eq
  concat_right x _ _ eq := congrArg (m.concat x) eq
  compl eq := congrArg m.compl eq
  sort eq := congrArg m.sort eq

/-- The same interpretation with other values of the slots. -/
def assign (values : Nat → α) : Interpretation α :=
  { m with leaf := fun
      | .slot number => values number
      | leaf => m.leaf leaf }

/-- The values of the slots that bindings give. -/
def valuesOf (bindings : Bindings) : Nat → α := fun number =>
  (bindings.find? number).elim (m.leaf (.slot number)) m.of

end Interpretation

/-! ### The same queries -/

theorem Interpretation.Fair.of_same {α : Type} {m : Interpretation α} (fair : m.Fair) :
    ∀ {a b : Query}, a.same b = true → m.of a = m.of b := by
  intro a
  induction a with
  | root c ih | compl c ih =>
    intro b same
    cases b <;> simp only [Query.same, Bool.false_eq_true] at same
    simp only [Interpretation.of, ih same]
  | sort order c ih =>
    intro b same
    cases b <;> simp only [Query.same, Bool.and_eq_true, Bool.false_eq_true] at same
    simp only [Interpretation.of, ih same.2]
  | diff l r ihl ihr | concat l r ihl ihr =>
    intro b same
    cases b <;> simp only [Query.same, Bool.and_eq_true, Bool.false_eq_true] at same
    simp only [Interpretation.of, ihl same.1, ihr same.2]
  | inter l r ihl ihr =>
    intro b same
    cases b <;>
      simp only [Query.same, Bool.or_eq_true, Bool.and_eq_true, Bool.false_eq_true] at same
    rcases same with ⟨left, right⟩ | ⟨left, right⟩
    · simp only [Interpretation.of, ihl left, ihr right]
    · simp only [Interpretation.of, ihl left, ihr right, fair.inter_comm]
  | union l r ihl ihr =>
    intro b same
    cases b <;>
      simp only [Query.same, Bool.or_eq_true, Bool.and_eq_true, Bool.false_eq_true] at same
    rcases same with ⟨left, right⟩ | ⟨left, right⟩
    · simp only [Interpretation.of, ihl left, ihr right]
    · simp only [Interpretation.of, ihl left, ihr right, fair.union_comm]
  | _ =>
    intro b same
    cases b <;> first
      | exact fair.leaf_same _ _ rfl same
      | (simp only [Query.same, Bool.false_eq_true] at same)

/-- Sort steps that sort alike as far as a canonical text tells: supplied keys are compared
by number and direction. -/
def SortStep.Alike : SortStep → SortStep → Prop
  | key number _ _ ascending, key number' _ _ ascending' =>
    number = number' ∧ ascending = ascending'
  | order, order' => order = order'

/-- Queries that differ only in the order of the operands of intersections and unions, also
within decorated queries. -/
inductive Query.Commuted : Query → Query → Prop where
  | refl (q : Query) : Commuted q q
  | trans {a b c : Query} : Commuted a b → Commuted b c → Commuted a c
  | inter_comm (l r : Query) : Commuted (.inter l r) (.inter r l)
  | union_comm (l r : Query) : Commuted (.union l r) (.union r l)
  | root {c c' : Query} : Commuted c c' → Commuted (.root c) (.root c')
  | inter {l l' r r' : Query} :
      Commuted l l' → Commuted r r' → Commuted (.inter l r) (.inter l' r')
  | union {l l' r r' : Query} :
      Commuted l l' → Commuted r r' → Commuted (.union l r) (.union l' r')
  | diff {l l' r r' : Query} :
      Commuted l l' → Commuted r r' → Commuted (.diff l r) (.diff l' r')
  | concat {l l' r r' : Query} :
      Commuted l l' → Commuted r r' → Commuted (.concat l r) (.concat l' r')
  | compl {c c' : Query} : Commuted c c' → Commuted (.compl c) (.compl c')
  | sort {c c' : Query} {order order' : SortStep} :
      order.Alike order' → Commuted c c' → Commuted (.sort order c) (.sort order' c')
  | linkedInto {targets targets' : Query} (link targetType : String) :
      Commuted targets targets' →
      Commuted (.linkedInto link targets targetType) (.linkedInto link targets' targetType)

/-- The order of operands does not show in a value that does not tell decorated queries with
commuted targets apart. -/
theorem Interpretation.Commutes.of_commuted_targets {α : Type} {m : Interpretation α}
    (commutes : m.Commutes)
    (decorated : ∀ link {targets targets' : Query} targetType, targets.Commuted targets' →
      m.leaf (.linkedInto link targets targetType) = m.leaf (.linkedInto link targets' targetType))
    {a b : Query} (commuted : a.Commuted b) : m.of a = m.of b := by
  induction commuted with
  | refl => rfl
  | trans _ _ first second => exact first.trans second
  | inter_comm => exact commutes.inter_comm _ _
  | union_comm => exact commutes.union_comm _ _
  | root _ ih | compl _ ih | sort _ _ ih => simp only [of, ih]
  | inter _ _ ihl ihr | union _ _ ihl ihr | diff _ _ ihl ihr | concat _ _ ihl ihr =>
    simp only [of, ihl, ihr]
  | linkedInto link targetType targets _ => exact decorated link targetType targets

/-- The order of operands does not show in a value that does not look into decorated
queries. -/
theorem Interpretation.Commutes.of_commuted {α : Type} {m : Interpretation α}
    (commutes : m.Commutes)
    (decorated : ∀ link targets targets' targetType,
      m.leaf (.linkedInto link targets targetType) = m.leaf (.linkedInto link targets' targetType))
    {a b : Query} (commuted : a.Commuted b) : m.of a = m.of b :=
  commutes.of_commuted_targets (fun link _ _ targetType _ => decorated link _ _ targetType)
    commuted

/-! ### Leaves -/

/-- Whether all leaves of a query, reached through operands, have a property, and whether
there may be sort steps above them. -/
def Interpretation.allLeaves (property : Query → Bool) (sorts : Bool) : Interpretation Bool where
  leaf := property
  root := id
  inter := and
  union := and
  diff := and
  concat := and
  compl := id
  sort x := sorts && x

/-- The same, and whether there may be concatenations. -/
def Interpretation.allNodes (property : Query → Bool) (sorts concats : Bool) :
    Interpretation Bool :=
  { allLeaves property sorts with concat := fun x y => concats && (x && y) }

theorem Interpretation.allNodes_true (property : Query → Bool) (sorts : Bool) :
    allNodes property sorts true = allLeaves property sorts :=
  rfl

theorem Interpretation.of_of_arity {α : Type} {m : Interpretation α} {q : Query}
    (isLeaf : q.arity = 0) : m.of q = m.leaf q := by
  cases q <;> first | rfl | cases isLeaf

/-- What two properties imply of a leaf, they imply of all leaves of a query.  It has the sort
steps and the concatenations that both allow. -/
theorem Interpretation.allNodes_of_both {property property' implied : Query → Bool}
    {sorts sorts' sorts'' concats concats' concats'' : Bool}
    (leaf : ∀ leaf : Query, leaf.arity = 0 →
      property leaf = true → property' leaf = true → implied leaf = true)
    (sorted : sorts = true → sorts' = true → sorts'' = true)
    (joined : concats = true → concats' = true → concats'' = true) {q : Query}
    (first : (allNodes property sorts concats).of q = true)
    (second : (allNodes property' sorts' concats').of q = true) :
    (allNodes implied sorts'' concats'').of q = true := by
  induction q with
  | root c ih | compl c ih => exact ih first second
  | sort order c ih =>
    obtain ⟨allowed, below⟩ := (Bool.and_eq_true _ _).mp first
    obtain ⟨allowed', below'⟩ := (Bool.and_eq_true _ _).mp second
    exact (Bool.and_eq_true _ _).mpr ⟨sorted allowed allowed', ih below below'⟩
  | inter l r ihl ihr | union l r ihl ihr | diff l r ihl ihr =>
    obtain ⟨left, right⟩ := (Bool.and_eq_true _ _).mp first
    obtain ⟨left', right'⟩ := (Bool.and_eq_true _ _).mp second
    exact (Bool.and_eq_true _ _).mpr ⟨ihl left left', ihr right right'⟩
  | concat l r ihl ihr =>
    obtain ⟨allowed, sides⟩ := (Bool.and_eq_true _ _).mp first
    obtain ⟨allowed', sides'⟩ := (Bool.and_eq_true _ _).mp second
    obtain ⟨left, right⟩ := (Bool.and_eq_true _ _).mp sides
    obtain ⟨left', right'⟩ := (Bool.and_eq_true _ _).mp sides'
    exact (Bool.and_eq_true _ _).mpr
      ⟨joined allowed allowed', (Bool.and_eq_true _ _).mpr ⟨ihl left left', ihr right right'⟩⟩
  | _ => exact leaf _ rfl first second

theorem Interpretation.allNodes_mono {property weaker : Query → Bool}
    {sorts sorts' concats concats' : Bool}
    (implies : ∀ leaf : Query, leaf.arity = 0 → property leaf = true → weaker leaf = true)
    (sorted : sorts = true → sorts' = true) (joined : concats = true → concats' = true) {q : Query}
    (all : (allNodes property sorts concats).of q = true) :
    (allNodes weaker sorts' concats').of q = true :=
  allNodes_of_both (fun leaf isLeaf here _ => implies leaf isLeaf here) (fun here _ => sorted here)
    (fun here _ => joined here) all all

theorem Interpretation.allLeaves_mono {property weaker : Query → Bool} {sorts : Bool}
    (implies : ∀ leaf : Query, property leaf = true → weaker leaf = true) {q : Query}
    (all : (allLeaves property sorts).of q = true) : (allLeaves weaker sorts).of q = true := by
  rw [← allNodes_true] at all ⊢
  exact allNodes_mono (fun leaf _ => implies leaf) id id all

/-- What holds of all leaves of a query holds of all leaves of its operands. -/
theorem Interpretation.allLeaves_child? {property : Query → Bool} {sorts : Bool} {q c : Query}
    {i : Nat} (leaves : (allLeaves property sorts).of q = true) (at_i : q.child? i = some c) :
    (allLeaves property sorts).of c = true := by
  unfold Query.child? at at_i
  split at at_i <;> cases at_i
  all_goals first
    | exact leaves
    | exact ((Bool.and_eq_true _ _).mp leaves).1
    | exact ((Bool.and_eq_true _ _).mp leaves).2

/-- Whether a leaf stands for what a rule matched. -/
def Query.isPlaceholder : Query → Bool
  | slot _ => true
  | converter .. => true
  | _ => false

/-- A query without placeholders among its operands.  The queries decorated by
`Query.linkedInto` do not count, because rewriting does not look into them. -/
def Query.ground (q : Query) : Bool :=
  (Interpretation.allLeaves (fun leaf => !leaf.isPlaceholder) true).of q

/-- A query without sort steps among its operands. -/
def Query.unsorted (q : Query) : Bool :=
  (Interpretation.allLeaves (fun _ => true) false).of q

/-- A pattern whose placeholders are slots. -/
def Query.converterFree (q : Query) : Bool :=
  (Interpretation.allLeaves (fun | .converter .. => false | _ => true) true).of q

/-! ### Matching -/

namespace Bindings

/-- The first bindings are part of the second ones. -/
def Extends (extended bindings : Bindings) : Prop :=
  ∀ slot q, bindings.find? slot = some q → extended.find? slot = some q

theorem Extends.refl (bindings : Bindings) : bindings.Extends bindings :=
  fun _ _ found => found

theorem Extends.trans {a b c : Bindings} (ab : a.Extends b) (bc : b.Extends c) : a.Extends c :=
  fun slot q found => ab slot q (bc slot q found)

/-- Binding a slot keeps the bindings that are there, and afterwards the slot stands for
the query or for one that is the same. -/
theorem bind_eq_some {bindings extended : Bindings} {slot : Nat} {q : Query}
    (bound : bindings.bind slot q = some extended) :
    extended.Extends bindings ∧
      ∃ x, extended.find? slot = some x ∧ (x = q ∨ x.same q = true) := by
  unfold bind at bound
  split at bound
  case h_1 x found =>
    split at bound
    case isTrue same =>
      cases bound
      exact ⟨.refl _, x, found, .inr same⟩
    case isFalse => cases bound
  case h_2 notFound =>
    cases bound
    constructor
    · intro other y found
      simp only [find?, List.lookup_append] at found ⊢
      rw [found, Option.some_or]
    · refine ⟨q, ?_, .inl rfl⟩
      simp only [find?] at notFound
      simp only [find?, List.lookup_append, notFound, Option.none_or]
      simp

end Bindings

namespace Query

theorem Matcher.only_eq_some {operand : Matcher} {q : Query} {bindings extended : Bindings}
    (found : Matcher.only operand q bindings = .ok (some extended)) :
    ∃ x, q.child? 0 = some x ∧ operand x bindings = .ok (some extended) := by
  unfold Matcher.only childOrFault at found
  cases at_0 : q.child? 0 with
  | none => simp only [at_0] at found; cases found
  | some x => exact ⟨x, rfl, by simpa only [at_0] using found⟩

theorem Matcher.both_eq_some {left right : Matcher} {q : Query}
    {bindings extended : Bindings}
    (found : Matcher.both left right q bindings = .ok (some extended)) :
    ∃ x y between, q.child? 0 = some x ∧ q.child? 1 = some y ∧
      left x bindings = .ok (some between) ∧ right y between = .ok (some extended) := by
  unfold Matcher.both at found
  split at found
  case h_1 => cases found
  case h_2 => cases found
  case h_3 between first =>
    obtain ⟨x, at_0, matched⟩ := only_eq_some first
    unfold childOrFault at found
    cases at_1 : q.child? 1 with
    | none => simp only [at_1] at found; cases found
    | some y => exact ⟨x, y, between, at_0, rfl, matched, by simpa only [at_1] using found⟩

theorem Matcher.ofKind_eq_some {kind : Kind} {node : Matcher} {q : Query}
    {bindings extended : Bindings}
    (found : Matcher.ofKind kind node q bindings = .ok (some extended)) :
    q.kind = kind ∧ node q bindings = .ok (some extended) := by
  unfold Matcher.ofKind at found
  split at found
  case isTrue same => exact ⟨same, found⟩
  case isFalse => cases found

section

variable {q x y : Query}

theorem eq_inter (kind : q.kind = .inter) (at_0 : q.child? 0 = some x)
    (at_1 : q.child? 1 = some y) : q = inter x y := by
  cases q <;> simp_all [Query.kind, child?]

theorem eq_union (kind : q.kind = .union) (at_0 : q.child? 0 = some x)
    (at_1 : q.child? 1 = some y) : q = union x y := by
  cases q <;> simp_all [Query.kind, child?]

theorem eq_diff (kind : q.kind = .diff) (at_0 : q.child? 0 = some x)
    (at_1 : q.child? 1 = some y) : q = diff x y := by
  cases q <;> simp_all [Query.kind, child?]

theorem eq_concat (kind : q.kind = .concat) (at_0 : q.child? 0 = some x)
    (at_1 : q.child? 1 = some y) : q = concat x y := by
  cases q <;> simp_all [Query.kind, child?]

theorem eq_root (kind : q.kind = .root) (at_0 : q.child? 0 = some x) : q = root x := by
  cases q <;> simp_all [Query.kind, child?]

theorem eq_compl (kind : q.kind = .compl) (at_0 : q.child? 0 = some x) : q = compl x := by
  cases q <;> simp_all [Query.kind, child?]

end

section

variable {l r c q : Query} {bindings extended : Bindings}

/-- What a pattern of a node with two operands matches. -/
theorem operands_of_both {kind : Kind} {node : Query → Query → Query}
    (isNode : ∀ {x y : Query}, q.kind = kind → q.child? 0 = some x → q.child? 1 = some y →
      q = node x y)
    (matched : Matcher.ofKind kind (Matcher.both l.matchAgainst r.matchAgainst) q bindings
      = .ok (some extended)) :
    ∃ x y between, q = node x y ∧ l.matchAgainst x bindings = .ok (some between) ∧
      r.matchAgainst y between = .ok (some extended) := by
  obtain ⟨sameKind, operands⟩ := Matcher.ofKind_eq_some matched
  obtain ⟨x, y, between, at_0, at_1, left, right⟩ := Matcher.both_eq_some operands
  exact ⟨x, y, between, isNode sameKind at_0 at_1, left, right⟩

theorem matchAgainst_inter
    (matched : (inter l r).matchAgainst q bindings = .ok (some extended)) :
    ∃ x y between, q = inter x y ∧ l.matchAgainst x bindings = .ok (some between) ∧
      r.matchAgainst y between = .ok (some extended) :=
  operands_of_both eq_inter matched

theorem matchAgainst_union
    (matched : (union l r).matchAgainst q bindings = .ok (some extended)) :
    ∃ x y between, q = union x y ∧ l.matchAgainst x bindings = .ok (some between) ∧
      r.matchAgainst y between = .ok (some extended) :=
  operands_of_both eq_union matched

theorem matchAgainst_diff
    (matched : (diff l r).matchAgainst q bindings = .ok (some extended)) :
    ∃ x y between, q = diff x y ∧ l.matchAgainst x bindings = .ok (some between) ∧
      r.matchAgainst y between = .ok (some extended) :=
  operands_of_both eq_diff matched

theorem matchAgainst_concat
    (matched : (concat l r).matchAgainst q bindings = .ok (some extended)) :
    ∃ x y between, q = concat x y ∧ l.matchAgainst x bindings = .ok (some between) ∧
      r.matchAgainst y between = .ok (some extended) :=
  operands_of_both eq_concat matched

/-- What a pattern of a node with one operand matches. -/
theorem matchAgainst_root
    (matched : (root c).matchAgainst q bindings = .ok (some extended)) :
    ∃ x, q = root x ∧ c.matchAgainst x bindings = .ok (some extended) := by
  obtain ⟨kind, node⟩ := Matcher.ofKind_eq_some matched
  obtain ⟨x, at_0, operand⟩ := Matcher.only_eq_some node
  exact ⟨x, eq_root kind at_0, operand⟩

theorem matchAgainst_compl
    (matched : (compl c).matchAgainst q bindings = .ok (some extended)) :
    ∃ x, q = compl x ∧ c.matchAgainst x bindings = .ok (some extended) := by
  obtain ⟨kind, node⟩ := Matcher.ofKind_eq_some matched
  obtain ⟨x, at_0, operand⟩ := Matcher.only_eq_some node
  exact ⟨x, eq_compl kind at_0, operand⟩

theorem matchAgainst_sort {order : SortStep}
    (matched : (sort order c).matchAgainst q bindings = .ok (some extended)) :
    ∃ order' x, q = sort order' x ∧ c.matchAgainst x bindings = .ok (some extended) := by
  cases q with
  | sort order' x =>
    replace matched : (if order'.same order then c.matchAgainst x bindings else .ok none)
      = .ok (some extended) := matched
    split at matched
    case isTrue => exact ⟨order', x, rfl, matched⟩
    case isFalse => cases matched
  | _ => cases matched

/-- A slot matches every query that it does not already stand for another one of. -/
theorem matchAgainst_slot {number : Nat}
    (matched : (slot number).matchAgainst q bindings = .ok (some extended)) :
    bindings.bind number q = some extended := by
  exact Except.ok.inj matched

theorem matchAgainst_converter {number : Nat} {conversion : Transformation}
    (matched : (converter number conversion).matchAgainst q bindings = .ok (some extended)) :
    conversion.accepts q = true ∧ bindings.bind number q = some extended := by
  replace matched : (if q.kind = conversion.kind && conversion.accepts q then
      bindings.bind number q else none) = some extended := Except.ok.inj matched
  split at matched
  case isTrue accepted =>
    exact ⟨(Bool.and_eq_true _ _).mp accepted |>.2, matched⟩
  case isFalse => cases matched

/-- Any other leaf matches the queries that are the same. -/
theorem matchAgainst_leaf {leaf : Query} (isLeaf : leaf.arity = 0)
    (named : leaf.isPlaceholder = false)
    (matched : leaf.matchAgainst q bindings = .ok (some extended)) :
    q.same leaf = true ∧ bindings = extended := by
  have found : (if q.same leaf then some bindings else none) = some extended := by
    cases leaf with
    | slot | converter => cases named
    | root | inter | union | diff | concat | compl | sort => cases isLeaf
    | _ => exact Except.ok.inj matched
  exact Option.ite_none_right_eq_some.mp found |>.imp id Option.some.inj

end

end Query

/-! ### Slots -/

/-- Whether a pattern contains the placeholder with a number. -/
def Query.mentions (q : Query) (number : Nat) : Bool :=
  Interpretation.of
    { leaf := fun
        | .slot other => other == number
        | .converter other _ => other == number
        | _ => false
      root := id, inter := or, union := or, diff := or, concat := or, compl := id, sort := id }
    q

namespace Query

/-- What a match of a query with a pattern does to the bindings: it keeps them, it binds
the placeholders of the pattern, and what it binds is the query or an operand of it. -/
structure Binding (names : Nat → Bool) (q : Query) (bindings extended : Bindings) : Prop where
  keeps : extended.Extends bindings
  binds : ∀ number, names number = true → ∃ x, extended.find? number = some x
  origin : ∀ number x, extended.find? number = some x →
    bindings.find? number = some x ∨ x = q ∨ x.Below q

section

variable {names left right : Nat → Bool} {q c : Query} {i number : Nat}
  {bindings between extended : Bindings}

/-- The match of a placeholder. -/
theorem Binding.of_bind (named : ∀ other, names other = true → number = other)
    (bound : bindings.bind number q = some extended) : Binding names q bindings extended := by
  obtain ⟨keeps, x, found, -⟩ := Bindings.bind_eq_some bound
  refine ⟨keeps, fun other mentioned => ⟨x, named other mentioned ▸ found⟩, ?_⟩
  intro other y foundY
  unfold Bindings.bind at bound
  split at bound
  case h_1 =>
    split at bound <;> cases bound
    exact .inl foundY
  case h_2 =>
    cases bound
    simp only [Bindings.find?, List.lookup_append, Option.or_eq_some_iff] at foundY
    rcases foundY with before | ⟨-, now⟩
    · exact .inl before
    · refine .inr (.inl ?_)
      rw [List.lookup_cons] at now
      split at now <;> simp_all

/-- The match of an operand is part of a match of the node. -/
theorem Binding.of_operand (at_i : q.child? i = some c)
    (operand : Binding names c bindings extended) : Binding names q bindings extended := by
  refine ⟨operand.keeps, operand.binds, fun number x found => ?_⟩
  rcases operand.origin number x found with before | rfl | below
  · exact .inl before
  · exact .inr (.inr (.operand at_i))
  · exact .inr (.inr (.deeper at_i below))

/-- Two matches, one after the other. -/
theorem Binding.both (first : Binding left q bindings between)
    (second : Binding right q between extended) :
    Binding (fun number => left number || right number) q bindings extended := by
  refine ⟨second.keeps.trans first.keeps, fun number mentioned => ?_, fun number x found => ?_⟩
  · rcases (Bool.or_eq_true _ _).mp mentioned with inLeft | inRight
    · obtain ⟨x, found⟩ := first.binds number inLeft
      exact ⟨x, second.keeps _ _ found⟩
    · exact second.binds number inRight
  · rcases second.origin number x found with before | now
    · exact first.origin number x before
    · exact .inr now

end

theorem binding_of_matchAgainst : ∀ {pattern q : Query} {bindings extended : Bindings},
    pattern.matchAgainst q bindings = .ok (some extended) →
      Binding pattern.mentions q bindings extended := by
  intro pattern
  induction pattern with
  | slot number =>
    intro q bindings extended matched
    exact .of_bind (fun _ => beq_iff_eq.mp) (matchAgainst_slot matched)
  | converter number conversion =>
    intro q bindings extended matched
    exact .of_bind (fun _ => beq_iff_eq.mp) (matchAgainst_converter matched).2
  | inter l r ihl ihr =>
    intro q bindings extended matched
    obtain ⟨x, y, between, rfl, left, right⟩ := matchAgainst_inter matched
    exact .both (.of_operand (i := 0) rfl (ihl left)) (.of_operand (i := 1) rfl (ihr right))
  | union l r ihl ihr =>
    intro q bindings extended matched
    obtain ⟨x, y, between, rfl, left, right⟩ := matchAgainst_union matched
    exact .both (.of_operand (i := 0) rfl (ihl left)) (.of_operand (i := 1) rfl (ihr right))
  | diff l r ihl ihr =>
    intro q bindings extended matched
    obtain ⟨x, y, between, rfl, left, right⟩ := matchAgainst_diff matched
    exact .both (.of_operand (i := 0) rfl (ihl left)) (.of_operand (i := 1) rfl (ihr right))
  | concat l r ihl ihr =>
    intro q bindings extended matched
    obtain ⟨x, y, between, rfl, left, right⟩ := matchAgainst_concat matched
    exact .both (.of_operand (i := 0) rfl (ihl left)) (.of_operand (i := 1) rfl (ihr right))
  | root c ih =>
    intro q bindings extended matched
    obtain ⟨x, rfl, operand⟩ := matchAgainst_root matched
    exact .of_operand (i := 0) rfl (ih operand)
  | compl c ih =>
    intro q bindings extended matched
    obtain ⟨x, rfl, operand⟩ := matchAgainst_compl matched
    exact .of_operand (i := 0) rfl (ih operand)
  | sort order c ih =>
    intro q bindings extended matched
    obtain ⟨order', x, rfl, operand⟩ := matchAgainst_sort matched
    exact .of_operand (i := 0) rfl (ih operand)
  | _ =>
    intro q bindings extended matched
    obtain ⟨-, rfl⟩ := matchAgainst_leaf rfl rfl matched
    exact ⟨.refl _, fun _ mentioned => (by cases mentioned), fun _ _ found => .inl found⟩

theorem extends_of_matchAgainst {pattern q : Query} {bindings extended : Bindings}
    (matched : pattern.matchAgainst q bindings = .ok (some extended)) :
    extended.Extends bindings :=
  (binding_of_matchAgainst matched).keeps

end Query

/-! ### The value of a pattern -/

namespace Interpretation

variable {α : Type} {m : Interpretation α}

/-- The values of the slots go with what the bindings say that they stand for. -/
def Agrees (m : Interpretation α) (values : Nat → α) (bindings : Bindings) : Prop :=
  ∀ slot q, bindings.find? slot = some q → values slot = m.of q

theorem Agrees.of_extends {values : Nat → α} {extended bindings : Bindings}
    (agrees : m.Agrees values extended) (ext : extended.Extends bindings) :
    m.Agrees values bindings :=
  fun slot q found => agrees slot q (ext slot q found)

theorem agrees_valuesOf (m : Interpretation α) (bindings : Bindings) :
    m.Agrees (m.valuesOf bindings) bindings := by
  intro slot q found
  simp only [valuesOf, found, Option.elim_some]

/-- The value of a pattern is the value of what it matched, if the slots have the values
of what they stand for. -/
theorem Fair.of_matchAgainst (fair : m.Fair) : ∀ {pattern q : Query}
    {bindings extended : Bindings}, pattern.converterFree = true →
      pattern.matchAgainst q bindings = .ok (some extended) →
      ∀ values, m.Agrees values extended → (m.assign values).of pattern = m.of q := by
  intro pattern
  induction pattern with
  | slot number =>
    intro q bindings extended _ matched
    -- the slot may have been bound before, to a query that is only the same
    obtain ⟨-, x, found, same⟩ := Bindings.bind_eq_some (Query.matchAgainst_slot matched)
    intro values agrees
    rw [show (m.assign values).of (.slot number) = values number from rfl, agrees _ _ found]
    rcases same with rfl | same
    · rfl
    · exact fair.of_same same
  | converter => intro _ _ _ plain; cases plain
  | inter l r ihl ihr =>
    intro q bindings extended plain matched values agrees
    obtain ⟨plainL, plainR⟩ := (Bool.and_eq_true _ _).mp plain
    obtain ⟨x, y, between, rfl, left, right⟩ := Query.matchAgainst_inter matched
    -- the right operand only adds to what the left one has bound
    have agreesL := agrees.of_extends (Query.extends_of_matchAgainst right)
    rw [of, of, ihl plainL left values agreesL, ihr plainR right values agrees]
    rfl
  | union l r ihl ihr =>
    intro q bindings extended plain matched values agrees
    obtain ⟨plainL, plainR⟩ := (Bool.and_eq_true _ _).mp plain
    obtain ⟨x, y, between, rfl, left, right⟩ := Query.matchAgainst_union matched
    have agreesL := agrees.of_extends (Query.extends_of_matchAgainst right)
    rw [of, of, ihl plainL left values agreesL, ihr plainR right values agrees]
    rfl
  | diff l r ihl ihr =>
    intro q bindings extended plain matched values agrees
    obtain ⟨plainL, plainR⟩ := (Bool.and_eq_true _ _).mp plain
    obtain ⟨x, y, between, rfl, left, right⟩ := Query.matchAgainst_diff matched
    have agreesL := agrees.of_extends (Query.extends_of_matchAgainst right)
    rw [of, of, ihl plainL left values agreesL, ihr plainR right values agrees]
    rfl
  | concat l r ihl ihr =>
    intro q bindings extended plain matched values agrees
    obtain ⟨plainL, plainR⟩ := (Bool.and_eq_true _ _).mp plain
    obtain ⟨x, y, between, rfl, left, right⟩ := Query.matchAgainst_concat matched
    have agreesL := agrees.of_extends (Query.extends_of_matchAgainst right)
    rw [of, of, ihl plainL left values agreesL, ihr plainR right values agrees]
    rfl
  | root c ih =>
    intro q bindings extended plain matched values agrees
    obtain ⟨x, rfl, operand⟩ := Query.matchAgainst_root matched
    exact congrArg m.root (ih plain operand values agrees)
  | compl c ih =>
    intro q bindings extended plain matched values agrees
    obtain ⟨x, rfl, operand⟩ := Query.matchAgainst_compl matched
    exact congrArg m.compl (ih plain operand values agrees)
  | sort order c ih =>
    intro q bindings extended plain matched values agrees
    obtain ⟨order', x, rfl, operand⟩ := Query.matchAgainst_sort matched
    exact congrArg m.sort (ih plain operand values agrees)
  | _ =>
    intro q bindings extended _ matched
    obtain ⟨same, -⟩ := Query.matchAgainst_leaf rfl rfl matched
    exact fun values _ => (fair.of_same same).symm

/-- A filled pattern has the value of the pattern. -/
theorem of_fill (m : Interpretation α) : ∀ {pattern filled : Query} {bindings : Bindings},
    pattern.converterFree = true → pattern.fill bindings = .ok filled →
      m.of filled = (m.assign (m.valuesOf bindings)).of pattern := by
  intro pattern
  induction pattern with
  | slot number =>
    intro filled bindings _ found
    have bound : bindings.find? number = some filled := by
      unfold Query.fill Query.boundOrFault at found
      split at found
      case h_1 q eq => rwa [Except.ok.inj found] at eq
      case h_2 => cases found
    exact (agrees_valuesOf m bindings _ _ bound).symm
  | converter => intro _ _ plain; cases plain
  | inter l r ihl ihr | union l r ihl ihr | diff l r ihl ihr | concat l r ihl ihr =>
    intro filled bindings plain found
    obtain ⟨plainL, plainR⟩ := (Bool.and_eq_true _ _).mp plain
    obtain ⟨x, left, found⟩ := exists_of_bind_eq_ok found
    obtain ⟨y, right, found⟩ := exists_of_bind_eq_ok found
    cases found
    rw [of, of, ihl plainL left, ihr plainR right]
    rfl
  | root c ih | compl c ih | sort _ c ih =>
    intro filled bindings plain found
    obtain ⟨x, operand, found⟩ := exists_of_bind_eq_ok found
    cases found
    rw [of, of, ih plain operand]
    rfl
  | _ =>
    intro filled bindings _ found
    cases found
    rfl

end Interpretation

end ExtentQuery

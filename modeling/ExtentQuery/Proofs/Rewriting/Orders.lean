import ExtentQuery.Proofs.Rewriting.Reading
import ExtentQuery.Proofs.Rewriting.Sorts
import Mathlib.Logic.Relation

/-!
# Sort steps anywhere in a query

Sort steps are taken out wherever they stand, also of one operand among several.  The first
pass of the first round takes them all out if there is room for all of them, and the steps
come to stand in the order in which it meets them: from the root downwards, and from left to
right.

* `Query.orders` — the sort steps of a query in this order;
* `Pass.Scans.lifts` — a walk of the first pass takes all of them out;
* `orders_optimize` — so does optimization, if there is room, and no step is left in the
  query;
* `Query.lone` — queries whose sort steps are met in one order, however operands are
  exchanged;
* `optimize_concat` — a concatenation stays where it is, and its operands are rewritten each
  on its own.

**Out of one operand, over the whole.**  A step that is taken out sorts the answer of the whole
query later on, and not just the operand that it came from.
-/

namespace ExtentQuery

namespace Query

/-! ### The sort steps of a query -/

/-- The sort steps of a query, a step before those below it, and those of the left operand
before those of the right one. -/
def orders : Query → List SortStep
  | sort order c => order :: c.orders
  | root c => c.orders
  | compl c => c.orders
  | inter l r => l.orders ++ r.orders
  | union l r => l.orders ++ r.orders
  | diff l r => l.orders ++ r.orders
  | concat l r => l.orders ++ r.orders
  | _ => []

/-- The sort steps of the operands of a node. -/
def operandOrders (q : Query) : List SortStep :=
  q.children.flatMap orders

/-- Whether at most one operand of each intersection and each union has sort steps. -/
def lone : Query → Bool
  | sort _ c => c.lone
  | root c => c.lone
  | compl c => c.lone
  | inter l r => l.lone && r.lone && (l.orders.isEmpty || r.orders.isEmpty)
  | union l r => l.lone && r.lone && (l.orders.isEmpty || r.orders.isEmpty)
  | diff l r => l.lone && r.lone
  | concat l r => l.lone && r.lone
  | _ => true

theorem orders_eq_nil_iff {q : Query} : q.orders = [] ↔ q.unsorted = true := by
  induction q with
  | root c ih | compl c ih => exact ih
  | sort order c ih => exact ⟨nofun, nofun⟩
  | inter l r ihl ihr | union l r ihl ihr | diff l r ihl ihr | concat l r ihl ihr =>
    exact List.append_eq_nil_iff.trans
      ((and_congr ihl ihr).trans (Bool.and_eq_true _ _ ▸ Iff.rfl))
  | _ => exact ⟨fun _ => rfl, fun _ => rfl⟩

theorem lone_of_unsorted {q : Query} (unsorted : q.unsorted = true) : q.lone = true := by
  induction q with
  | root c ih | compl c ih => exact ih unsorted
  | sort order c ih => cases unsorted
  | diff l r ihl ihr | concat l r ihl ihr =>
    obtain ⟨left, right⟩ := (Bool.and_eq_true _ _).mp unsorted
    exact (Bool.and_eq_true _ _).mpr ⟨ihl left, ihr right⟩
  | inter l r ihl ihr | union l r ihl ihr =>
    obtain ⟨left, right⟩ := (Bool.and_eq_true _ _).mp unsorted
    simp only [lone, ihl left, ihr right, orders_eq_nil_iff.mpr left, List.isEmpty_nil,
      Bool.true_or, Bool.and_self]
  | _ => rfl

/-- The steps of a query are those of its operands, unless there is one at its top. -/
theorem orders_eq_operandOrders {q : Query} (noSort : q.kind ≠ .sort) :
    q.orders = q.operandOrders := by
  cases q with
  | sort => exact absurd rfl noSort
  | _ => simp [orders, operandOrders, children]

theorem operandOrders_eq_nil {q : Query} (none : ∀ i c, q.child? i = some c → c.orders = []) :
    q.operandOrders = [] := by
  refine List.flatMap_eq_nil_iff.mpr fun c mem => ?_
  cases q with
  | inter | union | diff | concat =>
    simp only [children, List.mem_cons, List.not_mem_nil, or_false] at mem
    rcases mem with rfl | rfl
    · exact none 0 _ rfl
    · exact none 1 _ rfl
  | root | compl | sort =>
    obtain rfl := List.mem_singleton.mp mem
    exact none 0 _ rfl
  | _ => cases mem

/-- The steps of the operands around an operand, which may be replaced. -/
theorem operandOrders_setChild {q c : Query} {i : Nat} (at_i : q.child? i = some c) :
    ∃ before after, (∀ d, (q.setChild i d).operandOrders = before ++ (d.orders ++ after)) ∧
      ((∀ j, j < i → ∀ b, q.child? j = some b → b.orders = []) → before = []) := by
  unfold child? at at_i
  split at at_i <;> cases at_i
  case h_1 r | h_3 r | h_5 r | h_7 r =>
    exact ⟨[], r.orders, fun d => by simp [setChild, operandOrders, children], fun _ => rfl⟩
  case h_2 l | h_4 l | h_6 l | h_8 l =>
    refine ⟨l.orders, [], fun d => by simp [setChild, operandOrders, children], fun none => ?_⟩
    exact none 0 Nat.zero_lt_one l rfl
  case h_9 | h_10 | h_11 =>
    exact ⟨[], [], fun d => by simp [setChild, operandOrders, children], fun _ => rfl⟩

theorem kind_setChild (q : Query) (i : Nat) (d : Query) : (q.setChild i d).kind = q.kind := by
  unfold setChild
  split <;> rfl

end Query

namespace Rewrite

namespace Pass

/-! ### Taking all sort steps out -/

/-- A walk over the operands of a node leaves the node what it is. -/
theorem Scans.kind_eq {pass : Pass} {here last : Progress} {i : Nat}
    (walk : pass.Scans here i last) : last.query.kind = here.query.kind := by
  induction walk with
  | done => rfl
  | changeOnEntry _ _ change _ ih =>
    obtain ⟨q', same⟩ := change.query_eq
    rw [ih, same, Query.kind_setChild]
  | descendOnEntry _ _ _ _ _ _ ih | passOnExit _ _ _ _ _ _ ih =>
    rw [ih, Progress.resume, Query.kind_setChild]
  | changeOnExit _ _ _ change _ _ ih =>
    obtain ⟨q', same⟩ := change.query_eq
    rw [ih, same, Query.kind_setChild, Progress.resume, Query.kind_setChild]

/-- The rule of the first pass keeps the sort steps. -/
theorem orders_of_prepare {q q' : Query}
    (rewritten : firstRewrite? Standard.prepare.rules q = .ok (some q')) :
    q'.orders = q.orders := by
  obtain ⟨rule, mem, applied⟩ := exists_of_firstRewrite? rewritten
  obtain ⟨a, b, rfl, rfl⟩ := Standard.eq_of_splitDifference (Standard.mem_prepare.mp mem) applied
  rfl

/-- Whether all sort steps below a node were taken out, and each one was put in front of those
taken out before. -/
structure Lifts (here last : Progress) : Prop where
  emptied : last.query.operandOrders = []
  hoisted : last.hoisted.orders = here.query.operandOrders.reverse ++ here.hoisted.orders

/-- What is taken out after a change is taken out before it, if the steps that are there and
those taken out are the same together. -/
theorem Lifts.of_moved {here next last : Progress} (lifts : Lifts next last)
    (moved : next.query.operandOrders.reverse ++ next.hoisted.orders
      = here.query.operandOrders.reverse ++ here.hoisted.orders) : Lifts here last :=
  ⟨lifts.emptied, lifts.hoisted.trans moved⟩

/-- A walk of the first pass takes all sort steps out, if there is room for them. -/
theorem Scans.lifts {here last : Progress} {i : Nat}
    (walk : Standard.prepare.Scans here i last)
    (passed : ∀ j, j < i → ∀ b, here.query.child? j = some b → b.orders = [])
    (room : here.query.operandOrders.length ≤ here.hoisted.room) : Lifts here last := by
  have fresh : ∀ {q : Query} (j : Nat), j < 0 → ∀ b, q.child? j = some b → b.orders = [] :=
    fun j below => absurd below (Nat.not_lt_zero j)
  induction walk with
  | @done here i noOperand =>
    have none : here.query.operandOrders = [] :=
      Query.operandOrders_eq_nil fun j b at_j =>
        passed j (Query.lt_of_child?_eq_none noOperand at_j) b at_j
    exact ⟨none, by rw [none, List.reverse_nil, List.nil_append]⟩
  | @changeOnEntry here _ _ i operand _ at_i change _ ih =>
    obtain ⟨before, after, around, emptied⟩ := Query.operandOrders_setChild at_i
    obtain rfl := emptied passed
    have whole := around operand
    rw [Query.setChild_child? at_i, List.nil_append] at whole
    cases change with
    | @hoist order sorted hoisted _ pushed =>
      have first := Hoisted.orders_of_push pushed
      have rest := around sorted
      rw [List.nil_append] at rest
      rw [whole, Query.orders] at room
      refine (ih fresh ?_).of_moved ?_
      · simp only [rest, Hoisted.room, first, List.length_append, List.length_cons] at room ⊢
        omega
      · simp only [rest, whole, first, Query.orders, List.cons_append, List.reverse_cons,
          List.append_assoc, List.nil_append]
    | @rewrite _ replacement _ rewritten =>
      have same : (here.query.setChild i replacement).operandOrders
          = here.query.operandOrders := by
        rw [around, whole, orders_of_prepare rewritten, List.nil_append]
      refine (ih fresh ?_).of_moved ?_
      · exact same ▸ room
      · exact congrArg (·.reverse ++ _) same
  | @descendOnEntry here scanned _ i operand _ at_i idle inner _ below ih =>
    obtain ⟨before, after, around, emptied⟩ := Query.operandOrders_setChild at_i
    obtain rfl := emptied passed
    have whole := around operand
    rw [Query.setChild_child? at_i, List.nil_append] at whole
    rw [whole, List.length_append] at room
    -- a step at the top of the operand would have been taken out
    have noSort : operand.kind ≠ .sort := by
      intro isSort
      cases operand with
      | sort order c =>
        have full := Hoisted.push_eq_none_iff.mp (idle.full rfl order c rfl)
        simp only [Hoisted.isFull, decide_eq_true_eq] at full
        simp only [Query.orders, List.length_cons, Hoisted.room] at room
        omega
      | converter _ conversion => cases conversion <;> cases isSort
      | _ => cases isSort
    have sameOrders := Query.orders_eq_operandOrders noSort
    have inside := below fresh (by
      simp only [Progress.focus, ← sameOrders]
      omega)
    have empty : scanned.query.orders = [] :=
      (Query.orders_eq_operandOrders (inner.kind_eq ▸ noSort)).trans inside.emptied
    have rest := around scanned.query
    rw [empty, List.nil_append, List.nil_append] at rest
    have hoisted : scanned.hoisted.orders = operand.orders.reverse ++ here.hoisted.orders :=
      sameOrders ▸ inside.hoisted
    refine (ih ?_ ?_).of_moved ?_
    · intro j before b at_j
      by_cases here_j : j = i
      · subst here_j
        cases (Query.child?_setChild at_i scanned.query).symm.trans at_j
        exact empty
      · rw [Progress.resume, Query.child?_setChild_of_ne at_i _ here_j] at at_j
        exact passed j (by omega) b at_j
    · simp only [Progress.resume, rest, Hoisted.room, hoisted, List.length_append,
        List.length_reverse] at room ⊢
      omega
    · simp only [Progress.resume, rest, whole, hoisted, List.reverse_append, List.append_assoc]
  | changeOnExit onExit => cases onExit
  | passOnExit onExit => cases onExit

/-- A run of the first pass takes all sort steps out, if there is room for them. -/
theorem lifts_of_run (start : Progress) : ∀ last, Standard.prepare.run start = .ok last →
    start.query.operandOrders.length ≤ start.hoisted.room → Lifts start last := by
  refine related_of_run (R := fun here last =>
    here.query.operandOrders.length ≤ here.hoisted.room → Lifts here last) ?_ ?_ start
  · intro a b c first second room
    have before := first room
    refine (second ?_).of_moved ?_
    · rw [before.emptied]
      exact Nat.zero_le _
    · rw [before.emptied]
      exact before.hoisted
  · exact fun walk room => walk.lifts (fun j below => absurd below (Nat.not_lt_zero j)) room

end Pass

/-! ### Rounds -/

variable {maxRewrites : Nat} {current next last : Optimized} {notices : List Notice}

/-- A round takes all sort steps out, if there is room for them. -/
theorem RunsThrough.lifts {c : Query}
    (runs : RunsThrough maxRewrites Standard.passes current notices next)
    (top : current.query = .root c) (room : c.orders.length ≤ current.hoisted.room) :
    next.query.unsorted = true ∧
      next.hoisted.orders = c.orders.reverse ++ current.hoisted.orders := by
  have holder : ∀ d : Query, (Query.root d).operandOrders = d.orders := fun d => by
    simp [Query.operandOrders, Query.children]
  cases runs with
  | pass run rest =>
    obtain ⟨c', top'⟩ := Pass.root_of_run _ _ run c top
    have lifts := Pass.lifts_of_run _ _ run (by rw [top, holder]; exact room)
    have unsorted : (Query.root c').unsorted = true := by
      rw [← Query.orders_eq_nil_iff]
      exact (holder c').symm.trans (top' ▸ lifts.emptied)
    obtain ⟨after, same⟩ := rest.unsorted (fun _ mem => .tail _ mem) (top' ▸ unsorted)
    refine ⟨after, ?_⟩
    rw [same, lifts.hoisted, top, holder]

/-- **All sort steps are taken out**, wherever they stand, as long as there is room for them. -/
theorem orders_optimize {q : Query} {u : Optimized} {log log' : List Notice}
    (found : optimize maxRewrites q log = .ok u log') (few : q.orders.length ≤ maxHoisted) :
    u.query.unsorted = true ∧ u.hoisted.orders = q.orders.reverse := by
  obtain ⟨notices, hoisted, c, -, rfl, rest⟩ := optimize_eq_ok_iff.mp found
  have first : Rounds maxRewrites (7 + 1) ⟨.root q, .empty⟩ notices ⟨.root c, hoisted⟩ := rest
  have none : q.orders.reverse ++ Hoisted.empty.orders = q.orders.reverse := List.append_nil _
  cases first with
  | fixpoint runs =>
    obtain ⟨unsorted, orders⟩ := runs.lifts rfl few
    exact ⟨unsorted, orders.trans none⟩
  | again runs _ later =>
    obtain ⟨between, orders⟩ := runs.lifts rfl few
    obtain ⟨unsorted, same⟩ := later.unsorted between
    exact ⟨unsorted, same ▸ orders.trans none⟩

/-! ### Concatenations -/

namespace Standard

/-- No standard rule is about concatenations. -/
theorem firstRewrite?_concat {pass : Pass} (standard : pass ∈ passes) (l r : Query) :
    firstRewrite? pass.rules (.concat l r) = .ok none := by
  simp only [passes, List.mem_cons, List.not_mem_nil, or_false] at standard
  rcases standard with rfl | rfl | rfl | rfl <;> rfl

/-- No standard rule is about the holder of a query. -/
theorem firstRewrite?_root {pass : Pass} (standard : pass ∈ passes) (c : Query) :
    firstRewrite? pass.rules (.root c) = .ok none := by
  simp only [passes, List.mem_cons, List.not_mem_nil, or_false] at standard
  rcases standard with rfl | rfl | rfl | rfl <;> rfl

/-- Whether the standard passes rewrite a query to another one. -/
def Rewritten (q q' : Query) : Prop :=
  Relation.ReflTransGen (fun q q' => ∃ pass ∈ passes, pass.Rewrites q q') q q'

/-- The operands of a concatenation are rewritten each on its own. -/
theorem exists_of_rewrites_concat {pass : Pass} (standard : pass ∈ passes) {q q' : Query}
    (rewriting : pass.Rewrites q q') : ∀ {l r : Query}, q = .concat l r →
      ∃ l' r', q' = .concat l' r' ∧ pass.Rewrites l l' ∧ pass.Rewrites r r' := by
  induction rewriting with
  | refl => exact fun same => ⟨_, _, same, .refl _, .refl _⟩
  | trans _ _ first second =>
    intro l r same
    obtain ⟨l₁, r₁, same₁, left, right⟩ := first same
    obtain ⟨l₂, r₂, same₂, left', right'⟩ := second same₁
    exact ⟨l₂, r₂, same₂, left.trans left', right.trans right'⟩
  | rule rewritten =>
    rintro l r rfl
    rw [firstRewrite?_concat standard] at rewritten
    cases rewritten
  | hoist => exact nofun
  | @inside q c c' i at_i below =>
    rintro l r rfl
    match i, at_i with
    | 0, rfl => exact ⟨c', r, rfl, below, .refl r⟩
    | 1, rfl => exact ⟨l, c', rfl, .refl l, below⟩

/-- Whether a concatenation in a holder stays there, and its operands are rewritten each on its
own. -/
def KeepsApart (q q' : Query) : Prop :=
  ∀ ⦃l r : Query⦄, q = .root (.concat l r) →
    ∃ l' r', q' = .root (.concat l' r') ∧ Rewritten l l' ∧ Rewritten r r'

theorem KeepsApart.refl (q : Query) : KeepsApart q q :=
  fun _ _ same => ⟨_, _, same, .refl, .refl⟩

theorem KeepsApart.trans {q q' q'' : Query} (first : KeepsApart q q')
    (second : KeepsApart q' q'') : KeepsApart q q'' := by
  intro l r same
  obtain ⟨l₁, r₁, same₁, left, right⟩ := first same
  obtain ⟨l₂, r₂, same₂, left', right'⟩ := second same₁
  exact ⟨l₂, r₂, same₂, Relation.ReflTransGen.trans left left',
    Relation.ReflTransGen.trans right right'⟩

theorem keepsApart_of_rewrites {pass : Pass} (standard : pass ∈ passes) {q q' : Query}
    (rewriting : pass.Rewrites q q') : KeepsApart q q' := by
  induction rewriting with
  | refl => exact .refl _
  | trans _ _ first second => exact first.trans second
  | rule rewritten =>
    rintro l r rfl
    rw [firstRewrite?_root standard] at rewritten
    cases rewritten
  | hoist => exact nofun
  | @inside q c c' i at_i below =>
    rintro l r rfl
    match i, at_i with
    | 0, rfl =>
      obtain ⟨l', r', rfl, left, right⟩ := exists_of_rewrites_concat standard below rfl
      exact ⟨l', r', rfl, .single ⟨pass, standard, left⟩, .single ⟨pass, standard, right⟩⟩

end Standard

/-- A concatenation is optimized operand by operand. -/
theorem optimize_concat {l r : Query} {u : Optimized} {log log' : List Notice}
    (found : optimize maxRewrites (.concat l r) log = .ok u log') :
    ∃ l' r', u.query = .concat l' r' ∧ Standard.Rewritten l l' ∧ Standard.Rewritten r r' := by
  obtain ⟨notices, hoisted, c, -, rfl, rest⟩ := optimize_eq_ok_iff.mp found
  have apart : Standard.KeepsApart (.root (.concat l r)) (.root c) :=
    rest.related Standard.KeepsApart.refl Standard.KeepsApart.trans
      fun _ standard _ _ => Standard.keepsApart_of_rewrites standard
  obtain ⟨l', r', same, left, right⟩ := apart rfl
  cases same
  exact ⟨l', r', rfl, left, right⟩

/-! ### What is kept -/

namespace Standard

variable {q q' : Query}

/-- Rewriting keeps the properties of leaves, and it brings in no sort step and no
concatenation. -/
theorem Rewritten.allNodes {property : Query → Bool} {sorts concats : Bool}
    (invariant : LeafInvariant property) (rewritten : Rewritten q q') :
    (Interpretation.allNodes property sorts concats).of q = true →
      (Interpretation.allNodes property sorts concats).of q' = true := by
  induction rewritten with
  | refl => exact id
  | tail _ step ih =>
    obtain ⟨pass, standard, rewriting⟩ := step
    exact fun nodes => allNodes_of_rewrites invariant standard rewriting (ih nodes)

/-- Rewriting keeps the members of a query. -/
theorem Rewritten.holds (v : Reading) (rewritten : Rewritten q q') : v.holds q' = v.holds q := by
  induction rewritten with
  | refl => rfl
  | tail _ step ih =>
    obtain ⟨pass, standard, rewriting⟩ := step
    exact (v.holds_of_rewrites standard rewriting).trans ih

end Standard

end Rewrite

end ExtentQuery

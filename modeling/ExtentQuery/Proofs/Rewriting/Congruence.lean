import ExtentQuery.Proofs.Rewriting.Same

/-!
# Exchanging what is the same

Repeated placeholders and the last round of rewriting go by `Query.same`.  Only a not-a-number
keeps it from being an equivalence, and without one an operand may give way to any query that is
the same, wherever it stands.

* `Query.holdsNaN` — whether one of the values in a query is a not-a-number;
* `Query.same_self_iff` — the other queries, and no more, are the same as themselves;
* `Query.same_setChild`, `Query.same_setOperandAt` — exchanging an operand of the node itself, and
  one that a path of positions leads to;
* `Query.replaceAt_eq_ok` — replacing an operand that is there does not fault;
* `Query.same_equivalence_congruence` — the laws of equality in one place;
* `Bindings.bind_eq_of_same` — a slot that is bound does not tell apart queries that are the same.

**Custom leaves.**  They are the same if their texts are.  That a leaf is one and the same object
as another need not be asked for, because the text is part of the leaf.
-/

namespace ExtentQuery

/-! ### Values and sort steps -/

namespace Value

/-- Whether the value is a not-a-number. -/
def isNaN : Value → Bool
  | float x => x.isNaN
  | _ => false

theorem same_self_iff {v : Value} : v.same v = true ↔ v.isNaN = false := by
  cases v with
  | float x =>
    simp only [Value.same, isNaN, Double.equals_iff, and_true, and_self]
  | _ => simp only [Value.same, isNaN, beq_self_eq_true]

theorem sameOption_self_iff {v : Option Value} :
    sameOption v v = true ↔ v.any isNaN = false := by
  cases v with
  | none => exact iff_of_true rfl rfl
  | some v => exact same_self_iff

end Value

theorem SortStep.same_self (order : SortStep) : order.same order = true := by
  cases order <;> simp only [SortStep.same, beq_self_eq_true, Bool.and_self]

namespace Query

/-! ### Queries that are the same as themselves -/

/-- Whether a value of the query is a not-a-number; decorated queries included. -/
def holdsNaN : Query → Bool
  | equals _ value => value.any Value.isNaN
  | between _ low high => low.isNaN || high.isNaN
  | root c => c.holdsNaN
  | linkedInto _ targets _ => targets.holdsNaN
  | inter l r => l.holdsNaN || r.holdsNaN
  | union l r => l.holdsNaN || r.holdsNaN
  | diff l r => l.holdsNaN || r.holdsNaN
  | concat l r => l.holdsNaN || r.holdsNaN
  | compl c => c.holdsNaN
  | sort _ c => c.holdsNaN
  | _ => false

/-- What is the same as anything is the same as itself. -/
theorem same_self_of_same {a b : Query} (same : a.same b = true) : a.same a = true :=
  same_trans same (same_symm same)

/-- Queries that are the same as each other are the same as the same queries. -/
theorem same_eq_of_same {a b : Query} (same : a.same b = true) (c : Query) :
    c.same a = c.same b :=
  Bool.eq_iff_iff.mpr ⟨(same_trans · same), (same_trans · (same_symm same))⟩

/-- Pairing the operands of a commuting node crosswise makes no more of them the same as
themselves. -/
theorem same_self_pair_iff (l r : Query) :
    ((l.same l && r.same r) || (l.same r && r.same l)) = true ↔
      l.same l = true ∧ r.same r = true := by
  simp only [Bool.or_eq_true, Bool.and_eq_true]
  constructor
  · rintro (straight | ⟨left, right⟩)
    · exact straight
    · exact ⟨same_self_of_same left, same_self_of_same right⟩
  · exact .inl

/-- A query is the same as itself unless it holds a not-a-number. -/
theorem same_self_iff {q : Query} : q.same q = true ↔ q.holdsNaN = false := by
  induction q with
  | root c ih | compl c ih => exact ih
  | sort order c ih =>
    simp only [Query.same, holdsNaN, SortStep.same_self, Bool.true_and, ih]
  | linkedInto link targets type ih =>
    simp only [Query.same, holdsNaN, beq_self_eq_true, Bool.true_and, ih]
  | equals property value =>
    simp only [Query.same, holdsNaN, beq_self_eq_true, Bool.true_and, Value.sameOption_self_iff]
  | between property low high =>
    simp only [Query.same, holdsNaN, beq_self_eq_true, Bool.true_and, Bool.and_eq_true,
      Bool.or_eq_false_iff, Value.same_self_iff]
  | inter l r ihl ihr | union l r ihl ihr =>
    simp only [Query.same, holdsNaN, same_self_pair_iff, Bool.or_eq_false_iff, ihl, ihr]
  | diff l r ihl ihr | concat l r ihl ihr =>
    simp only [Query.same, holdsNaN, Bool.and_eq_true, Bool.or_eq_false_iff, ihl, ihr]
  | _ => simp only [Query.same, holdsNaN, beq_self_eq_true, Bool.and_self]

/-! ### Exchanging an operand -/

theorem holdsNaN_child? {q c : Query} {i : Nat} (numeric : q.holdsNaN = false)
    (at_i : q.child? i = some c) : c.holdsNaN = false := by
  unfold child? at at_i
  split at at_i <;> cases at_i
  all_goals
    simp only [holdsNaN, Bool.or_eq_false_iff] at numeric
    simp only [numeric]

/-- A node stays the same if an operand of it gives way to one that is the same. -/
theorem same_setChild {q c d : Query} {i : Nat} (numeric : q.holdsNaN = false)
    (at_i : q.child? i = some c) (same : c.same d = true) : q.same (q.setChild i d) = true := by
  unfold child? at at_i
  split at at_i <;> cases at_i
  all_goals
    -- the operand that stays is the same as itself, and the pairing is the straight one
    simp only [holdsNaN, Bool.or_eq_false_iff, ← same_self_iff] at numeric
    simp only [setChild, Query.same, same, numeric, SortStep.same_self, Bool.and_self,
      Bool.true_or]

-- beside a not-a-number an operand may not even give way to itself
example :
    (inter all (equals "draught" (some (.float ⟨0x7ff8000000000000⟩)))).same
      ((inter all (equals "draught" (some (.float ⟨0x7ff8000000000000⟩)))).setChild 0 all) =
        false := by
  decide

/-! ### Exchanging an operand at any depth -/

/-- The operand that a path of positions leads to; the empty path leads to the query itself. -/
def operandAt? : Query → List Nat → Option Query
  | q, [] => some q
  | q, i :: path => (q.child? i).bind (·.operandAt? path)

/-- The query with another operand where a path of positions leads to. -/
def setOperandAt : Query → List Nat → Query → Query
  | _, [], d => d
  | q, i :: path, d => (q.child? i).elim q fun c => q.setChild i (c.setOperandAt path d)

theorem operandAt?_cons {q c : Query} {i : Nat} (at_i : q.child? i = some c) (path : List Nat) :
    q.operandAt? (i :: path) = c.operandAt? path := by
  rw [operandAt?, at_i, Option.bind_some]

theorem setOperandAt_cons {q c : Query} {i : Nat} (at_i : q.child? i = some c) (path : List Nat)
    (d : Query) : q.setOperandAt (i :: path) d = q.setChild i (c.setOperandAt path d) := by
  rw [setOperandAt, at_i, Option.elim_some]

/-- The operand that was put in is the one that the path leads to. -/
theorem operandAt?_setOperandAt {path : List Nat} {q c : Query}
    (there : q.operandAt? path = some c) (d : Query) :
    (q.setOperandAt path d).operandAt? path = some d := by
  induction path generalizing q with
  | nil => rfl
  | cons i path ih =>
    obtain ⟨child, at_i, below⟩ := Option.bind_eq_some_iff.mp there
    rw [setOperandAt_cons at_i, operandAt?_cons (child?_setChild at_i _)]
    exact ih below

/-- Replacing an operand that is there does not fault and detaches it. -/
theorem replaceAt_eq_ok {path : List Nat} {i : Nat} {q c : Query}
    (there : q.operandAt? (path ++ [i]) = some c) (d : Query) :
    q.replaceAt path i d = .ok (c, q.setOperandAt (path ++ [i]) d) := by
  induction path generalizing q with
  | nil =>
    obtain ⟨c, at_i, ⟨⟩⟩ := Option.bind_eq_some_iff.mp there
    simp only [List.nil_append, setOperandAt_cons at_i, setOperandAt, replaceAt, childOrFault,
      at_i, bind, Except.bind, pure, Except.pure]
  | cons step path ih =>
    obtain ⟨child, at_step, below⟩ := Option.bind_eq_some_iff.mp there
    simp only [List.cons_append, setOperandAt_cons at_step, replaceAt, childOrFault, at_step,
      ih below, bind, Except.bind, pure, Except.pure]

/-- A query stays the same if an operand at any depth gives way to one that is the same. -/
theorem same_setOperandAt {path : List Nat} {q c d : Query} (numeric : q.holdsNaN = false)
    (there : q.operandAt? path = some c) (same : c.same d = true) :
    q.same (q.setOperandAt path d) = true := by
  induction path generalizing q with
  | nil =>
    cases there
    exact same
  | cons i path ih =>
    obtain ⟨child, at_i, below⟩ := Option.bind_eq_some_iff.mp there
    have exchanged : child.same (child.setOperandAt path d) = true :=
      ih (holdsNaN_child? numeric at_i) below
    rw [setOperandAt_cons at_i]
    exact same_setChild numeric at_i exchanged

/-- Equality is symmetric and transitive, and what is the same as itself are just the queries
without a not-a-number.  In such a query every operand, be it one of the node or one further
down, can be replaced by one that is the same: the operand is detached, the other one stands in
its place, and the query is the same as before.  A decorated query can be exchanged likewise. -/
theorem same_equivalence_congruence :
    (∀ a b : Query, a.same b = true → b.same a = true) ∧
    (∀ a b c : Query, a.same b = true → b.same c = true → a.same c = true) ∧
    (∀ a : Query, a.same a = true ↔ a.holdsNaN = false) ∧
    (∀ (q c d : Query) (path : List Nat) (i : Nat), q.holdsNaN = false →
      q.operandAt? (path ++ [i]) = some c → c.same d = true →
      ∃ edited, q.replaceAt path i d = .ok (c, edited) ∧
        edited.operandAt? (path ++ [i]) = some d ∧ q.same edited = true) ∧
    (∀ (link type : String) (targets targets' : Query), targets.same targets' = true →
      (linkedInto link targets type).same (linkedInto link targets' type) = true) := by
  refine ⟨fun _ _ => same_symm, fun _ _ _ => same_trans, fun _ => same_self_iff, ?_, ?_⟩
  · intro q c d path i numeric there same
    exact ⟨q.setOperandAt (path ++ [i]) d, replaceAt_eq_ok there d,
      operandAt?_setOperandAt there d, same_setOperandAt numeric there same⟩
  · intro link type targets targets' same
    simp only [Query.same, beq_self_eq_true, Bool.true_and, same]

/-- The ships without draught, as far as the store's own leaf for the low tide lists them. -/
def aground (zero : Double) (listed : List EntityId) : Query :=
  inter (equals "draught" (some (.float zero))) (custom ⟨"tide", "low", false, listed⟩)

/-- The same with the operands exchanged. -/
def lowAndDry (zero : Double) (listed : List EntityId) : Query :=
  inter (custom ⟨"tide", "low", false, listed⟩) (equals "draught" (some (.float zero)))

/-- The ships in port but for some, in the order of a supplied key. -/
def afloat (grounded : Query) : Query :=
  sort (.key 7 "hue" (.property "hue") true)
    (diff (linkedInto "berth" (between "depth" (.int 2) (.int 9)) "Port") grounded)

/-- Leaves that list other ships under one text, zeros of either sign and operands exchanged
twice do not show. -/
theorem same_equivalence_congruence_aground :
    (aground ⟨0⟩ []).same (lowAndDry ⟨0⟩ [⟨1, 1⟩]) = true ∧
    (lowAndDry ⟨0⟩ [⟨1, 1⟩]).same (aground ⟨0⟩ []) = true ∧
    (aground ⟨0⟩ []).same (aground ⟨0x8000000000000000⟩ [⟨1, 2⟩]) = true ∧
    (aground ⟨0⟩ []).same (aground ⟨0⟩ []) = true ∧
    (afloat (aground ⟨0⟩ [])).holdsNaN = false ∧
    (∃ edited,
      (afloat (aground ⟨0⟩ [])).replaceAt [0] 1 (lowAndDry ⟨0⟩ [⟨1, 1⟩]) =
        .ok (aground ⟨0⟩ [], edited) ∧
      edited.operandAt? ([0] ++ [1]) = some (lowAndDry ⟨0⟩ [⟨1, 1⟩]) ∧
      (afloat (aground ⟨0⟩ [])).same edited = true) ∧
    (linkedInto "pilot" (aground ⟨0⟩ []) "Ship").same
      (linkedInto "pilot" (lowAndDry ⟨0⟩ [⟨1, 1⟩]) "Ship") = true := by
  obtain ⟨symmetric, transitive, reflexive, replaced, decorated⟩ := same_equivalence_congruence
  have crossed : (aground ⟨0⟩ []).same (lowAndDry ⟨0⟩ [⟨1, 1⟩]) = true := by decide
  have numeric : (afloat (aground ⟨0⟩ [])).holdsNaN = false := by decide
  refine ⟨crossed, symmetric _ _ crossed, transitive _ (lowAndDry ⟨0⟩ [⟨1, 1⟩]) _ crossed ?_,
    (reflexive _).mpr ?_, numeric, replaced _ _ _ _ _ numeric ?_ crossed,
    decorated _ _ _ _ crossed⟩
  all_goals decide

end Query

/-! ### Placeholders -/

/-- A slot that is bound does not tell apart queries that are the same. -/
theorem Bindings.bind_eq_of_same {bindings : Bindings} {slot : Nat} {bound a b : Query}
    (found : bindings.find? slot = some bound) (same : a.same b = true) :
    bindings.bind slot a = bindings.bind slot b := by
  simp only [bind, found, Query.same_eq_of_same same bound]

end ExtentQuery

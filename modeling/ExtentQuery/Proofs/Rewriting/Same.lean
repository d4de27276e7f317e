import ExtentQuery.Proofs.Rewriting.Interpretation

/-!
# Which queries are the same

`Query.same` is the equality that repeated placeholders go by.  It sees neither the order of
commuting operands nor the sign of a zero, and a not-a-number is not even the same as itself.

* `Query.same_symm`, `Query.same_trans` — symmetric and transitive, though not reflexive;
* `Query.same_of_commuted` — commuting operands may be exchanged on either side.

**Not an equivalence.**  A placeholder that occurs once matches any query, also one that is
not the same as itself.  So what is said of repeated placeholders must never compare an
occurrence with itself.
-/

namespace ExtentQuery

/-! ### Values -/

theorem Double.equals_iff {x y : Double} :
    x.equals y = true ↔ x.isNaN = false ∧ y.isNaN = false ∧ x.rank = y.rank := by
  simp only [equals, compare?, beq_iff_eq]
  split
  case isTrue nan =>
    simp only [reduceCtorEq, false_iff, not_and]
    intro first second
    simp [first, second] at nan
  case isFalse numbers =>
    simp only [Bool.or_eq_true, not_or, Bool.not_eq_true] at numbers
    simp [numbers]

namespace Value

variable {a b c : Value}

theorem same_symm (same : a.same b = true) : b.same a = true := by
  cases a <;> cases b <;> simp only [Value.same, Bool.false_eq_true] at same ⊢
  case float.float =>
    obtain ⟨first, second, ranks⟩ := Double.equals_iff.mp same
    exact Double.equals_iff.mpr ⟨second, first, ranks.symm⟩
  all_goals exact BEq.symm same

theorem same_trans (first : a.same b = true) (second : b.same c = true) : a.same c = true := by
  cases a <;> cases b <;> simp only [Value.same, Bool.false_eq_true] at first <;>
    cases c <;> simp only [Value.same, Bool.false_eq_true] at second ⊢
  case float.float.float =>
    obtain ⟨left, -, ranks⟩ := Double.equals_iff.mp first
    obtain ⟨-, right, ranks'⟩ := Double.equals_iff.mp second
    exact Double.equals_iff.mpr ⟨left, right, ranks.trans ranks'⟩
  all_goals exact BEq.trans first second

theorem sameOption_symm {v w : Option Value} (same : sameOption v w = true) :
    sameOption w v = true := by
  cases v <;> cases w <;> first | exact same | exact same_symm same

theorem sameOption_trans {u v w : Option Value} (first : sameOption u v = true)
    (second : sameOption v w = true) : sameOption u w = true := by
  cases v with
  | none =>
    cases u with
    | none => exact second
    | some => cases first
  | some b =>
    cases u with
    | none => cases first
    | some a =>
      cases w with
      | none => cases second
      | some c => exact same_trans first second

end Value

namespace SortStep

variable {a b c : SortStep}

theorem same_symm (same : a.same b = true) : b.same a = true := by
  cases a <;> cases b <;> simp only [SortStep.same, Bool.and_eq_true, beq_iff_eq,
    Bool.false_eq_true] at same ⊢ <;> grind

theorem same_trans (first : a.same b = true) (second : b.same c = true) : a.same c = true := by
  cases a <;> cases b <;> simp only [SortStep.same, Bool.and_eq_true, beq_iff_eq,
    Bool.false_eq_true] at first <;>
    cases c <;> simp only [SortStep.same, Bool.and_eq_true, beq_iff_eq,
    Bool.false_eq_true] at second ⊢ <;> grind

theorem Alike.refl (a : SortStep) : a.Alike a := by
  cases a <;> simp [Alike]

theorem Alike.trans (first : a.Alike b) (second : b.Alike c) : a.Alike c := by
  cases a <;> cases b <;> cases c <;> simp only [Alike, reduceCtorEq] at first second ⊢ <;> grind

/-- Steps that sort alike are the same to every step. -/
theorem same_of_alike (alike : a.Alike b) (c : SortStep) : a.same c = b.same c := by
  cases a <;> cases b
  case key.key =>
    obtain ⟨rfl, -⟩ := alike
    cases c <;> rfl
  all_goals exact congrArg (SortStep.same · c) alike

end SortStep

namespace Query

/-! ### Symmetric and transitive -/

theorem same_symm : ∀ {a b : Query}, a.same b = true → b.same a = true := by
  intro a
  induction a with
  | root c ih | compl c ih =>
    intro b same
    cases b <;> simp only [Query.same, Bool.false_eq_true] at same ⊢
    exact ih same
  | sort order c ih =>
    intro b same
    cases b <;> simp only [Query.same, Bool.and_eq_true, Bool.false_eq_true] at same ⊢
    exact ⟨SortStep.same_symm same.1, ih same.2⟩
  | linkedInto link targets type ih =>
    intro b same
    cases b <;> simp only [Query.same, Bool.and_eq_true, Bool.false_eq_true] at same ⊢
    exact ⟨⟨BEq.symm same.1.1, BEq.symm same.1.2⟩, ih same.2⟩
  | diff l r ihl ihr | concat l r ihl ihr =>
    intro b same
    cases b <;> simp only [Query.same, Bool.and_eq_true, Bool.false_eq_true] at same ⊢
    exact ⟨ihl same.1, ihr same.2⟩
  | inter l r ihl ihr | union l r ihl ihr =>
    intro b same
    cases b <;>
      simp only [Query.same, Bool.or_eq_true, Bool.and_eq_true, Bool.false_eq_true] at same ⊢
    rcases same with ⟨left, right⟩ | ⟨left, right⟩
    · exact .inl ⟨ihl left, ihr right⟩
    · exact .inr ⟨ihr right, ihl left⟩
  | equals property value =>
    intro b same
    cases b <;> simp only [Query.same, Bool.and_eq_true, Bool.false_eq_true] at same ⊢
    exact ⟨BEq.symm same.1, Value.sameOption_symm same.2⟩
  | between property low high =>
    intro b same
    cases b <;> simp only [Query.same, Bool.and_eq_true, Bool.false_eq_true] at same ⊢
    exact ⟨⟨BEq.symm same.1.1, Value.same_symm same.1.2⟩, Value.same_symm same.2⟩
  | _ =>
    intro b same
    cases b <;> simp only [Query.same, Bool.and_eq_true, beq_iff_eq, Bool.false_eq_true] at same ⊢
    all_goals simp only [same, and_self]

theorem same_trans : ∀ {a b c : Query}, a.same b = true → b.same c = true → a.same c = true := by
  intro a
  induction a with
  | root x ih | compl x ih =>
    intro b c first second
    cases b <;> simp only [Query.same, Bool.false_eq_true] at first
    cases c <;> simp only [Query.same, Bool.false_eq_true] at second ⊢
    exact ih first second
  | sort order x ih =>
    intro b c first second
    cases b <;> simp only [Query.same, Bool.and_eq_true, Bool.false_eq_true] at first
    cases c <;> simp only [Query.same, Bool.and_eq_true, Bool.false_eq_true] at second ⊢
    exact ⟨SortStep.same_trans first.1 second.1, ih first.2 second.2⟩
  | linkedInto link targets type ih =>
    intro b c first second
    cases b <;> simp only [Query.same, Bool.and_eq_true, Bool.false_eq_true] at first
    cases c <;> simp only [Query.same, Bool.and_eq_true, Bool.false_eq_true] at second ⊢
    exact ⟨⟨BEq.trans first.1.1 second.1.1, BEq.trans first.1.2 second.1.2⟩,
      ih first.2 second.2⟩
  | diff l r ihl ihr | concat l r ihl ihr =>
    intro b c first second
    cases b <;> simp only [Query.same, Bool.and_eq_true, Bool.false_eq_true] at first
    cases c <;> simp only [Query.same, Bool.and_eq_true, Bool.false_eq_true] at second ⊢
    exact ⟨ihl first.1 second.1, ihr first.2 second.2⟩
  | inter l r ihl ihr | union l r ihl ihr =>
    intro b c first second
    cases b <;>
      simp only [Query.same, Bool.or_eq_true, Bool.and_eq_true, Bool.false_eq_true] at first
    cases c <;>
      simp only [Query.same, Bool.or_eq_true, Bool.and_eq_true, Bool.false_eq_true] at second ⊢
    -- operands that have been exchanged twice are back in their places
    rcases first with ⟨left, right⟩ | ⟨left, right⟩ <;>
      rcases second with ⟨left', right'⟩ | ⟨left', right'⟩
    · exact .inl ⟨ihl left left', ihr right right'⟩
    · exact .inr ⟨ihl left left', ihr right right'⟩
    · exact .inr ⟨ihl left right', ihr right left'⟩
    · exact .inl ⟨ihl left right', ihr right left'⟩
  | equals property value =>
    intro b c first second
    cases b <;> simp only [Query.same, Bool.and_eq_true, Bool.false_eq_true] at first
    cases c <;> simp only [Query.same, Bool.and_eq_true, Bool.false_eq_true] at second ⊢
    exact ⟨BEq.trans first.1 second.1, Value.sameOption_trans first.2 second.2⟩
  | between property low high =>
    intro b c first second
    cases b <;> simp only [Query.same, Bool.and_eq_true, Bool.false_eq_true] at first
    cases c <;> simp only [Query.same, Bool.and_eq_true, Bool.false_eq_true] at second ⊢
    exact ⟨⟨BEq.trans first.1.1 second.1.1, Value.same_trans first.1.2 second.1.2⟩,
      Value.same_trans first.2 second.2⟩
  | _ =>
    intro b c first second
    cases b <;> simp only [Query.same, Bool.and_eq_true, beq_iff_eq, Bool.false_eq_true] at first
    all_goals
      cases c <;>
        simp only [Query.same, Bool.and_eq_true, beq_iff_eq, Bool.false_eq_true] at second ⊢
    all_goals simp only [first, second, and_self]

/-! ### Commuting operands -/

/-- The order of commuting operands does not show when a query is compared. -/
theorem same_of_commuted {a b : Query} (commuted : a.Commuted b) :
    ∀ c : Query, a.same c = b.same c := by
  induction commuted with
  | refl => exact fun _ => rfl
  | trans _ _ first second => exact fun c => (first c).trans (second c)
  | inter_comm l r =>
    intro c
    cases c <;> simp only [Query.same]
    case inter_comm.inter x y =>
      rw [Bool.or_comm, Bool.and_comm (l.same y), Bool.and_comm (l.same x)]
  | union_comm l r =>
    intro c
    cases c <;> simp only [Query.same]
    case union_comm.union x y =>
      rw [Bool.or_comm, Bool.and_comm (l.same y), Bool.and_comm (l.same x)]
  | root _ ih | compl _ ih =>
    intro c
    cases c <;> simp only [Query.same, ih]
  | sort alike _ ih =>
    intro c
    cases c <;> simp only [Query.same, ih, SortStep.same_of_alike alike]
  | linkedInto link type _ ih =>
    intro c
    cases c <;> simp only [Query.same, ih]
  | inter _ _ ihl ihr | union _ _ ihl ihr | diff _ _ ihl ihr | concat _ _ ihl ihr =>
    intro c
    cases c <;> simp only [Query.same, ihl, ihr]

end Query

end ExtentQuery

import ExtentQuery.Rewrite.Pass

/-!
# The equations of a scan

`Pass.scan` is a recursion over the credit, and within it one over the query.  Neither of them shows
in what a scan does: after a change and after an operand it goes on as a scan again.

* `Pass.scanWithin_eq` — the bound of the credit does not matter;
* `Pass.scan_none`, `Pass.scan_some` — the equations of a scan;
* `Progress.scan_induction` — the induction that follows it.
-/

namespace ExtentQuery.Rewrite

namespace Progress

/-- The scan of an operand that leaves the credit as it was has changed nothing. -/
theorem Reaches.resume_eq {here scanned : Progress} {operand : Query} {i : Nat}
    (at_i : here.query.child? i = some operand)
    (below : (here.focus operand).Reaches scanned) (unchanged : ¬ scanned.credit < here.credit) :
    here.resume i scanned = here := by
  obtain rfl := below.resolve_left unchanged
  simp only [Progress.resume, Progress.focus, Query.setChild_child? at_i]

/-- Going on to the next operand is progress, whether or not the scan of this one changed
anything: the credit is lower, or the same node has fewer operands left. -/
theorem Reaches.rest_lt {here scanned : Progress} {operand : Query} {i : Nat}
    (at_i : here.query.child? i = some operand)
    (below : (here.focus operand).Reaches scanned) :
    Prod.Lex (· < ·) (Prod.Lex (· < ·) (· < ·))
      ((here.resume i scanned).credit, (here.resume i scanned).query.size, 2 - (i + 1))
      (here.credit, here.query.size, 2 - i) := by
  by_cases lower : scanned.credit < here.credit
  · exact Prod.Lex.left _ _ lower
  · rw [below.resume_eq at_i lower]
    have := Query.lt_two_of_child? at_i
    exact Prod.Lex.right _ (Prod.Lex.right _ (by omega))

/-- What holds of a scan, provided that it holds of what the scan goes on with, holds of every scan:
after a change, in an operand, and at the operands after it. -/
theorem scan_induction {motive : Progress → Nat → Prop}
    (step : ∀ here i, (∀ next j, next.credit < here.credit → motive next j) →
      (∀ operand, here.query.child? i = some operand → motive (here.focus operand) 0) →
      (∀ operand scanned, here.query.child? i = some operand →
        (here.focus operand).Reaches scanned → motive (here.resume i scanned) (i + 1)) →
      motive here i) (here : Progress) (i : Nat) : motive here i :=
  step here i (fun next j _lower => scan_induction step next j)
    (fun operand _at_i => scan_induction step (here.focus operand) 0)
    fun _ scanned _at_i _below => scan_induction step (here.resume i scanned) (i + 1)
termination_by (here.credit, here.query.size, 2 - i)
decreasing_by
  · exact Prod.Lex.left _ _ _lower
  · exact Prod.Lex.right _ (Prod.Lex.left _ _ (Query.size_lt_of_child? _at_i))
  · exact Reaches.rest_lt _at_i _below

end Progress

namespace Pass

variable {pass : Pass} {bound bound' : Nat} {start here : Progress} {i : Nat} {operand : Query}

/-! ### The equations -/

section Equations

variable {changed : Scan bound} {changed' : Scan bound'} {reached : start.Reaches here}
  {within : here.credit ≤ bound} {within' : here.credit ≤ bound'}

theorem scanWith_none (noOperand : here.query.child? i = none) :
    pass.scanWith changed start here i reached within = .ok ⟨here, reached⟩ := by
  rw [scanWith]
  split
  case h_1 => rfl
  case h_2 at_i => rw [noOperand] at at_i; cases at_i

theorem scanWith_some (at_i : here.query.child? i = some operand) :
    pass.scanWith changed start here i reached within =
      if pass.onEntry then
        match pass.step? here i operand with
        | .error fault => .error fault
        | .ok (some ⟨next, lower⟩) =>
          changed start next 0 (reached.of_lt lower) (Nat.lt_of_lt_of_le lower within)
        | .ok none =>
          match pass.scanWith changed (here.focus operand) (here.focus operand) 0 (.refl _)
              within with
          | .error fault => .error fault
          | .ok ⟨scanned, below⟩ =>
            if lower : scanned.credit < here.credit then
              changed start (here.resume i scanned) (i + 1) (.resume at_i reached below)
                (Nat.lt_of_lt_of_le lower within)
            else pass.scanWith changed start here (i + 1) reached within
      else
        match pass.scanWith changed (here.focus operand) (here.focus operand) 0 (.refl _)
            within with
        | .error fault => .error fault
        | .ok ⟨scanned, below⟩ =>
          match pass.step? (here.resume i scanned) i scanned.query with
          | .error fault => .error fault
          | .ok (some ⟨next, lower⟩) =>
            changed start next 0 ((Progress.Reaches.resume at_i reached below).of_lt lower)
              (Nat.lt_of_lt_of_le lower (Nat.le_trans below.credit_le within))
          | .ok none =>
            if lower : scanned.credit < here.credit then
              changed start (here.resume i scanned) (i + 1) (.resume at_i reached below)
                (Nat.lt_of_lt_of_le lower within)
            else pass.scanWith changed start here (i + 1) reached within := by
  rw [scanWith]
  split
  case h_1 noOperand => rw [noOperand] at at_i; cases at_i
  case h_2 operand' at_i' =>
    obtain rfl : operand = operand' := Option.some.inj (at_i.symm.trans at_i')
    rfl

/-- A scan depends on nothing but what scans of less credit do. -/
theorem scanWith_congr (start here : Progress) (i : Nat) (reached : start.Reaches here)
    (within : here.credit ≤ bound) (within' : here.credit ≤ bound')
    (same : ∀ start next i reached (lower : next.credit < bound) (lower' : next.credit < bound'),
      changed start next i reached lower = changed' start next i reached lower') :
    pass.scanWith changed start here i reached within
      = pass.scanWith changed' start here i reached within' := by
  cases at_i : here.query.child? i with
  | none => rw [scanWith_none at_i, scanWith_none at_i]
  | some operand =>
    have inner := scanWith_congr (here.focus operand) (here.focus operand) 0 (.refl _) within within'
      same
    have rest := scanWith_congr start here (i + 1) reached within within' same
    simp only [scanWith_some at_i, inner, rest]
    split
    · cases pass.step? here i operand with
      | error => rfl
      | ok next =>
        cases next with
        | some next => exact same ..
        | none =>
          cases pass.scanWith changed' (here.focus operand) (here.focus operand) 0 (.refl _)
            within' with
          | error => rfl
          | ok scanned => exact dite_congr rfl (fun _ => same ..) fun _ => rfl
    · cases pass.scanWith changed' (here.focus operand) (here.focus operand) 0 (.refl _)
        within' with
      | error => rfl
      | ok scanned =>
        dsimp only
        cases pass.step? (here.resume i scanned.1) i scanned.1.query with
        | error => rfl
        | ok next =>
          cases next with
          | some next => exact same ..
          | none => exact dite_congr rfl (fun _ => same ..) fun _ => rfl
termination_by 3 * here.query.size + (2 - i)
decreasing_by
  · exact Progress.left_focus_lt at_i
  · exact Progress.left_next_lt at_i

end Equations

/-- Scans of less credit than a bound. -/
def scans (pass : Pass) (bound : Nat) : Scan bound :=
  fun start here i reached _ => pass.scan start here i reached

/-- The bound of the credit does not matter. -/
theorem scanWithin_eq (bound : Nat) {start here : Progress} {i : Nat} (reached : start.Reaches here)
    (within : here.credit ≤ bound) :
    pass.scanWithin bound start here i reached within
      = pass.scanWith (pass.scans bound) start here i reached within := by
  induction bound using Nat.strongRecOn generalizing start here i with
  | ind bound ih =>
    cases bound with
    | zero =>
      rw [scanWithin]
      exact scanWith_congr start here i reached within within fun _ _ _ _ lower =>
        absurd lower (Nat.not_lt_zero _)
    | succ bound =>
      rw [scanWithin]
      refine scanWith_congr start here i reached within within fun start next i reached lower _ => ?_
      have below : next.credit < bound + 1 := lower
      rw [ih bound (Nat.lt_succ_self _), scans, scan, ih next.credit below]
      exact scanWith_congr start next i reached _ _ fun _ _ _ _ _ _ => rfl

theorem scan_eq (start here : Progress) (i : Nat) (reached : start.Reaches here) :
    pass.scan start here i reached
      = pass.scanWith (pass.scans here.credit) start here i reached (Nat.le_refl _) :=
  scanWithin_eq here.credit reached (Nat.le_refl _)

theorem scan_none {reached : start.Reaches here} (noOperand : here.query.child? i = none) :
    pass.scan start here i reached = .ok ⟨here, reached⟩ := by
  rw [scan_eq, scanWith_none noOperand]

theorem scan_some {reached : start.Reaches here} (at_i : here.query.child? i = some operand) :
    pass.scan start here i reached =
      if pass.onEntry then
        match pass.step? here i operand with
        | .error fault => .error fault
        | .ok (some ⟨next, lower⟩) => pass.scan start next 0 (reached.of_lt lower)
        | .ok none =>
          match pass.scan (here.focus operand) (here.focus operand) 0 (.refl _) with
          | .error fault => .error fault
          | .ok ⟨scanned, below⟩ =>
            pass.scan start (here.resume i scanned) (i + 1) (.resume at_i reached below)
      else
        match pass.scan (here.focus operand) (here.focus operand) 0 (.refl _) with
        | .error fault => .error fault
        | .ok ⟨scanned, below⟩ =>
          match pass.step? (here.resume i scanned) i scanned.query with
          | .error fault => .error fault
          | .ok (some ⟨next, lower⟩) =>
            pass.scan start next 0 ((Progress.Reaches.resume at_i reached below).of_lt lower)
          | .ok none =>
            pass.scan start (here.resume i scanned) (i + 1) (.resume at_i reached below) := by
  -- an operand that has not changed leaves the query as it was
  have rest : ∀ scanned : { last : Progress // (here.focus operand).Reaches last },
      (if lower : scanned.1.credit < here.credit then
        pass.scan start (here.resume i scanned.1) (i + 1) (.resume at_i reached scanned.2)
      else pass.scan start here (i + 1) reached)
        = pass.scan start (here.resume i scanned.1) (i + 1) (.resume at_i reached scanned.2) := by
    intro scanned
    split
    case isTrue => rfl
    case isFalse unchanged =>
      have same := scanned.2.resume_eq at_i unchanged
      congr 1
      exact same.symm
  have inner : pass.scanWith (pass.scans here.credit) (here.focus operand) (here.focus operand) 0
      (.refl _) (Nat.le_refl here.credit)
        = pass.scan (here.focus operand) (here.focus operand) 0 (.refl _) :=
    (scan_eq (here.focus operand) (here.focus operand) 0 (.refl _)).symm
  have next : pass.scanWith (pass.scans here.credit) start here (i + 1) reached (Nat.le_refl _)
      = pass.scan start here (i + 1) reached := (scan_eq start here (i + 1) reached).symm
  rw [scan_eq, scanWith_some at_i, inner, next]
  split
  · cases pass.step? here i operand with
    | error => rfl
    | ok change =>
      cases change with
      | some change => rfl
      | none =>
        cases pass.scan (here.focus operand) (here.focus operand) 0 (.refl _) with
        | error => rfl
        | ok scanned => exact rest scanned
  · cases pass.scan (here.focus operand) (here.focus operand) 0 (.refl _) with
    | error => rfl
    | ok scanned =>
      dsimp only
      cases pass.step? (here.resume i scanned.1) i scanned.1.query with
      | error => rfl
      | ok change =>
        cases change with
        | some change => rfl
        | none => exact rest scanned

end Pass

end ExtentQuery.Rewrite

import ExtentQuery.Proofs.Rewriting.Scanning

/-!
# The walk of a pass

`Pass.scan` and `Pass.run` carry the proof that they end along, which is in the way of
every other proof about them.  This module describes what they do without it.

* `Pass.Makes`, `Pass.Idle` — the two answers of `Pass.step?`, spelled out, and
  `Pass.Changes`, which forgets what kind of change it is;
* `Pass.Records` — the walk over the operands of a node, as a relation between the
  position where it stands, the changes that it makes, and the point where it ends;
* `Pass.Scans` — the same walk, its changes forgotten;
* `Pass.Rewrites` — the rewriting of a query that a walk amounts to, position by
  position forgotten;
* `Query.Below`, `Pass.Stuck` — the operands at any depth, and a query that no rule
  applies to below its top.

`Pass.Scans.rewrites` and `Pass.run_rewrites` say that a walk does nothing but rewrite.
`Pass.idleBelow_of_run` says that a run that ends with budget left has nothing more to do.

**On exit.**  A pass that applies its rules on exit tries an operand only after the
operands of the operand have come to rest.  `Pass.Rewrites.rule` keeps this fact,
because some rules make a query smaller only then.
-/

namespace ExtentQuery

/-! ### Operands at any depth -/

/-- The first query is an operand of the second one, at any depth. -/
inductive Query.Below : Query → Query → Prop where
  | operand {q c : Query} {i : Nat} : q.child? i = some c → Below c q
  | deeper {q c d : Query} {i : Nat} : q.child? i = some c → Below d c → Below d q

namespace Query

theorem setChild_root (c : Query) (i : Nat) (d : Query) :
    ∃ c', (root c).setChild i d = root c' := by
  cases i with
  | zero => exact ⟨d, rfl⟩
  | succ => exact ⟨c, rfl⟩

/-- The other operands stay in place when one is replaced. -/
theorem child?_setChild_of_ne {q c : Query} {i j : Nat} (at_i : q.child? i = some c)
    (d : Query) (other : j ≠ i) : (q.setChild i d).child? j = q.child? j := by
  have position := lt_two_of_child? at_i
  match i, j with
  | 0, 0 => exact absurd rfl other
  | 1, 1 => exact absurd rfl other
  | 0, 1 => cases q <;> rfl
  | 0, j + 2 => cases q <;> rfl
  | 1, 0 => cases q <;> rfl
  | 1, j + 2 => cases q <;> rfl
  | i + 2, j => omega

/-- A position without an operand lies behind all operands. -/
theorem lt_of_child?_eq_none {q c : Query} {i j : Nat} (noOperand : q.child? i = none)
    (at_j : q.child? j = some c) : j < i := by
  have behind : ¬ i < q.arity := by
    rw [← isSome_child?_iff, noOperand]
    exact Bool.false_ne_true
  have inside : j < q.arity := by
    rw [← isSome_child?_iff, at_j]
    rfl
  exact Nat.lt_of_lt_of_le inside (Nat.not_lt.mp behind)

end Query

namespace Rewrite

/-- A step that is taken out goes to the front. -/
theorem Hoisted.orders_of_push {hoisted pushed : Hoisted} {order : SortStep}
    (taken : hoisted.push order = some pushed) : pushed.orders = order :: hoisted.orders := by
  unfold push at taken
  split at taken
  · cases taken
    rfl
  · cases taken

namespace Pass

variable {pass : Pass}

/-! ### One change -/

/-- One change of the operand at position `i`. -/
inductive Changes (pass : Pass) (here : Progress) (i : Nat) : Query → Progress → Prop where
  | hoist {order : SortStep} {sorted : Query} {hoisted : Hoisted} :
      pass.hoists = true → here.hoisted.push order = some hoisted →
      Changes pass here i (.sort order sorted)
        { here with query := here.query.setChild i sorted, hoisted := hoisted }
  | rewrite {operand replacement : Query} :
      0 < here.budget → firstRewrite? pass.rules operand = .ok (some replacement) →
      Changes pass here i operand
        { here with
          query := here.query.setChild i replacement
          budget := here.budget - 1 }

/-- Nothing can be changed at an operand: there is no sort step to take out, and no rule
applies or the budget does not allow it. -/
structure Idle (pass : Pass) (here : Progress) (operand : Query) : Prop where
  full : pass.hoists = true → ∀ order sorted, operand = .sort order sorted →
    here.hoisted.push order = none
  noRule : 0 < here.budget → firstRewrite? pass.rules operand = .ok none

/-- What a change does to a query. -/
inductive Change where
  /-- A sort step is taken out. -/
  | hoisted (order : SortStep)
  /-- A rule replaces an operand. -/
  | rewritten (operand replacement : Query)
deriving DecidableEq

/-- One change of the operand at position `i`, and what it does.  A rule is tried only if there
is no sort step to take out. -/
inductive Makes (pass : Pass) (here : Progress) (i : Nat) :
    Query → Change → Progress → Prop where
  | hoist {order : SortStep} {sorted : Query} {hoisted : Hoisted} :
      pass.hoists = true → here.hoisted.push order = some hoisted →
      Makes pass here i (.sort order sorted) (.hoisted order)
        { here with query := here.query.setChild i sorted, hoisted := hoisted }
  | rewrite {operand replacement : Query} :
      (pass.hoists = true → ∀ order sorted, operand = .sort order sorted →
        here.hoisted.push order = none) →
      0 < here.budget → firstRewrite? pass.rules operand = .ok (some replacement) →
      Makes pass here i operand (.rewritten operand replacement)
        { here with
          query := here.query.setChild i replacement
          budget := here.budget - 1 }

theorem Makes.changes {here next : Progress} {i : Nat} {operand : Query} {change : Change}
    (makes : pass.Makes here i operand change next) : pass.Changes here i operand next := by
  cases makes with
  | hoist hoists pushed => exact .hoist hoists pushed
  | rewrite _ budgetLeft rewritten => exact .rewrite budgetLeft rewritten

/-- Where no sort step is taken out, there is none or the list is full. -/
theorem full_of_hoist? {here : Progress} {i : Nat} {operand : Query}
    (notTaken : step?.hoist? pass here i operand = none) (hoists : pass.hoists = true)
    (order : SortStep) (sorted : Query) (isSort : operand = .sort order sorted) :
    here.hoisted.push order = none := by
  subst isSort
  unfold step?.hoist? at notTaken
  split at notTaken
  case h_1 order' sorted' _ same =>
    cases same
    split at notTaken
    case h_1 => cases notTaken
    case h_2 pushed => exact pushed
  case h_2 other => exact absurd rfl (other order sorted hoists)

theorem makes_of_step? {here : Progress} {i : Nat} {operand : Query}
    {next : { next : Progress // next.credit < here.credit }}
    (step : pass.step? here i operand = .ok (some next)) :
    ∃ change, pass.Makes here i operand change next.1 := by
  unfold step? at step
  split at step
  case h_1 taken found =>
    cases step
    unfold step?.hoist? at found
    split at found
    case h_1 hoists =>
      split at found
      case h_1 hoisted pushed =>
        cases found
        exact ⟨_, .hoist hoists pushed⟩
      case h_2 => cases found
    case h_2 => cases found
  case h_2 notTaken =>
    split at step
    case isTrue budgetLeft =>
      split at step
      case h_1 => cases step
      case h_2 => cases step
      case h_3 replacement rewritten =>
        cases step
        exact ⟨_, .rewrite (full_of_hoist? notTaken) budgetLeft rewritten⟩
    case isFalse => cases step

theorem changes_of_step? {here : Progress} {i : Nat} {operand : Query}
    {next : { next : Progress // next.credit < here.credit }}
    (step : pass.step? here i operand = .ok (some next)) :
    pass.Changes here i operand next.1 := by
  obtain ⟨change, makes⟩ := makes_of_step? step
  exact makes.changes

theorem idle_of_step? {here : Progress} {i : Nat} {operand : Query}
    (step : pass.step? here i operand = .ok none) : pass.Idle here operand := by
  unfold step? at step
  split at step
  case h_1 => cases step
  case h_2 notTaken =>
    constructor
    · exact full_of_hoist? notTaken
    · intro budgetLeft
      rw [dif_pos budgetLeft] at step
      split at step
      case h_1 => cases step
      case h_2 unchanged => exact unchanged
      case h_3 => cases step

/-! ### The walk as a relation -/

/-- The walk over the operands of a node.  It stands before position `i` at the point
`here`, and it ends at `last`. -/
inductive Scans (pass : Pass) : (here : Progress) → (i : Nat) → (last : Progress) → Prop where
  | done {here : Progress} {i : Nat} :
      here.query.child? i = none → Scans pass here i here
  | changeOnEntry {here next last : Progress} {i : Nat} {operand : Query} :
      pass.onEntry = true → here.query.child? i = some operand →
      pass.Changes here i operand next → Scans pass next 0 last →
      Scans pass here i last
  | descendOnEntry {here scanned last : Progress} {i : Nat} {operand : Query} :
      pass.onEntry = true → here.query.child? i = some operand →
      pass.Idle here operand → Scans pass (here.focus operand) 0 scanned →
      Scans pass (here.resume i scanned) (i + 1) last →
      Scans pass here i last
  | changeOnExit {here scanned next last : Progress} {i : Nat} {operand : Query} :
      pass.onEntry = false → here.query.child? i = some operand →
      Scans pass (here.focus operand) 0 scanned →
      pass.Changes (here.resume i scanned) i scanned.query next →
      Scans pass next 0 last →
      Scans pass here i last
  | passOnExit {here scanned last : Progress} {i : Nat} {operand : Query} :
      pass.onEntry = false → here.query.child? i = some operand →
      Scans pass (here.focus operand) 0 scanned →
      pass.Idle (here.resume i scanned) scanned.query →
      Scans pass (here.resume i scanned) (i + 1) last →
      Scans pass here i last

/-- The walk over the operands of a node, and the changes that it makes, in order. -/
inductive Records (pass : Pass) :
    (here : Progress) → (i : Nat) → List Change → (last : Progress) → Prop where
  | done {here : Progress} {i : Nat} :
      here.query.child? i = none → Records pass here i [] here
  | changeOnEntry {here next last : Progress} {i : Nat} {operand : Query} {change : Change}
      {log : List Change} :
      pass.onEntry = true → here.query.child? i = some operand →
      pass.Makes here i operand change next → Records pass next 0 log last →
      Records pass here i (change :: log) last
  | descendOnEntry {here scanned last : Progress} {i : Nat} {operand : Query}
      {inner log : List Change} :
      pass.onEntry = true → here.query.child? i = some operand →
      pass.Idle here operand → Records pass (here.focus operand) 0 inner scanned →
      Records pass (here.resume i scanned) (i + 1) log last →
      Records pass here i (inner ++ log) last
  | changeOnExit {here scanned next last : Progress} {i : Nat} {operand : Query} {change : Change}
      {inner log : List Change} :
      pass.onEntry = false → here.query.child? i = some operand →
      Records pass (here.focus operand) 0 inner scanned →
      pass.Makes (here.resume i scanned) i scanned.query change next →
      Records pass next 0 log last →
      Records pass here i (inner ++ change :: log) last
  | passOnExit {here scanned last : Progress} {i : Nat} {operand : Query}
      {inner log : List Change} :
      pass.onEntry = false → here.query.child? i = some operand →
      Records pass (here.focus operand) 0 inner scanned →
      pass.Idle (here.resume i scanned) scanned.query →
      Records pass (here.resume i scanned) (i + 1) log last →
      Records pass here i (inner ++ log) last

theorem Records.scans {here last : Progress} {i : Nat} {log : List Change}
    (walk : pass.Records here i log last) : pass.Scans here i last := by
  induction walk with
  | done noOperand => exact .done noOperand
  | changeOnEntry onEntry at_i makes _ ih => exact .changeOnEntry onEntry at_i makes.changes ih
  | descendOnEntry onEntry at_i idle _ _ below ih =>
    exact .descendOnEntry onEntry at_i idle below ih
  | changeOnExit onExit at_i _ makes _ below ih =>
    exact .changeOnExit onExit at_i below makes.changes ih
  | passOnExit onExit at_i _ idle _ below ih => exact .passOnExit onExit at_i below idle ih

/-- A scan that answers is a walk with the changes that it makes. -/
theorem records_of_scan (start here : Progress) (i : Nat) (reached : start.Reaches here) :
    ∀ last, pass.scan start here i reached = .ok last →
      ∃ log, pass.Records here i log last.1 := by
  induction here, i using Progress.scan_induction generalizing start with
  | step here i after inside beyond =>
    intro last found
    cases at_i : here.query.child? i with
    | none =>
      rw [scan_none at_i] at found
      cases found
      exact ⟨[], .done at_i⟩
    | some operand =>
      -- a way through the scan that ends with a fault has no answer
      rw [scan_some at_i] at found
      split at found
      case isTrue onEntry =>
        split at found
        case h_1 => cases found
        case h_2 next lower step =>
          obtain ⟨change, makes⟩ := makes_of_step? step
          obtain ⟨log, rest⟩ := after next 0 lower start _ last found
          exact ⟨_, .changeOnEntry onEntry at_i makes rest⟩
        case h_3 step =>
          split at found
          case h_1 => cases found
          case h_2 scanned below inner =>
            obtain ⟨log, walk⟩ := inside operand at_i _ _ _ inner
            obtain ⟨log', rest⟩ := beyond operand scanned at_i below start _ last found
            exact ⟨_, .descendOnEntry onEntry at_i (idle_of_step? step) walk rest⟩
      case isFalse onExit =>
        have onExit := Bool.eq_false_iff.mpr onExit
        split at found
        case h_1 => cases found
        case h_2 scanned below inner =>
          obtain ⟨log, walk⟩ := inside operand at_i _ _ _ inner
          split at found
          case h_1 => cases found
          case h_2 next lower step =>
            obtain ⟨change, makes⟩ := makes_of_step? step
            obtain ⟨log', rest⟩ :=
              after next 0 (Nat.lt_of_lt_of_le lower below.credit_le) start _ last found
            exact ⟨_, .changeOnExit onExit at_i walk makes rest⟩
          case h_3 step =>
            obtain ⟨log', rest⟩ := beyond operand scanned at_i below start _ last found
            exact ⟨_, .passOnExit onExit at_i walk (idle_of_step? step) rest⟩

/-- A scan that answers is a walk. -/
theorem scans_of_scan (start here : Progress) (i : Nat) (reached : start.Reaches here)
    (last : { last : Progress // start.Reaches last })
    (found : pass.scan start here i reached = .ok last) : pass.Scans here i last.1 := by
  obtain ⟨log, walk⟩ := records_of_scan start here i reached last found
  exact walk.scans

/-- A change lowers the credit. -/
theorem Changes.credit_lt {here next : Progress} {i : Nat} {operand : Query}
    (change : pass.Changes here i operand next) : next.credit < here.credit := by
  cases change with
  | hoist hoists pushed =>
    have := Hoisted.room_lt_of_push pushed
    simp only [Progress.credit]
    omega
  | rewrite budgetLeft rewritten =>
    simp only [Progress.credit]
    omega

/-- A change uses up budget or none at all. -/
theorem Changes.budget_le {here next : Progress} {i : Nat} {operand : Query}
    (change : pass.Changes here i operand next) : next.budget ≤ here.budget := by
  cases change with
  | hoist => exact Nat.le_refl _
  | rewrite => exact Nat.sub_le _ _

/-- A walk lowers the credit or changes nothing. -/
theorem Scans.reaches {here last : Progress} {i : Nat} (walk : pass.Scans here i last) :
    here.Reaches last := by
  induction walk with
  | done => exact .refl _
  | changeOnEntry _ _ change _ ih =>
    exact .inl (Nat.lt_of_le_of_lt ih.credit_le change.credit_lt)
  | descendOnEntry _ at_i _ _ _ below ih =>
    -- the inner walk may have changed nothing, and then nothing is put back
    rcases Progress.Reaches.resume at_i (.refl _) below with lower | same
    · exact .inl (Nat.lt_of_le_of_lt ih.credit_le lower)
    · rwa [same] at ih
  | changeOnExit _ at_i _ change _ below ih =>
    have here_le := (Progress.Reaches.resume at_i (.refl _) below).credit_le
    exact .inl (Nat.lt_of_le_of_lt ih.credit_le (Nat.lt_of_lt_of_le change.credit_lt here_le))
  | passOnExit _ at_i _ _ _ below ih =>
    rcases Progress.Reaches.resume at_i (.refl _) below with lower | same
    · exact .inl (Nat.lt_of_le_of_lt ih.credit_le lower)
    · rwa [same] at ih

theorem Scans.budget_le {here last : Progress} {i : Nat} (walk : pass.Scans here i last) :
    last.budget ≤ here.budget := by
  induction walk with
  | done => exact Nat.le_refl _
  | changeOnEntry _ _ change _ ih => exact Nat.le_trans ih change.budget_le
  | descendOnEntry _ _ _ _ _ below ih => exact Nat.le_trans ih below
  | changeOnExit _ _ _ change _ below ih =>
    exact Nat.le_trans ih (Nat.le_trans change.budget_le below)
  | passOnExit _ _ _ _ _ below ih => exact Nat.le_trans ih below

/-- A change puts another operand in. -/
theorem Changes.query_eq {here next : Progress} {i : Nat} {operand : Query}
    (change : pass.Changes here i operand next) :
    ∃ replacement, next.query = here.query.setChild i replacement := by
  cases change with
  | hoist => exact ⟨_, rfl⟩
  | rewrite => exact ⟨_, rfl⟩

/-- The holder of a query stays in place while the query in it is rewritten. -/
theorem Scans.root {here last : Progress} {i : Nat} (walk : pass.Scans here i last) :
    ∀ c, here.query = .root c → ∃ c', last.query = .root c' := by
  induction walk with
  | done => exact fun c top => ⟨c, top⟩
  | @changeOnEntry here next last i operand _ _ change _ ih =>
    intro c top
    obtain ⟨replacement, eq⟩ := change.query_eq
    obtain ⟨c', top'⟩ := Query.setChild_root c i replacement
    exact ih c' (by rw [eq, top, top'])
  | @descendOnEntry here scanned last i operand _ _ _ _ _ _ ih =>
    intro c top
    obtain ⟨c', top'⟩ := Query.setChild_root c i scanned.query
    exact ih c' (by rw [Progress.resume, top, top'])
  | @changeOnExit here scanned next last i operand _ _ _ change _ _ ih =>
    intro c top
    obtain ⟨replacement, eq⟩ := change.query_eq
    obtain ⟨c', top'⟩ := Query.setChild_root c i scanned.query
    obtain ⟨c'', top''⟩ := Query.setChild_root c' i replacement
    exact ih c'' (by rw [eq, Progress.resume, top, top', top''])
  | @passOnExit here scanned last i operand _ _ _ _ _ _ ih =>
    intro c top
    obtain ⟨c', top'⟩ := Query.setChild_root c i scanned.query
    exact ih c' (by rw [Progress.resume, top, top'])

/-! ### Coming to rest -/

/-- No rule of the pass applies to an operand of the query, at any depth. -/
def Stuck (pass : Pass) (q : Query) : Prop :=
  ∀ d, d.Below q → firstRewrite? pass.rules d = .ok none

/-- No rule of the pass applies to the query or to an operand of it, at any depth. -/
structure AtRest (pass : Pass) (q : Query) : Prop where
  top : firstRewrite? pass.rules q = .ok none
  below : pass.Stuck q

theorem stuck_of_operands {q : Query}
    (operands : ∀ i c, q.child? i = some c → pass.AtRest c) : pass.Stuck q := by
  intro d below
  cases below with
  | operand at_i => exact (operands _ _ at_i).top
  | deeper at_i below => exact (operands _ _ at_i).below d below

theorem Stuck.operand {q c : Query} {i : Nat} (stuck : pass.Stuck q)
    (at_i : q.child? i = some c) : pass.AtRest c :=
  ⟨stuck c (.operand at_i), fun d below => stuck d (.deeper at_i below)⟩

/-- A walk that applies its rules on exit and ends with budget left has brought all
operands to rest.  The induction assumes this of the operands before the position where
the walk stands; a change sends the walk back to the first operand, where there are
none. -/
theorem Scans.stuck_of_onExit {here last : Progress} {i : Nat}
    (walk : pass.Scans here i last) (onExit : pass.onEntry = false)
    (budgetLeft : 0 < last.budget)
    (before : ∀ j, j < i → ∀ c, here.query.child? j = some c → pass.AtRest c) :
    pass.Stuck last.query := by
  induction walk with
  | done noOperand =>
    refine stuck_of_operands fun j c at_j => before j ?_ c at_j
    exact Query.lt_of_child?_eq_none noOperand at_j
  | changeOnEntry onEntry => rw [onExit] at onEntry; cases onEntry
  | descendOnEntry onEntry => rw [onExit] at onEntry; cases onEntry
  | changeOnExit _ _ _ _ _ _ ih =>
    -- back at the first operand, there is none before it
    exact ih budgetLeft fun j lower => absurd lower (Nat.not_lt_zero j)
  | passOnExit _ at_i _ idle rest below ih =>
    have scannedLeft := Nat.lt_of_lt_of_le budgetLeft rest.budget_le
    have resting : pass.AtRest _ :=
      ⟨idle.noRule scannedLeft,
        below scannedLeft fun j lower => absurd lower (Nat.not_lt_zero j)⟩
    -- the operand that was passed joins those before, which stay as they are
    refine ih budgetLeft fun j lower c at_j => ?_
    rcases Nat.lt_succ_iff_lt_or_eq.mp lower with earlier | rfl
    · rw [Progress.resume, Query.child?_setChild_of_ne at_i _ (Nat.ne_of_lt earlier)] at at_j
      exact before j earlier c at_j
    · rw [Progress.resume, Query.child?_setChild at_i] at at_j
      cases at_j
      exact resting

/-- If nothing has changed in the end, nothing has changed in an operand either. -/
theorem unchanged_of_rest {here scanned last : Progress} {i : Nat} {operand : Query}
    (at_i : here.query.child? i = some operand)
    (inner : (here.focus operand).Reaches scanned)
    (rest : (here.resume i scanned).Reaches last) (same : last = here) :
    scanned = here.focus operand ∧ here.resume i scanned = here := by
  rcases inner with lower | unmoved
  · have lower' : last.credit < here.credit := Nat.lt_of_le_of_lt rest.credit_le lower
    rw [same] at lower'
    exact absurd lower' (Nat.lt_irrefl _)
  · refine ⟨unmoved, ?_⟩
    rw [unmoved]
    simp only [Progress.resume, Progress.focus, Query.setChild_child? at_i]

/-- Nothing can be changed at an operand of the query, at any depth. -/
def IdleBelow (pass : Pass) (p : Progress) : Prop :=
  ∀ d, d.Below p.query → pass.Idle p d

theorem idleBelow_of_operands {p : Progress}
    (operands : ∀ i c, p.query.child? i = some c →
      pass.Idle p c ∧ pass.IdleBelow (p.focus c)) : pass.IdleBelow p := by
  intro d below
  cases below with
  | operand at_i => exact (operands _ _ at_i).1
  | deeper at_i below =>
    have idle := (operands _ _ at_i).2 d below
    exact ⟨idle.full, idle.noRule⟩

/-- A walk that has changed nothing has met no operand that can be changed. -/
theorem Scans.idle_of_unchanged {here last : Progress} {i : Nat}
    (walk : pass.Scans here i last) (same : last = here) :
    ∀ j, i ≤ j → ∀ c, here.query.child? j = some c →
      pass.Idle here c ∧ pass.IdleBelow (here.focus c) := by
  induction walk with
  | done noOperand =>
    intro j later c at_j
    exact absurd (Query.lt_of_child?_eq_none noOperand at_j) (Nat.not_lt.mpr later)
  | changeOnEntry _ _ change rest =>
    -- credit never comes back, so a walk with a change in it has changed something
    have lower := Nat.lt_of_le_of_lt rest.reaches.credit_le change.credit_lt
    rw [same] at lower
    exact absurd lower (Nat.lt_irrefl _)
  | descendOnEntry _ at_i idle inner rest below ih =>
    obtain ⟨unmoved, unchanged⟩ := unchanged_of_rest at_i inner.reaches rest.reaches same
    intro j later c at_j
    rcases Nat.eq_or_lt_of_le later with rfl | later
    · rw [at_i] at at_j
      cases at_j
      exact ⟨idle, idleBelow_of_operands fun k => below unmoved k (Nat.zero_le k)⟩
    · rw [unchanged] at ih
      exact ih same j later c at_j
  | changeOnExit _ at_i inner change rest =>
    have here_le := (Progress.Reaches.resume at_i (.refl _) inner.reaches).credit_le
    have lower := Nat.lt_of_le_of_lt rest.reaches.credit_le
      (Nat.lt_of_lt_of_le change.credit_lt here_le)
    rw [same] at lower
    exact absurd lower (Nat.lt_irrefl _)
  | passOnExit _ at_i inner idle rest below ih =>
    obtain ⟨unmoved, unchanged⟩ := unchanged_of_rest at_i inner.reaches rest.reaches same
    rw [unchanged] at idle ih
    intro j later c at_j
    rcases Nat.eq_or_lt_of_le later with rfl | later
    · rw [at_i] at at_j
      cases at_j
      rw [unmoved] at idle
      exact ⟨idle, idleBelow_of_operands fun k => below unmoved k (Nat.zero_le k)⟩
    · exact ih same j later c at_j

/-- A run that ends with budget left ends where nothing can be changed any more. -/
theorem idleBelow_of_run (start : Progress) : ∀ last, pass.run start = .ok last →
    0 < last.budget → pass.IdleBelow last := by
  induction start using Pass.run.induct pass with
  | case1 start fault failed =>
    intro last found
    rw [run, failed] at found
    cases found
  | case2 start between property scanned changed ih =>
    intro last found
    rw [run, scanned] at found
    exact ih last (by simpa only [dif_pos changed] using found)
  | case3 start last property scanned unchanged =>
    intro last' found budgetLeft
    rw [run, scanned] at found
    simp only [dif_neg unchanged, Except.ok.injEq] at found
    subst found
    -- with budget left, the run ended because its last walk has changed nothing
    have walk := scans_of_scan _ _ _ _ _ scanned
    rcases walk.reaches with lower | same
    · exact absurd ⟨lower, Nat.ne_of_gt budgetLeft⟩ unchanged
    · obtain rfl : last = start := same
      exact idleBelow_of_operands fun j => walk.idle_of_unchanged rfl j (Nat.zero_le j)

/-- A run that ends with budget left ends with a query that is stuck. -/
theorem stuck_of_run (start last : Progress) (found : pass.run start = .ok last)
    (budgetLeft : 0 < last.budget) : pass.Stuck last.query :=
  fun d below => (idleBelow_of_run start last found budgetLeft d below).noRule budgetLeft

/-! ### Rewriting -/

/-- The rewriting of a query by the rules of a pass, at its top and at its operands. -/
inductive Rewrites (pass : Pass) : Query → Query → Prop where
  | refl (q : Query) : Rewrites pass q q
  | trans {q q' q'' : Query} : Rewrites pass q q' → Rewrites pass q' q'' → Rewrites pass q q''
  | rule {q q' : Query} : firstRewrite? pass.rules q = .ok (some q') →
      (pass.onEntry = false → pass.Stuck q) → Rewrites pass q q'
  | hoist {order : SortStep} {sorted : Query} :
      pass.hoists = true → Rewrites pass (.sort order sorted) sorted
  | inside {q c c' : Query} {i : Nat} :
      q.child? i = some c → Rewrites pass c c' → Rewrites pass q (q.setChild i c')

theorem Changes.rewrites {here next : Progress} {i : Nat} {operand : Query}
    (change : pass.Changes here i operand next) (at_i : here.query.child? i = some operand)
    (stuck : pass.onEntry = false → 0 < here.budget → pass.Stuck operand) :
    pass.Rewrites here.query next.query := by
  cases change with
  | hoist hoists => exact .inside at_i (.hoist hoists)
  | rewrite budgetLeft rewritten =>
    exact .inside at_i (.rule rewritten fun onExit => stuck onExit budgetLeft)

theorem Changes.rewrites_onEntry {here next : Progress} {i : Nat} {operand : Query}
    (change : pass.Changes here i operand next) (at_i : here.query.child? i = some operand)
    (onEntry : pass.onEntry = true) : pass.Rewrites here.query next.query := by
  refine change.rewrites at_i fun onExit => ?_
  rw [onEntry] at onExit
  cases onExit

/-- A change on exit, together with the walk over the operands that comes before it. -/
theorem Changes.rewrites_onExit {here scanned next : Progress} {i : Nat} {operand : Query}
    (change : pass.Changes (here.resume i scanned) i scanned.query next)
    (at_i : here.query.child? i = some operand) (onExit : pass.onEntry = false)
    (inner : pass.Scans (here.focus operand) 0 scanned)
    (below : pass.Rewrites operand scanned.query) : pass.Rewrites here.query next.query := by
  refine .trans (.inside at_i below) (change.rewrites (Query.child?_setChild at_i _) ?_)
  exact fun _ left => inner.stuck_of_onExit onExit left fun j lower =>
    absurd lower (Nat.not_lt_zero j)

/-- A walk rewrites the query. -/
theorem Scans.rewrites {here last : Progress} {i : Nat} (walk : pass.Scans here i last) :
    pass.Rewrites here.query last.query := by
  induction walk with
  | done => exact .refl _
  | changeOnEntry onEntry at_i change _ ih => exact .trans (change.rewrites_onEntry at_i onEntry) ih
  | descendOnEntry _ at_i _ _ _ below ih => exact .trans (.inside at_i below) ih
  | changeOnExit onExit at_i inner change _ below ih =>
    exact .trans (change.rewrites_onExit at_i onExit inner below) ih
  | passOnExit _ at_i _ _ _ below ih => exact .trans (.inside at_i below) ih

/-! ### Runs -/

/-- A relation that can be chained and that holds along every walk holds along a run. -/
theorem related_of_run {R : Progress → Progress → Prop}
    (trans : ∀ {a b c}, R a b → R b c → R a c)
    (walks : ∀ {a b}, pass.Scans a 0 b → R a b) (start : Progress) :
    ∀ last, pass.run start = .ok last → R start last := by
  induction start using Pass.run.induct pass with
  | case1 start fault failed =>
    intro last found
    rw [run, failed] at found
    cases found
  | case2 start between property scanned changed ih =>
    intro last found
    rw [run, scanned] at found
    exact trans (walks (scans_of_scan _ _ _ _ _ scanned))
      (ih last (by simpa only [dif_pos changed] using found))
  | case3 start last property scanned unchanged =>
    intro last' found
    rw [run, scanned] at found
    simp only [dif_neg unchanged, Except.ok.injEq] at found
    subst found
    exact walks (scans_of_scan _ _ _ _ _ scanned)

/-- A run rewrites the query. -/
theorem run_rewrites (start : Progress) : ∀ last, pass.run start = .ok last →
    pass.Rewrites start.query last.query :=
  related_of_run .trans Scans.rewrites start

/-- The holder of a query stays in place while a pass runs. -/
theorem root_of_run (start : Progress) : ∀ last, pass.run start = .ok last →
    ∀ c, start.query = .root c → ∃ c', last.query = .root c' := by
  refine related_of_run (fun first second c top => ?_) Scans.root start
  obtain ⟨c', top'⟩ := first c top
  exact second c' top'

end Pass

end Rewrite

end ExtentQuery

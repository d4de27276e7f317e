import ExtentQuery.Proofs.Rewriting.Rules

/-!
# The account of a run

Whatever the rules of a pass are, a run of it is paid for: an application of a rule takes
one unit from the budget, and a sort step that is taken out takes one place in the list.
This module keeps the books and derives from them how long a run can be and where it ends.

* `Pass.Performs` — a run, and the log of the changes that it makes;
  `Pass.performs_of_run` and `Pass.Performs.unique` say that each run that answers has
  exactly one log;
* `rewriteCount`, `takenOut` — the entries of a log, told apart;
* `Balances` — what a log leaves of the budget and of the list, and
  `Pass.Performs.balances`;
* `Pass.Normal` — where a pass has nothing more to do, and `Pass.normal_of_run`;
* `Pass.run_accounted` — all of this together, for every pass of closed rules.

**Growing rules.**  Nothing is assumed of the rules except that they are closed.  A rule
may enlarge a query or undo another rule; the budget alone ends such a run.
-/

namespace ExtentQuery.Rewrite

namespace Pass

variable {pass : Pass}

/-! ### The log of a run -/

/-- At one operand at most one change is made. -/
theorem Makes.unique {here next next' : Progress} {i : Nat} {operand : Query}
    {change change' : Change} (makes : pass.Makes here i operand change next)
    (makes' : pass.Makes here i operand change' next') : change' = change ∧ next' = next := by
  cases makes with
  | hoist hoists pushed =>
    cases makes' with
    | hoist _ pushed' =>
      cases pushed.symm.trans pushed'
      exact ⟨rfl, rfl⟩
    | rewrite full =>
      rw [full hoists _ _ rfl] at pushed
      cases pushed
  | rewrite full _ rewritten =>
    cases makes' with
    | hoist hoists pushed =>
      rw [full hoists _ _ rfl] at pushed
      cases pushed
    | rewrite _ _ rewritten' =>
      cases rewritten.symm.trans rewritten'
      exact ⟨rfl, rfl⟩

/-- A change is made only where something can be changed. -/
theorem Makes.not_idle {here next : Progress} {i : Nat} {operand : Query} {change : Change}
    (makes : pass.Makes here i operand change next) : ¬ pass.Idle here operand := by
  intro idle
  cases makes with
  | hoist hoists pushed =>
    rw [idle.full hoists _ _ rfl] at pushed
    cases pushed
  | rewrite _ budgetLeft rewritten =>
    rw [idle.noRule budgetLeft] at rewritten
    cases rewritten

/-- A walk has one log and one end. -/
theorem Records.unique {here last : Progress} {i : Nat} {log : List Change}
    (walk : pass.Records here i log last) :
    ∀ {log' last'}, pass.Records here i log' last' → log' = log ∧ last' = last := by
  induction walk with
  | done noOperand =>
    intro log' last' walk'
    cases walk' with
    | done => exact ⟨rfl, rfl⟩
    | changeOnEntry _ at_i | descendOnEntry _ at_i | changeOnExit _ at_i | passOnExit _ at_i =>
      rw [noOperand] at at_i
      cases at_i
  | changeOnEntry onEntry at_i makes _ ih =>
    intro log' last' walk'
    cases walk' with
    | done noOperand => rw [noOperand] at at_i; cases at_i
    | changeOnEntry _ at_i' makes' rest' =>
      cases at_i.symm.trans at_i'
      obtain ⟨rfl, rfl⟩ := makes.unique makes'
      obtain ⟨rfl, rfl⟩ := ih rest'
      exact ⟨rfl, rfl⟩
    | descendOnEntry _ at_i' idle' =>
      cases at_i.symm.trans at_i'
      exact absurd idle' makes.not_idle
    | changeOnExit onExit | passOnExit onExit => rw [onEntry] at onExit; cases onExit
  | descendOnEntry onEntry at_i idle _ _ below ih =>
    intro log' last' walk'
    cases walk' with
    | done noOperand => rw [noOperand] at at_i; cases at_i
    | changeOnEntry _ at_i' makes' =>
      cases at_i.symm.trans at_i'
      exact absurd idle makes'.not_idle
    | descendOnEntry _ at_i' _ inner' rest' =>
      cases at_i.symm.trans at_i'
      obtain ⟨rfl, rfl⟩ := below inner'
      obtain ⟨rfl, rfl⟩ := ih rest'
      exact ⟨rfl, rfl⟩
    | changeOnExit onExit | passOnExit onExit => rw [onEntry] at onExit; cases onExit
  | changeOnExit onExit at_i _ makes _ below ih =>
    intro log' last' walk'
    cases walk' with
    | done noOperand => rw [noOperand] at at_i; cases at_i
    | changeOnEntry onEntry | descendOnEntry onEntry => rw [onExit] at onEntry; cases onEntry
    | changeOnExit _ at_i' inner' makes' rest' =>
      cases at_i.symm.trans at_i'
      obtain ⟨rfl, rfl⟩ := below inner'
      obtain ⟨rfl, rfl⟩ := makes.unique makes'
      obtain ⟨rfl, rfl⟩ := ih rest'
      exact ⟨rfl, rfl⟩
    | passOnExit _ at_i' inner' idle' =>
      cases at_i.symm.trans at_i'
      obtain ⟨rfl, rfl⟩ := below inner'
      exact absurd idle' makes.not_idle
  | passOnExit onExit at_i _ idle _ below ih =>
    intro log' last' walk'
    cases walk' with
    | done noOperand => rw [noOperand] at at_i; cases at_i
    | changeOnEntry onEntry | descendOnEntry onEntry => rw [onExit] at onEntry; cases onEntry
    | changeOnExit _ at_i' inner' makes' =>
      cases at_i.symm.trans at_i'
      obtain ⟨rfl, rfl⟩ := below inner'
      exact absurd idle makes'.not_idle
    | passOnExit _ at_i' inner' _ rest' =>
      cases at_i.symm.trans at_i'
      obtain ⟨rfl, rfl⟩ := below inner'
      obtain ⟨rfl, rfl⟩ := ih rest'
      exact ⟨rfl, rfl⟩

/-- A run of a pass, and the changes that it makes, in order: walks over the operands of the
query, until one makes no change or the budget is used up. -/
inductive Performs (pass : Pass) :
    (start : Progress) → List Change → (last : Progress) → Prop where
  | last {start last : Progress} {log : List Change} :
      pass.Records start 0 log last → (log = [] ∨ last.budget = 0) → Performs pass start log last
  | again {start between last : Progress} {log later : List Change} :
      pass.Records start 0 log between → log ≠ [] → between.budget ≠ 0 →
      Performs pass between later last → Performs pass start (log ++ later) last

/-- A run has one log and one end. -/
theorem Performs.unique {start last : Progress} {log : List Change}
    (performed : pass.Performs start log last) :
    ∀ {log' last'}, pass.Performs start log' last' → log' = log ∧ last' = last := by
  induction performed with
  | last walk ended =>
    intro log' last' performed'
    cases performed' with
    | last walk' => exact walk.unique walk'
    | again walk' changed budgetLeft =>
      obtain ⟨rfl, rfl⟩ := walk.unique walk'
      rcases ended with unchanged | usedUp
      · exact absurd unchanged changed
      · exact absurd usedUp budgetLeft
  | again walk changed budgetLeft _ ih =>
    intro log' last' performed'
    cases performed' with
    | last walk' ended' =>
      obtain ⟨rfl, rfl⟩ := walk.unique walk'
      rcases ended' with unchanged | usedUp
      · exact absurd unchanged changed
      · exact absurd usedUp budgetLeft
    | again walk' _ _ rest' =>
      obtain ⟨rfl, rfl⟩ := walk.unique walk'
      obtain ⟨rfl, rfl⟩ := ih rest'
      exact ⟨rfl, rfl⟩

end Pass

/-! ### Keeping the books -/

/-- The number of rules that a log of changes applies. -/
def rewriteCount : List Pass.Change → Nat
  | [] => 0
  | .hoisted _ :: log => rewriteCount log
  | .rewritten _ _ :: log => rewriteCount log + 1

/-- The sort steps that a log of changes takes out, in order. -/
def takenOut : List Pass.Change → List SortStep
  | [] => []
  | .hoisted order :: log => order :: takenOut log
  | .rewritten _ _ :: log => takenOut log

theorem rewriteCount_append (log later : List Pass.Change) :
    rewriteCount (log ++ later) = rewriteCount log + rewriteCount later := by
  fun_induction rewriteCount log with
  | case1 => exact (Nat.zero_add _).symm
  | case2 order log ih => exact ih
  | case3 operand replacement log ih =>
    simp only [List.cons_append, rewriteCount, ih]
    omega

theorem takenOut_append (log later : List Pass.Change) :
    takenOut (log ++ later) = takenOut log ++ takenOut later := by
  fun_induction takenOut log with
  | case1 => rfl
  | case2 order log ih => exact congrArg (order :: ·) ih
  | case3 operand replacement log ih => exact ih

/-- Each entry of a log applies a rule or takes a sort step out. -/
theorem length_log (log : List Pass.Change) :
    log.length = rewriteCount log + (takenOut log).length := by
  fun_induction rewriteCount log with
  | case1 => rfl
  | case2 order log ih =>
    simp only [List.length_cons, takenOut, ih]
    omega
  | case3 operand replacement log ih =>
    simp only [List.length_cons, takenOut, ih]
    omega

/-- What a log of changes leaves of the budget and of the list of sort steps. -/
structure Balances (log : List Pass.Change) (here last : Progress) : Prop where
  budget : last.budget + rewriteCount log = here.budget
  orders : last.hoisted.orders = (takenOut log).reverse ++ here.hoisted.orders

namespace Balances

variable {log later : List Pass.Change} {here between last : Progress}

theorem nil (p : Progress) : Balances [] p p :=
  ⟨rfl, rfl⟩

theorem append (first : Balances log here between) (second : Balances later between last) :
    Balances (log ++ later) here last := by
  constructor
  · rw [rewriteCount_append, ← first.budget, ← second.budget]
    omega
  · rw [takenOut_append, List.reverse_append, List.append_assoc, ← first.orders, second.orders]

/-- Looking at an operand changes neither the budget nor the list. -/
theorem resume {operand : Query} {i : Nat} (inner : Balances log (here.focus operand) last) :
    Balances log here (here.resume i last) :=
  ⟨inner.budget, inner.orders⟩

/-- Every change lowers the credit by one. -/
theorem credit (balance : Balances log here last) : last.credit + log.length = here.credit := by
  have room : last.hoisted.orders.length = (takenOut log).length + here.hoisted.orders.length := by
    rw [balance.orders, List.length_append, List.length_reverse]
  have := balance.budget
  have := last.hoisted.length_le
  simp only [Progress.credit, Hoisted.room, length_log]
  omega

theorem changesTo (balance : Balances log here last) : here.changesTo last = log.length := by
  rw [Progress.changesTo, ← balance.credit]
  exact Nat.add_sub_cancel_left _ _

/-- The steps that are taken out find room in the list. -/
theorem length_takenOut_le (balance : Balances log here last) :
    (takenOut log).length ≤ here.hoisted.room := by
  have full := last.hoisted.length_le
  rw [balance.orders, List.length_append, List.length_reverse] at full
  exact Nat.le_sub_of_add_le full

end Balances

namespace Pass

variable {pass : Pass}

theorem Makes.balances {here next : Progress} {i : Nat} {operand : Query} {change : Change}
    (makes : pass.Makes here i operand change next) : Balances [change] here next := by
  cases makes with
  | hoist _ pushed => exact ⟨rfl, Hoisted.orders_of_push pushed⟩
  | rewrite _ budgetLeft _ => exact ⟨Nat.sub_add_cancel budgetLeft, rfl⟩

theorem Records.balances {here last : Progress} {i : Nat} {log : List Change}
    (walk : pass.Records here i log last) : Balances log here last := by
  induction walk with
  | done => exact .nil _
  | changeOnEntry _ _ makes _ ih => exact makes.balances.append ih
  | descendOnEntry _ _ _ _ _ below ih => exact below.resume.append ih
  | changeOnExit _ _ _ makes _ below ih =>
    exact below.resume.append (makes.balances.append ih)
  | passOnExit _ _ _ _ _ below ih => exact below.resume.append ih

theorem Performs.balances {start last : Progress} {log : List Change}
    (performed : pass.Performs start log last) : Balances log start last := by
  induction performed with
  | last walk => exact walk.balances
  | again walk _ _ _ ih => exact walk.balances.append ih

/-- A run that answers has a log. -/
theorem performs_of_run (start : Progress) : ∀ last, pass.run start = .ok last →
    ∃ log, pass.Performs start log last := by
  induction start using Pass.run.induct pass with
  | case1 start fault failed =>
    intro last found
    rw [run, failed] at found
    cases found
  | case2 start between property scanned changed ih =>
    intro last found
    rw [run, scanned] at found
    obtain ⟨log, walk⟩ := records_of_scan _ _ _ _ _ scanned
    obtain ⟨later, rest⟩ := ih last (by simpa only [dif_pos changed] using found)
    refine ⟨log ++ later, .again walk ?_ changed.2 rest⟩
    rintro rfl
    exact absurd walk.balances.credit (Nat.ne_of_lt changed.1)
  | case3 start last property scanned unchanged =>
    intro last' found
    rw [run, scanned] at found
    simp only [dif_neg unchanged, Except.ok.injEq] at found
    subst found
    obtain ⟨log, walk⟩ := records_of_scan _ _ _ _ _ scanned
    refine ⟨log, .last walk ?_⟩
    cases log with
    | nil => exact .inl rfl
    | cons change log =>
      -- a change costs credit, so it was the budget that ended the run
      refine .inr (Decidable.byContradiction fun budgetLeft => unchanged ⟨?_, budgetLeft⟩)
      have credit : last.credit + (log.length + 1) = start.credit := walk.balances.credit
      omega

/-- A run that answers has one log and one end. -/
theorem performs_iff_of_run {start last : Progress} (found : pass.run start = .ok last) :
    ∃ log, Balances log start last ∧ ∀ log' last',
      pass.Performs start log' last' ↔ log' = log ∧ last' = last := by
  obtain ⟨log, performed⟩ := performs_of_run start last found
  refine ⟨log, performed.balances, fun log' last' => ⟨performed.unique, ?_⟩⟩
  rintro ⟨rfl, rfl⟩
  exact performed

/-! ### Where a run ends -/

/-- No rule of the pass matches an operand of the query, at any depth, and a pass that takes
sort steps out has left none, unless there is no more room for them. -/
structure Normal (pass : Pass) (p : Progress) : Prop where
  noMatch : ∀ d : Query, d.Below p.query →
    ∀ rule ∈ pass.rules, rule.source.matchAgainst d [] = .ok none
  noSort : pass.hoists = true → p.hoisted.isFull = false →
    ∀ d : Query, d.Below p.query → ∀ order c, d ≠ .sort order c

theorem IdleBelow.normal {p : Progress} (idle : pass.IdleBelow p) (budgetLeft : 0 < p.budget) :
    pass.Normal p where
  noMatch d below rule mem :=
    Rule.matchAgainst_eq_none
      (rewrite?_eq_none_of_firstRewrite? ((idle d below).noRule budgetLeft) rule mem)
  noSort hoists room d below order c isSort := by
    have full := Hoisted.push_eq_none_iff.mp ((idle d below).full hoists order c isSort)
    rw [room] at full
    cases full

/-- A run that ends with budget left ends in normal form. -/
theorem normal_of_run {start last : Progress} (found : pass.run start = .ok last)
    (budgetLeft : 0 < last.budget) : pass.Normal last :=
  (idleBelow_of_run start last found budgetLeft).normal budgetLeft

/-! ### Every pass of closed rules -/

theorem closed_empty (name : String) (onEntry hoists : Bool) :
    ∀ rule ∈ (Pass.empty name onEntry hoists).rules, rule.Closed := by
  intro rule mem
  cases mem

/-- A pass stays closed when a closed rule is added. -/
theorem closed_extend {source destination : Query} (closed : ∀ rule ∈ pass.rules, rule.Closed)
    (added : Rule.Closed ⟨source, destination⟩) :
    ∀ rule ∈ (pass.extend source destination).rules, rule.Closed := by
  intro rule mem
  rcases List.mem_append.mp mem with earlier | oriented
  · exact closed rule earlier
  · exact added.orientation oriented

/-- **Every run is accounted for.**  A pass of closed rules runs without a fault, whatever the
rules do.  The budget goes down by the number of rules that are applied, the sort steps that
are taken out find room in the list, and the changes that are counted are both together.  A run
that ends with budget left ends in normal form. -/
theorem run_accounted (closed : ∀ rule ∈ pass.rules, rule.Closed) (start : Progress)
    (ground : start.query.ground = true) :
    ∃ log last, pass.run start = .ok last
      ∧ (∀ log' last', pass.Performs start log' last' ↔ log' = log ∧ last' = last)
      ∧ last.budget + rewriteCount log = start.budget
      ∧ last.hoisted.orders = (takenOut log).reverse ++ start.hoisted.orders
      ∧ (takenOut log).length ≤ maxHoisted - start.hoisted.orders.length
      ∧ start.changesTo last = rewriteCount log + (takenOut log).length
      ∧ (0 < last.budget → pass.Normal last) := by
  obtain ⟨last, found⟩ := run_total closed start ground
  obtain ⟨log, balance, performed⟩ := performs_iff_of_run found
  exact ⟨log, last, found, performed, balance.budget, balance.orders, balance.length_takenOut_le,
    balance.changesTo.trans (length_log log), normal_of_run found⟩

/-- The account of a rule that puts every query under one more complement. -/
theorem run_accounted_growing :
    let growing := (Pass.empty "growing" true true).extend (.slot 0) (.compl (.slot 0))
    let start : Progress := ⟨.root (.sort (.property "age" true) .all), .empty, 3⟩
    (∀ rule ∈ growing.rules, rule.Closed) ∧ start.query.ground = true
      ∧ ∃ log last, growing.run start = .ok last
        ∧ (∀ log' last', growing.Performs start log' last' ↔ log' = log ∧ last' = last)
        ∧ last.budget + rewriteCount log = 3
        ∧ last.hoisted.orders = (takenOut log).reverse ++ []
        ∧ (takenOut log).length ≤ 4
        ∧ start.changesTo last = rewriteCount log + (takenOut log).length
        ∧ (0 < last.budget → growing.Normal last) := by
  intro growing start
  have closed : ∀ rule ∈ growing.rules, rule.Closed :=
    closed_extend (closed_empty _ _ _) fun _ => id
  exact ⟨closed, rfl, run_accounted closed start rfl⟩

end Pass

end ExtentQuery.Rewrite

import ExtentQuery.Proofs.Rewriting.Standard
import ExtentQuery.Rewrite.Optimize

/-!
# Rounds of rewriting

`runPasses` and `runRounds` run passes and report notices on the way.  This module takes
the notices out of the log and says what the runs go through.

* `RunsThrough` — passes that run one after the other, and what they report;
* `Rounds` — rounds of the standard passes, and what they report;
* `optimize_eq_ok_iff` — an optimization is a sequence of rounds;
* `optimize_total` — a query without placeholders is optimized without a fault.

What an optimization yields can be compared, with its notices, so that a single optimization can be
checked by running it.
-/

namespace ExtentQuery.Rewrite

/-- What two computations yield is the same if the answers or faults and the final states are. -/
instance decidableEqResult {ε σ α : Type} [DecidableEq ε] [DecidableEq σ] [DecidableEq α] :
    DecidableEq (EStateM.Result ε σ α)
  | .ok a s, .ok b t =>
    decidable_of_iff (a = b ∧ s = t) (Iff.of_eq (EStateM.Result.ok.injEq a s b t).symm)
  | .error e s, .error f t =>
    decidable_of_iff (e = f ∧ s = t) (Iff.of_eq (EStateM.Result.error.injEq e s f t).symm)
  | .ok .., .error .. => isFalse (by simp)
  | .error .., .ok .. => isFalse (by simp)

/-! ### Passes one after the other -/

/-- What a run of a pass reports. -/
def budgetNotices (pass : Pass) (maxRewrites : Nat) (last : Progress) : List Notice :=
  if last.budget = 0 then [.budgetExhausted pass.name maxRewrites] else []

/-- Passes that run one after the other, from a query to the last one, and the notices
that they report. -/
inductive RunsThrough (maxRewrites : Nat) :
    List Pass → (current : Optimized) → List Notice → (next : Optimized) → Prop where
  | done {current : Optimized} : RunsThrough maxRewrites [] current [] current
  | pass {pass : Pass} {passes : List Pass} {current next : Optimized} {last : Progress}
      {notices : List Notice} :
      pass.run ⟨current.query, current.hoisted, maxRewrites⟩ = .ok last →
      RunsThrough maxRewrites passes ⟨last.query, last.hoisted⟩ notices next →
      RunsThrough maxRewrites (pass :: passes) current
        (budgetNotices pass maxRewrites last ++ notices) next

theorem runPasses_cons {pass : Pass} {passes : List Pass} {current : Optimized}
    {maxRewrites : Nat} {last : Progress}
    (run : pass.run ⟨current.query, current.hoisted, maxRewrites⟩ = .ok last)
    (log : List Notice) :
    runPasses maxRewrites (pass :: passes) current log =
      runPasses maxRewrites passes ⟨last.query, last.hoisted⟩
        (log ++ budgetNotices pass maxRewrites last) := by
  rw [runPasses, run]
  unfold budgetNotices
  by_cases empty : last.budget = 0
  · simp only [if_pos empty]
    rfl
  · simp only [if_neg empty, List.append_nil]

/-- Passes that answer have run one after the other. -/
theorem runPasses_eq_ok_iff {maxRewrites : Nat} {passes : List Pass} :
    ∀ {current next : Optimized} {log log' : List Notice},
      runPasses maxRewrites passes current log = .ok next log' ↔
        ∃ notices, log' = log ++ notices ∧
          RunsThrough maxRewrites passes current notices next := by
  induction passes with
  | nil =>
    intro current next log log'
    constructor
    · rintro ⟨⟩
      exact ⟨[], (List.append_nil log).symm, .done⟩
    · rintro ⟨_, rfl, runs⟩
      cases runs
      rw [List.append_nil]
      rfl
  | cons pass passes ih =>
    intro current next log log'
    constructor
    · intro found
      cases run : pass.run ⟨current.query, current.hoisted, maxRewrites⟩ with
      | error fault =>
        rw [runPasses, run] at found
        cases found
      | ok last =>
        rw [runPasses_cons run, ih] at found
        obtain ⟨notices, rfl, runs⟩ := found
        exact ⟨_, List.append_assoc .., .pass run runs⟩
    · rintro ⟨_, rfl, runs⟩
      cases runs with
      | pass run runs =>
        rw [runPasses_cons run, ih]
        exact ⟨_, (List.append_assoc ..).symm, runs⟩

namespace RunsThrough

variable {maxRewrites : Nat} {passes : List Pass} {current next : Optimized}
  {notices : List Notice}

/-- A relation that can be chained and that holds for the rewriting of each pass holds
for passes that run one after the other. -/
theorem related {R : Query → Query → Prop} (refl : ∀ q, R q q)
    (trans : ∀ {q q' q''}, R q q' → R q' q'' → R q q'')
    (rewritten : ∀ pass ∈ passes, ∀ q q', pass.Rewrites q q' → R q q')
    (runs : RunsThrough maxRewrites passes current notices next) :
    R current.query next.query := by
  induction runs with
  | done => exact refl _
  | pass run _ ih =>
    refine trans (rewritten _ List.mem_cons_self _ _ (Pass.run_rewrites _ _ run)) ?_
    exact ih fun pass mem => rewritten pass (.tail _ mem)

theorem root (runs : RunsThrough maxRewrites passes current notices next) :
    ∀ c, current.query = .root c → ∃ c', next.query = .root c' := by
  induction runs with
  | done => exact fun c top => ⟨c, top⟩
  | pass run _ ih =>
    intro c top
    obtain ⟨c', top'⟩ := Pass.root_of_run _ _ run c top
    exact ih c' top'

theorem ground (closed : ∀ pass ∈ passes, ∀ rule ∈ pass.rules, rule.Closed)
    (runs : RunsThrough maxRewrites passes current notices next) :
    current.query.ground = true → next.query.ground = true :=
  runs.related (R := fun q q' => q.ground = true → q'.ground = true) (fun _ => id)
    (fun first second => second ∘ first)
    fun pass mem _ _ rewriting => rewriting.ground (closed pass mem)

theorem total (closed : ∀ pass ∈ passes, ∀ rule ∈ pass.rules, rule.Closed)
    (maxRewrites : Nat) : ∀ current : Optimized, current.query.ground = true →
      ∃ notices next, RunsThrough maxRewrites passes current notices next := by
  induction passes with
  | nil => exact fun current _ => ⟨[], current, .done⟩
  | cons pass passes ih =>
    intro current ground
    have closedHere := closed pass List.mem_cons_self
    obtain ⟨last, run⟩ := pass.run_total closedHere
      ⟨current.query, current.hoisted, maxRewrites⟩ ground
    have grounded := (Pass.run_rewrites _ _ run).ground closedHere ground
    obtain ⟨notices, next, runs⟩ :=
      ih (fun pass mem => closed pass (.tail _ mem)) ⟨last.query, last.hoisted⟩ grounded
    exact ⟨_, next, .pass run runs⟩

end RunsThrough

/-! ### Rounds -/

/-- What the end of a round with a different query reports. -/
def roundNotices (rounds : Nat) : List Notice :=
  if rounds = 0 then [.noFixpoint maxRounds] else []

/-- Rounds of the standard passes, at most as many as the number says, and the notices
that they report. -/
inductive Rounds (maxRewrites : Nat) :
    (rounds : Nat) → (current : Optimized) → List Notice → (last : Optimized) → Prop where
  | out {current : Optimized} : Rounds maxRewrites 0 current [] current
  | fixpoint {rounds : Nat} {current next : Optimized} {notices : List Notice} :
      RunsThrough maxRewrites Standard.passes current notices next →
      next.query.same current.query = true →
      Rounds maxRewrites (rounds + 1) current notices next
  | again {rounds : Nat} {current next last : Optimized} {notices notices' : List Notice} :
      RunsThrough maxRewrites Standard.passes current notices next →
      next.query.same current.query = false →
      Rounds maxRewrites rounds next notices' last →
      Rounds maxRewrites (rounds + 1) current (notices ++ roundNotices rounds ++ notices') last

theorem runRounds_of_same {maxRewrites rounds : Nat} {current next : Optimized}
    {log log' : List Notice}
    (round : runPasses maxRewrites Standard.passes current log = .ok next log')
    (same : next.query.same current.query = true) :
    runRounds maxRewrites (rounds + 1) current log = .ok next log' := by
  simp only [runRounds, bind, EStateM.bind, round, if_pos same]
  rfl

theorem runRounds_of_not_same {maxRewrites rounds : Nat} {current next : Optimized}
    {log log' : List Notice}
    (round : runPasses maxRewrites Standard.passes current log = .ok next log')
    (changed : next.query.same current.query = false) :
    runRounds maxRewrites (rounds + 1) current log =
      runRounds maxRewrites rounds next (log' ++ roundNotices rounds) := by
  simp only [runRounds, bind, EStateM.bind, round, changed, Bool.false_eq_true, if_false]
  unfold roundNotices
  by_cases last : rounds = 0
  · simp only [if_pos last]
    rfl
  · simp only [if_neg last, List.append_nil]

/-- Rounds that answer are rounds of the standard passes. -/
theorem runRounds_eq_ok_iff {maxRewrites : Nat} : ∀ {rounds : Nat} {current last : Optimized}
    {log log' : List Notice},
      runRounds maxRewrites rounds current log = .ok last log' ↔
        ∃ notices, log' = log ++ notices ∧ Rounds maxRewrites rounds current notices last := by
  intro rounds
  induction rounds with
  | zero =>
    intro current last log log'
    constructor
    · rintro ⟨⟩
      exact ⟨[], (List.append_nil log).symm, .out⟩
    · rintro ⟨_, rfl, rest⟩
      cases rest
      rw [List.append_nil]
      rfl
  | succ rounds ih =>
    intro current last log log'
    constructor
    · intro found
      cases round : runPasses maxRewrites Standard.passes current log with
      | error fault log'' =>
        simp only [runRounds, bind, EStateM.bind, round] at found
        cases found
      | ok next log'' =>
        obtain ⟨notices, rfl, runs⟩ := runPasses_eq_ok_iff.mp round
        cases same : next.query.same current.query with
        | true =>
          rw [runRounds_of_same round same] at found
          cases found
          exact ⟨notices, rfl, .fixpoint runs same⟩
        | false =>
          rw [runRounds_of_not_same round same, ih] at found
          obtain ⟨notices', rfl, rest⟩ := found
          exact ⟨_, by simp only [List.append_assoc], .again runs same rest⟩
    · rintro ⟨_, rfl, rest⟩
      cases rest with
      | fixpoint runs same =>
        exact runRounds_of_same (runPasses_eq_ok_iff.mpr ⟨_, rfl, runs⟩) same
      | again runs same rest =>
        rw [runRounds_of_not_same (runPasses_eq_ok_iff.mpr ⟨_, rfl, runs⟩) same, ih]
        exact ⟨_, by simp only [List.append_assoc], rest⟩

namespace Rounds

variable {maxRewrites rounds : Nat} {current last : Optimized} {notices : List Notice}

/-- A relation that can be chained and that holds for the rewriting of each standard pass
holds for rounds of them. -/
theorem related {R : Query → Query → Prop} (refl : ∀ q, R q q)
    (trans : ∀ {q q' q''}, R q q' → R q' q'' → R q q'')
    (rewritten : ∀ pass ∈ Standard.passes, ∀ q q', pass.Rewrites q q' → R q q')
    (rest : Rounds maxRewrites rounds current notices last) : R current.query last.query := by
  induction rest with
  | out => exact refl _
  | fixpoint runs => exact runs.related refl trans rewritten
  | again runs _ _ ih => exact trans (runs.related refl trans rewritten) ih

theorem root (rest : Rounds maxRewrites rounds current notices last) :
    ∀ c, current.query = .root c → ∃ c', last.query = .root c' := by
  induction rest with
  | out => exact fun c top => ⟨c, top⟩
  | fixpoint runs => exact runs.root
  | again runs _ _ ih =>
    intro c top
    obtain ⟨c', top'⟩ := runs.root c top
    exact ih c' top'

theorem ground (rest : Rounds maxRewrites rounds current notices last) :
    current.query.ground = true → last.query.ground = true :=
  rest.related (R := fun q q' => q.ground = true → q'.ground = true) (fun _ => id)
    (fun first second => second ∘ first)
    fun pass mem _ _ rewriting => rewriting.ground (Standard.closed pass mem)

theorem total (maxRewrites : Nat) : ∀ (rounds : Nat) (current : Optimized),
    current.query.ground = true →
      ∃ notices last, Rounds maxRewrites rounds current notices last := by
  intro rounds
  induction rounds with
  | zero => exact fun current _ => ⟨[], current, .out⟩
  | succ rounds ih =>
    intro current ground
    obtain ⟨notices, next, runs⟩ := RunsThrough.total Standard.closed maxRewrites current ground
    cases same : next.query.same current.query with
    | true => exact ⟨notices, next, .fixpoint runs same⟩
    | false =>
      obtain ⟨notices', last, rest⟩ := ih next (runs.ground Standard.closed ground)
      exact ⟨_, last, .again runs same rest⟩

end Rounds

/-! ### Optimization -/

/-- An optimization is a sequence of rounds on the query in its holder. -/
theorem optimize_eq_ok_iff {maxRewrites : Nat} {q : Query} {optimized : Optimized}
    {log log' : List Notice} :
    optimize maxRewrites q log = .ok optimized log' ↔
      ∃ notices hoisted c, log' = log ++ notices ∧ optimized = ⟨c, hoisted⟩ ∧
        Rounds maxRewrites maxRounds ⟨.root q, .empty⟩ notices ⟨.root c, hoisted⟩ := by
  unfold optimize
  constructor
  · intro found
    cases rounds : runRounds maxRewrites maxRounds ⟨.root q, .empty⟩ log with
    | error fault log'' =>
      simp only [bind, EStateM.bind, rounds] at found
      cases found
    | ok last log'' =>
      simp only [bind, EStateM.bind, rounds] at found
      obtain ⟨notices, rfl, rest⟩ := runRounds_eq_ok_iff.mp rounds
      obtain ⟨c, top⟩ := rest.root q rfl
      obtain ⟨query, hoisted⟩ := last
      cases top
      cases found
      exact ⟨notices, hoisted, c, rfl, rfl, rest⟩
  · rintro ⟨notices, hoisted, c, rfl, rfl, rest⟩
    simp only [bind, EStateM.bind, runRounds_eq_ok_iff.mpr ⟨notices, rfl, rest⟩]
    rfl

/-- A query without placeholders is optimized without a fault, whatever the budget. -/
theorem optimize_total (maxRewrites : Nat) {q : Query} (ground : q.ground = true)
    (log : List Notice) : ∃ optimized log', optimize maxRewrites q log = .ok optimized log' := by
  obtain ⟨notices, ⟨query, hoisted⟩, rest⟩ :=
    Rounds.total maxRewrites maxRounds ⟨.root q, .empty⟩ ground
  obtain ⟨c, top⟩ := rest.root q rfl
  cases top
  exact ⟨⟨c, hoisted⟩, log ++ notices,
    optimize_eq_ok_iff.mpr ⟨notices, hoisted, c, rfl, rfl, rest⟩⟩

end ExtentQuery.Rewrite

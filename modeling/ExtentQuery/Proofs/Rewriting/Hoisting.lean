import ExtentQuery.Proofs.Rewriting.Sorts

/-!
# Which sort steps are taken out

`steps_optimize` says that a query with its sort steps at the top keeps them, but not how
they are divided between the list of hoisted steps and the query.  They are divided at
`maxHoisted`: the outermost steps fill the list, and the others stay where they are.

* `Progress.Settled` — the list is full, or the query has no sort steps;
* `Pass.Scans.settled` — a walk keeps this;
* `Pass.Scans.settled_of_topped` — the walk of a pass that takes sort steps out brings it
  about;
* `optimize_sortChain` — the outcome of optimizing a query below any number of sort steps.

**One walk is enough.**  A pass that takes sort steps out looks at an operand before it
descends into it.  It leaves a sort step behind only if the list has no room, so the first
of the standard passes settles the matter, and nothing later changes it.
-/

namespace ExtentQuery

namespace Query

variable {q body : Query}

/-- Sort steps above a query, the outermost one first. -/
def sortChain (body : Query) (orders : List SortStep) : Query :=
  orders.foldr .sort body

@[simp] theorem sortChain_nil : sortChain body [] = body := rfl

@[simp] theorem sortChain_cons (order : SortStep) (orders : List SortStep) :
    sortChain body (order :: orders) = .sort order (sortChain body orders) := rfl

theorem splitSorts_sortChain (orders : List SortStep) (unsorted : body.unsorted = true) :
    (sortChain body orders).splitSorts = (orders, body) := by
  induction orders with
  | nil => exact splitSorts_of_unsorted unsorted
  | cons order orders ih => rw [sortChain_cons, splitSorts, ih]

theorem topped_sortChain (orders : List SortStep) (unsorted : body.unsorted = true) :
    (sortChain body orders).Topped := by
  rw [Topped, splitSorts_sortChain orders unsorted]
  exact unsorted

theorem ground_sortChain (orders : List SortStep) :
    (sortChain body orders).ground = body.ground := by
  induction orders with
  | nil => rfl
  | cons order orders ih => exact (Bool.true_and _).trans ih

/-- A query is the chain of the sort steps at its top. -/
theorem sortChain_splitSorts (q : Query) : sortChain q.splitSorts.2 q.splitSorts.1 = q := by
  induction q with
  | sort order c ih => exact congrArg (sort order) ih
  | _ => rfl

end Query

namespace Rewrite

/-- Whether the list of hoisted steps is full, or there are no sort steps left to take
out. -/
def Progress.Settled (p : Progress) : Prop :=
  p.hoisted.isFull = true ∨ p.query.unsorted = true

namespace Pass

variable {pass : Pass} {here next last : Progress} {i : Nat}

theorem Changes.hoisted_of_full {q : Query} (change : pass.Changes here i q next)
    (full : here.hoisted.isFull = true) : next.hoisted = here.hoisted := by
  cases change with
  | hoist _ pushed =>
    rw [Hoisted.push_eq_none_iff.mpr full] at pushed
    cases pushed
  | rewrite => rfl

/-- A full list stays as it is. -/
theorem Scans.hoisted_of_full (walk : pass.Scans here i last) :
    here.hoisted.isFull = true → last.hoisted = here.hoisted := by
  induction walk with
  | done => exact fun _ => rfl
  | changeOnEntry _ _ change _ ih =>
    intro full
    have same := change.hoisted_of_full full
    exact (ih (same ▸ full)).trans same
  | descendOnEntry _ _ _ _ _ below ih =>
    intro full
    have same := below full
    exact (ih (same ▸ full)).trans same
  | changeOnExit _ _ _ change _ below ih =>
    intro full
    have same := below full
    have same' := change.hoisted_of_full (same ▸ full)
    exact (ih (same' ▸ same ▸ full)).trans (same'.trans same)
  | passOnExit _ _ _ _ _ below ih =>
    intro full
    have same := below full
    exact (ih (same ▸ full)).trans same

theorem Scans.settled (standard : pass ∈ Standard.passes) (walk : pass.Scans here i last) :
    here.Settled → last.Settled := by
  rintro (full | unsorted)
  · exact .inl (walk.hoisted_of_full full ▸ full)
  · exact .inr (Standard.unsorted_of_rewrites standard walk.rewrites unsorted)

/-- A query in a holder is settled if its sort steps are at its top and there is nothing to
change at it. -/
theorem Idle.settled {q : Query} (idle : pass.Idle here q) (hoists : pass.hoists = true)
    (top : here.query = .root q) (topped : q.Topped) : here.Settled := by
  rcases topped.cases with ⟨order, c, rfl, -⟩ | unsorted
  · exact .inl (Hoisted.push_eq_none_iff.mp (idle.full hoists order c rfl))
  · refine .inr ?_
    rw [top]
    exact unsorted

/-- A walk through the holder of a query, all of whose sort steps are at its top, settles
the query.  The walk stands before the query until there is nothing to change at it. -/
theorem Scans.settled_of_topped (standard : pass ∈ Standard.passes)
    (onEntry : pass.onEntry = true) (hoists : pass.hoists = true)
    (walk : pass.Scans here i last) (first : i = 0) :
    ∀ steps, Holds steps here.query here.hoisted → last.Settled := by
  induction walk with
  | done noOperand =>
    rintro steps ⟨q, top, -⟩
    rw [top, first] at noOperand
    cases noOperand
  | changeOnEntry _ at_i change _ ih =>
    exact fun steps holds => ih rfl steps (change.stepsStay standard at_i steps holds)
  | descendOnEntry onEntry at_i idle inner rest _ _ =>
    rintro steps ⟨q, top, topped, -⟩
    have operand := at_i
    rw [top] at operand
    obtain ⟨rfl, rfl⟩ := Query.eq_of_child?_only (fun _ => rfl) rfl operand
    have walk := Scans.descendOnEntry onEntry at_i idle inner rest
    exact walk.settled standard (idle.settled hoists top topped)
  | changeOnExit onExit => rw [onEntry] at onExit; cases onExit
  | passOnExit onExit => rw [onEntry] at onExit; cases onExit

theorem settled_of_run (standard : pass ∈ Standard.passes) (start : Progress) :
    ∀ last, pass.run start = .ok last → start.Settled → last.Settled :=
  related_of_run (R := fun a b => a.Settled → b.Settled)
    (fun first second settled => second (first settled))
    (fun walk => walk.settled standard) start

theorem settled_of_run_topped (standard : pass ∈ Standard.passes)
    (onEntry : pass.onEntry = true) (hoists : pass.hoists = true) (start : Progress)
    {steps : List SortStep} :
    ∀ last, pass.run start = .ok last → Holds steps start.query start.hoisted →
      last.Settled := by
  have kept : ∀ last, pass.run start = .ok last → Holds steps start.query start.hoisted →
      Holds steps last.query last.hoisted ∧ last.Settled :=
    related_of_run
      (R := fun a b => Holds steps a.query a.hoisted → Holds steps b.query b.hoisted ∧ b.Settled)
      (fun first second holds => second (first holds).1)
      (fun walk holds => ⟨walk.stepsStay standard steps holds,
        walk.settled_of_topped standard onEntry hoists rfl steps holds⟩) start
  exact fun last run holds => (kept last run holds).2

end Pass

/-! ### Rounds -/

/-- Whether an optimized query is settled. -/
def Optimized.Settled (u : Optimized) : Prop :=
  u.hoisted.isFull = true ∨ u.query.unsorted = true

variable {maxRewrites rounds : Nat} {current next last : Optimized} {notices : List Notice}

theorem RunsThrough.settled {passes : List Pass}
    (standard : ∀ pass ∈ passes, pass ∈ Standard.passes)
    (runs : RunsThrough maxRewrites passes current notices next) :
    current.Settled → next.Settled := by
  induction runs with
  | done => exact id
  | pass run _ ih =>
    intro settled
    exact ih (fun pass mem => standard pass (.tail _ mem))
      (Pass.settled_of_run (standard _ List.mem_cons_self) _ _ run settled)

/-- A round settles a query whose sort steps are at its top, because the first pass does. -/
theorem RunsThrough.settled_of_topped {steps : List SortStep}
    (runs : RunsThrough maxRewrites Standard.passes current notices next)
    (holds : Pass.Holds steps current.query current.hoisted) : next.Settled := by
  cases runs with
  | pass run rest =>
    refine rest.settled (fun pass mem => .tail _ mem) ?_
    exact Pass.settled_of_run_topped List.mem_cons_self rfl rfl _ _ run holds

theorem Rounds.settled (rest : Rounds maxRewrites rounds current notices last) :
    current.Settled → last.Settled := by
  induction rest with
  | out => exact id
  | fixpoint runs => exact runs.settled fun _ => id
  | again runs _ _ ih => exact fun settled => ih (runs.settled (fun _ => id) settled)

theorem Rounds.settled_of_topped {steps : List SortStep}
    (rest : Rounds maxRewrites rounds current notices last) (some : rounds ≠ 0)
    (holds : Pass.Holds steps current.query current.hoisted) : last.Settled := by
  cases rest with
  | out => exact absurd rfl some
  | fixpoint runs => exact runs.settled_of_topped holds
  | again runs _ rest => exact rest.settled (runs.settled_of_topped holds)

/-! ### Optimization -/

/-- An optimization with room left for sort steps leaves none in the query. -/
theorem settled_optimize {q : Query} {u : Optimized} {log log' : List Notice}
    (found : optimize maxRewrites q log = .ok u log') (topped : q.Topped) : u.Settled := by
  obtain ⟨notices, hoisted, c, -, rfl, rest⟩ := optimize_eq_ok_iff.mp found
  have holds : Pass.Holds q.splitSorts.1.reverse (.root q) .empty :=
    ⟨q, rfl, topped, List.append_nil _⟩
  exact rest.settled_of_topped (by decide) holds

/-- Optimizing is a function of the query; what was reported before does not matter. -/
theorem optimize_of_log {q : Query} {u : Optimized} {notices : List Notice}
    (found : optimize maxRewrites q [] = .ok u notices) (log : List Notice) :
    optimize maxRewrites q log = .ok u (log ++ notices) := by
  obtain ⟨_, hoisted, c, rfl, rfl, rest⟩ := optimize_eq_ok_iff.mp found
  exact optimize_eq_ok_iff.mpr ⟨_, hoisted, c, rfl, rfl, rest⟩

/-- How a list of steps is divided into the steps that stay, in their order, and those that
are taken out, the other way round. -/
theorem take_drop_of_divided {orders kept taken : List SortStep}
    (divided : kept.reverse ++ taken = orders.reverse) (most : taken.length ≤ maxHoisted)
    (settled : taken.length = maxHoisted ∨ kept = []) :
    taken = (orders.take maxHoisted).reverse ∧ kept = orders.drop maxHoisted := by
  have whole : orders = taken.reverse ++ kept := by
    have := congrArg List.reverse divided
    rwa [List.reverse_append, List.reverse_reverse, List.reverse_reverse, eq_comm] at this
  rcases settled with full | rfl
  · have length : taken.reverse.length = maxHoisted := taken.length_reverse.trans full
    rw [whole, List.take_left' length, List.drop_left' length, List.reverse_reverse]
    exact ⟨rfl, rfl⟩
  · have short : orders.length ≤ maxHoisted := by
      rwa [whole, List.append_nil, List.length_reverse]
    rw [List.take_of_length_le short, List.drop_of_length_le short, whole, List.append_nil,
      List.reverse_reverse]
    exact ⟨rfl, rfl⟩

/-- Optimizing a query without sort steps below any number of them takes the outermost ones
out, as many as the list has room for.  The others stay above what the query becomes. -/
theorem optimize_sortChain {orders : List SortStep} {body : Query} {u : Optimized}
    {log log' : List Notice} (unsorted : body.unsorted = true)
    (found : optimize maxRewrites (body.sortChain orders) log = .ok u log') :
    ∃ rewritten : Query, rewritten.unsorted = true ∧
      u.hoisted.orders = (orders.take maxHoisted).reverse ∧
      u.query = rewritten.sortChain (orders.drop maxHoisted) ∧
      u.steps = (rewritten, orders.reverse) := by
  have topped := Query.topped_sortChain orders unsorted
  obtain ⟨topped', steps⟩ := steps_optimize found topped
  rw [Query.splitSorts_sortChain orders unsorted] at steps
  have settled : u.hoisted.orders.length = maxHoisted ∨ u.query.splitSorts.1 = [] := by
    rcases settled_optimize found topped with full | unsorted
    · exact .inl (Nat.le_antisymm u.hoisted.length_le (of_decide_eq_true full))
    · exact .inr (by rw [Query.splitSorts_of_unsorted unsorted])
  obtain ⟨taken, kept⟩ := take_drop_of_divided steps u.hoisted.length_le settled
  refine ⟨u.query.splitSorts.2, topped', taken, ?_, Prod.ext rfl steps⟩
  rw [← kept, Query.sortChain_splitSorts]

end Rewrite

end ExtentQuery

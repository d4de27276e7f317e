import ExtentQuery.Proofs.Rewriting.Leaves

/-!
# Sort steps at the top of a query

If all sort steps of a query are at its top, rewriting takes out as many of them as the
list of hoisted steps has room for and leaves the others where they are.  Below them it
rewrites as it does without sort steps.

* `Query.Topped` — all sort steps are at the top;
* `Pass.Scans.sortStays` — a step that cannot be taken out stays in place;
* `Pass.Scans.stepsStay` — a walk keeps the steps that are in the query or hoisted, and
  their order;
* `steps_optimize` — so does optimization.
-/

namespace ExtentQuery

namespace Query

/-- A query all of whose sort steps are at its top. -/
def Topped (q : Query) : Prop :=
  q.splitSorts.2.unsorted = true

/-- Whether a query has all of its sort steps at its top, the same ones as another query. -/
structure SortedLike (q q' : Query) : Prop where
  orders : q'.splitSorts.1 = q.splitSorts.1
  topped : q'.Topped

theorem splitSorts_of_unsorted {q : Query} (unsorted : q.unsorted = true) :
    q.splitSorts = ([], q) := by
  cases q with
  | sort => cases unsorted
  | _ => rfl

theorem topped_of_unsorted {q : Query} (unsorted : q.unsorted = true) : q.Topped := by
  rw [Topped, splitSorts_of_unsorted unsorted]
  exact unsorted

/-- A query whose sort steps are all at its top begins with one, or has none. -/
theorem Topped.cases {q : Query} (topped : q.Topped) :
    (∃ order c, q = sort order c ∧ c.Topped) ∨ q.unsorted = true := by
  cases q with
  | sort order c => exact .inl ⟨order, c, rfl, topped⟩
  | _ => exact .inr topped

theorem sortedLike_of_unsorted {q q' : Query} (unsorted : q.unsorted = true)
    (unsorted' : q'.unsorted = true) : q.SortedLike q' where
  orders := by rw [splitSorts_of_unsorted unsorted, splitSorts_of_unsorted unsorted']
  topped := topped_of_unsorted unsorted'

theorem SortedLike.refl {q : Query} (topped : q.Topped) : q.SortedLike q :=
  ⟨rfl, topped⟩

theorem SortedLike.trans {a b c : Query} (first : a.SortedLike b) (second : b.SortedLike c) :
    a.SortedLike c :=
  ⟨second.orders.trans first.orders, second.topped⟩

theorem SortedLike.sort {c c' : Query} (like : c.SortedLike c') (order : SortStep) :
    (sort order c).SortedLike (sort order c') :=
  ⟨congrArg (order :: ·) like.orders, like.topped⟩

/-- The child of a query that has only one. -/
theorem eq_of_child?_only {q c d : Query} {i : Nat} (only : ∀ i, q.child? (i + 1) = none)
    (first : q.child? 0 = some c) (at_i : q.child? i = some d) : i = 0 ∧ d = c := by
  cases i with
  | zero => exact ⟨rfl, Option.some.inj (at_i.symm.trans first)⟩
  | succ => exact absurd at_i (only _ ▸ nofun)

end Query

namespace Rewrite

/-! ### Rules -/

namespace Standard

/-- A standard pass that rewrites on exit takes no sort steps out. -/
theorem not_hoists {pass : Pass} (standard : pass ∈ passes) (onExit : pass.onEntry = false) :
    pass.hoists ≠ true := by
  intro hoists
  simp only [passes, List.mem_cons, List.not_mem_nil, or_false] at standard
  rcases standard with rfl | rfl | rfl | rfl
  · cases onExit
  all_goals cases hoists

/-- No standard rule is about sort steps. -/
theorem firstRewrite?_sort {pass : Pass} (standard : pass ∈ passes) (order : SortStep)
    (c : Query) : firstRewrite? pass.rules (.sort order c) = .ok none := by
  simp only [passes, List.mem_cons, List.not_mem_nil, or_false] at standard
  rcases standard with rfl | rfl | rfl | rfl <;> rfl

theorem unsorted_of_firstRewrite? {pass : Pass} (standard : pass ∈ passes) {q q' : Query}
    (rewritten : firstRewrite? pass.rules q = .ok (some q')) (unsorted : q.unsorted = true) :
    q'.unsorted = true := by
  obtain ⟨rule, mem, applied⟩ := exists_of_firstRewrite? rewritten
  exact allLeaves_of_rewrite? leafInvariant_true standard mem applied unsorted

end Standard

/-! ### Walks -/

namespace Pass

variable {pass : Pass}

/-- A rule that applies to a query whose sort steps are at its top applies to one without
sort steps. -/
theorem unsorted_of_rewritten (standard : pass ∈ Standard.passes) {q q' : Query}
    (topped : q.Topped) (rewritten : firstRewrite? pass.rules q = .ok (some q')) :
    q.unsorted = true ∧ q'.unsorted = true := by
  rcases topped.cases with ⟨order, c, rfl, -⟩ | unsorted
  · rw [Standard.firstRewrite?_sort standard] at rewritten
    cases rewritten
  · exact ⟨unsorted, Standard.unsorted_of_firstRewrite? standard rewritten unsorted⟩

/-- A change of an operand whose sort steps are at its top and cannot be taken out. -/
theorem Changes.kept (standard : pass ∈ Standard.passes) {here next : Progress} {i : Nat}
    {q : Query} (change : pass.Changes here i q next) (topped : q.Topped)
    (full : pass.hoists = true → here.hoisted.isFull = true) :
    next.hoisted = here.hoisted ∧ ∃ q', next.query = here.query.setChild i q' ∧ q.SortedLike q' := by
  cases change with
  | hoist hoists pushed =>
    rw [Hoisted.push_eq_none_iff.mpr (full hoists)] at pushed
    cases pushed
  | rewrite _ rewritten =>
    obtain ⟨unsorted, unsorted'⟩ := unsorted_of_rewritten standard topped rewritten
    exact ⟨rfl, _, rfl, Query.sortedLike_of_unsorted unsorted unsorted'⟩

/-- What a walk keeps of a query whose sort steps are at its top, given what it keeps below
a sort step. -/
theorem Scans.kept_of_below (standard : pass ∈ Standard.passes) {here scanned : Progress}
    {q : Query} (walk : pass.Scans (here.focus q) 0 scanned) (topped : q.Topped)
    (below : ∀ order c, q = .sort order c → c.Topped →
      scanned.hoisted = here.hoisted ∧ ∃ c', scanned.query = .sort order c' ∧ c.SortedLike c') :
    scanned.hoisted = here.hoisted ∧ q.SortedLike scanned.query := by
  rcases topped.cases with ⟨order, c, rfl, toppedBelow⟩ | unsorted
  · obtain ⟨same, c', sorted, like⟩ := below order c rfl toppedBelow
    exact ⟨same, sorted ▸ like.sort order⟩
  · have unsorted' := Standard.unsorted_of_rewrites standard walk.rewrites unsorted
    exact ⟨walk.hoisted_eq standard unsorted, Query.sortedLike_of_unsorted unsorted unsorted'⟩

/-- Whether a sort step at one point of a walk is still there at another point, and so are
those below it, if none can be taken out. -/
def SortStays (pass : Pass) (here last : Progress) : Prop :=
  (pass.hoists = true → here.hoisted.isFull = true) →
    ∀ order c, here.query = .sort order c → c.Topped →
      last.hoisted = here.hoisted ∧ ∃ c', last.query = .sort order c' ∧ c.SortedLike c'

theorem SortStays.refl (here : Progress) : pass.SortStays here here :=
  fun _ _ c top topped => ⟨rfl, c, top, .refl topped⟩

theorem SortStays.trans {here next last : Progress} (first : pass.SortStays here next)
    (second : pass.SortStays next last) : pass.SortStays here last := by
  intro full order c top topped
  obtain ⟨same, c', changed, like⟩ := first full order c top topped
  obtain ⟨same', c'', sorted, like'⟩ := second (same ▸ full) order c' changed like.topped
  exact ⟨same'.trans same, c'', sorted, like.trans like'⟩

theorem Changes.sortStays (standard : pass ∈ Standard.passes) {here next : Progress} {i : Nat}
    {q : Query} (change : pass.Changes here i q next) (at_i : here.query.child? i = some q) :
    pass.SortStays here next := by
  intro full order c top topped
  rw [top] at at_i
  obtain ⟨rfl, rfl⟩ := Query.eq_of_child?_only (fun _ => rfl) rfl at_i
  obtain ⟨same, c', changed, like⟩ := change.kept standard topped full
  rw [top] at changed
  exact ⟨same, c', changed, like⟩

theorem sortStays_resume (standard : pass ∈ Standard.passes) {here scanned : Progress} {i : Nat}
    {q : Query} (at_i : here.query.child? i = some q) (inner : pass.Scans (here.focus q) 0 scanned)
    (below : pass.SortStays (here.focus q) scanned) : pass.SortStays here (here.resume i scanned) := by
  intro full order c top topped
  rw [top] at at_i
  obtain ⟨rfl, rfl⟩ := Query.eq_of_child?_only (fun _ => rfl) rfl at_i
  obtain ⟨same, like⟩ := inner.kept_of_below standard topped (below full)
  refine ⟨same, scanned.query, ?_, like⟩
  rw [Progress.resume, top]
  rfl

/-- A sort step that cannot be taken out stays in place, and so do those below it. -/
theorem Scans.sortStays (standard : pass ∈ Standard.passes) {here last : Progress} {i : Nat}
    (walk : pass.Scans here i last) : pass.SortStays here last := by
  induction walk with
  | done => exact .refl _
  | changeOnEntry _ at_i change _ ih => exact (change.sortStays standard at_i).trans ih
  | descendOnEntry _ at_i _ inner _ below ih =>
    exact (sortStays_resume standard at_i inner below).trans ih
  | changeOnExit _ at_i inner change _ below ih =>
    have resumed := sortStays_resume standard at_i inner below
    have changed := change.sortStays standard (Query.child?_setChild at_i _)
    exact resumed.trans (changed.trans ih)
  | passOnExit _ at_i inner _ _ below ih =>
    exact (sortStays_resume standard at_i inner below).trans ih

/-- What a walk keeps of a query whose sort steps are at its top and cannot be taken out. -/
theorem Scans.kept (standard : pass ∈ Standard.passes) {here scanned : Progress} {q : Query}
    (walk : pass.Scans (here.focus q) 0 scanned) (topped : q.Topped)
    (full : ∀ order c, q = .sort order c → pass.hoists = true → here.hoisted.isFull = true) :
    scanned.hoisted = here.hoisted ∧ q.SortedLike scanned.query :=
  walk.kept_of_below standard topped fun order c top toppedBelow =>
    walk.sortStays standard (full order c top) order c top toppedBelow

/-- Whether a holder with hoisted steps holds a query whose sort steps are at its top, and
the steps of both together are given ones. -/
def Holds (steps : List SortStep) (holder : Query) (hoisted : Hoisted) : Prop :=
  ∃ q, holder = .root q ∧ q.Topped ∧ (⟨q, hoisted⟩ : Optimized).steps.2 = steps

/-- Whether a walk that starts at the holder of a query keeps the sort steps. -/
def StepsStay (here last : Progress) : Prop :=
  ∀ steps, Holds steps here.query here.hoisted → Holds steps last.query last.hoisted

theorem holds_of_sortedLike {steps : List SortStep} {here next : Progress} {q q' : Query}
    (same : next.hoisted = here.hoisted) (changed : next.query = .root q') (like : q.SortedLike q')
    (holds : (⟨q, here.hoisted⟩ : Optimized).steps.2 = steps) :
    Holds steps next.query next.hoisted := by
  refine ⟨q', changed, like.topped, ?_⟩
  rw [← holds, same]
  show q'.splitSorts.1.reverse ++ _ = q.splitSorts.1.reverse ++ _
  rw [like.orders]

/-- A step that is taken out goes below the steps taken out before, where it came from. -/
theorem Changes.stepsStay (standard : pass ∈ Standard.passes) {here next : Progress} {i : Nat}
    {q : Query} (change : pass.Changes here i q next) (at_i : here.query.child? i = some q) :
    StepsStay here next := by
  rintro steps ⟨q, top, topped, holds⟩
  rw [top] at at_i
  obtain ⟨rfl, rfl⟩ := Query.eq_of_child?_only (fun _ => rfl) rfl at_i
  cases change with
  | @hoist order sorted hoisted _ pushed =>
    refine ⟨sorted, by rw [top]; rfl, topped, ?_⟩
    rw [← holds]
    show sorted.splitSorts.1.reverse ++ hoisted.orders
      = (order :: sorted.splitSorts.1).reverse ++ here.hoisted.orders
    rw [Hoisted.orders_of_push pushed, List.reverse_cons, List.append_assoc, List.singleton_append]
  | rewrite _ rewritten =>
    obtain ⟨unsorted, unsorted'⟩ := unsorted_of_rewritten standard topped rewritten
    refine holds_of_sortedLike rfl ?_ (Query.sortedLike_of_unsorted unsorted unsorted') holds
    rw [top]
    rfl

theorem stepsStay_resume (standard : pass ∈ Standard.passes) {here scanned : Progress} {i : Nat}
    {q : Query} (at_i : here.query.child? i = some q) (inner : pass.Scans (here.focus q) 0 scanned)
    (full : ∀ order c, q = .sort order c → pass.hoists = true → here.hoisted.isFull = true) :
    StepsStay here (here.resume i scanned) := by
  rintro steps ⟨q, top, topped, holds⟩
  rw [top] at at_i
  obtain ⟨rfl, rfl⟩ := Query.eq_of_child?_only (fun _ => rfl) rfl at_i
  obtain ⟨same, like⟩ := inner.kept standard topped full
  refine holds_of_sortedLike same ?_ like holds
  rw [Progress.resume, top]
  rfl

/-- A walk through the holder of a query keeps the sort steps. -/
theorem Scans.stepsStay (standard : pass ∈ Standard.passes) {here last : Progress} {i : Nat}
    (walk : pass.Scans here i last) : StepsStay here last := by
  induction walk with
  | done => exact fun _ => id
  | changeOnEntry _ at_i change _ ih =>
    exact fun steps holds => ih steps (change.stepsStay standard at_i steps holds)
  | descendOnEntry _ at_i idle inner _ _ ih =>
    -- a step that could be taken out would have been
    have resumed := stepsStay_resume standard at_i inner fun order c sorted hoists =>
      Hoisted.push_eq_none_iff.mp (idle.full hoists order c sorted)
    exact fun steps holds => ih steps (resumed steps holds)
  | changeOnExit onExit at_i inner change _ _ ih =>
    have resumed := stepsStay_resume standard at_i inner fun _ _ _ hoists =>
      absurd hoists (Standard.not_hoists standard onExit)
    have changed := change.stepsStay standard (Query.child?_setChild at_i _)
    exact fun steps holds => ih steps (changed steps (resumed steps holds))
  | passOnExit onExit at_i inner _ _ _ ih =>
    have resumed := stepsStay_resume standard at_i inner fun _ _ _ hoists =>
      absurd hoists (Standard.not_hoists standard onExit)
    exact fun steps holds => ih steps (resumed steps holds)

theorem stepsStay_of_run (standard : pass ∈ Standard.passes) (start : Progress) :
    ∀ last, pass.run start = .ok last → StepsStay start last := by
  refine related_of_run (R := StepsStay) ?_ ?_ start
  · exact fun first second steps holds => second steps (first steps holds)
  · exact fun walk => walk.stepsStay standard

end Pass

/-! ### Rounds -/

theorem RunsThrough.holds {maxRewrites : Nat} {passes : List Pass} {current next : Optimized}
    {notices : List Notice} {steps : List SortStep}
    (standard : ∀ pass ∈ passes, pass ∈ Standard.passes)
    (runs : RunsThrough maxRewrites passes current notices next) :
    Pass.Holds steps current.query current.hoisted →
      Pass.Holds steps next.query next.hoisted := by
  induction runs with
  | done => exact id
  | pass run _ ih =>
    intro holds
    exact ih (fun pass mem => standard pass (.tail _ mem))
      (Pass.stepsStay_of_run (standard _ List.mem_cons_self) _ _ run steps holds)

theorem Rounds.holds {maxRewrites rounds : Nat} {current last : Optimized}
    {notices : List Notice} {steps : List SortStep}
    (rest : Rounds maxRewrites rounds current notices last) :
    Pass.Holds steps current.query current.hoisted →
      Pass.Holds steps last.query last.hoisted := by
  induction rest with
  | out => exact id
  | fixpoint runs => exact runs.holds fun _ => id
  | again runs _ _ ih => exact fun holds => ih (runs.holds (fun _ => id) holds)

/-- Optimizing a query whose sort steps are at its top keeps the steps, in their order. -/
theorem steps_optimize {maxRewrites : Nat} {q : Query} {u : Optimized} {log log' : List Notice}
    (found : optimize maxRewrites q log = .ok u log') (topped : q.Topped) :
    u.query.Topped ∧ u.steps.2 = q.splitSorts.1.reverse := by
  obtain ⟨notices, hoisted, c, -, rfl, rest⟩ := optimize_eq_ok_iff.mp found
  obtain ⟨q', same, topped', steps⟩ := rest.holds ⟨q, rfl, topped, rfl⟩
  cases same
  exact ⟨topped', steps.trans (List.append_nil _)⟩

end Rewrite

end ExtentQuery

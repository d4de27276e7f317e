import ExtentQuery.Proofs.Rewriting.Hoisting
import ExtentQuery.Proofs.Rewriting.Orders

/-!
# Which sort steps are taken out of a query

The list of hoisted steps has room for `maxHoisted` of them.  If a query has more, the first ones
are taken out, in the order in which the first pass meets them (`Query.orders`), and the others
stay in the query.

* `Pass.Takes` — the first steps below a node were taken out, as many as there was room for;
* `Pass.Scans.takes` — a walk of the first pass does this;
* `hoisted_optimize` — so does optimization, and nothing later changes the list.

`orders_optimize` says more of a query whose steps all fit, and `optimize_sortChain` of one with
all of its steps at the top.
-/

namespace ExtentQuery.Rewrite

theorem Hoisted.room_of_full {hoisted : Hoisted} (full : hoisted.isFull = true) :
    hoisted.room = 0 := by
  simp only [isFull, decide_eq_true_eq] at full
  exact Nat.sub_eq_zero_of_le full

namespace Pass

/-! ### Taking steps out while there is room -/

/-- Whether the sort steps below a node were taken out, from the first one on, until there was no
more room for them. -/
structure Takes (here last : Progress) : Prop where
  hoisted : last.hoisted.orders
    = (here.query.operandOrders.take here.hoisted.room).reverse ++ here.hoisted.orders
  exhausted : last.hoisted.isFull = true ∨ last.query.operandOrders = []

theorem Takes.of_moved {here next last : Progress} (takes : Takes next last)
    (moved : (next.query.operandOrders.take next.hoisted.room).reverse ++ next.hoisted.orders
      = (here.query.operandOrders.take here.hoisted.room).reverse ++ here.hoisted.orders) :
    Takes here last :=
  ⟨takes.hoisted.trans moved, takes.exhausted⟩

/-- Without room, nothing is taken out. -/
theorem takes_of_full {pass : Pass} {here last : Progress} {i : Nat}
    (walk : pass.Scans here i last) (full : here.hoisted.isFull = true) : Takes here last := by
  have same := walk.hoisted_of_full full
  refine ⟨?_, .inl (same ▸ full)⟩
  rw [same, Hoisted.room_of_full full, List.take_zero, List.reverse_nil, List.nil_append]

/-- Taking some steps and then others is taking both, one after the other. -/
theorem take_room_append {before between : Hoisted} {steps : List SortStep}
    (taken : between.orders = (steps.take before.room).reverse ++ before.orders)
    (after : List SortStep) :
    (after.take between.room).reverse ++ between.orders
      = ((steps ++ after).take before.room).reverse ++ before.orders := by
  have length := congrArg List.length taken
  have most := before.length_le
  have room : between.room = before.room - steps.length := by
    simp only [List.length_append, List.length_reverse, List.length_take, Hoisted.room]
      at length ⊢
    omega
  rw [taken, room, List.take_append, List.reverse_append, List.append_assoc]

/-- A walk of the first pass takes sort steps out as long as there is room for them. -/
theorem Scans.takes {here last : Progress} {i : Nat}
    (walk : Standard.prepare.Scans here i last)
    (passed : here.hoisted.isFull = true ∨
      ∀ j, j < i → ∀ b, here.query.child? j = some b → b.orders = []) : Takes here last := by
  have fresh : ∀ {q : Query} (j : Nat), j < 0 → ∀ b, q.child? j = some b → b.orders = [] :=
    fun j below => absurd below (Nat.not_lt_zero j)
  induction walk with
  | @done here i noOperand =>
    rcases passed with full | passed
    · have walk : Standard.prepare.Scans here i here := .done noOperand
      exact takes_of_full walk full
    · have none : here.query.operandOrders = [] :=
        Query.operandOrders_eq_nil fun j b at_j =>
          passed j (Query.lt_of_child?_eq_none noOperand at_j) b at_j
      exact ⟨by rw [none, List.take_nil, List.reverse_nil, List.nil_append], .inr none⟩
  | @changeOnEntry here _ _ i operand onEntry at_i change rest ih =>
    rcases passed with full | passed
    · exact takes_of_full (.changeOnEntry onEntry at_i change rest) full
    obtain ⟨before, after, around, emptied⟩ := Query.operandOrders_setChild at_i
    obtain rfl := emptied passed
    have whole := around operand
    rw [Query.setChild_child? at_i, List.nil_append] at whole
    refine (ih (.inr fresh)).of_moved ?_
    cases change with
    | @hoist order sorted hoisted _ pushed =>
      have below := around sorted
      rw [List.nil_append] at below
      have first := Hoisted.orders_of_push pushed
      have room : 1 ≤ here.hoisted.room := Nat.lt_of_le_of_lt (Nat.zero_le _)
        (Hoisted.room_lt_of_push pushed)
      have taken : hoisted.orders
          = ([order].take here.hoisted.room).reverse ++ here.hoisted.orders := by
        rw [List.take_of_length_le room, first]
        rfl
      simp only [below, whole, Query.orders]
      exact take_room_append taken (sorted.orders ++ after)
    | @rewrite _ replacement _ rewritten =>
      have same : (here.query.setChild i replacement).operandOrders
          = here.query.operandOrders := by
        rw [around, whole, orders_of_prepare rewritten, List.nil_append]
      simp only [same]
  | @descendOnEntry here scanned _ i operand onEntry at_i idle inner rest below ih =>
    by_cases full : here.hoisted.isFull = true
    · exact takes_of_full (.descendOnEntry onEntry at_i idle inner rest) full
    obtain ⟨before, after, around, emptied⟩ := Query.operandOrders_setChild at_i
    have passed := passed.resolve_left full
    obtain rfl := emptied passed
    have whole := around operand
    rw [Query.setChild_child? at_i, List.nil_append] at whole
    -- a step at the top of the operand would have been taken out
    have noSort : operand.kind ≠ .sort := by
      intro isSort
      cases operand with
      | sort order c => exact full (Hoisted.push_eq_none_iff.mp (idle.full rfl order c rfl))
      | converter _ conversion => cases conversion <;> cases isSort
      | _ => cases isSort
    have inside := below (.inr fresh)
    have taken : scanned.hoisted.orders
        = (operand.orders.take here.hoisted.room).reverse ++ here.hoisted.orders :=
      Query.orders_eq_operandOrders noSort ▸ inside.hoisted
    have resumed := around scanned.query
    rw [List.nil_append] at resumed
    -- if there is room left, the operand has no steps left
    rcases inside.exhausted with scannedFull | emptied
    · refine (ih (.inl scannedFull)).of_moved ?_
      simp only [Progress.resume, whole, ← take_room_append taken after,
        Hoisted.room_of_full scannedFull, List.take_zero]
    · have empty : scanned.query.orders = [] :=
        (Query.orders_eq_operandOrders (inner.kind_eq ▸ noSort)).trans emptied
      rw [empty, List.nil_append] at resumed
      refine (ih (.inr fun j before b at_j => ?_)).of_moved ?_
      · by_cases here_j : j = i
        · subst here_j
          cases (Query.child?_setChild at_i scanned.query).symm.trans at_j
          exact empty
        · rw [Progress.resume, Query.child?_setChild_of_ne at_i _ here_j] at at_j
          exact passed j (by omega) b at_j
      · simp only [Progress.resume, resumed, whole]
        exact take_room_append taken after
  | changeOnExit onExit => cases onExit
  | passOnExit onExit => cases onExit

/-- A run of the first pass takes sort steps out as long as there is room for them. -/
theorem takes_of_run (start : Progress) :
    ∀ last, Standard.prepare.run start = .ok last → Takes start last := by
  refine related_of_run (R := Takes) ?_ ?_ start
  · intro a b c first second
    refine second.of_moved ?_
    rcases first.exhausted with full | emptied
    · rw [Hoisted.room_of_full full, List.take_zero, List.reverse_nil, List.nil_append,
        first.hoisted]
    · rw [emptied, List.take_nil, List.reverse_nil, List.nil_append, first.hoisted]
  · exact fun walk => walk.takes (.inr fun j below => absurd below (Nat.not_lt_zero j))

/-- Once the list is full, or no steps are left in the query, a run does not change the list. -/
theorem hoisted_of_run_settled {pass : Pass} (standard : pass ∈ Standard.passes)
    (start : Progress) : ∀ last, pass.run start = .ok last → start.Settled →
      last.Settled ∧ last.hoisted = start.hoisted := by
  refine related_of_run (R := fun a b => a.Settled → b.Settled ∧ b.hoisted = a.hoisted)
    ?_ ?_ start
  · intro a b c first second settled
    obtain ⟨between, same⟩ := first settled
    obtain ⟨after, same'⟩ := second between
    exact ⟨after, same'.trans same⟩
  · refine fun walk settled => ⟨walk.settled standard settled, ?_⟩
    rcases settled with full | unsorted
    · exact walk.hoisted_of_full full
    · exact walk.hoisted_eq standard unsorted

end Pass

/-! ### Rounds -/

variable {maxRewrites rounds : Nat} {current next last : Optimized} {notices : List Notice}

/-- Passes do not change the list of hoisted steps once it is settled. -/
theorem RunsThrough.hoisted_of_settled {passes : List Pass}
    (standard : ∀ pass ∈ passes, pass ∈ Standard.passes)
    (runs : RunsThrough maxRewrites passes current notices next) :
    current.Settled → next.hoisted = current.hoisted := by
  induction runs with
  | done => exact fun _ => rfl
  | pass run _ ih =>
    intro settled
    obtain ⟨between, same⟩ :=
      Pass.hoisted_of_run_settled (standard _ List.mem_cons_self) _ _ run settled
    exact (ih (fun pass mem => standard pass (.tail _ mem)) between).trans same

theorem Rounds.hoisted_of_settled (rest : Rounds maxRewrites rounds current notices last) :
    current.Settled → last.hoisted = current.hoisted := by
  induction rest with
  | out => exact fun _ => rfl
  | fixpoint runs => exact runs.hoisted_of_settled fun _ => id
  | again runs _ _ ih =>
    intro settled
    exact (ih (runs.settled (fun _ => id) settled)).trans (runs.hoisted_of_settled (fun _ => id) settled)

/-- A round takes the first sort steps out, as many as there is room for. -/
theorem RunsThrough.takes {q : Query}
    (runs : RunsThrough maxRewrites Standard.passes ⟨.root q, .empty⟩ notices next) :
    next.Settled ∧ next.hoisted.orders = (q.orders.take maxHoisted).reverse := by
  have holder : ∀ d : Query, (Query.root d).operandOrders = d.orders := fun d => by
    simp [Query.operandOrders, Query.children]
  cases runs with
  | @pass _ _ _ _ first _ run rest =>
    obtain ⟨c, top⟩ := Pass.root_of_run _ _ run q rfl
    have takes := Pass.takes_of_run _ _ run
    have settled : (⟨first.query, first.hoisted⟩ : Optimized).Settled := by
      refine takes.exhausted.imp_right fun emptied => ?_
      rw [top, holder, Query.orders_eq_nil_iff] at emptied
      rw [top]
      exact emptied
    have standard : ∀ pass ∈ Standard.passes.tail, pass ∈ Standard.passes := fun _ => .tail _
    refine ⟨rest.settled standard settled, ?_⟩
    rw [rest.hoisted_of_settled standard settled, takes.hoisted, holder]
    exact List.append_nil _

/-- **The first sort steps are taken out**, wherever they stand, and as many as there is room
for. -/
theorem hoisted_optimize {q : Query} {u : Optimized} {log log' : List Notice}
    (found : optimize maxRewrites q log = .ok u log') :
    u.hoisted.orders = (q.orders.take maxHoisted).reverse := by
  obtain ⟨notices, hoisted, c, -, rfl, rest⟩ := optimize_eq_ok_iff.mp found
  have rounds : Rounds maxRewrites (7 + 1) ⟨.root q, .empty⟩ notices ⟨.root c, hoisted⟩ := rest
  cases rounds with
  | fixpoint runs => exact runs.takes.2
  | again runs _ later =>
    obtain ⟨settled, orders⟩ := runs.takes
    exact (congrArg Hoisted.orders (later.hoisted_of_settled settled)).trans orders

end ExtentQuery.Rewrite

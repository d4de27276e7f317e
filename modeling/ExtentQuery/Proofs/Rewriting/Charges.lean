import ExtentQuery.Proofs.Rewriting.Accounts
import ExtentQuery.Proofs.Rewriting.Standard

/-!
# How many rewrites a standard pass performs

The passes undo one another in part, but each of them alone comes to rest, and soon.  A
tariff puts a charge on every node of a query.  For each standard pass there is a tariff
under which every application of a rule gives back a unit of the charge, and taking out a
sort step gives back nothing but costs nothing either.

* `Tariff`, `Tariff.charge` — the charges by kind of node, and what a query has to pay;
* `Pass.PaidBy` — each rewrite of the pass lowers the charge;
* `Pass.Performs.charge_le` — so a run performs at most as many rewrites as it has paid for;
* `Standard.paidBy_prepare`, `Standard.paidBy_simplify`, `Standard.paidBy_negation`,
  `Standard.paidBy_residual` — the tariffs of the standard passes;
* `Standard.rewrites_linear` — a standard pass comes to rest after a number of rewrites that
  is linear in the size of the query.

**Why charges add up.**  A charge is additive, so what an operand gives back, the whole
query gives back, wherever the operand stands; the weight that serves all passes together
multiplies, and gives no linear bound.  No tariff serves all passes: the last one makes
differences, and for the first one differences have to be charged.
-/

namespace ExtentQuery

open Interpretation (of assign)

/-! ### Tariffs -/

/-- What the nodes of a query are charged, by their kind.  Other nodes are free. -/
structure Tariff where
  inter : Nat
  union : Nat
  diff : Nat
  compl : Nat
  /-- For a leaf that selects what lacks a property or a link. -/
  absent : Nat

namespace Tariff

/-- The charge of a leaf. -/
def leaf (tariff : Tariff) : Query → Nat
  | .equals _ none => tariff.absent
  | .linkedTo _ none => tariff.absent
  | _ => 0

/-- The charges of queries. -/
def charges (tariff : Tariff) : Interpretation Nat where
  leaf := tariff.leaf
  root x := x
  inter x y := x + y + tariff.inter
  union x y := x + y + tariff.union
  diff x y := x + y + tariff.diff
  concat x y := x + y
  compl x := x + tariff.compl
  sort x := x

/-- What a query is charged, all its nodes together. -/
def charge (tariff : Tariff) (q : Query) : Nat :=
  tariff.charges.of q

variable (tariff : Tariff)

theorem fair_charges : tariff.charges.Fair where
  inter_comm x y := congrArg (· + tariff.inter) (Nat.add_comm x y)
  union_comm x y := congrArg (· + tariff.union) (Nat.add_comm x y)
  leaf_same a b isLeaf same := by
    cases a <;> cases b <;> simp_all [Query.same, Query.arity, charges, leaf]
    case equals.equals property value property' value' =>
      cases value <;> cases value' <;> simp_all [Value.sameOption]

/-- What an operand gives back, the node gives back. -/
theorem keeps_charges (amount : Nat) :
    tariff.charges.Keeps fun after before => after + amount ≤ before where
  root lower := lower
  inter_left y lower := by simp only [charges]; omega
  inter_right x _ _ lower := by simp only [charges]; omega
  union_left y lower := by simp only [charges]; omega
  union_right x _ _ lower := by simp only [charges]; omega
  diff_left y lower := by simp only [charges]; omega
  diff_right x _ _ lower := by simp only [charges]; omega
  concat_left y lower := by simp only [charges]; omega
  concat_right x _ _ lower := by simp only [charges]; omega
  compl lower := by simp only [charges]; omega
  sort lower := lower

/-- No node is charged more than the limit. -/
structure Within (limit : Nat) : Prop where
  inter : tariff.inter ≤ limit
  union : tariff.union ≤ limit
  diff : tariff.diff ≤ limit
  compl : tariff.compl ≤ limit
  absent : tariff.absent ≤ limit

variable {tariff}

theorem leaf_le {limit : Nat} (within : tariff.Within limit) (q : Query) :
    tariff.leaf q ≤ limit := by
  unfold leaf
  split
  · exact within.absent
  · exact within.absent
  · exact Nat.zero_le limit

/-- The charge of a query is linear in its size. -/
theorem charge_le {limit : Nat} (within : tariff.Within limit) (q : Query) :
    tariff.charge q ≤ limit * q.size := by
  have ⟨inter, union, diff, compl, _⟩ := within
  unfold charge
  induction q with
  | inter l r ihl ihr | union l r ihl ihr | diff l r ihl ihr | concat l r ihl ihr =>
    simp only [of, charges, Query.size, Nat.mul_add, Nat.mul_one] at ihl ihr ⊢
    omega
  | root c ih | compl c ih | sort _ c ih =>
    simp only [of, charges, Query.size, Nat.mul_add, Nat.mul_one] at ih ⊢
    omega
  | _ =>
    simp only [of, charges, Query.size, Nat.mul_one]
    exact leaf_le within _

/-- A conversion lowers the charge, if intersections are charged and lacking something is
charged more than a complement. -/
theorem charge_convert_lt {conversion : Transformation} {q : Query}
    (accepted : conversion.accepts q = true)
    (ranges : conversion = .commonRange → 0 < tariff.inter)
    (absences : conversion ≠ .commonRange → tariff.compl < tariff.absent) :
    tariff.charge (conversion.convert q) < tariff.charge q := by
  unfold Transformation.accepts at accepted
  split at accepted
  case h_1 =>
    simp only [Bool.and_eq_true] at accepted
    simp only [Transformation.convert, accepted.1.1, if_true]
    show 0 < 0 + 0 + tariff.inter
    rw [Nat.zero_add]
    exact ranges rfl
  case h_2 | h_3 =>
    show 0 + tariff.compl < tariff.absent
    rw [Nat.zero_add]
    exact absences nofun
  case h_4 => cases accepted

end Tariff

namespace Rewrite

/-! ### Runs that are paid for -/

/-- Each rewrite of the pass lowers the charge. -/
def Pass.PaidBy (pass : Pass) (tariff : Tariff) : Prop :=
  ∀ q q', firstRewrite? pass.rules q = .ok (some q') → tariff.charge q' < tariff.charge q

/-- A rule lowers the charge if it does so for all charges of the slots. -/
theorem Rule.charge_lt {tariff : Tariff} {base rule : Rule} (mem : rule ∈ base.orientations)
    (cheaper : base.Related tariff.charges (· < ·)) {q q' : Query}
    (rewritten : rule.rewrite? q = .ok (some q')) : tariff.charge q' < tariff.charge q :=
  (cheaper.orientation tariff.fair_charges.toCommutes mem).of_rewrite? tariff.fair_charges rewritten

namespace Pass

variable {pass : Pass} {tariff : Tariff}

/-- What an operand gives back, the whole query gives back. -/
theorem charge_setChild {q c c' : Query} {i amount : Nat} (at_i : q.child? i = some c)
    (lower : tariff.charge c' + amount ≤ tariff.charge c) :
    tariff.charge (q.setChild i c') + amount ≤ tariff.charge q :=
  related_setChild (tariff.keeps_charges amount) at_i lower

/-- What the walk over an operand gives back, the walk over the whole query gives back. -/
theorem charge_resume {here scanned : Progress} {operand : Query} {i amount : Nat}
    (at_i : here.query.child? i = some operand)
    (lower : tariff.charge scanned.query + amount ≤ tariff.charge (here.focus operand).query) :
    tariff.charge (here.resume i scanned).query + amount ≤ tariff.charge here.query :=
  charge_setChild at_i lower

/-- A change gives back at least what it counts as rewrites. -/
theorem Makes.charge_le (paid : pass.PaidBy tariff) {here next : Progress} {i : Nat}
    {operand : Query} {change : Change} (makes : pass.Makes here i operand change next)
    (at_i : here.query.child? i = some operand) :
    tariff.charge next.query + rewriteCount [change] ≤ tariff.charge here.query := by
  cases makes with
  | hoist => exact charge_setChild at_i (Nat.le_refl _)
  | rewrite _ _ rewritten => exact charge_setChild at_i (paid _ _ rewritten)

/-- A walk performs as many rewrites at most as the charge has gone down. -/
theorem Records.charge_le (paid : pass.PaidBy tariff) {here last : Progress} {i : Nat}
    {log : List Change} (walk : pass.Records here i log last) :
    tariff.charge last.query + rewriteCount log ≤ tariff.charge here.query := by
  induction walk with
  | done => exact Nat.le_refl _
  | changeOnEntry _ at_i makes _ ih =>
    have step := makes.charge_le paid at_i
    rw [← List.singleton_append, rewriteCount_append]
    omega
  | descendOnEntry _ at_i _ _ _ below ih | passOnExit _ at_i _ _ _ below ih =>
    have within := charge_resume at_i below
    rw [rewriteCount_append]
    omega
  | changeOnExit _ at_i _ makes _ below ih =>
    have within := charge_resume at_i below
    have step := makes.charge_le paid (Query.child?_setChild at_i _)
    rw [← List.singleton_append, rewriteCount_append, rewriteCount_append]
    omega

/-- A run performs as many rewrites at most as the charge has gone down. -/
theorem Performs.charge_le (paid : pass.PaidBy tariff) {start last : Progress}
    {log : List Change} (performed : pass.Performs start log last) :
    tariff.charge last.query + rewriteCount log ≤ tariff.charge start.query := by
  induction performed with
  | last walk => exact walk.charge_le paid
  | again walk _ _ _ ih =>
    have first := walk.charge_le paid
    rw [rewriteCount_append]
    omega

end Pass

namespace Standard

open Query (inter union diff compl all)

/-! ### The tariffs of the standard passes -/

/-- The first pass spends differences. -/
theorem paidBy_prepare : prepare.PaidBy ⟨0, 0, 1, 0, 0⟩ := by
  intro q q' rewritten
  obtain ⟨rule, mem, applied⟩ := exists_of_firstRewrite? rewritten
  refine Rule.charge_lt (mem_prepare.mp mem) ⟨rfl, rfl, fun values => ?_⟩ applied
  simp only [splitDifference, of, assign, Tariff.charges]
  omega

/-- The second pass spends intersections and unions. -/
theorem paidBy_simplify : simplify.PaidBy ⟨1, 1, 0, 0, 0⟩ := by
  intro q q' rewritten
  obtain ⟨rule, mem, applied⟩ := exists_of_firstRewrite? rewritten
  rcases mem_simplify.mp mem with mem | mem | mem | mem | mem | mem
  case inr.inr.inr.inr.inr =>
    rw [eq_of_mem_conversion mem] at applied
    obtain ⟨accepted, rfl⟩ := rewrite?_conversion applied
    exact Tariff.charge_convert_lt accepted (fun _ => Nat.one_pos) fun other => absurd rfl other
  all_goals
    refine Rule.charge_lt mem ⟨rfl, rfl, fun values => ?_⟩ applied
    simp only [factorUnions, factorIntersections, dropAll, absorbAll, regroup, of, assign,
      Tariff.charges, Tariff.leaf]
    omega

/-- The third pass spends complements, and unions because they let complements through. -/
theorem paidBy_negation : negation.PaidBy ⟨1, 2, 1, 2, 3⟩ := by
  intro q q' rewritten
  obtain ⟨rule, mem, applied⟩ := exists_of_firstRewrite? rewritten
  rcases mem_negation.mp mem with mem | mem | mem | mem | mem | mem | mem | mem
  case inr.inr.inr.inr.inr.inr.inl | inr.inr.inr.inr.inr.inr.inr =>
    rw [eq_of_mem_conversion mem] at applied
    obtain ⟨accepted, rfl⟩ := rewrite?_conversion applied
    exact Tariff.charge_convert_lt accepted nofun fun _ => Nat.lt_succ_self 2
  all_goals
    refine Rule.charge_lt mem ⟨rfl, rfl, fun values => ?_⟩ applied
    simp only [cancelComplements, pullFromIntersection, pullFromUnion, joinDifference,
      pullDifference, dropRepeated, of, assign, Tariff.charges]
    omega

/-- The last pass spends complements. -/
theorem paidBy_residual : residual.PaidBy ⟨0, 0, 0, 1, 0⟩ := by
  intro q q' rewritten
  obtain ⟨rule, mem, applied⟩ := exists_of_firstRewrite? rewritten
  refine Rule.charge_lt (mem_residual.mp mem) ⟨rfl, rfl, fun values => ?_⟩ applied
  simp only [complementOfAll, of, assign, Tariff.charges, Tariff.leaf]
  omega

/-- Each standard pass has a tariff that charges no node more than three units. -/
theorem exists_tariff {pass : Pass} (standard : pass ∈ passes) :
    ∃ tariff : Tariff, pass.PaidBy tariff ∧ tariff.Within 3 := by
  simp only [passes, List.mem_cons, List.not_mem_nil, or_false] at standard
  rcases standard with rfl | rfl | rfl | rfl
  · exact ⟨_, paidBy_prepare, by constructor <;> decide⟩
  · exact ⟨_, paidBy_simplify, by constructor <;> decide⟩
  · exact ⟨_, paidBy_negation, by constructor <;> decide⟩
  · exact ⟨_, paidBy_residual, by constructor <;> decide⟩

/-- A standard pass comes to rest after a number of rewrites that is linear in the size of
the query.  A budget that allows more is not used up, and then no rule of the pass matches
anything in the query any more. -/
theorem rewrites_linear {pass : Pass} (standard : pass ∈ passes) {q : Query}
    (ground : q.ground = true) (hoisted : Hoisted) (budget : Nat) :
    ∃ log last, pass.run ⟨.root q, hoisted, budget⟩ = .ok last
      ∧ (∀ log' last', pass.Performs ⟨.root q, hoisted, budget⟩ log' last' ↔
          log' = log ∧ last' = last)
      ∧ last.budget + rewriteCount log = budget
      ∧ rewriteCount log ≤ 5 * q.size
      ∧ (5 * q.size < budget → 0 < last.budget ∧ ∀ d : Query, d.Below last.query →
          ∀ rule ∈ pass.rules, rule.source.matchAgainst d [] = .ok none) := by
  obtain ⟨last, found⟩ := Pass.run_total (closed pass standard) ⟨.root q, hoisted, budget⟩ ground
  obtain ⟨log, balance, performed⟩ := Pass.performs_iff_of_run found
  obtain ⟨tariff, paid, within⟩ := exists_tariff standard
  have bounded : rewriteCount log ≤ 5 * q.size := by
    have spent : tariff.charge last.query + rewriteCount log ≤ tariff.charge q :=
      ((performed log last).mpr ⟨rfl, rfl⟩).charge_le paid
    have := tariff.charge_le within q
    omega
  refine ⟨log, last, found, performed, balance.budget, bounded, fun ample => ?_⟩
  have left : last.budget + rewriteCount log = budget := balance.budget
  have budgetLeft : 0 < last.budget := by omega
  exact ⟨budgetLeft, (Pass.normal_of_run found budgetLeft).noMatch⟩

/-- The third pass on a union of two complements and a difference taken away twice. -/
theorem rewrites_linear_negation :
    let q := diff (union (compl (.equals "name" none)) (compl all)) (compl all)
    negation ∈ passes ∧ q.ground = true
      ∧ ∃ log last, negation.run ⟨.root q, .empty, 41⟩ = .ok last
        ∧ (∀ log' last', negation.Performs ⟨.root q, .empty, 41⟩ log' last' ↔
            log' = log ∧ last' = last)
        ∧ last.budget + rewriteCount log = 41
        ∧ rewriteCount log ≤ 5 * q.size
        ∧ (5 * q.size < 41 → 0 < last.budget ∧ ∀ d : Query, d.Below last.query →
            ∀ rule ∈ negation.rules, rule.source.matchAgainst d [] = .ok none) := by
  intro q
  have standard : negation ∈ passes := .tail _ (.tail _ (.head _))
  exact ⟨standard, rfl, rewrites_linear standard rfl .empty 41⟩

end Standard

end Rewrite

end ExtentQuery

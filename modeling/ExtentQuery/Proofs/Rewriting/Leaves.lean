import ExtentQuery.Proofs.Rewriting.Rounds

/-!
# What rewriting keeps of the leaves

The standard rules move leaves around, drop them and repeat them, but they bring in only
few new ones: the whole extent, and what the conversions make of a leaf.  So a property of
all leaves is kept if it holds of these.  Sort steps are not brought in at all, and the
walk through a query without sort steps takes none out of it.

* `LeafInvariant` — the properties of leaves that are kept;
* `Standard.allLeaves_of_rewrites`, `optimize_allLeaves` — if all leaves have such a property,
  they have it after rewriting;
* `Standard.allNodes_of_rewrites`, `optimize_allNodes` — and if there are no sort steps, or no
  concatenations, there are none after rewriting;
* `Rounds.unsorted` — a query without sort steps stays without them, and the list of
  hoisted steps stays as it is.
-/

namespace ExtentQuery

open Interpretation

/-- A property of leaves that does not tell apart leaves that are the same, and that the
leaves that rewriting brings in have. -/
structure LeafInvariant (property : Query → Bool) : Prop where
  same : ∀ a b : Query, a.arity = 0 → a.same b = true → property a = property b
  all : property .all = true
  absentProperty : ∀ name, property (.equals name none) = true →
    property (.hasProperty name) = true
  absentLink : ∀ link, property (.linkedTo link none) = true → property (.hasLink link) = true
  commonRange : ∀ left right : Query,
    Transformation.commonRange.accepts (.inter left right) = true →
    property left = true → property right = true →
    property (Transformation.commonRange.convert (.inter left right)) = true

theorem leafInvariant_true : LeafInvariant fun _ => true where
  same _ _ _ _ := rfl
  all := rfl
  absentProperty _ _ := rfl
  absentLink _ _ := rfl
  commonRange _ _ _ _ _ := rfl

namespace LeafInvariant

variable {property : Query → Bool} {sorts concats : Bool}

theorem fair_allNodes (invariant : LeafInvariant property) :
    (allNodes property sorts concats).Fair where
  toCommutes := commutes_allNodes _ _ _
  leaf_same := invariant.same

theorem fair (invariant : LeafInvariant property) : (allLeaves property sorts).Fair :=
  (invariant.fair_allNodes : (allNodes property sorts true).Fair)

theorem convert (invariant : LeafInvariant property) {conversion : Transformation} {q : Query}
    (accepted : conversion.accepts q = true) :
    (allNodes property sorts concats).of q = true →
      (allNodes property sorts concats).of (conversion.convert q) = true := by
  unfold Transformation.accepts at accepted
  split at accepted
  case h_1 name low high name' low' high' =>
    intro leaves
    obtain ⟨left, right⟩ := (Bool.and_eq_true _ _).mp leaves
    have merged := invariant.commonRange (.between name low high) (.between name' low' high')
      accepted left right
    have one : name = name' := by
      simp only [Bool.and_eq_true, beq_iff_eq] at accepted
      exact accepted.1.1
    simp only [Transformation.convert, one, beq_self_eq_true, if_true] at merged ⊢
    exact merged
  case h_2 name => exact invariant.absentProperty name
  case h_3 link => exact invariant.absentLink link
  case h_4 => cases accepted

end LeafInvariant

theorem Query.unsorted_child? {q c : Query} {i : Nat} (unsorted : q.unsorted = true)
    (at_i : q.child? i = some c) : c.unsorted = true :=
  allLeaves_child? unsorted at_i

namespace Rewrite

/-! ### Rules -/

namespace Standard

variable {property : Query → Bool} {sorts concats : Bool}

/-- What a standard rule puts in the place of a query keeps the properties of its leaves,
and it brings in no sort step and no concatenation. -/
theorem allNodes_of_rewrite? (invariant : LeafInvariant property) {pass : Pass}
    (standard : pass ∈ passes) {rule : Rule} (mem : rule ∈ pass.rules) {q q' : Query}
    (rewritten : rule.rewrite? q = .ok (some q')) :
    (allNodes property sorts concats).of q = true → (allNodes property sorts concats).of q' = true := by
  have plain : ∀ base : Rule, rule ∈ base.orientations →
      base.Related (allNodes property sorts concats) (fun x' x => x = true → x' = true) →
      (allNodes property sorts concats).of q = true → (allNodes property sorts concats).of q' = true :=
    fun base oriented related =>
      (related.orientation invariant.fair_allNodes.toCommutes oriented).of_rewrite? invariant.fair_allNodes rewritten
  have converted : ∀ t, rule ∈ (conversion t).orientations →
      (allNodes property sorts concats).of q = true → (allNodes property sorts concats).of q' = true := by
    intro t oriented
    rw [eq_of_mem_conversion oriented] at rewritten
    obtain ⟨accepted, rfl⟩ := rewrite?_conversion rewritten
    exact invariant.convert accepted
  have all := invariant.all
  -- no rule but a conversion and those about the whole extent brings in a leaf
  simp only [passes, List.mem_cons, List.not_mem_nil, or_false] at standard
  rcases standard with rfl | rfl | rfl | rfl
  · refine plain _ (mem_prepare.mp mem) ⟨rfl, rfl, fun values => ?_⟩
    simp +contextual [splitDifference, of, assign, allNodes, allLeaves]
  · rcases mem_simplify.mp mem with mem | mem | mem | mem | mem | mem
    case inr.inr.inr.inr.inr => exact converted _ mem
    all_goals
      refine plain _ mem ⟨rfl, rfl, fun values => ?_⟩
      simp +contextual [factorUnions, factorIntersections, dropAll, absorbAll, regroup, of,
        assign, allNodes, allLeaves, all]
  · rcases mem_negation.mp mem with mem | mem | mem | mem | mem | mem | mem | mem
    case inr.inr.inr.inr.inr.inr.inl => exact converted _ mem
    case inr.inr.inr.inr.inr.inr.inr => exact converted _ mem
    all_goals
      refine plain _ mem ⟨rfl, rfl, fun values => ?_⟩
      simp +contextual [cancelComplements, pullFromIntersection, pullFromUnion, joinDifference,
        pullDifference, dropRepeated, of, assign, allNodes, allLeaves]
  · refine plain _ (mem_residual.mp mem) ⟨rfl, rfl, fun values => ?_⟩
    simp +contextual [complementOfAll, of, assign, allNodes, allLeaves, all]

theorem allNodes_of_rewrites (invariant : LeafInvariant property) {pass : Pass}
    (standard : pass ∈ passes) {q q' : Query} (rewriting : pass.Rewrites q q') :
    (allNodes property sorts concats).of q = true → (allNodes property sorts concats).of q' = true := by
  refine rewriting.related (respects_allNodes _ _ _) ?_ fun _ x both => ?_
  · intro q q' rewritten _
    obtain ⟨rule, mem, applied⟩ := exists_of_firstRewrite? rewritten
    exact allNodes_of_rewrite? invariant standard mem applied
  · exact ((Bool.and_eq_true _ _).mp both).2

/-- The properties of leaves are kept, whether there are concatenations or not. -/
theorem allLeaves_of_rewrite? (invariant : LeafInvariant property) {pass : Pass}
    (standard : pass ∈ passes) {rule : Rule} (mem : rule ∈ pass.rules) {q q' : Query}
    (rewritten : rule.rewrite? q = .ok (some q')) :
    (allLeaves property sorts).of q = true → (allLeaves property sorts).of q' = true := by
  rw [← allNodes_true]
  exact allNodes_of_rewrite? invariant standard mem rewritten

theorem allLeaves_of_rewrites (invariant : LeafInvariant property) {pass : Pass}
    (standard : pass ∈ passes) {q q' : Query} (rewriting : pass.Rewrites q q') :
    (allLeaves property sorts).of q = true → (allLeaves property sorts).of q' = true := by
  rw [← allNodes_true]
  exact allNodes_of_rewrites invariant standard rewriting

theorem unsorted_of_rewrites {pass : Pass} (standard : pass ∈ passes) {q q' : Query}
    (rewriting : pass.Rewrites q q') : q.unsorted = true → q'.unsorted = true :=
  allLeaves_of_rewrites leafInvariant_true standard rewriting

end Standard

/-! ### Runs -/

namespace Pass

variable {pass : Pass}

theorem Changes.hoisted_eq {here next : Progress} {i : Nat} {operand : Query}
    (change : pass.Changes here i operand next) (unsorted : operand.unsorted = true) :
    next.hoisted = here.hoisted := by
  cases change with
  -- there is no sort step to take out
  | hoist => cases unsorted
  | rewrite => rfl

theorem Scans.hoisted_eq (standard : pass ∈ Standard.passes) {here last : Progress} {i : Nat}
    (walk : pass.Scans here i last) :
    here.query.unsorted = true → last.hoisted = here.hoisted := by
  have kept : ∀ {q q'}, pass.Rewrites q q' → q.unsorted = true → q'.unsorted = true :=
    Standard.unsorted_of_rewrites standard
  induction walk with
  | done => exact fun _ => rfl
  | changeOnEntry onEntry at_i change _ ih =>
    intro unsorted
    rw [ih (kept (change.rewrites_onEntry at_i onEntry) unsorted),
      change.hoisted_eq (Query.unsorted_child? unsorted at_i)]
  | descendOnEntry _ at_i _ inner _ below ih =>
    intro unsorted
    rw [ih (kept (.inside at_i inner.rewrites) unsorted)]
    exact below (Query.unsorted_child? unsorted at_i)
  | changeOnExit onExit at_i inner change _ below ih =>
    intro unsorted
    have operand := Query.unsorted_child? unsorted at_i
    rw [ih (kept (change.rewrites_onExit at_i onExit inner inner.rewrites) unsorted),
      change.hoisted_eq (kept inner.rewrites operand)]
    exact below operand
  | passOnExit _ at_i inner _ _ below ih =>
    intro unsorted
    rw [ih (kept (.inside at_i inner.rewrites) unsorted)]
    exact below (Query.unsorted_child? unsorted at_i)

theorem hoisted_of_run (standard : pass ∈ Standard.passes) (start : Progress) :
    ∀ last, pass.run start = .ok last → start.query.unsorted = true →
      last.query.unsorted = true ∧ last.hoisted = start.hoisted := by
  refine related_of_run (R := fun a b => a.query.unsorted = true →
    b.query.unsorted = true ∧ b.hoisted = a.hoisted) ?_ ?_ start
  · intro a b c first second unsorted
    obtain ⟨between, same⟩ := first unsorted
    obtain ⟨after, same'⟩ := second between
    exact ⟨after, same'.trans same⟩
  · intro a b walk unsorted
    exact ⟨Standard.unsorted_of_rewrites standard walk.rewrites unsorted,
      walk.hoisted_eq standard unsorted⟩

end Pass

/-- Passes that run one after the other leave a query without sort steps without them, and
the hoisted steps as they are. -/
theorem RunsThrough.unsorted {maxRewrites : Nat} {passes : List Pass}
    {current next : Optimized} {notices : List Notice}
    (standard : ∀ pass ∈ passes, pass ∈ Standard.passes)
    (runs : RunsThrough maxRewrites passes current notices next) :
    current.query.unsorted = true →
      next.query.unsorted = true ∧ next.hoisted = current.hoisted := by
  induction runs with
  | done => exact fun unsorted => ⟨unsorted, rfl⟩
  | pass run _ ih =>
    intro unsorted
    obtain ⟨between, same⟩ :=
      Pass.hoisted_of_run (standard _ List.mem_cons_self) _ _ run unsorted
    obtain ⟨after, same'⟩ := ih (fun pass mem => standard pass (.tail _ mem)) between
    exact ⟨after, same'.trans same⟩

/-- Rounds leave a query without sort steps without them, and the hoisted steps as they
are. -/
theorem Rounds.unsorted {maxRewrites rounds : Nat} {current last : Optimized}
    {notices : List Notice} (rest : Rounds maxRewrites rounds current notices last) :
    current.query.unsorted = true →
      last.query.unsorted = true ∧ last.hoisted = current.hoisted := by
  induction rest with
  | out => exact fun unsorted => ⟨unsorted, rfl⟩
  | fixpoint runs => exact runs.unsorted fun _ => id
  | again runs _ _ ih =>
    intro unsorted
    obtain ⟨between, same⟩ := runs.unsorted (fun _ => id) unsorted
    obtain ⟨after, same'⟩ := ih between
    exact ⟨after, same'.trans same⟩

/-- Optimization keeps the properties of leaves, and it brings in no sort step and no
concatenation. -/
theorem optimize_allNodes {property : Query → Bool} {sorts concats : Bool}
    (invariant : LeafInvariant property) {maxRewrites : Nat} {q : Query} {u : Optimized}
    {log log' : List Notice} (found : optimize maxRewrites q log = .ok u log') :
    (allNodes property sorts concats).of q = true →
      (allNodes property sorts concats).of u.query = true := by
  obtain ⟨notices, hoisted, c, -, rfl, rest⟩ := optimize_eq_ok_iff.mp found
  exact rest.related
    (R := fun q q' => (allNodes property sorts concats).of q = true →
      (allNodes property sorts concats).of q' = true)
    (fun _ => id) (fun first second => second ∘ first)
    fun _ standard _ _ => Standard.allNodes_of_rewrites invariant standard

/-- Optimization keeps the properties of leaves. -/
theorem optimize_allLeaves {property : Query → Bool} {sorts : Bool}
    (invariant : LeafInvariant property) {maxRewrites : Nat} {q : Query} {u : Optimized}
    {log log' : List Notice} (found : optimize maxRewrites q log = .ok u log') :
    (allLeaves property sorts).of q = true → (allLeaves property sorts).of u.query = true := by
  rw [← allNodes_true]
  exact optimize_allNodes invariant found

/-- Optimization takes no sort step out of a query without sort steps. -/
theorem unsorted_optimize {maxRewrites : Nat} {q : Query} {u : Optimized}
    {log log' : List Notice} (found : optimize maxRewrites q log = .ok u log')
    (unsorted : q.unsorted = true) : u.query.unsorted = true ∧ u.hoisted = .empty := by
  obtain ⟨notices, hoisted, c, -, rfl, rest⟩ := optimize_eq_ok_iff.mp found
  exact rest.unsorted unsorted

end Rewrite

end ExtentQuery

import ExtentQuery.Proofs.Rewriting.Taking
import Mathlib

/-!
# The shape of an optimized query

Each pass creates nodes that another one removes, so the shape of an optimized query is that
of the last round: what a pass of that round has left nothing of, and the later passes of that
round do not bring back.

* `Query.Within` — the nodes of a query, and `Interpretation.allLeaves_iff` — what holds of
  all leaves, said of the nodes;
* `Standard.notNull_of_stuck`, `Standard.noComplement_of_stuck` — what the third and the
  fourth pass leave nothing of;
* `Rounds.exists_last` — the last round, which reports nothing but what the rounds report;
* `Shaped`, `shape_optimize` — the nodes that an optimized query does not have.

**Budgets and rounds.**  Only the last two passes have to end with budget left.  It does not
matter whether the last round left the query the same, because what it brings about does not
depend on what it started from.
-/

namespace ExtentQuery

/-! ### Nodes -/

namespace Query

/-- The first query is a node of the second one: the query itself or an operand, at any
depth. -/
def Within (d q : Query) : Prop :=
  d = q ∨ d.Below q

theorem Within.refl (q : Query) : q.Within q := .inl rfl

theorem Within.below {d q c : Query} {i : Nat} (within : d.Within c)
    (at_i : q.child? i = some c) : d.Below q := by
  rcases within with rfl | below
  · exact .operand at_i
  · exact .deeper at_i below

theorem Within.ground {d q : Query} (within : d.Within q) (ground : q.ground = true) :
    d.ground = true := by
  rcases within with rfl | below
  · exact ground
  · exact ground_below below ground

end Query

/-- A property of all leaves, said of the nodes: the leaves among them have it, and there are
sort steps among them only where they may be. -/
theorem Interpretation.allLeaves_iff {property : Query → Bool} {sorts : Bool} {q : Query} :
    (allLeaves property sorts).of q = true ↔ ∀ d : Query, d.Within q →
      (d.arity = 0 → property d = true) ∧ (∀ order c, d = .sort order c → sorts = true) := by
  constructor
  · intro leaves d within
    have here : (allLeaves property sorts).of d = true := by
      rcases within with rfl | below
      · exact leaves
      · induction below with
        | operand at_i => exact allLeaves_child? leaves at_i
        | deeper at_i _ ih => exact ih (allLeaves_child? leaves at_i)
    constructor
    · exact fun isLeaf => (of_of_arity isLeaf).symm.trans here
    · rintro order c rfl
      exact ((Bool.and_eq_true _ _).mp here).1
  · intro nodes
    induction q with
    | root c ih | compl c ih =>
      exact ih fun d within => nodes d (.inr (within.below (i := 0) rfl))
    | sort order c ih =>
      refine (Bool.and_eq_true _ _).mpr ⟨(nodes _ (.refl _)).2 order c rfl, ih fun d within => ?_⟩
      exact nodes d (.inr (within.below (i := 0) rfl))
    | inter l r ihl ihr | union l r ihl ihr | diff l r ihl ihr | concat l r ihl ihr =>
      refine (Bool.and_eq_true _ _).mpr ⟨ihl fun d within => ?_, ihr fun d within => ?_⟩
      · exact nodes d (.inr (within.below (i := 0) rfl))
      · exact nodes d (.inr (within.below (i := 1) rfl))
    | _ => exact (nodes _ (.refl _)).1 rfl

namespace Rewrite

/-! ### What the last two passes leave nothing of -/

/-- Whether a leaf is anything but the absence of a property or of a link. -/
def notNull : Query → Bool
  | .equals _ none => false
  | .linkedTo _ none => false
  | _ => true

theorem leafInvariant_notNull : LeafInvariant notNull where
  same a b isLeaf same := by
    cases a <;> cases b <;> simp only [Query.same, Bool.false_eq_true] at same <;>
      first | rfl | skip
    case equals.equals name value name' value' =>
      cases value <;> cases value' <;> simp [notNull, Value.sameOption] at same ⊢
    case linkedTo.linkedTo link target link' target' =>
      obtain ⟨-, rfl⟩ : link = link' ∧ target = target' := by simpa using same
      cases target <;> rfl
  all := rfl
  absentProperty _ _ := rfl
  absentLink _ _ := rfl
  commonRange left right accepted _ _ := by
    unfold Transformation.accepts at accepted
    split at accepted <;> simp_all [Transformation.convert, notNull]

namespace Standard

/-- Where the third pass has nothing to do, no leaf is the absence of anything. -/
theorem notNull_of_stuck {c : Query} (stuck : negation.Stuck (.root c)) :
    (Interpretation.allLeaves notNull true).of c = true := by
  refine Interpretation.allLeaves_iff.mpr fun d within => ⟨fun _ => ?_, fun _ _ _ => rfl⟩
  have idle : ∀ t : Transformation, conversion t ∈ negation.rules →
      (conversion t).rewrite? d = .ok none := fun t mem =>
    rewrite?_eq_none_of_firstRewrite? (stuck d (within.below (i := 0) rfl)) _ mem
  have own : ∀ t : Transformation, conversion t ∈ (conversion t).orientations :=
    fun t => List.mem_singleton.mpr rfl
  unfold notNull
  split
  case h_1 name =>
    have unchanged := idle .absentProperty (by rw [mem_negation]; simp [own])
    cases unchanged
  case h_2 link =>
    have unchanged := idle .absentLink (by rw [mem_negation]; simp [own])
    cases unchanged
  case h_3 => rfl

/-- Where the fourth pass has nothing to do, there is no complement. -/
theorem noComplement_of_stuck {q d : Query} (stuck : residual.Stuck q) (below : d.Below q)
    (c : Query) : d ≠ .compl c := by
  rintro rfl
  have mem : complementOfAll ∈ residual.rules := by
    rw [mem_residual, orientations_complementOfAll]
    exact List.mem_singleton.mpr rfl
  have unchanged := rewrite?_eq_none_of_firstRewrite? (stuck _ below) _ mem
  cases unchanged

end Standard

/-! ### The last round -/

variable {maxRewrites rounds : Nat} {current next last : Optimized} {notices : List Notice}

/-- What comes first in a sequence of passes, none of which uses up its budget. -/
theorem RunsThrough.of_funded {pass : Pass} {passes : List Pass}
    (runs : RunsThrough maxRewrites (pass :: passes) current notices next)
    (funded : ∀ name most, .budgetExhausted name most ∉ notices) :
    ∃ last notices', pass.run ⟨current.query, current.hoisted, maxRewrites⟩ = .ok last ∧
      0 < last.budget ∧ RunsThrough maxRewrites passes ⟨last.query, last.hoisted⟩ notices' next ∧
      ∀ name most, .budgetExhausted name most ∉ notices' := by
  cases runs with
  | @pass _ _ _ _ last notices' run rest =>
    refine ⟨last, notices', run, Nat.pos_of_ne_zero fun empty => ?_, rest, fun name most mem => ?_⟩
    · refine funded pass.name maxRewrites (List.mem_append_left _ ?_)
      rw [budgetNotices, if_pos empty]
      exact List.mem_singleton.mpr rfl
    · exact funded name most (List.mem_append_right _ mem)

/-- Rounds end with a round, what it reports is among what they report, and what each round
keeps holds before it. -/
theorem Rounds.exists_last {P : Optimized → Prop}
    (kept : ∀ {current next notices},
      RunsThrough maxRewrites Standard.passes current notices next → P current → P next)
    (rest : Rounds maxRewrites rounds current notices last) : rounds ≠ 0 → P current →
      ∃ before notices', P before ∧
        RunsThrough maxRewrites Standard.passes before notices' last ∧ notices' ⊆ notices := by
  induction rest with
  | out => exact fun some => absurd rfl some
  | fixpoint runs => exact fun _ holds => ⟨_, _, holds, runs, fun _ => id⟩
  | @again rounds current next last notices notices' runs _ rest ih =>
    intro _ holds
    by_cases more : rounds = 0
    · subst more
      cases rest
      refine ⟨_, _, holds, runs, fun notice mem => ?_⟩
      exact List.mem_append_left _ (List.mem_append_left _ mem)
    · obtain ⟨before, notices'', holds', runs', among⟩ := ih more (kept runs holds)
      exact ⟨before, notices'', holds', runs', fun notice mem =>
        List.mem_append_right _ (among mem)⟩

/-- A round none of whose passes uses up its budget leaves neither complements nor leaves that
are the absence of something. -/
theorem RunsThrough.shape {c : Query}
    (runs : RunsThrough maxRewrites Standard.passes current notices next)
    (funded : ∀ name most, .budgetExhausted name most ∉ notices)
    (before : current.query = .root c) :
    (Interpretation.allLeaves notNull true).of next.query = true ∧
      ∀ d : Query, d.Below next.query → ∀ e, d ≠ .compl e := by
  obtain ⟨prepared, notices, run₁, -, runs, funded⟩ := runs.of_funded funded
  obtain ⟨simplified, notices, run₂, -, runs, funded⟩ := runs.of_funded funded
  obtain ⟨negated, notices, run₃, left₃, runs, funded⟩ := runs.of_funded funded
  obtain ⟨last, notices, run₄, left₄, runs, -⟩ := runs.of_funded funded
  cases runs
  obtain ⟨c₁, top₁⟩ := Pass.root_of_run _ _ run₁ c before
  obtain ⟨c₂, top₂⟩ := Pass.root_of_run _ _ run₂ c₁ top₁
  obtain ⟨c₃, top₃⟩ := Pass.root_of_run _ _ run₃ c₂ top₂
  constructor
  · have stuck := Pass.stuck_of_run _ _ run₃ left₃
    rw [top₃] at stuck
    have operand := Standard.notNull_of_stuck stuck
    have leaves : (Interpretation.allLeaves notNull true).of negated.query = true := by
      rw [top₃]
      exact operand
    -- the fourth pass brings in the whole extent only
    exact Standard.allLeaves_of_rewrites leafInvariant_notNull
      (.tail _ (.tail _ (.tail _ (.head _)))) (Pass.run_rewrites _ _ run₄) leaves
  · exact fun d below => Standard.noComplement_of_stuck (Pass.stuck_of_run _ _ run₄ left₄) below

/-! ### Optimization -/

/-- A node that optimization does not get rid of, next to the hoisted steps: no complement, not
the absence of a property or of a link, no placeholder, and a sort step only if there was no
more room for it. -/
structure Shaped (hoisted : Hoisted) (d : Query) : Prop where
  noComplement : ∀ c, d ≠ .compl c
  noAbsentProperty : ∀ name, d ≠ .equals name none
  noAbsentLink : ∀ link, d ≠ .linkedTo link none
  noSlot : ∀ number, d ≠ .slot number
  noConverter : ∀ number conversion, d ≠ .converter number conversion
  noSort : hoisted.orders.length ≠ maxHoisted → ∀ order c, d ≠ .sort order c

/-- The first of any number of rounds settles the sort steps. -/
theorem Rounds.settled_of_empty {q : Query}
    (rest : Rounds maxRewrites rounds ⟨.root q, .empty⟩ notices last) (some : rounds ≠ 0) :
    last.Settled := by
  cases rest with
  | out => exact absurd rfl some
  | fixpoint runs => exact runs.takes.1
  | again runs _ later => exact later.settled runs.takes.1

/-- **The shape of optimized queries.**  A query without placeholders is optimized without a
fault, whatever the budget.  If no pass uses up its budget, then no node of the answer, at any
depth, is of a shape that the standard passes remove, whether or not the last round still
changed the query. -/
theorem shape_optimize (maxRewrites : Nat) {q : Query} (ground : q.ground = true)
    (log : List Notice) :
    ∃ u notices, optimize maxRewrites q log = .ok u (log ++ notices) ∧
      ((∀ name most, .budgetExhausted name most ∉ notices) →
        ∀ d : Query, d.Within u.query → Shaped u.hoisted d) := by
  obtain ⟨u, log', found⟩ := optimize_total maxRewrites ground log
  obtain ⟨notices, hoisted, c, rfl, rfl, rest⟩ := optimize_eq_ok_iff.mp found
  refine ⟨_, notices, found, fun funded d within => ?_⟩
  obtain ⟨before, notices', ⟨c', holder⟩, runs, among⟩ := rest.exists_last
    (P := fun o => ∃ c, o.query = .root c) (fun runs ⟨c, top⟩ => runs.root c top)
    (by decide) ⟨q, rfl⟩
  obtain ⟨leaves, noComplement⟩ :=
    runs.shape (fun name most mem => funded name most (among mem)) holder
  have grounded : d.ground = true := within.ground (rest.ground ground)
  have named := (Interpretation.allLeaves_iff.mp leaves d (.inr (within.below (i := 0) rfl))).1
  constructor
  case noComplement => exact noComplement d (within.below (i := 0) rfl)
  case noAbsentProperty => rintro name rfl; cases named rfl
  case noAbsentLink => rintro link rfl; cases named rfl
  case noSlot => rintro number rfl; cases grounded
  case noConverter => rintro number conversion rfl; cases grounded
  case noSort =>
    intro room order e isSort
    rcases rest.settled_of_empty (by decide) with full | unsorted
    · exact room (Nat.le_antisymm hoisted.length_le (of_decide_eq_true full))
    · cases (Interpretation.allLeaves_iff.mp unsorted d
        (.inr (within.below (i := 0) rfl))).2 order e isSort

/-- Five sort steps, of which the one below a concatenation stays, and under it two leaves that
are the absence of something. -/
theorem shape_optimize_fiveSorts :
    let q : Query := .sort (.property "a" true) (.sort (.property "b" true)
      (.sort (.property "c" true) (.sort (.property "d" true)
        (.concat (.equals "name" none) (.sort (.property "e" true)
          (.compl (.linkedTo "owner" none)))))))
    q.ground = true ∧ ∃ u, optimize 100 q [] = .ok u [] ∧
      u.query = .concat (.diff .all (.hasProperty "name"))
        (.sort (.property "e" true) (.hasLink "owner")) ∧
      ∀ d : Query, d.Within u.query → Shaped u.hoisted d := by
  intro q
  obtain ⟨u, notices, found, shape⟩ := shape_optimize 100 (q := q) rfl []
  have quiet : optimize 100 q [] = .ok ⟨.concat (.diff .all (.hasProperty "name"))
      (.sort (.property "e" true) (.hasLink "owner")),
      ⟨[.property "d" true, .property "c" true, .property "b" true, .property "a" true],
        by decide⟩⟩ [] := by decide +kernel
  rw [quiet] at found
  cases found
  exact ⟨rfl, _, quiet, rfl, shape fun _ _ => List.not_mem_nil⟩

end Rewrite

end ExtentQuery

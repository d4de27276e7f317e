import ExtentQuery.Proofs.Caching.Canonical
import ExtentQuery.Proofs.Rewriting.Leaves
import ExtentQuery.Proofs.Rewriting.Sorts

/-!
# Queries within queries

Answering a query may lead to answering others: the ones that it decorates, and the whole extent
if there is nothing but sort steps to it.  How deep this can go is seen from the query, and
neither rewriting nor the order of operands makes it any deeper.

* `Query.reads` — the queries every part of which is looked up for a type;
* `Query.targets` — the queries that a query decorates;
* `Query.asks` — how many queries can be waiting for one another below a query;
* `Rewrite.nesting_optimize` — what optimization makes of a query asks for less than the query.
-/

namespace ExtentQuery

open Rewrite (Optimized)

namespace Query

/-- Whether a query has no custom leaf, no placeholder and no leaf that follows the links of an
entity, also not within decorated queries. -/
def reads : Query → Bool
  | linksFrom .. => false
  | custom _ => false
  | slot _ => false
  | converter .. => false
  | root c => c.reads
  | compl c => c.reads
  | sort _ c => c.reads
  | linkedInto _ targets _ => targets.reads
  | inter l r => l.reads && r.reads
  | union l r => l.reads && r.reads
  | diff l r => l.reads && r.reads
  | concat l r => l.reads && r.reads
  | _ => true

/-- How many queries can be waiting for one another below a query.  A sort step may ask for the
whole extent. -/
def asks : Query → Nat
  | linkedInto _ targets _ => targets.asks + 1
  | sort _ c => max 1 c.asks
  | root c => c.asks
  | compl c => c.asks
  | inter l r => max l.asks r.asks
  | union l r => max l.asks r.asks
  | diff l r => max l.asks r.asks
  | concat l r => max l.asks r.asks
  | _ => 0

/-- The queries that a query decorates. -/
def targets : Query → List Query
  | linkedInto _ targets _ => [targets]
  | sort _ c => c.targets
  | root c => c.targets
  | compl c => c.targets
  | inter l r => l.targets ++ r.targets
  | union l r => l.targets ++ r.targets
  | diff l r => l.targets ++ r.targets
  | concat l r => l.targets ++ r.targets
  | _ => []

theorem legible_of_reads {q : Query} (reads : q.reads = true) : q.legible = true := by
  induction q with
  | root c ih | compl c ih | sort order c ih | linkedInto link c type ih => exact ih reads
  | inter l r ihl ihr | union l r ihl ihr | diff l r ihl ihr | concat l r ihl ihr =>
    obtain ⟨left, right⟩ := (Bool.and_eq_true _ _).mp reads
    exact (Bool.and_eq_true _ _).mpr ⟨ihl left, ihr right⟩
  | linksFrom | custom | slot | converter => cases reads
  | _ => rfl

theorem length_canonicalPair (left right : String) :
    (canonicalPair left right).length = left.length + right.length + 1 := by
  unfold canonicalPair
  split <;> simp only [String.length_append] <;> show _ + 1 + _ = _ <;> omega

/-- A text is longer than the queries in it are deep. -/
theorem asks_lt_length (q : Query) : q.asks < q.canonical.length + 1 := by
  induction q with
  | root c ih | compl c ih =>
    simp only [asks, canonical, String.length_append]
    omega
  | sort order c ih =>
    have tag : ("sort(" : String).length = 5 := rfl
    simp only [asks, canonical, String.length_append, tag]
    omega
  | linkedInto link c type ih =>
    have tag : ("led(" : String).length = 4 := rfl
    simp only [asks, canonical, String.length_append, tag]
    omega
  | inter l r ihl ihr | union l r ihl ihr =>
    simp only [asks, canonical, String.length_append, length_canonicalPair]
    omega
  | diff l r ihl ihr | concat l r ihl ihr =>
    simp only [asks, canonical, String.length_append]
    omega
  | _ => exact Nat.succ_pos _

/-- A query that asks for nothing sorts nothing. -/
theorem unsorted_of_asks {q : Query} (none : q.asks = 0) : q.unsorted = true := by
  induction q with
  | root c ih | compl c ih => exact ih none
  | sort order c ih =>
    simp only [asks] at none
    omega
  | inter l r ihl ihr | union l r ihl ihr | diff l r ihl ihr | concat l r ihl ihr =>
    simp only [asks, Nat.max_eq_zero_iff] at none
    exact (Bool.and_eq_true _ _).mpr ⟨ihl none.1, ihr none.2⟩
  | _ => rfl

/-! ### The same queries -/

/-- Queries that rewriting takes for the same are as deep. -/
theorem nesting_of_same : ∀ {a b : Query}, a.same b = true →
    a.reads = b.reads ∧ a.asks = b.asks := by
  intro a
  induction a with
  | root c ih | compl c ih =>
    intro b same
    cases b <;> simp only [Query.same, Bool.false_eq_true] at same
    obtain ⟨reads, asks⟩ := ih same
    exact ⟨reads, asks⟩
  | sort order c ih =>
    intro b same
    cases b <;> simp only [Query.same, Bool.and_eq_true, Bool.false_eq_true] at same
    exact ⟨(ih same.2).1, congrArg (max 1) (ih same.2).2⟩
  | linkedInto link targets type ih =>
    intro b same
    cases b <;> simp only [Query.same, Bool.and_eq_true, Bool.false_eq_true] at same
    exact ⟨(ih same.2).1, congrArg (· + 1) (ih same.2).2⟩
  | diff l r ihl ihr | concat l r ihl ihr =>
    intro b same
    cases b <;> simp only [Query.same, Bool.and_eq_true, Bool.false_eq_true] at same
    simp only [reads, asks, ihl same.1, ihr same.2, and_self]
  | inter l r ihl ihr | union l r ihl ihr =>
    intro b same
    cases b <;>
      simp only [Query.same, Bool.or_eq_true, Bool.and_eq_true, Bool.false_eq_true] at same
    rcases same with ⟨left, right⟩ | ⟨left, right⟩
    · simp only [reads, asks, ihl left, ihr right, and_self]
    · simp only [reads, asks, ihl left, ihr right, Bool.and_comm, Nat.max_comm, and_self]
  | _ =>
    intro b same
    cases b <;> simp only [Query.same, Bool.false_eq_true] at same
    exact ⟨rfl, rfl⟩

/-- The order of operands does not matter for how deep a query is. -/
theorem nesting_of_commuted {a b : Query} (commuted : a.Commuted b) :
    a.reads = b.reads ∧ a.asks = b.asks := by
  induction commuted with
  | refl => exact ⟨rfl, rfl⟩
  | trans _ _ first second => exact ⟨first.1.trans second.1, first.2.trans second.2⟩
  | inter_comm l r | union_comm l r => exact ⟨Bool.and_comm _ _, Nat.max_comm _ _⟩
  | root _ ih | compl _ ih => exact ih
  | sort _ _ ih => exact ⟨ih.1, congrArg (max 1) ih.2⟩
  | linkedInto link type _ ih => exact ⟨ih.1, congrArg (· + 1) ih.2⟩
  | inter _ _ ihl ihr | union _ _ ihl ihr | diff _ _ ihl ihr | concat _ _ ihl ihr =>
    simp only [reads, asks, ihl, ihr, and_self]

/-! ### Leaves -/

/-- Whether a leaf is looked up for a type, and asks for a bounded number of queries. -/
def isShallow (bound : Nat) (leaf : Query) : Bool :=
  leaf.reads && decide (leaf.asks ≤ bound)

theorem isShallow_iff {bound : Nat} {leaf : Query} :
    isShallow bound leaf = true ↔ leaf.reads = true ∧ leaf.asks ≤ bound := by
  simp only [isShallow, Bool.and_eq_true, decide_eq_true_eq]

theorem allLeaves_isShallow {bound : Nat} {q : Query} (reads : q.reads = true)
    (shallow : q.asks ≤ bound) : (Interpretation.allLeaves (isShallow bound) true).of q = true := by
  induction q with
  | root c ih | compl c ih => exact ih reads shallow
  | sort order c ih => exact ih reads (Nat.le_trans (Nat.le_max_right _ _) shallow)
  | inter l r ihl ihr | union l r ihl ihr | diff l r ihl ihr | concat l r ihl ihr =>
    obtain ⟨left, right⟩ := (Bool.and_eq_true _ _).mp reads
    obtain ⟨shallowLeft, shallowRight⟩ := Nat.max_le.mp shallow
    exact (Bool.and_eq_true _ _).mpr ⟨ihl left shallowLeft, ihr right shallowRight⟩
  | _ => exact isShallow_iff.mpr ⟨reads, shallow⟩

theorem shallow_of_leaf {bound : Nat} {leaf : Query} (isLeaf : leaf.arity = 0)
    (shallow : (Interpretation.allLeaves (isShallow bound) true).of leaf = true) :
    leaf.reads = true ∧ leaf.asks ≤ bound :=
  isShallow_iff.mp ((Interpretation.of_of_arity isLeaf).symm.trans shallow)

theorem reads_of_allLeaves {bound : Nat} {q : Query}
    (leaves : (Interpretation.allLeaves (isShallow bound) true).of q = true) :
    q.reads = true ∧ ∀ d ∈ q.targets, d.reads = true ∧ d.asks < bound := by
  induction q with
  | root c ih | compl c ih | sort order c ih => exact ih leaves
  | inter l r ihl ihr | union l r ihl ihr | diff l r ihl ihr | concat l r ihl ihr =>
    obtain ⟨left, right⟩ := (Bool.and_eq_true _ _).mp leaves
    refine ⟨(Bool.and_eq_true _ _).mpr ⟨(ihl left).1, (ihr right).1⟩, fun d mem => ?_⟩
    exact (List.mem_append.mp mem).elim ((ihl left).2 d) ((ihr right).2 d)
  | linkedInto link targets type =>
    obtain ⟨reads, shallow⟩ := shallow_of_leaf rfl leaves
    refine ⟨reads, fun d mem => ?_⟩
    rw [List.mem_singleton.mp mem]
    exact ⟨reads, shallow⟩
  | _ =>
    obtain ⟨reads, -⟩ := shallow_of_leaf rfl leaves
    exact ⟨reads, nofun⟩

theorem leafInvariant_isShallow (bound : Nat) : LeafInvariant (isShallow bound) where
  same a b _ same := by
    obtain ⟨reads, asks⟩ := nesting_of_same same
    simp only [isShallow, reads, asks]
  all := rfl
  absentProperty _ _ := rfl
  absentLink _ _ := rfl
  commonRange left right accepted shallow _ := by
    unfold Transformation.accepts at accepted
    split at accepted
    case h_1 both =>
      obtain ⟨rfl, rfl⟩ := Query.inter.inj both
      simp only [Bool.and_eq_true, beq_iff_eq] at accepted
      simp only [Transformation.convert, accepted.1.1, beq_self_eq_true, if_true]
      rfl
    all_goals simp_all

/-- The query below the sort steps at the top decorates the same queries. -/
theorem targets_splitSorts (q : Query) :
    q.splitSorts.2.reads = q.reads ∧ q.splitSorts.2.targets = q.targets := by
  induction q with
  | sort order c ih => exact ih
  | _ => exact ⟨rfl, rfl⟩

end Query

/-- What optimization makes of a query reads and asks for less, and it sorts only if the query
may ask for the whole extent. -/
theorem Rewrite.nesting_optimize {maxRewrites : Nat} {q : Query} {u : Optimized}
    {log log' : List Notice} (found : optimize maxRewrites q log = .ok u log')
    (reads : q.reads = true) :
    u.steps.1.reads = true ∧ (∀ d ∈ u.steps.1.targets, d.reads = true ∧ d.asks < q.asks) ∧
      (u.steps.2 ≠ [] → 0 < q.asks) := by
  obtain ⟨reads', targets⟩ := Query.reads_of_allLeaves
    (optimize_allLeaves (Query.leafInvariant_isShallow q.asks) found
      (Query.allLeaves_isShallow reads (Nat.le_refl _)))
  obtain ⟨below, within⟩ := u.query.targets_splitSorts
  refine ⟨below.trans reads', within ▸ targets, fun sorts => Nat.pos_of_ne_zero fun none => ?_⟩
  obtain ⟨unsorted, hoisted⟩ := unsorted_optimize found (Query.unsorted_of_asks none)
  refine sorts ?_
  simp only [Optimized.steps, Query.splitSorts_of_unsorted unsorted, hoisted]
  rfl

end ExtentQuery

import ExtentQuery.Proofs.Rewriting.Orientations
import Mathlib.Data.List.Forall2
import Mathlib.Data.List.Perm.Basic

/-!
# Matching up to exchanged operands

Matching never tries the operands of a commuting node in another order.  It does not have to:
among the orientations of a rule one matches a query exactly when the source of the rule
matches the query with some of its own commuting operands exchanged.

* `Query.Meets` — which node of a query each node of a pattern stands against, with the slots
  in the order in which they are met;
* `Query.matches_iff` — a pattern matches where it meets the query and where the occurrences of
  each slot are the same;
* `Query.Meets.exchange_query`, `Query.Meets.exchange_pattern` — an exchange in the pattern is
  answered by one in the query, and the other way round;
* `Rewrite.Pass.extend_matches_exchanged` — the rules that a pass is extended with match what
  the source matches up to exchanged operands.

**Order of binding.**  Which occurrence of a slot is bound first depends on the order of the
operands.  Hence what is met is compared as a list up to a permutation, and the condition on
the occurrences is one on pairs, which does not tell which of the two came first.
-/

namespace ExtentQuery

/-! ### Binding one occurrence after the other -/

namespace Bindings

/-- Binds the occurrences of slots in their order. -/
def bindAll : Bindings → List (Nat × Query) → Option Bindings
  | bindings, [] => some bindings
  | bindings, (slot, q) :: met => (bindings.bind slot q).bind (bindAll · met)

theorem bindAll_append (bindings : Bindings) (met met' : List (Nat × Query)) :
    bindings.bindAll (met ++ met') = (bindings.bindAll met).bind (·.bindAll met') := by
  induction met generalizing bindings with
  | nil => rfl
  | cons occurrence met ih =>
    simp only [List.cons_append, bindAll, Option.bind_assoc, ih]

/-- Two occurrences that can be bound together: those of one slot have to be the same. -/
def Concur (a b : Nat × Query) : Prop :=
  a.1 = b.1 → a.2.same b.2 = true

theorem Concur.symm {a b : Nat × Query} (concur : Concur a b) : Concur b a :=
  fun slot => Query.same_symm (concur slot.symm)

theorem find?_snoc (bindings : Bindings) (number : Nat) (q : Query) (slot : Nat) :
    Bindings.find? (bindings ++ [(number, q)]) slot =
      (bindings.find? slot).or (if slot = number then some q else none) := by
  simp only [find?, List.lookup_append, List.lookup_cons, List.lookup_nil]
  by_cases same : slot = number
  · simp [same]
  · simp [same, beq_false_of_ne same]

/-- Occurrences can be bound one after the other if each one is the same as what its slot
stands for already, and as every other occurrence of its slot. -/
theorem exists_bindAll_iff (met : List (Nat × Query)) : ∀ bindings : Bindings,
    (∃ extended, bindings.bindAll met = some extended) ↔
      (∀ occurrence ∈ met, ∀ bound, bindings.find? occurrence.1 = some bound →
        bound.same occurrence.2 = true) ∧ met.Pairwise Concur := by
  induction met with
  | nil => intro bindings; simp [bindAll]
  | cons first met ih =>
    intro bindings
    obtain ⟨slot, q⟩ := first
    simp only [List.forall_mem_cons, List.pairwise_cons, bindAll]
    cases found : bindings.find? slot with
    | none =>
      -- the first occurrence of its slot is what the later ones are compared with
      have bound : bindings.bind slot q = some (bindings ++ [(slot, q)]) := by
        simp only [bind, found]
      rw [bound, Option.bind_some, ih]
      simp only [reduceCtorEq, false_implies, implies_true, true_and, ← and_assoc, find?_snoc]
      refine and_congr_left' ⟨fun later => ⟨?_, ?_⟩, ?_⟩
      · intro occurrence mem bound before
        exact later occurrence mem bound (by rw [before, Option.some_or])
      · intro occurrence mem sameSlot
        exact later occurrence mem q (by simp [← sameSlot, found])
      · rintro ⟨before, after⟩ occurrence mem bound later
        cases standing : bindings.find? occurrence.1 with
        | some other =>
          rw [standing, Option.some_or] at later
          exact before occurrence mem bound (standing.trans later)
        | none =>
          rw [standing, Option.none_or, Option.ite_none_right_eq_some] at later
          obtain ⟨sameSlot, rfl⟩ := later.imp id Option.some.inj
          exact after occurrence mem sameSlot.symm
    | some bound =>
      simp only [Option.some.injEq, forall_eq']
      by_cases same : bound.same q = true
      · have bindIt : bindings.bind slot q = some bindings := by
          simp only [bind, found, same, if_true]
        rw [bindIt, Option.bind_some, ih]
        simp only [same, true_and, ← and_assoc]
        refine and_congr_left' ⟨fun before => ⟨before, ?_⟩, And.left⟩
        intro occurrence mem sameSlot
        have standing := before occurrence mem bound (sameSlot ▸ found)
        exact Query.same_trans (Query.same_symm same) standing
      · have refused : bindings.bind slot q = none := by
          simp only [bind, found, same, Bool.false_eq_true, if_false]
        simp only [refused, same, Option.bind_none, reduceCtorEq, exists_false, false_and,
          Bool.false_eq_true]

theorem exists_mem_of_forall₂ {α : Type} {R : α → α → Prop} {xs ys : List α}
    (related : List.Forall₂ R xs ys) {x : α} (mem : x ∈ xs) : ∃ y ∈ ys, R x y := by
  obtain ⟨i, inside, rfl⟩ := List.getElem_of_mem mem
  have inside' : i < ys.length := related.length_eq ▸ inside
  exact ⟨ys[i], List.getElem_mem inside', related.get inside inside'⟩

/-- Occurrences in another order, and of queries with other operands exchanged. -/
def Rearranged (met met' : List (Nat × Query)) : Prop :=
  ∃ mid, met.Perm mid ∧ List.Forall₂ (fun a b => a.1 = b.1 ∧ a.2.Commuted b.2) mid met'

namespace Rearranged

variable {met met' other other' : List (Nat × Query)}

theorem append (first : Rearranged met met') (second : Rearranged other other') :
    Rearranged (met ++ other) (met' ++ other') := by
  obtain ⟨mid, perm, commuted⟩ := first
  obtain ⟨mid', perm', commuted'⟩ := second
  exact ⟨mid ++ mid', perm.append perm', List.rel_append commuted commuted'⟩

theorem append_swap (first : Rearranged met met') (second : Rearranged other other') :
    Rearranged (other ++ met) (met' ++ other') := by
  obtain ⟨mid, perm, commuted⟩ := first.append second
  exact ⟨mid, List.perm_append_comm.trans perm, commuted⟩

/-- Occurrences can be bound together, however they are rearranged. -/
theorem pairwise (rearranged : Rearranged met met') (concur : met'.Pairwise Concur) :
    met.Pairwise Concur := by
  obtain ⟨mid, perm, commuted⟩ := rearranged
  refine (perm.pairwise_iff Concur.symm).mpr ?_
  clear perm
  induction commuted with
  | nil => exact .nil
  | @cons a b mid met' ab rest ih =>
    obtain ⟨concurs, later⟩ := List.pairwise_cons.mp concur
    refine List.pairwise_cons.mpr ⟨fun c mem slot => ?_, ih later⟩
    obtain ⟨d, mem', cd⟩ := exists_mem_of_forall₂ rest mem
    have same : b.2.same d.2 = true := concurs d mem' (by rw [← ab.1, slot, cd.1])
    rw [Query.same_of_commuted ab.2]
    exact Query.same_symm ((Query.same_of_commuted cd.2 _).trans (Query.same_symm same))

end Rearranged

end Bindings

namespace Query

/-! ### Meeting a pattern -/

/-- A query that meets a pattern node by node.  The last argument lists the slots in the
order in which they are met, each with the query that stands there. -/
inductive Meets : (pattern q : Query) → (met : List (Nat × Query)) → Prop where
  | slot (number : Nat) (q : Query) : Meets (.slot number) q [(number, q)]
  | leaf {leaf q : Query} : leaf.arity = 0 → leaf.isPlaceholder = false →
      q.same leaf = true → Meets leaf q []
  | root {c x : Query} {met} : Meets c x met → Meets (.root c) (.root x) met
  | compl {c x : Query} {met} : Meets c x met → Meets (.compl c) (.compl x) met
  | sort {c x : Query} {met} {order order' : SortStep} : order'.same order = true →
      Meets c x met → Meets (.sort order c) (.sort order' x) met
  | diff {l r x y : Query} {met met'} : Meets l x met → Meets r y met' →
      Meets (.diff l r) (.diff x y) (met ++ met')
  | concat {l r x y : Query} {met met'} : Meets l x met → Meets r y met' →
      Meets (.concat l r) (.concat x y) (met ++ met')
  | inter {l r x y : Query} {met met'} : Meets l x met → Meets r y met' →
      Meets (.inter l r) (.inter x y) (met ++ met')
  | union {l r x y : Query} {met met'} : Meets l x met → Meets r y met' →
      Meets (.union l r) (.union x y) (met ++ met')

/-- A pattern matches what it meets, with the slots bound in the order of the occurrences. -/
theorem Meets.matchAgainst {pattern q : Query} {met : List (Nat × Query)}
    (meets : pattern.Meets q met) : ∀ {bindings extended : Bindings},
      bindings.bindAll met = some extended →
        pattern.matchAgainst q bindings = .ok (some extended) := by
  induction meets with
  | slot number q =>
    intro bindings extended bound
    obtain ⟨_, bindIt, last⟩ := Option.bind_eq_some_iff.mp bound
    cases last
    exact congrArg Except.ok bindIt
  | @leaf leaf q isLeaf named same =>
    intro bindings extended bound
    cases bound
    cases leaf with
    | slot | converter => cases named
    | root | inter | union | diff | concat | compl | sort => cases isLeaf
    | _ => simp only [Query.matchAgainst, same, if_true]
  | root _ ih | compl _ ih =>
    intro bindings extended bound
    exact ih bound
  | sort same _ ih =>
    intro bindings extended bound
    simp only [Query.matchAgainst, same, if_true, ih bound]
  | diff _ _ ihl ihr | concat _ _ ihl ihr | inter _ _ ihl ihr | union _ _ ihl ihr =>
    intro bindings extended bound
    rw [Bindings.bindAll_append] at bound
    obtain ⟨between, first, second⟩ := Option.bind_eq_some_iff.mp bound
    simp only [Query.matchAgainst, Matcher.ofKind, Matcher.both, Matcher.only, childOrFault,
      child?, Query.kind, if_true, ihl first, ihr second]

/-- A pattern of a node with two operands meets what its operands meet. -/
theorem exists_meets_append {node : Query → Query → Query} {l r x y : Query}
    {bindings between extended : Bindings}
    (meets : ∀ {met met'}, l.Meets x met → r.Meets y met' →
      (node l r).Meets (node x y) (met ++ met'))
    (left : ∃ met, l.Meets x met ∧ bindings.bindAll met = some between)
    (right : ∃ met, r.Meets y met ∧ between.bindAll met = some extended) :
    ∃ met, (node l r).Meets (node x y) met ∧ bindings.bindAll met = some extended := by
  obtain ⟨met, meetsLeft, first⟩ := left
  obtain ⟨met', meetsRight, second⟩ := right
  refine ⟨met ++ met', meets meetsLeft meetsRight, ?_⟩
  rw [Bindings.bindAll_append, first, Option.bind_some, second]

/-- A pattern whose placeholders are slots meets what it matches. -/
theorem exists_meets : ∀ {pattern q : Query} {bindings extended : Bindings},
    pattern.converterFree = true → pattern.matchAgainst q bindings = .ok (some extended) →
      ∃ met, pattern.Meets q met ∧ bindings.bindAll met = some extended := by
  intro pattern
  induction pattern with
  | slot number =>
    intro q bindings extended _ matched
    refine ⟨_, .slot number q, ?_⟩
    simp only [Bindings.bindAll, matchAgainst_slot matched, Option.bind_some]
  | converter => intro _ _ _ plain; cases plain
  | root c ih =>
    intro q bindings extended plain matched
    obtain ⟨x, rfl, operand⟩ := matchAgainst_root matched
    obtain ⟨met, meets, bound⟩ := ih plain operand
    exact ⟨met, .root meets, bound⟩
  | compl c ih =>
    intro q bindings extended plain matched
    obtain ⟨x, rfl, operand⟩ := matchAgainst_compl matched
    obtain ⟨met, meets, bound⟩ := ih plain operand
    exact ⟨met, .compl meets, bound⟩
  | sort order c ih =>
    intro q bindings extended plain matched
    cases q with
    | sort order' x =>
      simp only [Query.matchAgainst] at matched
      split at matched
      case isTrue same =>
        obtain ⟨met, meets, bound⟩ := ih plain matched
        exact ⟨met, .sort same meets, bound⟩
      case isFalse => cases matched
    | _ => cases matched
  | diff l r ihl ihr =>
    intro q bindings extended plain matched
    obtain ⟨plainLeft, plainRight⟩ := (Bool.and_eq_true _ _).mp plain
    obtain ⟨x, y, between, rfl, left, right⟩ := matchAgainst_diff matched
    exact exists_meets_append .diff (ihl plainLeft left) (ihr plainRight right)
  | concat l r ihl ihr =>
    intro q bindings extended plain matched
    obtain ⟨plainLeft, plainRight⟩ := (Bool.and_eq_true _ _).mp plain
    obtain ⟨x, y, between, rfl, left, right⟩ := matchAgainst_concat matched
    exact exists_meets_append .concat (ihl plainLeft left) (ihr plainRight right)
  | inter l r ihl ihr =>
    intro q bindings extended plain matched
    obtain ⟨plainLeft, plainRight⟩ := (Bool.and_eq_true _ _).mp plain
    obtain ⟨x, y, between, rfl, left, right⟩ := matchAgainst_inter matched
    exact exists_meets_append .inter (ihl plainLeft left) (ihr plainRight right)
  | union l r ihl ihr =>
    intro q bindings extended plain matched
    obtain ⟨plainLeft, plainRight⟩ := (Bool.and_eq_true _ _).mp plain
    obtain ⟨x, y, between, rfl, left, right⟩ := matchAgainst_union matched
    exact exists_meets_append .union (ihl plainLeft left) (ihr plainRight right)
  | _ =>
    intro q bindings extended _ matched
    obtain ⟨same, rfl⟩ := matchAgainst_leaf rfl rfl matched
    exact ⟨[], .leaf rfl rfl same, rfl⟩

/-- A query that a pattern matches on its own, without bindings to start from. -/
def Matches (q pattern : Query) : Prop :=
  ∃ bindings, pattern.matchAgainst q [] = .ok (some bindings)

theorem matches_iff {pattern q : Query} (plain : pattern.converterFree = true) :
    q.Matches pattern ↔ ∃ met, pattern.Meets q met ∧ met.Pairwise Bindings.Concur := by
  have binds (met : List (Nat × Query)) :
      (∃ extended, Bindings.bindAll [] met = some extended) ↔ met.Pairwise Bindings.Concur := by
    rw [Bindings.exists_bindAll_iff]
    exact and_iff_right fun _ _ _ bound => by cases bound
  constructor
  · intro ⟨extended, matched⟩
    obtain ⟨met, meets, bound⟩ := exists_meets plain matched
    exact ⟨met, meets, (binds met).mp ⟨extended, bound⟩⟩
  · intro ⟨met, meets, concur⟩
    obtain ⟨extended, bound⟩ := (binds met).mpr concur
    exact ⟨extended, meets.matchAgainst bound⟩

/-! ### An exchange in the pattern -/

/-- What an exchange of the operands of the pattern meets, the pattern meets after the same
exchange in the query. -/
theorem Meets.exchange_query {pattern pattern' : Query} (exchanged : pattern.Exchanged pattern') :
    ∀ {q : Query} {met' : List (Nat × Query)}, pattern'.Meets q met' →
      ∃ q' met, q.Exchanged q' ∧ pattern.Meets q' met ∧ met.Perm met' := by
  induction exchanged with
  | leaf => exact fun meets => ⟨_, _, .refl _, meets, .refl _⟩
  | root _ ih =>
    rintro _ _ (_ | isLeaf | meets)
    · cases isLeaf
    · obtain ⟨q', met, swap, found, perm⟩ := ih meets
      exact ⟨_, met, .root swap, .root found, perm⟩
  | compl _ ih =>
    rintro _ _ (_ | isLeaf | _ | meets)
    · cases isLeaf
    · obtain ⟨q', met, swap, found, perm⟩ := ih meets
      exact ⟨_, met, .compl swap, .compl found, perm⟩
  | sort order _ ih =>
    intro q met' meets
    cases meets with
    | leaf isLeaf => cases isLeaf
    | sort same meets =>
      obtain ⟨q', met, swap, found, perm⟩ := ih meets
      exact ⟨_, met, .sort _ swap, .sort same found, perm⟩
  | diff _ _ ihl ihr =>
    intro q met' meets
    cases meets with
    | leaf isLeaf => cases isLeaf
    | diff left right =>
      obtain ⟨x, met, swap, found, perm⟩ := ihl left
      obtain ⟨y, met', swap', found', perm'⟩ := ihr right
      exact ⟨_, _, .diff swap swap', .diff found found', perm.append perm'⟩
  | concat _ _ ihl ihr =>
    intro q met' meets
    cases meets with
    | leaf isLeaf => cases isLeaf
    | concat left right =>
      obtain ⟨x, met, swap, found, perm⟩ := ihl left
      obtain ⟨y, met', swap', found', perm'⟩ := ihr right
      exact ⟨_, _, .concat swap swap', .concat found found', perm.append perm'⟩
  | inter _ _ ihl ihr =>
    intro q met' meets
    cases meets with
    | leaf isLeaf => cases isLeaf
    | inter left right =>
      obtain ⟨x, met, swap, found, perm⟩ := ihl left
      obtain ⟨y, met', swap', found', perm'⟩ := ihr right
      exact ⟨_, _, .inter swap swap', .inter found found', perm.append perm'⟩
  | interCrossed _ _ ihl ihr =>
    intro q met' meets
    cases meets with
    | leaf isLeaf => cases isLeaf
    | inter left right =>
      obtain ⟨x, met, swap, found, perm⟩ := ihr left
      obtain ⟨y, met', swap', found', perm'⟩ := ihl right
      exact ⟨_, _, .interCrossed swap swap', .inter found' found,
        List.perm_append_comm.trans (perm.append perm')⟩
  | union _ _ ihl ihr =>
    intro q met' meets
    cases meets with
    | leaf isLeaf => cases isLeaf
    | union left right =>
      obtain ⟨x, met, swap, found, perm⟩ := ihl left
      obtain ⟨y, met', swap', found', perm'⟩ := ihr right
      exact ⟨_, _, .union swap swap', .union found found', perm.append perm'⟩
  | unionCrossed _ _ ihl ihr =>
    intro q met' meets
    cases meets with
    | leaf isLeaf => cases isLeaf
    | union left right =>
      obtain ⟨x, met, swap, found, perm⟩ := ihr left
      obtain ⟨y, met', swap', found', perm'⟩ := ihl right
      exact ⟨_, _, .unionCrossed swap swap', .union found' found,
        List.perm_append_comm.trans (perm.append perm')⟩

/-! ### An exchange in the query -/

/-- Which operands of two nodes have been commuted, if one node has been commuted into the
other. -/
inductive CommutedOperands : Query → Query → Prop where
  | leaf {a b : Query} : a.arity = 0 → b.arity = 0 → CommutedOperands a b
  | root {c c' : Query} : c.Commuted c' → CommutedOperands (.root c) (.root c')
  | compl {c c' : Query} : c.Commuted c' → CommutedOperands (.compl c) (.compl c')
  | sort {c c' : Query} {order order' : SortStep} : order.Alike order' → c.Commuted c' →
      CommutedOperands (.sort order c) (.sort order' c')
  | diff {l l' r r' : Query} : l.Commuted l' → r.Commuted r' →
      CommutedOperands (.diff l r) (.diff l' r')
  | concat {l l' r r' : Query} : l.Commuted l' → r.Commuted r' →
      CommutedOperands (.concat l r) (.concat l' r')
  | inter {l l' r r' : Query} : l.Commuted l' → r.Commuted r' →
      CommutedOperands (.inter l r) (.inter l' r')
  | interCrossed {l l' r r' : Query} : l.Commuted l' → r.Commuted r' →
      CommutedOperands (.inter l r) (.inter r' l')
  | union {l l' r r' : Query} : l.Commuted l' → r.Commuted r' →
      CommutedOperands (.union l r) (.union l' r')
  | unionCrossed {l l' r r' : Query} : l.Commuted l' → r.Commuted r' →
      CommutedOperands (.union l r) (.union r' l')

theorem CommutedOperands.refl (q : Query) : q.CommutedOperands q := by
  cases q with
  | root c => exact .root (.refl c)
  | compl c => exact .compl (.refl c)
  | sort order c => exact .sort (.refl order) (.refl c)
  | inter l r => exact .inter (.refl l) (.refl r)
  | union l r => exact .union (.refl l) (.refl r)
  | diff l r => exact .diff (.refl l) (.refl r)
  | concat l r => exact .concat (.refl l) (.refl r)
  | _ => exact .leaf rfl rfl

theorem CommutedOperands.trans {a b c : Query} (first : a.CommutedOperands b)
    (second : b.CommutedOperands c) : a.CommutedOperands c := by
  cases first with
  | leaf isLeaf isLeaf' =>
    cases second with
    | leaf _ isLeaf'' => exact .leaf isLeaf isLeaf''
    | _ => cases isLeaf'
  | root x =>
    cases second with
    | leaf isLeaf => cases isLeaf
    | root x' => exact .root (x.trans x')
  | compl x =>
    cases second with
    | leaf isLeaf => cases isLeaf
    | compl x' => exact .compl (x.trans x')
  | sort alike x =>
    cases second with
    | leaf isLeaf => cases isLeaf
    | sort alike' x' => exact .sort (alike.trans alike') (x.trans x')
  | diff x y =>
    cases second with
    | leaf isLeaf => cases isLeaf
    | diff x' y' => exact .diff (x.trans x') (y.trans y')
  | concat x y =>
    cases second with
    | leaf isLeaf => cases isLeaf
    | concat x' y' => exact .concat (x.trans x') (y.trans y')
  | inter x y =>
    cases second with
    | leaf isLeaf => cases isLeaf
    | inter x' y' => exact .inter (x.trans x') (y.trans y')
    | interCrossed x' y' => exact .interCrossed (x.trans x') (y.trans y')
  | interCrossed x y =>
    cases second with
    | leaf isLeaf => cases isLeaf
    | inter y' x' => exact .interCrossed (x.trans x') (y.trans y')
    | interCrossed y' x' => exact .inter (x.trans x') (y.trans y')
  | union x y =>
    cases second with
    | leaf isLeaf => cases isLeaf
    | union x' y' => exact .union (x.trans x') (y.trans y')
    | unionCrossed x' y' => exact .unionCrossed (x.trans x') (y.trans y')
  | unionCrossed x y =>
    cases second with
    | leaf isLeaf => cases isLeaf
    | union y' x' => exact .unionCrossed (x.trans x') (y.trans y')
    | unionCrossed y' x' => exact .union (x.trans x') (y.trans y')

theorem Commuted.operands {a b : Query} (commuted : a.Commuted b) : a.CommutedOperands b := by
  induction commuted with
  | refl => exact .refl _
  | trans _ _ first second => exact first.trans second
  | inter_comm => exact .interCrossed (.refl _) (.refl _)
  | union_comm => exact .unionCrossed (.refl _) (.refl _)
  | root c _ => exact .root c
  | compl c _ => exact .compl c
  | sort alike c _ => exact .sort alike c
  | inter l r _ _ => exact .inter l r
  | union l r _ _ => exact .union l r
  | diff l r _ _ => exact .diff l r
  | concat l r _ _ => exact .concat l r
  | linkedInto => exact .leaf rfl rfl

/-- What the pattern meets after an exchange in the query, an exchange of the operands of the
pattern meets without it. -/
theorem Meets.exchange_pattern {pattern q' : Query} {met' : List (Nat × Query)}
    (meets : pattern.Meets q' met') : ∀ {q : Query}, q.Commuted q' →
      ∃ pattern' met, pattern.Exchanged pattern' ∧ pattern'.Meets q met ∧
        Bindings.Rearranged met met' := by
  induction meets with
  | slot number q' =>
    intro q commuted
    exact ⟨_, _, .refl _, .slot number q, _, .refl _, .cons ⟨rfl, commuted⟩ .nil⟩
  | leaf isLeaf named same =>
    intro q commuted
    rw [← same_of_commuted commuted] at same
    exact ⟨_, _, .refl _, .leaf isLeaf named same, _, .refl _, .nil⟩
  | root _ ih =>
    intro q commuted
    cases commuted.operands with
    | leaf _ isLeaf => cases isLeaf
    | root below =>
      obtain ⟨_, met, swap, found, rearranged⟩ := ih below
      exact ⟨_, met, .root swap, .root found, rearranged⟩
  | compl _ ih =>
    intro q commuted
    cases commuted.operands with
    | leaf _ isLeaf => cases isLeaf
    | compl below =>
      obtain ⟨_, met, swap, found, rearranged⟩ := ih below
      exact ⟨_, met, .compl swap, .compl found, rearranged⟩
  | @sort c x _ order _ same _ ih =>
    intro q commuted
    cases commuted.operands with
    | leaf _ isLeaf => cases isLeaf
    | sort alike below =>
      obtain ⟨_, met, swap, found, rearranged⟩ := ih below
      rw [← SortStep.same_of_alike alike] at same
      exact ⟨_, met, .sort order swap, .sort same found, rearranged⟩
  | diff _ _ ihl ihr =>
    intro q commuted
    cases commuted.operands with
    | leaf _ isLeaf => cases isLeaf
    | diff left right =>
      obtain ⟨_, _, swap, found, rearranged⟩ := ihl left
      obtain ⟨_, _, swap', found', rearranged'⟩ := ihr right
      exact ⟨_, _, .diff swap swap', .diff found found', rearranged.append rearranged'⟩
  | concat _ _ ihl ihr =>
    intro q commuted
    cases commuted.operands with
    | leaf _ isLeaf => cases isLeaf
    | concat left right =>
      obtain ⟨_, _, swap, found, rearranged⟩ := ihl left
      obtain ⟨_, _, swap', found', rearranged'⟩ := ihr right
      exact ⟨_, _, .concat swap swap', .concat found found', rearranged.append rearranged'⟩
  | inter _ _ ihl ihr =>
    intro q commuted
    cases commuted.operands with
    | leaf _ isLeaf => cases isLeaf
    | inter left right =>
      obtain ⟨_, _, swap, found, rearranged⟩ := ihl left
      obtain ⟨_, _, swap', found', rearranged'⟩ := ihr right
      exact ⟨_, _, .inter swap swap', .inter found found', rearranged.append rearranged'⟩
    | interCrossed right left =>
      obtain ⟨_, _, swap, found, rearranged⟩ := ihl left
      obtain ⟨_, _, swap', found', rearranged'⟩ := ihr right
      exact ⟨_, _, .interCrossed swap swap', .inter found' found,
        rearranged.append_swap rearranged'⟩
  | union _ _ ihl ihr =>
    intro q commuted
    cases commuted.operands with
    | leaf _ isLeaf => cases isLeaf
    | union left right =>
      obtain ⟨_, _, swap, found, rearranged⟩ := ihl left
      obtain ⟨_, _, swap', found', rearranged'⟩ := ihr right
      exact ⟨_, _, .union swap swap', .union found found', rearranged.append rearranged'⟩
    | unionCrossed right left =>
      obtain ⟨_, _, swap, found, rearranged⟩ := ihl left
      obtain ⟨_, _, swap', found', rearranged'⟩ := ihr right
      exact ⟨_, _, .unionCrossed swap swap', .union found' found,
        rearranged.append_swap rearranged'⟩

theorem Exchanged.converterFree_eq {q q' : Query} (exchanged : q.Exchanged q') :
    q.converterFree = q'.converterFree :=
  (Interpretation.commutes_allLeaves _ _).of_commuted (fun _ _ _ _ => rfl) exchanged.commuted

variable {pattern pattern' q q' : Query}

/-- What an exchange of the pattern matches, the pattern matches after an exchange in the
query. -/
theorem exists_exchanged_query (plain : pattern.converterFree = true)
    (exchanged : pattern.Exchanged pattern') (matched : q.Matches pattern') :
    ∃ q', q.Exchanged q' ∧ q'.Matches pattern := by
  obtain ⟨met', meets', concur⟩ := (matches_iff (exchanged.converterFree_eq ▸ plain)).mp matched
  obtain ⟨q', met, swap, meets, perm⟩ := Meets.exchange_query exchanged meets'
  have concur' := (perm.pairwise_iff Bindings.Concur.symm).mpr concur
  exact ⟨q', swap, (matches_iff plain).mpr ⟨met, meets, concur'⟩⟩

/-- What the pattern matches after operands have been commuted, also within decorated
queries, an exchange of the pattern matches as it stands. -/
theorem exists_exchanged_pattern (plain : pattern.converterFree = true)
    (commuted : q.Commuted q') (matched : q'.Matches pattern) :
    ∃ pattern', pattern.Exchanged pattern' ∧ q.Matches pattern' := by
  obtain ⟨met', meets', concur⟩ := (matches_iff plain).mp matched
  obtain ⟨pattern', met, swap, meets, rearranged⟩ := meets'.exchange_pattern commuted
  exact ⟨pattern', swap, (matches_iff (swap.converterFree_eq ▸ plain)).mpr
    ⟨met, meets, rearranged.pairwise concur⟩⟩

end Query

namespace Rewrite

/-! ### The rules that a pass is extended with -/

/-- One of the orientations of a rule matches a query if the rule matches it with operands
exchanged, and also if it matches it with operands commuted within decorated queries. -/
theorem Rule.orientation_matches_iff (rule : Rule) (plain : rule.source.converterFree = true)
    (t : Query) :
    ((∃ oriented ∈ rule.orientations, t.Matches oriented.source) ↔
        ∃ t', t.Exchanged t' ∧ t'.Matches rule.source) ∧
      ((∃ oriented ∈ rule.orientations, t.Matches oriented.source) ↔
        ∃ t', t.Commuted t' ∧ t'.Matches rule.source) := by
  have sound : (∃ oriented ∈ rule.orientations, t.Matches oriented.source) →
      ∃ t', t.Exchanged t' ∧ t'.Matches rule.source := by
    intro ⟨oriented, mem, matched⟩
    exact Query.exists_exchanged_query plain (mem_orientations_iff.mp mem).1 matched
  have complete : (∃ t', t.Commuted t' ∧ t'.Matches rule.source) →
      ∃ oriented ∈ rule.orientations, t.Matches oriented.source := by
    intro ⟨t', commuted, matched⟩
    obtain ⟨source, exchanged, found⟩ := Query.exists_exchanged_pattern plain commuted matched
    exact ⟨{ rule with source }, mem_orientations_iff.mpr ⟨exchanged, rfl⟩, found⟩
  have weaken : (∃ t', t.Exchanged t' ∧ t'.Matches rule.source) →
      ∃ t', t.Commuted t' ∧ t'.Matches rule.source :=
    fun ⟨t', exchanged, matched⟩ => ⟨t', exchanged.commuted, matched⟩
  exact ⟨⟨sound, complete ∘ weaken⟩, ⟨weaken ∘ sound, complete⟩⟩

/-- A closed rule replaces the queries without placeholders that its source matches, and
leaves the others. -/
theorem Rule.Closed.rewrites_iff_matches {rule : Rule} (closed : rule.Closed) {t : Query}
    (ground : t.ground = true) :
    ∃ answer, rule.rewrite? t = .ok answer ∧ (answer.isSome ↔ t.Matches rule.source) := by
  obtain ⟨answer, found, -⟩ := closed.rewrite?_total ground
  refine ⟨answer, found, ?_⟩
  cases answer with
  | none =>
    have unmatched := Rule.matchAgainst_eq_none found
    simp [Query.Matches, unmatched]
  | some q' =>
    obtain ⟨bindings, matched, -⟩ := Rule.rewrite?_eq_some found
    exact iff_of_true rfl ⟨bindings, matched⟩

/-- A source with fewer than 32 commuting nodes whose placeholders are slots, and a destination
that uses only those, extend every pass.  On a query without placeholders each of the rules that
are added applies exactly where its source matches.  Some of them matches the query if and only
if the given source matches what comes from exchanging the operands of any of its commuting
nodes, whether or not those within decorated queries count among them. -/
theorem Pass.extend_matches_exchanged (pass : Pass) {source destination t : Query}
    (few : source.commutativeCount < 32) (plain : source.converterFree = true)
    (closed : Rule.Closed ⟨source, destination⟩) (ground : t.ground = true) :
    ∃ added, pass.extend? source destination = .ok { pass with rules := pass.rules ++ added } ∧
      ((∃ rule ∈ added, t.Matches rule.source) ↔
        ∃ t', t.Exchanged t' ∧ t'.Matches source) ∧
      ((∃ rule ∈ added, t.Matches rule.source) ↔
        ∃ t', t.Commuted t' ∧ t'.Matches source) ∧
      ∀ rule ∈ added, ∃ answer, rule.rewrite? t = .ok answer ∧
        (answer.isSome ↔ t.Matches rule.source) := by
  refine ⟨Rule.orientations ⟨source, destination⟩, ?_, ?_⟩
  · exact if_pos (Nat.le_of_lt_succ few)
  · obtain ⟨exchanged, commuted⟩ := Rule.orientation_matches_iff
      ⟨source, destination⟩ plain t
    refine ⟨exchanged, commuted, fun rule mem => ?_⟩
    exact (closed.orientation mem).rewrites_iff_matches ground

/-- Factoring an intersection of unions whose common operand stands in different places, and
with its own operands in different orders.  The source does not match it, an orientation does. -/
theorem Pass.extend_matches_exchanged_factored :
    let source : Query := .inter (.union (.slot 0) (.slot 1)) (.union (.slot 0) (.slot 2))
    let destination : Query := .union (.slot 0) (.inter (.slot 1) (.slot 2))
    let t : Query := .inter
      (.union .all (.union (.hasProperty "age") (.hasLink "owner")))
      (.union (.union (.hasLink "owner") (.hasProperty "age")) (.hasProperty "name"))
    source.commutativeCount < 32 ∧ source.converterFree = true
      ∧ Rule.Closed ⟨source, destination⟩ ∧ t.ground = true ∧ ¬ t.Matches source
      ∧ ∃ added, (Pass.empty "factor" true false).extend? source destination
          = .ok { Pass.empty "factor" true false with rules := [] ++ added }
        ∧ ∃ rule ∈ added, t.Matches rule.source := by
  intro source destination t
  have closed : Rule.Closed ⟨source, destination⟩ := by
    intro number
    simp only [source, destination, Query.mentions, Interpretation.of, Bool.or_eq_true,
      beq_iff_eq]
    omega
  refine ⟨by decide, rfl, closed, rfl, ?_, ?_⟩
  · rintro ⟨bindings, matched⟩
    have unmatched : source.matchAgainst t [] = .ok none := by decide
    cases matched.symm.trans unmatched
  · obtain ⟨added, extended, exchanged, -, -⟩ := Pass.extend_matches_exchanged
      (Pass.empty "factor" true false) (t := t) (by decide) rfl closed rfl
    have exchange : t.Exchanged (.inter
        (.union (.union (.hasProperty "age") (.hasLink "owner")) .all)
        (.union (.union (.hasLink "owner") (.hasProperty "age")) (.hasProperty "name"))) :=
      .inter (.unionCrossed (.refl _) (.refl _)) (.refl _)
    exact ⟨added, extended, exchanged.mpr ⟨_, exchange, _, rfl⟩⟩

end Rewrite

end ExtentQuery

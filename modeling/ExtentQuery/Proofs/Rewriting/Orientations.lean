import ExtentQuery.Proofs.Rewriting.Rules
import ExtentQuery.Proofs.Rewriting.Same
import Mathlib.Data.Nat.Basic

/-!
# The orientations of a rule

A rule is expanded into one rule for each choice of flipped nodes, and the choice is a number
whose bits are addressed in the order of a walk that has already exchanged the operands of
the nodes above.  This module says what the walk reaches: every pattern that comes from
exchanging operands of commuting nodes, and no other one.

* `Query.Exchanged` — a query with the operands of some of its commuting nodes exchanged;
* `Query.FlipsTo` — what a choice makes of a query when its bits are given from the first
  number of the query on, and `Query.Exchanged.flipsTo` — so every exchange has its bits;
* `Rewrite.Rule.mem_orientations_iff` — the orientations of a rule are its exchanges.

**Bits of a part.**  The bits of a query are a function on the positions below its number of
commuting nodes.  The bits of a node are those of the operand that is walked first, followed
by those of the other one, and a flip only says which operand is the first one.
-/

namespace ExtentQuery

namespace Query

/-- Queries that differ in the order of the operands of intersections and unions, and are
equal otherwise.  Decorated queries stand as they are. -/
inductive Exchanged : Query → Query → Prop where
  | leaf {q : Query} : q.arity = 0 → Exchanged q q
  | root {c c' : Query} : Exchanged c c' → Exchanged (.root c) (.root c')
  | compl {c c' : Query} : Exchanged c c' → Exchanged (.compl c) (.compl c')
  | sort {c c' : Query} (order : SortStep) :
      Exchanged c c' → Exchanged (.sort order c) (.sort order c')
  | diff {l l' r r' : Query} :
      Exchanged l l' → Exchanged r r' → Exchanged (.diff l r) (.diff l' r')
  | concat {l l' r r' : Query} :
      Exchanged l l' → Exchanged r r' → Exchanged (.concat l r) (.concat l' r')
  | inter {l l' r r' : Query} :
      Exchanged l l' → Exchanged r r' → Exchanged (.inter l r) (.inter l' r')
  | interCrossed {l l' r r' : Query} :
      Exchanged l l' → Exchanged r r' → Exchanged (.inter l r) (.inter r' l')
  | union {l l' r r' : Query} :
      Exchanged l l' → Exchanged r r' → Exchanged (.union l r) (.union l' r')
  | unionCrossed {l l' r r' : Query} :
      Exchanged l l' → Exchanged r r' → Exchanged (.union l r) (.union r' l')

/-- Leaving all operands in their places is one way to exchange them. -/
@[simp] theorem Exchanged.refl (q : Query) : q.Exchanged q := by
  induction q with
  | root c ih => exact .root ih
  | compl c ih => exact .compl ih
  | sort order c ih => exact .sort order ih
  | inter l r ihl ihr => exact .inter ihl ihr
  | union l r ihl ihr => exact .union ihl ihr
  | diff l r ihl ihr => exact .diff ihl ihr
  | concat l r ihl ihr => exact .concat ihl ihr
  | _ => exact .leaf rfl

theorem Exchanged.commuted {a b : Query} (exchanged : a.Exchanged b) : a.Commuted b := by
  induction exchanged with
  | leaf => exact .refl _
  | root _ ih => exact .root ih
  | compl _ ih => exact .compl ih
  | sort order _ ih => exact .sort (.refl order) ih
  | diff _ _ ihl ihr => exact .diff ihl ihr
  | concat _ _ ihl ihr => exact .concat ihl ihr
  | inter _ _ ihl ihr => exact .inter ihl ihr
  | union _ _ ihl ihr => exact .union ihl ihr
  | interCrossed _ _ ihl ihr => exact .trans (.inter ihl ihr) (.inter_comm _ _)
  | unionCrossed _ _ ihl ihr => exact .trans (.union ihl ihr) (.union_comm _ _)

/-! ### Every choice is an exchange -/

/-- A choice only exchanges operands of commuting nodes. -/
theorem exchanged_flip (choice : Nat) (q : Query) :
    ∀ next, q.Exchanged (q.flip choice next).1 := by
  induction q with
  | inter l r ihl ihr =>
    intro next
    unfold flip
    split
    case isTrue => exact .interCrossed (ihl _) (ihr _)
    case isFalse => exact .inter (ihl _) (ihr _)
  | union l r ihl ihr =>
    intro next
    unfold flip
    split
    case isTrue => exact .unionCrossed (ihl _) (ihr _)
    case isFalse => exact .union (ihl _) (ihr _)
  | diff l r ihl ihr => exact fun next => .diff (ihl _) (ihr _)
  | concat l r ihl ihr => exact fun next => .concat (ihl _) (ihr _)
  | root c ih => exact fun next => .root (ih next)
  | compl c ih => exact fun next => .compl (ih next)
  | sort order c ih => exact fun next => .sort order (ih next)
  | _ => exact fun _ => .leaf rfl

/-! ### Every exchange is a choice -/

/-- Whether a choice has the given bits at the `count` positions from `next` on. -/
def Chooses (choice next count : Nat) (bits : Nat → Bool) : Prop :=
  ∀ i < count, choice.testBit (next + i) = bits i

/-- What becomes of a query with the given bits, wherever its numbers begin. -/
def FlipsTo (q q' : Query) (bits : Nat → Bool) : Prop :=
  ∀ choice next, Chooses choice next q.commutativeCount bits →
    q.flip choice next = (q', next + q.commutativeCount)

/-- The bits of a part with `count` commuting nodes, and after them those of another one. -/
def thenBits (count : Nat) (first second : Nat → Bool) (i : Nat) : Bool :=
  if i < count then first i else second (i - count)

/-- A bit for the node itself, and after it those of its operands. -/
def consBit (flipped : Bool) (bits : Nat → Bool) : Nat → Bool
  | 0 => flipped
  | i + 1 => bits i

theorem Chooses.then {choice next count count' : Nat} {first second : Nat → Bool}
    (chosen : Chooses choice next (count + count') (thenBits count first second)) :
    Chooses choice next count first ∧ Chooses choice (next + count) count' second := by
  constructor
  · intro i inside
    rw [chosen i (by omega), thenBits, if_pos inside]
  · intro i inside
    rw [Nat.add_assoc, chosen (count + i) (by omega), thenBits, if_neg (by omega),
      Nat.add_sub_cancel_left]

theorem Chooses.cons {choice next count : Nat} {flipped : Bool} {bits : Nat → Bool}
    (chosen : Chooses choice next (count + 1) (consBit flipped bits)) :
    choice.testBit next = flipped ∧ Chooses choice (next + 1) count bits := by
  constructor
  · exact chosen 0 (by omega)
  · intro i inside
    rw [Nat.add_assoc, Nat.add_comm 1 i, chosen (i + 1) (by omega), consBit]

variable {l l' r r' : Query} {first second : Nat → Bool}

/-- Two operands, of which the first one is walked before the other one. -/
theorem FlipsTo.both (left : l.FlipsTo l' first) (right : r.FlipsTo r' second)
    {choice next : Nat} (chosen : Chooses choice next (l.commutativeCount + r.commutativeCount)
      (thenBits l.commutativeCount first second)) :
    l.flip choice next = (l', next + l.commutativeCount) ∧
      r.flip choice (next + l.commutativeCount) =
        (r', next + l.commutativeCount + r.commutativeCount) := by
  obtain ⟨before, after⟩ := chosen.then
  exact ⟨left _ _ before, right _ _ after⟩

/-- What a flip does to a node whose operands it may exchange. -/
structure Flippable (node : Query → Query → Query) : Prop where
  count : ∀ l r, (node l r).commutativeCount = l.commutativeCount + r.commutativeCount + 1
  straight : ∀ {choice next : Nat} (l r : Query), choice.testBit next = false →
    (node l r).flip choice next =
      (node (l.flip choice (next + 1)).1 (r.flip choice (l.flip choice (next + 1)).2).1,
        (r.flip choice (l.flip choice (next + 1)).2).2)
  crossed : ∀ {choice next : Nat} (l r : Query), choice.testBit next = true →
    (node l r).flip choice next =
      (node (r.flip choice (next + 1)).1 (l.flip choice (r.flip choice (next + 1)).2).1,
        (l.flip choice (r.flip choice (next + 1)).2).2)

theorem flippable_inter : Flippable .inter where
  count _ _ := rfl
  straight _ _ top := by simp only [flip, top, Bool.false_eq_true, if_false]
  crossed _ _ top := by simp only [flip, top, if_true]

theorem flippable_union : Flippable .union where
  count _ _ := rfl
  straight _ _ top := by simp only [flip, top, Bool.false_eq_true, if_false]
  crossed _ _ top := by simp only [flip, top, if_true]

variable {node : Query → Query → Query}

theorem FlipsTo.straight (flippable : Flippable node) (left : l.FlipsTo l' first)
    (right : r.FlipsTo r' second) : (node l r).FlipsTo (node l' r')
      (consBit false (thenBits l.commutativeCount first second)) := by
  intro choice next chosen
  rw [flippable.count] at chosen ⊢
  obtain ⟨top, below⟩ := chosen.cons
  obtain ⟨flippedLeft, flippedRight⟩ := left.both right below
  simp only [flippable.straight l r top, flippedLeft, flippedRight]
  exact Prod.ext rfl (by omega)

theorem FlipsTo.crossed (flippable : Flippable node) (left : l.FlipsTo l' first)
    (right : r.FlipsTo r' second) : (node l r).FlipsTo (node r' l')
      (consBit true (thenBits r.commutativeCount second first)) := by
  intro choice next chosen
  rw [flippable.count, Nat.add_comm l.commutativeCount] at chosen
  rw [flippable.count]
  obtain ⟨top, below⟩ := chosen.cons
  obtain ⟨flippedRight, flippedLeft⟩ := right.both left below
  simp only [flippable.crossed l r top, flippedLeft, flippedRight]
  exact Prod.ext rfl (by omega)

theorem FlipsTo.diff (left : l.FlipsTo l' first) (right : r.FlipsTo r' second) :
    (Query.diff l r).FlipsTo (Query.diff l' r') (thenBits l.commutativeCount first second) := by
  intro choice next chosen
  obtain ⟨flippedLeft, flippedRight⟩ := left.both right chosen
  simp only [flip, flippedLeft, flippedRight, commutativeCount, Nat.add_assoc]

theorem FlipsTo.concat (left : l.FlipsTo l' first) (right : r.FlipsTo r' second) :
    (Query.concat l r).FlipsTo (Query.concat l' r')
      (thenBits l.commutativeCount first second) := by
  intro choice next chosen
  obtain ⟨flippedLeft, flippedRight⟩ := left.both right chosen
  simp only [flip, flippedLeft, flippedRight, commutativeCount, Nat.add_assoc]

theorem FlipsTo.leaf {q : Query} (isLeaf : q.arity = 0) (bits : Nat → Bool) :
    q.FlipsTo q bits := by
  intro choice next _
  cases q <;> first | rfl | cases isLeaf

/-- Every exchange of operands has its bits. -/
theorem Exchanged.flipsTo {q q' : Query} (exchanged : q.Exchanged q') :
    ∃ bits, q.FlipsTo q' bits := by
  induction exchanged with
  | leaf isLeaf => exact ⟨fun _ => false, .leaf isLeaf _⟩
  | root _ ih | compl _ ih | sort _ _ ih =>
    obtain ⟨bits, operand⟩ := ih
    refine ⟨bits, fun choice next chosen => ?_⟩
    simp only [flip, operand choice next chosen, commutativeCount]
  | diff _ _ ihl ihr =>
    obtain ⟨⟨_, left⟩, ⟨_, right⟩⟩ := And.intro ihl ihr
    exact ⟨_, left.diff right⟩
  | concat _ _ ihl ihr =>
    obtain ⟨⟨_, left⟩, ⟨_, right⟩⟩ := And.intro ihl ihr
    exact ⟨_, left.concat right⟩
  | inter _ _ ihl ihr =>
    obtain ⟨⟨_, left⟩, ⟨_, right⟩⟩ := And.intro ihl ihr
    exact ⟨_, .straight flippable_inter left right⟩
  | interCrossed _ _ ihl ihr =>
    obtain ⟨⟨_, left⟩, ⟨_, right⟩⟩ := And.intro ihl ihr
    exact ⟨_, .crossed flippable_inter left right⟩
  | union _ _ ihl ihr =>
    obtain ⟨⟨_, left⟩, ⟨_, right⟩⟩ := And.intro ihl ihr
    exact ⟨_, .straight flippable_union left right⟩
  | unionCrossed _ _ ihl ihr =>
    obtain ⟨⟨_, left⟩, ⟨_, right⟩⟩ := And.intro ihl ihr
    exact ⟨_, .crossed flippable_union left right⟩

/-- Every exchange of operands is a choice among those that a rule is expanded by. -/
theorem Exchanged.exists_choice {q q' : Query} (exchanged : q.Exchanged q') :
    ∃ choice < 1 <<< q.commutativeCount, (q.flip choice 0).1 = q' := by
  obtain ⟨bits, flips⟩ := exchanged.flipsTo
  let chosen : Fin q.commutativeCount → Bool := fun i => bits i
  have chooses : Chooses (Nat.ofBits chosen) 0 q.commutativeCount bits := by
    intro i inside
    rw [Nat.zero_add]
    exact Nat.testBit_ofBits_lt chosen i inside
  refine ⟨Nat.ofBits chosen, ?_, ?_⟩
  · rw [Nat.one_shiftLeft]
    exact Nat.ofBits_lt_two_pow chosen
  · rw [flips _ 0 chooses]

end Query

namespace Rewrite.Rule

/-- The orientations of a rule are the rules whose source is an exchange of its own. -/
theorem mem_orientations_iff {rule oriented : Rule} :
    oriented ∈ rule.orientations ↔
      rule.source.Exchanged oriented.source ∧ oriented.destination = rule.destination := by
  constructor
  · intro mem
    obtain ⟨choice, source, destination⟩ := mem_orientations mem
    exact ⟨source ▸ Query.exchanged_flip choice rule.source 0, destination⟩
  · intro ⟨exchanged, destination⟩
    obtain ⟨choice, inside, flipped⟩ := exchanged.exists_choice
    refine List.mem_map.mpr ⟨choice, List.mem_range.mpr inside, ?_⟩
    cases oriented
    subst flipped destination
    rfl

end Rewrite.Rule

end ExtentQuery

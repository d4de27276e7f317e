import ExtentQuery.Proofs.Rewriting.Same
import ExtentQuery.Proofs.Values.Rounding

/-!
# Equal queries and their texts

Two queries that are the same (`Query.same`) need not have the same canonical text.  Equality
compares numbers and takes supplied sort keys by their number alone, whereas a text spells the
bits of a number and the direction of a key.

* `Query.settle` — the query without what only texts see: no zero has a sign, and every
  supplied key sorts in a direction that depends on its number alone;
* `Query.settled` — the queries that this leaves as they are;
* `Query.canonical_of_same` — the same queries have one text once they are settled.

**Nothing else differs.**  The order of commuting operands, which equality ignores as well, does
not show in a text, and custom leaves are compared by their texts in the first place.
-/

namespace ExtentQuery

/-! ### Zeros -/

namespace Double

/-- The number, with a zero taken as the positive one. -/
def settle (x : Double) : Double :=
  if x.rank = 0 then ⟨0⟩ else x

/-- Whether the number is anything but the negative zero. -/
def settled (x : Double) : Bool :=
  !(x.negative && x.rank == 0)

theorem settle_of_settled {x : Double} (settled : x.settled = true) : x.settle = x := by
  simp only [Double.settled, Bool.not_eq_true', Bool.and_eq_false_iff, beq_eq_false_iff_ne]
    at settled
  unfold settle
  split
  case isTrue zero =>
    have positive : x.negative = false := settled.resolve_right (not_not_intro zero)
    refine ext_iff_sign.mpr ⟨by rw [positive]; rfl, ?_⟩
    rw [rank, positive] at zero
    exact (Int.ofNat_eq_zero.mp zero).symm
  case isFalse => rfl

/-- Equal numbers have the same bits, zeros apart. -/
theorem settle_of_equals {x y : Double} (equal : x.equals y = true) : x.settle = y.settle := by
  obtain ⟨-, -, ranks⟩ := equals_iff.mp equal
  unfold settle
  rw [ranks]
  split
  · rfl
  case isFalse nonzero => exact eq_of_rank ranks nonzero

end Double

namespace Value

/-- The value, with a zero taken as the positive one. -/
def settle : Value → Value
  | float x => float x.settle
  | v => v

/-- Whether the value is anything but the negative zero. -/
def settled : Value → Bool
  | float x => x.settled
  | _ => true

theorem settle_of_settled {v : Value} (settled : v.settled = true) : v.settle = v := by
  cases v with
  | float x => exact congrArg float (Double.settle_of_settled settled)
  | _ => rfl

theorem settle_of_same {v w : Value} (same : v.same w = true) : v.settle = w.settle := by
  cases v <;> cases w <;> simp only [Value.same, Bool.false_eq_true, beq_iff_eq] at same
  case float.float => exact congrArg float (Double.settle_of_equals same)
  all_goals rw [same]

theorem map_settle_of_sameOption {v w : Option Value} (same : sameOption v w = true) :
    v.map settle = w.map settle := by
  cases v <;> cases w <;> simp only [sameOption, Bool.false_eq_true] at same
  · rfl
  · exact congrArg some (settle_of_same same)

theorem map_settle_of_settled {v : Option Value} (settled : v.all settled = true) :
    v.map settle = v := by
  cases v with
  | none => rfl
  | some v => exact congrArg some (settle_of_settled settled)

end Value

/-! ### Directions of supplied keys -/

namespace SortStep

variable (direction : Nat → Bool)

/-- The step, with a supplied key turned into the direction of its number. -/
def settle : SortStep → SortStep
  | key number label read _ => key number label read (direction number)
  | order => order

/-- Whether a supplied key sorts in the direction of its number. -/
def settled : SortStep → Bool
  | key number _ _ ascending => ascending == direction number
  | _ => true

variable {direction}

theorem settle_of_settled {order : SortStep} (settled : order.settled direction = true) :
    order.settle direction = order := by
  cases order with
  | key number label read ascending =>
    simp only [SortStep.settled, beq_iff_eq] at settled
    simp only [settle, settled]
  | _ => rfl

/-- Once the directions are settled, a text shows no more of a step than equality sees. -/
theorem canonical_settle_of_same {order order' : SortStep} (same : order.same order' = true) :
    (order.settle direction).canonical = (order'.settle direction).canonical := by
  cases order <;> cases order' <;>
    simp only [SortStep.same, Bool.false_eq_true, Bool.and_eq_true, beq_iff_eq] at same <;>
    simp only [settle, canonical, same]

end SortStep

/-! ### Queries -/

namespace Query

variable (direction : Nat → Bool)

/-- The query without the signs of its zeros, and with its supplied keys turned into the
directions of their numbers; decorated queries included. -/
def settle : Query → Query
  | root c => root c.settle
  | equals property value => equals property (value.map Value.settle)
  | between property low high => between property low.settle high.settle
  | linkedInto link targets type => linkedInto link targets.settle type
  | inter l r => inter l.settle r.settle
  | union l r => union l.settle r.settle
  | diff l r => diff l.settle r.settle
  | concat l r => concat l.settle r.settle
  | compl c => compl c.settle
  | sort order c => sort (order.settle direction) c.settle
  | q => q

/-- Whether no value of the query is the negative zero, and every supplied key sorts in the
direction of its number; decorated queries included. -/
def settled : Query → Bool
  | root c => c.settled
  | equals _ value => value.all Value.settled
  | between _ low high => low.settled && high.settled
  | linkedInto _ targets _ => targets.settled
  | inter l r => l.settled && r.settled
  | union l r => l.settled && r.settled
  | diff l r => l.settled && r.settled
  | concat l r => l.settled && r.settled
  | compl c => c.settled
  | sort order c => order.settled direction && c.settled
  | _ => true

variable {direction}

theorem settle_of_settled {q : Query} (settled : q.settled direction = true) :
    q.settle direction = q := by
  induction q with
  | root c ih | compl c ih => simp only [settle, ih settled]
  | linkedInto link targets type ih => simp only [settle, ih settled]
  | equals property value => simp only [settle, Value.map_settle_of_settled settled]
  | between property low high =>
    simp only [Query.settled, Bool.and_eq_true] at settled
    simp only [settle, Value.settle_of_settled settled.1, Value.settle_of_settled settled.2]
  | sort order c ih =>
    simp only [Query.settled, Bool.and_eq_true] at settled
    simp only [settle, SortStep.settle_of_settled settled.1, ih settled.2]
  | inter l r ihl ihr | union l r ihl ihr | diff l r ihl ihr | concat l r ihl ihr =>
    simp only [Query.settled, Bool.and_eq_true] at settled
    simp only [settle, ihl settled.1, ihr settled.2]
  | _ => rfl

/-- The same queries have one text once they are settled. -/
theorem canonical_settle_of_same : ∀ {a b : Query}, a.same b = true →
    (a.settle direction).canonical = (b.settle direction).canonical := by
  intro a
  induction a with
  | root c ih | compl c ih =>
    intro b same
    cases b <;> simp only [Query.same, Bool.false_eq_true] at same
    simp only [settle, canonical, ih same]
  | sort order c ih =>
    intro b same
    cases b <;> simp only [Query.same, Bool.and_eq_true, Bool.false_eq_true] at same
    simp only [settle, canonical, SortStep.canonical_settle_of_same same.1, ih same.2]
  | linkedInto link targets type ih =>
    intro b same
    cases b <;> simp only [Query.same, Bool.and_eq_true, beq_iff_eq, Bool.false_eq_true] at same
    simp only [settle, canonical, same.1.1, same.1.2, ih same.2]
  | diff l r ihl ihr | concat l r ihl ihr =>
    intro b same
    cases b <;> simp only [Query.same, Bool.and_eq_true, Bool.false_eq_true] at same
    simp only [settle, canonical, ihl same.1, ihr same.2]
  | inter l r ihl ihr | union l r ihl ihr =>
    intro b same
    cases b <;>
      simp only [Query.same, Bool.or_eq_true, Bool.and_eq_true, Bool.false_eq_true] at same
    simp only [settle, canonical]
    -- a text puts the operands into the order of their own texts
    rcases same with ⟨left, right⟩ | ⟨left, right⟩
    · rw [ihl left, ihr right]
    · rw [ihl left, ihr right, canonicalPair_comm]
  | equals property value =>
    intro b same
    cases b <;> simp only [Query.same, Bool.and_eq_true, beq_iff_eq, Bool.false_eq_true] at same
    simp only [settle, canonical, same.1, Value.map_settle_of_sameOption same.2]
  | between property low high =>
    intro b same
    cases b <;> simp only [Query.same, Bool.and_eq_true, beq_iff_eq, Bool.false_eq_true] at same
    simp only [settle, canonical, same.1.1, Value.settle_of_same same.1.2,
      Value.settle_of_same same.2]
  | custom leaf =>
    intro b same
    cases b <;> simp only [Query.same, beq_iff_eq, Bool.false_eq_true] at same
    exact same
  | _ =>
    intro b same
    cases b <;> simp only [Query.same, Bool.and_eq_true, beq_iff_eq, Bool.false_eq_true] at same
    simp only [settle, canonical, same]

/-- Two queries that are the same, of whatever leaves, values and sort steps, have the same
text up to the signs of their zeros and the directions of their supplied keys.  If no zero has
a sign and every supplied key has one direction in both, then the texts are the same. -/
theorem canonical_of_same {a b : Query} (same : a.same b = true) (direction : Nat → Bool) :
    (a.settle direction).canonical = (b.settle direction).canonical ∧
      (a.settled direction = true → b.settled direction = true → a.canonical = b.canonical) := by
  have settled : (a.settle direction).canonical = (b.settle direction).canonical :=
    canonical_settle_of_same same
  refine ⟨settled, fun left right => ?_⟩
  rwa [settle_of_settled left, settle_of_settled right] at settled

/-- What weighs nothing, of two entities that a supplied key has put into order. -/
def weightlessByShade (zero : Double) (shade : SortStep) : Query :=
  inter (sort shade all) (equals "weight" (some (.float zero)))

/-- A key is known by its number, whatever it is called and whatever it reads. -/
theorem canonical_of_same_shades :
    (weightlessByShade ⟨0⟩ (.key 7 "shade" .localId true)).same
        (inter (equals "weight" (some (.float ⟨0⟩)))
          (sort (.key 7 "hue" (.property "hue") true) all)) = true ∧
      (weightlessByShade ⟨0⟩ (.key 7 "shade" .localId true)).canonical =
        (inter (equals "weight" (some (.float ⟨0⟩)))
          (sort (.key 7 "hue" (.property "hue") true) all)).canonical :=
  ⟨by decide, (canonical_of_same (by decide) fun _ => true).2 (by decide) (by decide)⟩

/-- A zero with a sign equals one without, and a supplied key is the same in either direction;
the texts tell them apart. -/
theorem canonical_ne_of_same :
    ((weightlessByShade ⟨0⟩ (.key 7 "shade" .localId true)).same
        (weightlessByShade ⟨0x8000000000000000⟩ (.key 7 "shade" .localId true)) = true ∧
      (weightlessByShade ⟨0⟩ (.key 7 "shade" .localId true)).canonical ≠
        (weightlessByShade ⟨0x8000000000000000⟩ (.key 7 "shade" .localId true)).canonical) ∧
    ((weightlessByShade ⟨0⟩ (.key 7 "shade" .localId true)).same
        (weightlessByShade ⟨0⟩ (.key 7 "shade" .localId false)) = true ∧
      (weightlessByShade ⟨0⟩ (.key 7 "shade" .localId true)).canonical ≠
        (weightlessByShade ⟨0⟩ (.key 7 "shade" .localId false)).canonical) := by
  decide +kernel

end Query

end ExtentQuery

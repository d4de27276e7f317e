import ExtentQuery.Double
import Mathlib.Tactic.Positivity
import Mathlib.Tactic.SplitIfs

/-!
# Rounding integers to doubles

An integer is compared with a double after it has been rounded.  Rounding keeps the order of
integers, but it may give one double for several of them.

* `Double.roundShift_mono`, `Double.magnitudeOfNat_mono` — rounding magnitudes keeps their
  order;
* `Double.rank_ofInt_mono`, `Double.totalRank_ofInt_mono` — so does rounding integers, in both
  orders of doubles;
* `Double.eq_ofInt_of_rank` — a double that stands where a rounded integer stands is this
  integer rounded, zeros apart.

**Which integers.**  A property holds integers of sixty-four bits (`Double.Small`).  Their
rounded magnitudes are far from the infinities, so that rounding never gives a not-a-number and
never reaches the sign bit.
-/

namespace ExtentQuery.Double

/-! ### Magnitudes -/

/-- The quotient is rounded down or up by one. -/
theorem roundShift_bounds (n shift : Nat) :
    n / 2 ^ shift ≤ roundShift n shift ∧ roundShift n shift ≤ n / 2 ^ shift + 1 := by
  simp only [roundShift, Nat.one_shiftLeft]
  split
  · omega
  · split <;> omega

/-- Rounding a quotient keeps the order of what is divided. -/
theorem roundShift_mono (shift : Nat) {m n : Nat} (le : m ≤ n) :
    roundShift m shift ≤ roundShift n shift := by
  rcases Nat.lt_or_eq_of_le (Nat.div_le_div_right (c := 2 ^ shift) le) with lower | same
  · have up := (roundShift_bounds m shift).2
    have down := (roundShift_bounds n shift).1
    omega
  · -- with one quotient, the remainders decide
    have rest : m % 2 ^ shift ≤ n % 2 ^ shift := by
      have left := Nat.div_add_mod m (2 ^ shift)
      have right := Nat.div_add_mod n (2 ^ shift)
      rw [same] at left
      omega
    simp only [roundShift, Nat.one_shiftLeft, same]
    split_ifs <;> omega

/-- The leading fifty-three bits of an integer, rounded if there are more. -/
def significand (n : Nat) : Nat :=
  if n.log2 ≤ 52 then n <<< (52 - n.log2) else roundShift n (n.log2 - 52)

theorem magnitudeOfNat_eq {n : Nat} (positive : n ≠ 0) :
    magnitudeOfNat n = (n.log2 + 1022) * 2 ^ 52 + significand n := by
  rw [magnitudeOfNat, if_neg positive]
  exact congrArg (· + significand n) (Nat.shiftLeft_eq _ _)

/-- A significand has its leading bit set, and rounding may make it the next power of two. -/
theorem significand_bounds {n : Nat} (positive : n ≠ 0) :
    2 ^ 52 ≤ significand n ∧ significand n ≤ 2 ^ 53 := by
  have lower := Nat.log2_self_le positive
  have upper := Nat.lt_log2_self (n := n)
  unfold significand
  split
  case isTrue few =>
    rw [Nat.shiftLeft_eq]
    have low := Nat.mul_le_mul_right (2 ^ (52 - n.log2)) lower
    have high := Nat.mul_le_mul_right (2 ^ (52 - n.log2)) (Nat.le_of_lt upper)
    rw [← Nat.pow_add] at low high
    rw [show n.log2 + (52 - n.log2) = 52 by omega] at low
    rw [show n.log2 + 1 + (52 - n.log2) = 53 by omega] at high
    exact ⟨low, high⟩
  case isFalse many =>
    have bounds := roundShift_bounds n (n.log2 - 52)
    have low : 2 ^ 52 ≤ n / 2 ^ (n.log2 - 52) := by
      rw [Nat.le_div_iff_mul_le (by positivity), ← Nat.pow_add]
      rwa [show 52 + (n.log2 - 52) = n.log2 by omega]
    have high : n / 2 ^ (n.log2 - 52) < 2 ^ 53 := by
      rw [Nat.div_lt_iff_lt_mul (by positivity), ← Nat.pow_add]
      rwa [show 53 + (n.log2 - 52) = n.log2 + 1 by omega]
    omega

theorem magnitudeOfNat_mono {m n : Nat} (le : m ≤ n) : magnitudeOfNat m ≤ magnitudeOfNat n := by
  by_cases zero : m = 0
  · rw [zero]
    exact Nat.zero_le _
  have positive : n ≠ 0 := by omega
  rw [magnitudeOfNat_eq zero, magnitudeOfNat_eq positive]
  have leading : m.log2 ≤ n.log2 :=
    (Nat.le_log2 positive).mpr (Nat.le_trans (Nat.log2_self_le zero) le)
  rcases Nat.lt_or_eq_of_le leading with lower | same
  · -- a significand that is carried over is still not above that of the next exponent
    have carried := (significand_bounds zero).2
    have started := (significand_bounds positive).1
    omega
  · have kept : significand m ≤ significand n := by
      unfold significand
      rw [same]
      split
      · rw [Nat.shiftLeft_eq, Nat.shiftLeft_eq]
        exact Nat.mul_le_mul_right _ le
      · exact roundShift_mono _ le
    omega

theorem magnitudeOfNat_pos {n : Nat} (positive : n ≠ 0) : 0 < magnitudeOfNat n := by
  rw [magnitudeOfNat_eq positive]
  omega

/-! ### Integers of sixty-four bits -/

/-- Whether an integer has sixty-four bits. -/
def Small (n : Int) : Prop :=
  -2 ^ 63 ≤ n ∧ n < 2 ^ 63

theorem small_toInt (n : Int64) : Small n.toInt :=
  ⟨n.le_toInt, n.toInt_lt⟩

variable {m n : Int}

theorem magnitudeOfNat_lt (small : Small n) : magnitudeOfNat n.natAbs < infinityMagnitude := by
  have bound : n.natAbs ≤ 2 ^ 63 := by
    have := small.1
    have := small.2
    omega
  exact Nat.lt_of_le_of_lt (magnitudeOfNat_mono bound) (by decide)

theorem toNat_ofInt (small : Small n) :
    (ofInt n).bits.toNat
      = if n < 0 then signBit + magnitudeOfNat n.natAbs else magnitudeOfNat n.natAbs := by
  have finite := magnitudeOfNat_lt small
  simp only [ofInt, UInt64.toNat_ofNat']
  refine Nat.mod_eq_of_lt ?_
  simp only [signBit, infinityMagnitude] at finite ⊢
  split <;> omega

theorem magnitude_ofInt (small : Small n) : (ofInt n).magnitude = magnitudeOfNat n.natAbs := by
  have finite := magnitudeOfNat_lt small
  rw [magnitude, toNat_ofInt small]
  simp only [signBit, infinityMagnitude] at finite ⊢
  split <;> omega

theorem negative_ofInt (small : Small n) : (ofInt n).negative = decide (n < 0) := by
  have finite := magnitudeOfNat_lt small
  rw [negative, toNat_ofInt small]
  simp only [signBit, infinityMagnitude] at finite ⊢
  split <;> simp <;> omega

/-- A rounded integer is a number. -/
theorem isNaN_ofInt (small : Small n) : (ofInt n).isNaN = false := by
  rw [isNaN, magnitude_ofInt small]
  exact decide_eq_false (Nat.not_lt.mpr (Nat.le_of_lt (magnitudeOfNat_lt small)))

theorem rank_ofInt (small : Small n) :
    (ofInt n).rank
      = if n < 0 then -(magnitudeOfNat n.natAbs : Int) else magnitudeOfNat n.natAbs := by
  simp only [rank, negative_ofInt small, magnitude_ofInt small, decide_eq_true_eq]

theorem totalRank_ofInt (small : Small n) :
    (ofInt n).totalRank
      = if n < 0 then -(magnitudeOfNat n.natAbs : Int) - 1 else magnitudeOfNat n.natAbs := by
  simp only [totalRank, negative_ofInt small, magnitude_ofInt small, decide_eq_true_eq]

/-- The magnitudes of two integers in order, by their signs. -/
theorem magnitudeOfNat_natAbs_le (le : m ≤ n) :
    (n < 0 → magnitudeOfNat n.natAbs ≤ magnitudeOfNat m.natAbs) ∧
      (0 ≤ m → magnitudeOfNat m.natAbs ≤ magnitudeOfNat n.natAbs) :=
  ⟨fun below => magnitudeOfNat_mono (by omega), fun above => magnitudeOfNat_mono (by omega)⟩

/-- **Rounding keeps the numeric order.** -/
theorem rank_ofInt_mono (small : Small m) (small' : Small n) (le : m ≤ n) :
    (ofInt m).rank ≤ (ofInt n).rank := by
  obtain ⟨below, above⟩ := magnitudeOfNat_natAbs_le le
  rw [rank_ofInt small, rank_ofInt small']
  split <;> split <;> omega

/-- **Rounding keeps the total order.** -/
theorem totalRank_ofInt_mono (small : Small m) (small' : Small n) (le : m ≤ n) :
    (ofInt m).totalRank ≤ (ofInt n).totalRank := by
  obtain ⟨below, above⟩ := magnitudeOfNat_natAbs_le le
  rw [totalRank_ofInt small, totalRank_ofInt small']
  split <;> split <;> omega

/-! ### Doubles at one place -/

theorem bits_eq (x : Double) :
    x.bits.toNat = if x.negative then signBit + x.magnitude else x.magnitude := by
  have bound := x.bits.toNat_lt
  cases sign : x.negative with
  | true =>
    have high := of_decide_eq_true sign
    simp only [magnitude, signBit, if_true] at high ⊢
    omega
  | false =>
    have low := of_decide_eq_false sign
    simp only [magnitude, signBit, Bool.false_eq_true, if_false] at low ⊢
    omega

theorem ext_iff_sign {x y : Double} :
    x = y ↔ x.negative = y.negative ∧ x.magnitude = y.magnitude := by
  constructor
  · rintro rfl
    exact ⟨rfl, rfl⟩
  · rintro ⟨sign, size⟩
    have same : x.bits.toNat = y.bits.toNat := by rw [bits_eq, bits_eq, sign, size]
    cases x
    cases y
    exact congrArg mk (UInt64.toNat_inj.mp same)

/-- The total order tells all doubles apart. -/
theorem totalRank_inj {x y : Double} : x.totalRank = y.totalRank ↔ x = y := by
  constructor
  · intro same
    simp only [totalRank] at same
    rw [ext_iff_sign]
    split at same <;> split at same <;> simp_all <;> omega
  · rintro rfl
    rfl

/-- The numeric order tells all doubles apart but the two zeros. -/
theorem eq_of_rank {x y : Double} (same : x.rank = y.rank) (nonzero : y.rank ≠ 0) : x = y := by
  simp only [rank] at same nonzero
  rw [ext_iff_sign]
  split at same <;> split at same <;> simp_all

theorem rank_ofInt_eq_zero (small : Small n) : (ofInt n).rank = 0 ↔ n = 0 := by
  constructor
  · intro zero
    rw [rank_ofInt small] at zero
    by_contra other
    have positive := magnitudeOfNat_pos (n := n.natAbs) (by omega)
    split at zero <;> omega
  · rintro rfl
    rfl

/-- A double where two different integers are rounded to is what both are rounded to. -/
theorem eq_ofInt_of_rank {x : Double} (small : Small m) (small' : Small n) (ne : m ≠ n)
    (first : x.rank = (ofInt m).rank) (second : x.rank = (ofInt n).rank) :
    x = ofInt m ∧ x = ofInt n := by
  have nonzero : x.rank ≠ 0 := by
    intro zero
    have left := (rank_ofInt_eq_zero small).mp (first ▸ zero)
    have right := (rank_ofInt_eq_zero small').mp (second ▸ zero)
    exact ne (left.trans right.symm)
  exact ⟨eq_of_rank first (first ▸ nonzero), eq_of_rank second (second ▸ nonzero)⟩

end ExtentQuery.Double

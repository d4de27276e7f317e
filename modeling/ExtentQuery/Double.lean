/-!
# Double-precision numbers as bit patterns

A floating-point property value is kept as the 64 bits of its IEEE 754 encoding.  The
library never does arithmetic on such numbers, it only compares them, and both
comparisons it needs are integer comparisons of a number read off the bits:

* `Double.rank` — sign and magnitude read as an integer, with both zeros at `0`.  On
  numbers it is the numeric order (`Double.compare?`), which leaves a not-a-number
  incomparable to everything.
* `Double.totalRank` — the same with the negative half shifted by one, which tells
  `-0.0` from `0.0` and places every not-a-number beyond the infinities
  (`Double.totalCompare`).

**Integers.**  An integer compares with a double after it has been rounded to the
nearest double, a tie going to the even neighbour.  `Double.ofInt` performs this
rounding in exact integer arithmetic.
-/

namespace ExtentQuery

/-- A double-precision number, given by the bits of its encoding: one sign bit, eleven
bits of exponent and fifty-two bits of fraction. -/
structure Double where
  bits : UInt64
deriving DecidableEq, Repr, Inhabited

namespace Double

/-- The encoding of `-0.0`: the sign bit alone. -/
def signBit : Nat := 0x8000000000000000

/-- Whether the sign bit is set. -/
def negative (x : Double) : Bool :=
  decide (signBit ≤ x.bits.toNat)

/-- The encoding without its sign bit. -/
def magnitude (x : Double) : Nat :=
  x.bits.toNat % signBit

/-- The magnitude of the infinities: all exponent bits set and no fraction bit. -/
def infinityMagnitude : Nat := 0x7ff0000000000000

/-- A pattern beyond the infinities encodes no number. -/
def isNaN (x : Double) : Bool :=
  decide (infinityMagnitude < x.magnitude)

/-- The position of a number in numeric order; both zeros are at `0`. -/
def rank (x : Double) : Int :=
  if x.negative then -x.magnitude else x.magnitude

/-- The position of a pattern in the total order of IEEE 754, where `-0.0` comes just
before `0.0`. -/
def totalRank (x : Double) : Int :=
  if x.negative then -x.magnitude - 1 else x.magnitude

/-- Numeric comparison; a not-a-number is incomparable, also to itself. -/
def compare? (x y : Double) : Option Ordering :=
  if x.isNaN || y.isNaN then none else some (compare x.rank y.rank)

/-- The total order of IEEE 754. -/
def totalCompare (x y : Double) : Ordering :=
  compare x.totalRank y.totalRank

/-- Numeric equality: `0.0` equals `-0.0`, and a not-a-number equals nothing. -/
def equals (x y : Double) : Bool :=
  x.compare? y == some .eq

/-- The quotient of `n` by a power of two, rounded to the nearest integer with ties to
the even one. -/
def roundShift (n shift : Nat) : Nat :=
  let unit := 1 <<< shift
  let quotient := n / unit
  let twice := 2 * (n % unit)
  if twice < unit then quotient
  else if unit < twice then quotient + 1
  else quotient + quotient % 2

/-- The magnitude of the double nearest to the positive integer `n`.  With the leading
bit of `n` at position `e`, the significand has to take fifty-three bits; a significand
that rounds up to the next power of two carries into the exponent by itself. -/
def magnitudeOfNat (n : Nat) : Nat :=
  if n = 0 then 0
  else
    let e := n.log2
    let significand := if e ≤ 52 then n <<< (52 - e) else roundShift n (e - 52)
    (e + 1022) <<< 52 + significand

/-- The double nearest to an integer, ties to even. -/
def ofInt (n : Int) : Double :=
  let magnitude := magnitudeOfNat n.natAbs
  ⟨UInt64.ofNat (if n < 0 then signBit + magnitude else magnitude)⟩

end Double

end ExtentQuery

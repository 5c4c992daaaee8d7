/-!
# Powers in double precision

The power of two 64-bit integers is taken in double precision: base and exponent are first rounded
to 53 significant bits, and so is the result, each to the nearest such number and a half to the even
one. A fraction is cut off, and what lies beyond the 64-bit range becomes the nearest bound.

All of this is arithmetic on integers: a double of at least 2^53 is an integer, and a negative
exponent gives a fraction below one unless the base is -1, 0 or 1.

The last rounding is a choice. How precise a floating-point power has to be is left open where such
powers are specified: a platform may be off in the last of the 53 bits, and two platforms may differ.
`roundedPower` takes the correctly rounded power. It is exact where the power of the rounded operands
has up to 53 bits, and a longer one may differ in its last bit from what a given platform computes. No
theorem of the library depends on which integer a power is: it is used in `BinaryOp.eval` only, and
all that is known of it there is that it is an integer.
-/

namespace ClosureLang

/-- The nearest number of at most `bits` significant bits, a half to the even one. -/
def roundNat (bits n : Nat) : Nat :=
  let unit := Nat.pow 2 (n.log2 + 1 - bits)
  let quotient := n / unit
  let remainder := n % unit
  if unit < 2 * remainder ∨ unit = 2 * remainder ∧ quotient % 2 = 1 then (quotient + 1) * unit
  else quotient * unit

/-- A number that has no more than `bits` significant bits stays as it is. -/
theorem roundNat_of_log2_lt {bits n : Nat} (h : n.log2 < bits) : roundNat bits n = n := by
  have hunit : n.log2 + 1 - bits = 0 := by omega
  simp [roundNat, hunit, Nat.mod_one]

/-- Rounds the magnitude and keeps the sign. -/
def roundInt (bits : Nat) (i : Int) : Int :=
  if i < 0 then -(roundNat bits i.natAbs : Int) else roundNat bits i.natAbs

/-- The nearest 64-bit integer. -/
def clamp (i : Int) : Int64 :=
  if i < Int64.minValue.toInt then Int64.minValue
  else if Int64.maxValue.toInt < i then Int64.maxValue
  else Int64.ofInt i

/-- The number 2^64, which is above the 64-bit range. The magnitude of a power whose base is not -1,
0 or 1 and whose exponent is 64 or more is no smaller. -/
def beyond : Int := 18446744073709551616

/-- The power of two numbers, its fraction cut off. Out of the 64-bit range only its sign matters. -/
def truncatedPower (base exponent : Int) : Int :=
  if base = 0 then
    if exponent = 0 then 1 else if exponent < 0 then beyond else 0
  else if base.natAbs = 1 then Int.pow base (exponent.natAbs % 2)
  else if exponent < 0 then 0
  else if exponent < 64 then Int.pow base exponent.toNat
  else Int.pow base.sign (exponent.natAbs % 2) * beyond

/-- The power of two 64-bit integers in double precision, correctly rounded. -/
def roundedPower (a b : Int64) : Int64 :=
  clamp (roundInt 53 (truncatedPower (roundInt 53 a.toInt) (roundInt 53 b.toInt)))

end ClosureLang

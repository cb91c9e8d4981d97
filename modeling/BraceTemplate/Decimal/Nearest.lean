import BraceTemplate.Decimal.Binary

/-!
# The double nearest to a decimal

`nearest digits exponent` is the double nearest to `digits * 10 ^ exponent`, the even significand
winning a tie. The quotient is exact, so no rounding happens twice.
-/

namespace BraceTemplate.Decimal

/-- The quotient rounded to the nearest integer, a half to the even one. -/
def roundDiv (num den : Nat) : Nat :=
  let q := num / den
  let r := num % den
  if 2 * r < den ∨ (2 * r = den ∧ q % 2 = 0) then q else q + 1

/-- The bits of the double nearest to the positive `num / den`; at or above `infinityBits` if it
is out of range. The exponent is the one that leaves a significand of 53 bits, or the smallest. -/
def nearestRatio (num den : Nat) : Nat :=
  let scaled := fun q : Int => (num * Nat.pow 2 (-q).toNat, den * Nat.pow 2 q.toNat)
  let coarse := max ((num.log2 : Int) - den.log2 - 53) Binary.minExponent
  let exponent :=
    if (scaled coarse).1 / (scaled coarse).2 < Nat.pow 2 53 then coarse else coarse + 1
  Binary.toBits ⟨roundDiv (scaled exponent).1 (scaled exponent).2, exponent⟩

/-- The bits of the double nearest to `digits * 10 ^ exponent`, `none` if that is beyond the
finite doubles. Exponents far outside their range are settled without the power. -/
def nearest (digits : Nat) (exponent : Int) : Option Nat :=
  if digits = 0 then some 0
  else if 310 < exponent then none
  else if exponent + digits.log2 < -400 then some 0
  else
    let bits := nearestRatio (digits * Nat.pow 10 exponent.toNat) (Nat.pow 10 (-exponent).toNat)
    if bits < Binary.infinityBits then some bits else none

end BraceTemplate.Decimal

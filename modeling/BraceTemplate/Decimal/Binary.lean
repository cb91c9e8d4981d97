/-!
# Doubles as exact numbers

A positive finite double is `significand * 2 ^ exponent`. `Binary.ofBits` takes the two numbers
out of the 63 bits below the sign, and `Binary.toBits` packs them again.
-/

namespace BraceTemplate.Decimal

/-- The number `significand * 2 ^ exponent`. -/
structure Binary where
  significand : Nat
  exponent : Int
  deriving DecidableEq, Repr

namespace Binary

/-- The exponent of the smallest doubles. -/
def minExponent : Int := -1074

/-- The bits of positive infinity, the first value above the finite doubles. -/
def infinityBits : Nat := 0x7FF0000000000000

/-- The number with the given bits below the sign: an exponent field of eleven bits and a
fraction of 52, to which a nonzero exponent field adds a leading one. -/
def ofBits (bits : Nat) : Binary :=
  let field : Nat := bits / Nat.pow 2 52 % Nat.pow 2 11
  let fraction : Nat := bits % Nat.pow 2 52
  if field = 0 then ⟨fraction, minExponent⟩
  else ⟨Nat.pow 2 52 + fraction, minExponent + ((field : Int) - 1)⟩

/-- The bits below the sign. A significand of `2 ^ 53` carries into the exponent field. -/
def toBits (b : Binary) : Nat :=
  (b.exponent - minExponent).toNat * Nat.pow 2 52 + b.significand

/-- Whether the double below is only half as far away as the one above, which is so at the powers
of two. -/
def isNarrowBelow (b : Binary) : Bool :=
  b.significand = Nat.pow 2 52 && minExponent < b.exponent

end Binary
end BraceTemplate.Decimal

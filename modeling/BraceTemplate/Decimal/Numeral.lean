import BraceTemplate.Decimal.Digits

/-!
# Decimal numerals

A `Numeral` is a whole number of digits together with a power of ten. `Numeral.positional` writes
it out, and `Numeral.cut` bounds the number of its digits.
-/

namespace BraceTemplate.Decimal

/-- The number `digits * 10 ^ exponent`. -/
structure Numeral where
  digits : Nat
  exponent : Int
  deriving DecidableEq, Repr

namespace Numeral

/-- The numeral with its first `limit` digits, all further ones, zeros too, replaced by a single
digit 1. The result lies strictly between the same two neighbours of `limit` digits as before,
unless the further digits are all zeros: then it is slightly more. -/
def cut (limit : Nat) (d : Numeral) : Numeral :=
  let extra := (digitsOf d.digits).length - limit
  if extra = 0 then d else ⟨d.digits / Nat.pow 10 extra * 10 + 1, d.exponent + (extra - 1)⟩

/-- The decimal in positional notation, without an exponent: zeros fill the places up to the
point, and a whole number has no point. -/
def positional (d : Numeral) : List Char :=
  let ds := digitsOf d.digits
  if 0 ≤ d.exponent then ds ++ List.replicate d.exponent.toNat '0'
  else
    let places := (-d.exponent).toNat
    if places < ds.length then
      ds.take (ds.length - places) ++ '.' :: ds.drop (ds.length - places)
    else
      '0' :: '.' :: List.replicate (places - ds.length) '0' ++ ds

end Numeral
end BraceTemplate.Decimal

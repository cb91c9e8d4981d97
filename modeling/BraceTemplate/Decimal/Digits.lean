/-!
# Decimal digits

`digitsOf` writes a number in decimal digits and `ofDigits` reads them. `intText` is the decimal
text of an integer.
-/

namespace BraceTemplate.Decimal

/-- The decimal digits of a number, without leading zeros. -/
def digitsOf (n : Nat) : List Char :=
  Nat.toDigits 10 n

def ofDigits (digits : List Char) : Nat :=
  digits.foldl (fun n c => 10 * n + (c.toNat - '0'.toNat)) 0

/-- The text of an integer: its digits, after a minus sign if it is negative. -/
def intText : Int → String
  | .ofNat n => String.ofList (digitsOf n)
  | .negSucc n => String.ofList ('-' :: digitsOf (n + 1))

end BraceTemplate.Decimal

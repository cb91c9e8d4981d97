import BraceTemplate.Decimal.Binary
import BraceTemplate.Decimal.Numeral

/-!
# The shortest decimal that reads back

A double stands for every real that rounds to it, an interval around it. `shortest` finds the
decimal of fewest digits in that interval: it tries the grids of step `10 ^ k` from coarse to
fine, and takes the first grid with a point in the interval. Of the two grid points next to the
double the nearer one counts; of two equally near, the upper.
-/

namespace BraceTemplate.Decimal

/-- The point that stands for `b` on the grid of step `10 ^ k`, if there is one. Everything is
scaled to integers: a point `d` of the grid lies at `d * step`, the double at `value`, and the
ends of its interval at `low` and `high`, which belong to it iff the significand is even. -/
def onGrid (b : Binary) (k : Int) : Option Nat :=
  let step := Nat.pow 10 k.toNat * Nat.pow 2 (2 - b.exponent).toNat
  let unit := Nat.pow 10 (-k).toNat * Nat.pow 2 (b.exponent - 2).toNat
  let value := 4 * b.significand * unit
  let low := value - (if b.isNarrowBelow then 1 else 2) * unit
  let high := value + 2 * unit
  let readsBack := fun d : Nat =>
    if b.significand % 2 = 0 then low ≤ d * step ∧ d * step ≤ high
    else low < d * step ∧ d * step < high
  let below := value / step
  let above := below + 1
  if readsBack below then
    if readsBack above ∧ above * step - value ≤ value - below * step then some above
    else some below
  else if readsBack above then some above
  else none

/-- The exponent of the finest grid. Its step is less than the distance of two doubles. -/
def finest : Int := -324

/-- The first grid with a point for `b`, from the step `10 ^ (finest + n)` downwards. -/
def shortestFrom (b : Binary) : Nat → Numeral
  | 0 => ⟨(onGrid b finest).getD 0, finest⟩
  | n + 1 =>
    match onGrid b (finest + (n + 1)) with
    | some d => ⟨d, finest + (n + 1)⟩
    | none => shortestFrom b n

/-- The shortest decimal that reads back as `b`. No double reaches `10 ^ 309`. -/
def shortest (b : Binary) : Numeral :=
  shortestFrom b 633

/-- The text of a double: positional, with as few digits as read back. -/
def floatText (x : Float) : String :=
  let bits := x.toBits.toNat
  let magnitude := bits % Nat.pow 2 63
  let sign := if bits < Nat.pow 2 63 then [] else ['-']
  if magnitude = 0 then String.ofList (sign ++ ['0'])
  else if magnitude < Binary.infinityBits then
    String.ofList (sign ++ (shortest (.ofBits magnitude)).positional)
  else if magnitude = Binary.infinityBits then String.ofList (sign ++ "inf".toList)
  else "NaN"

end BraceTemplate.Decimal

import Passage.Number.Rounding
import Passage.Number.Shortest
import Passage.Text.Align

/-!
# Written numbers

Three notations are in use. *Plain* text gives the shortest digits positionally.
*Tagged* text marks whole numbers with `.0` and turns to an exponent for very
large and very small values. *Fixed* text rounds the exact value to a number of
places, a tie going to the even digit.
-/

namespace Passage

/-- Digits with a point `places` digits from the right, without sign. -/
def positional (digits places : Nat) : String :=
  if places = 0 then toString digits
  else
    let text := Text.padLeft (places + 1) '0' (toString digits)
    let cs := text.toList
    let whole := cs.length - places
    String.ofList (cs.take whole) ++ "." ++ String.ofList (cs.drop whole)

namespace Decimal

/-- A decimal written positionally, without exponent. -/
def positionalText (d : Decimal) : String :=
  if d.exponent ≥ 0 then toString (d.digits * tenPower d.exponent.toNat)
  else positional d.digits (-d.exponent).toNat

/-- Digits with a point behind the first, and the power of ten of that digit. -/
def exponentText (d : Decimal) : String :=
  match (toString d.digits).toList with
  | [] => ""
  | [c] => String.singleton c ++ "e" ++ toString d.exponent
  | c :: cs =>
      String.singleton c ++ "." ++ String.ofList cs ++ "e" ++ toString (d.exponent + cs.length)

end Decimal

namespace Number

/-- The sign in front of a number; NaN has none. -/
def signText (x : Number) : String :=
  if x.isNegative && !x.isNaN then "-" else ""

/-- Text of the values that have no digits. -/
def specialText? (x : Number) : Option String :=
  if x.isNaN then some "NaN"
  else if x.isInfinite then some (x.signText ++ "inf")
  else none

/-- The shortest digits, positionally: `1`, `-0`, `0.0000001`, `inf`, `NaN`. -/
def plainText (x : Number) : String :=
  x.specialText?.getD (x.signText ++ x.shortest.positionalText)

/-- Tagged text turns to an exponent at `10 ^ 16` and above, and below `10 ^ -4`
except for zero. -/
def needsExponent (x : Number) : Bool :=
  x.significand != 0 &&
    (compareScaled 1 16 x.significand x.exponent != .gt ||
      compareScaled 1 (-4) x.significand x.exponent == .gt)

/-- Text that shows a number to be one: `1.0`, `-0.0`, `1e16`, `1.5e-5`. -/
def taggedText (x : Number) : String :=
  let d := x.shortest
  x.specialText?.getD <| x.signText ++
    if x.needsExponent then d.exponentText
    else if d.exponent ≥ 0 then d.positionalText ++ ".0"
    else d.positionalText

/-- The exact value rounded to `places` decimal places. -/
def fixedText (places : Nat) (x : Number) : String :=
  let scaled := roundDiv ((x.significand * tenPower places) <<< x.exponent.toNat)
    (1 <<< (-x.exponent).toNat)
  x.specialText?.getD (x.signText ++ positional scaled places)

end Number

end Passage

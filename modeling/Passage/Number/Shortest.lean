import Passage.Number.Basic

/-!
# Shortest decimals

Of all decimals that read back to a number, the one with the fewest digits
identifies it; among several of that length the nearest is taken, and of two
equally near ones the larger. The search tries, for each digit count, the two
neighbours of the value on that decimal grid.
-/

namespace Passage

/-- The decimal `digits * 10 ^ exponent`. -/
structure Decimal where
  digits : Nat
  exponent : Int
deriving DecidableEq

/-- Compares `a * 10 ^ i` with `n * 2 ^ j`, exactly. -/
def compareScaled (a : Nat) (i : Int) (n : Nat) (j : Int) : Ordering :=
  compare ((a * tenPower i.toNat) <<< (-j).toNat) ((n * tenPower (-i).toNat) <<< j.toNat)

/-- Trailing zeros of the digits move into the exponent. -/
def Decimal.strip (d : Decimal) : Nat → Decimal
  | 0 => d
  | fuel + 1 =>
      if d.digits != 0 && d.digits % 10 == 0 then
        Decimal.strip ⟨d.digits / 10, d.exponent + 1⟩ fuel
      else d

namespace Number

/-- Whether the gap below the value is half the gap above it. -/
def narrowBelow (x : Number) : Bool :=
  x.magnitude % hiddenBit == 0 && x.magnitude / hiddenBit > 1

/-- Whether a decimal lies among the reals that round to the magnitude of `x`. -/
def readsBack (x : Number) (d : Decimal) : Bool :=
  let low := if x.narrowBelow then 4 * x.significand - 1 else 4 * x.significand - 2
  let high := 4 * x.significand + 2
  let ends := x.significand % 2 == 0
  let fromLow := compareScaled d.digits d.exponent low (x.exponent - 2)
  let fromHigh := compareScaled d.digits d.exponent high (x.exponent - 2)
  (fromLow == .gt || (ends && fromLow == .eq)) && (fromHigh == .lt || (ends && fromHigh == .eq))

/-- Corrects a guess downward or upward to the least `k` with value below `10 ^ k`. -/
def settleScale (x : Number) : Nat → Int → Int
  | 0, k => k
  | fuel + 1, k =>
      if compareScaled 1 k x.significand x.exponent != .gt then settleScale x fuel (k + 1)
      else if compareScaled 1 (k - 1) x.significand x.exponent == .gt then
        settleScale x fuel (k - 1)
      else k

/-- The least `k` with the absolute value below `10 ^ k`, for a positive finite number. -/
def decimalScale (x : Number) : Int :=
  settleScale x 8 (((x.significand.log2 : Int) + x.exponent) * 30103 / 100000 + 1)

/-- The shorter neighbour of the value on the grid `10 ^ grid` that reads back, if any. -/
def onGrid? (x : Number) (grid : Int) : Option Decimal :=
  let num := (x.significand * tenPower (-grid).toNat) <<< x.exponent.toNat
  let den := tenPower grid.toNat <<< (-x.exponent).toNat
  let below : Decimal := ⟨num / den, grid⟩
  let above : Decimal := ⟨num / den + 1, grid⟩
  match x.readsBack below, x.readsBack above with
  | true, true => some (if 2 * (num % den) < den then below else above)
  | true, false => some below
  | false, true => some above
  | false, false => none

/-- The exact decimal of the absolute value of a finite number. -/
def exactDecimal (x : Number) : Decimal :=
  ⟨x.significand <<< x.exponent.toNat * Nat.pow 5 (-x.exponent).toNat, min x.exponent 0⟩

/-- The decimal with the fewest digits that reads back to the absolute value of
a finite number. -/
def shortest (x : Number) : Decimal :=
  if x.significand = 0 then ⟨0, 0⟩
  else
    let scale := x.decimalScale
    let found := (List.range 17).findSome? fun (n : Nat) => x.onGrid? (scale - (n + 1 : Int))
    (found.getD x.exactDecimal).strip 800

end Number

end Passage

import Passage.Number.Rounding

/-!
# Numerals of a JSON text

A numeral is kept as it was written. Its value is computed on a significand of
64 bits: digits that no longer fit are dropped, and the power of ten is applied
by one rounded multiplication or by divisions. The value is therefore near, but
not always nearest, to what the digits say; a value beyond the finite numbers is
refused.
-/

namespace Passage.Json

/-- A numeral as written: sign, whole digits, fraction, exponent. -/
structure Numeral where
  negative : Bool
  whole : List Nat
  fraction : Option (List Nat)
  /-- Whether the exponent is negative, and its digits. -/
  power : Option (Bool × List Nat)
deriving Inhabited

/-- The digits of a numeral that fit a 64-bit significand, and the power of ten
that scales it. -/
structure Scaled where
  significand : Nat
  exponent : Int

/-- What a significand stays below. -/
def significandLimit : Nat := 0x1_0000_0000_0000_0000

/-- Takes digits while they fit; each one that does not scales by ten instead. -/
def takeWhole : List Nat → Scaled → Scaled
  | [], s => s
  | d :: ds, s =>
      if s.significand * 10 + d < significandLimit then
        takeWhole ds { s with significand := s.significand * 10 + d }
      else { s with exponent := s.exponent + (ds.length + 1) }

/-- Takes digits behind the point while they fit, and ignores the rest. -/
def takeFraction : List Nat → Scaled → Scaled
  | [], s => s
  | d :: ds, s =>
      if s.significand * 10 + d < significandLimit then
        takeFraction ds ⟨s.significand * 10 + d, s.exponent - 1⟩
      else s

/-- The value of digits behind the value `n`, if it stays below the limit. -/
def digitsBelow? (limit : Nat) : List Nat → Nat → Option Nat
  | [], n => some n
  | d :: ds, n => if n * 10 + d < limit then digitsBelow? limit ds (n * 10 + d) else none

/-- What the digits of an exponent stay below. -/
def powerLimit : Nat := 0x8000_0000

/-- Keeps an exponent within 32 signed bits. -/
def clampPower (e : Int) : Int :=
  max (-0x8000_0000) (min 0x7FFF_FFFF e)

/-- Scales by a power of ten. A division step that leaves a non-zero value is
followed by at most two more, so the bound on the steps is never reached. -/
def applyPower : Nat → Number → Int → Option Number
  | 0, x, _ => some x
  | fuel + 1, x, e =>
      if e.natAbs ≤ 308 then
        if e ≥ 0 then
          let y := x.scaleUp (Number.ofNat (tenPower e.toNat))
          if y.isFinite then some y else none
        else some (x.scaleDown (Number.ofNat (tenPower e.natAbs)))
      else if x.significand = 0 then some x
      else if e ≥ 0 then none
      else applyPower fuel (x.scaleDown (Number.ofNat (tenPower 308))) (e + 308)

namespace Numeral

/-- The magnitude of the numeral, if it is finite. -/
def magnitude? (n : Numeral) : Option Number :=
  let whole := takeWhole n.whole ⟨0, 0⟩
  let s := match n.fraction with
    | none => whole
    | some ds => takeFraction ds whole
  match n.power with
  | none => applyPower 4 (Number.ofNat s.significand) s.exponent
  | some (down, ds) =>
      match digitsBelow? powerLimit ds 0 with
      | some e =>
          let shift : Int := if down then -(e : Int) else e
          applyPower 4 (Number.ofNat s.significand) (clampPower (s.exponent + shift))
      | none => if s.significand ≠ 0 && !down then none else some (Number.ofNat 0)

/-- The number that the numeral stands for, if it is finite. -/
def number? (n : Numeral) : Option Number :=
  n.magnitude?.map fun x => if n.negative then x.negate else x

/-- The absolute value, below `2 ^ 64`, of a numeral without fraction and exponent. -/
def absolute? (n : Numeral) : Option Nat :=
  if n.fraction.isNone && n.power.isNone then digitsBelow? significandLimit n.whole 0 else none

/-- The integer that a numeral without fraction and exponent stands for. -/
def integer? (n : Numeral) : Option Int :=
  n.absolute?.map fun v => if n.negative then -(v : Int) else v

/-- The natural number below `2 ^ 64` that an unsigned numeral stands for. -/
def natural? (n : Numeral) : Option Nat :=
  if n.negative then none else n.absolute?

end Numeral

end Passage.Json

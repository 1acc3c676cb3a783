/-!
# Numbers

A number is a binary64 value held as its bit pattern, so that two numbers are
one value of the type exactly if their bits agree. The comparison of the
arithmetic standard, in which the two zeros are equal and NaN equals nothing, is
`same`; both it and `less` are read off the integer `rank`.
-/

namespace Passage

/-- `10 ^ n`. -/
abbrev tenPower (n : Nat) : Nat := Nat.pow 10 n

/-- A binary64 value, by its bit pattern. -/
structure Number where
  bits : UInt64
deriving DecidableEq, Inhabited

namespace Number

/-- Whether the sign bit is set. -/
def isNegative (x : Number) : Bool :=
  x.bits.toNat >>> 63 == 1

/-- The pattern without its sign bit, as a natural number. -/
def magnitude (x : Number) : Nat :=
  x.bits.toNat % 0x8000_0000_0000_0000

/-- The magnitude of the infinities; larger magnitudes are NaN. -/
def infiniteMagnitude : Nat := 0x7FF0000000000000

def isNaN (x : Number) : Bool := infiniteMagnitude < x.magnitude

def isInfinite (x : Number) : Bool := x.magnitude == infiniteMagnitude

def isFinite (x : Number) : Bool := x.magnitude < infiniteMagnitude

/-- Position on the number line: the magnitude with the sign put in front. The
two zeros share a rank, and ranks grow with the values. -/
def rank (x : Number) : Int :=
  if x.isNegative then -(x.magnitude : Int) else x.magnitude

/-- Equality of values: `0` equals `-0`, and NaN equals nothing. -/
def same (x y : Number) : Bool :=
  !x.isNaN && !y.isNaN && x.rank == y.rank

/-- The order of values; NaN is not comparable. -/
def less (x y : Number) : Bool :=
  !x.isNaN && !y.isNaN && x.rank < y.rank

/-- `x ≤ y` on values; NaN is not comparable. -/
def atMost (x y : Number) : Bool :=
  !x.isNaN && !y.isNaN && x.rank ≤ y.rank

/-! ## The dyadic behind a finite pattern -/

/-- The weight of the leading bit, which normal numbers leave out. -/
def hiddenBit : Nat := 0x10_0000_0000_0000

/-- The integer significand of a finite number. -/
def significand (x : Number) : Nat :=
  let fraction := x.magnitude % hiddenBit
  if x.magnitude < hiddenBit then fraction else hiddenBit + fraction

/-- The power of two that scales the significand: the value of a finite number
is `± significand * 2 ^ exponent`. -/
def exponent (x : Number) : Int :=
  if x.magnitude < hiddenBit then -1074 else (x.magnitude / hiddenBit : Nat) - 1075

/-- The whole part of the absolute value of a finite number. -/
def wholePart (x : Number) : Nat :=
  x.significand <<< x.exponent.toNat >>> (-x.exponent).toNat

/-- Whether a finite number has no fractional part. -/
def isWhole (x : Number) : Bool :=
  x.isFinite && x.significand <<< x.exponent.toNat % 1 <<< (-x.exponent).toNat == 0

/-! ## Bytes -/

/-- The byte whose value a number has, if there is one. -/
def byte? (x : Number) : Option UInt8 :=
  if x.isWhole && 0 ≤ x.rank && x.wholePart ≤ 255 then some (UInt8.ofNat x.wholePart) else none

/-- The whole part brought into the range of a byte; NaN becomes zero. -/
def clampToByte (x : Number) : Nat :=
  if x.isNaN || x.rank < 0 then 0
  else if x.isInfinite then 255
  else min x.wholePart 255

end Number

end Passage

import Passage.Number.Basic

/-!
# Rounding to a number

`roundDiv` is the integer nearest to a quotient, a tie going to the even
neighbour. `Number.nearest` applies it on the binary grid, so that reading a
decimal, and multiplying or dividing two numbers, all round exactly once.
-/

namespace Passage

/-- The integer nearest to `num / den`; a tie goes to the even neighbour. -/
def roundDiv (num den : Nat) : Nat :=
  let quotient := num / den
  match compare (2 * (num % den)) den with
  | .lt => quotient
  | .gt => quotient + 1
  | .eq => if quotient % 2 == 0 then quotient else quotient + 1

/-- The exponent `e` with `2 ^ e ≤ num / den < 2 ^ (e + 1)`, for positive arguments. -/
def ratioLog2 (num den : Nat) : Int :=
  let guess : Int := (num.log2 : Int) - den.log2
  if num <<< (-guess).toNat < den <<< guess.toNat then guess - 1 else guess

namespace Number

/-- The number with the given sign and magnitude. -/
def ofMagnitude (negative : Bool) (magnitude : Nat) : Number :=
  ⟨UInt64.ofNat (magnitude + if negative then 0x8000_0000_0000_0000 else 0)⟩

/-- The number nearest to `± num / den`; a tie goes to the even significand, and
what is too large is infinite. -/
def nearest (negative : Bool) (num den : Nat) : Number :=
  if num = 0 then ofMagnitude negative 0
  else
    let unit := max (ratioLog2 num den - 52) (-1074)
    let significand := roundDiv (num <<< (-unit).toNat) (den <<< unit.toNat)
    ofMagnitude negative (min infiniteMagnitude ((unit + 1074).toNat * hiddenBit + significand))

/-- The number nearest to a natural number. -/
def ofNat (n : Nat) : Number := nearest false n 1

/-- Every natural number from `2 ^ 1024` on rounds to infinity. -/
def overflow : Nat := 1 <<< 1024

/-- Appends a decimal digit to a natural number that is to be rounded. What rounds
to infinity need not be told apart, so the number stops growing at `overflow`. -/
def appendDigit (n digit : Nat) : Nat := min overflow (n * 10 + digit)

/-- The product of two finite non-negative numbers, rounded once. -/
def scaleUp (x y : Number) : Number :=
  let e := x.exponent + y.exponent
  nearest false ((x.significand * y.significand) <<< e.toNat) (1 <<< (-e).toNat)

/-- The quotient of a finite non-negative number by a positive one, rounded once. -/
def scaleDown (x y : Number) : Number :=
  let e := x.exponent - y.exponent
  nearest false (x.significand <<< e.toNat) (y.significand <<< (-e).toNat)

/-- The number with its sign turned. -/
def negate (x : Number) : Number :=
  ofMagnitude (!x.isNegative) x.magnitude

end Number

end Passage

import Passage.Text.Align

/-!
# Bytes in hexadecimal

A sequence of bytes is written as two digits per byte.
-/

namespace Passage.Text

def hexOfBytes (bytes : List UInt8) : String :=
  String.join (bytes.map fun b => hexPadded 2 b.toNat)

/-- The value of a hexadecimal digit of either case. -/
def hexDigit? (c : Char) : Option Nat :=
  if c.isDigit then some (c.toNat - 48)
  else if 'a' ≤ c ∧ c ≤ 'f' then some (c.toNat - 87)
  else if 'A' ≤ c ∧ c ≤ 'F' then some (c.toNat - 55)
  else none

/-- The value of hexadecimal digits. -/
def hexValue? (text : String) : Option Nat :=
  text.toList.foldlM (fun n c => (hexDigit? c).map fun d => n * 16 + d) 0

/-- Reads pairs of digits; `done` holds the bytes before them, last first. -/
def readHex? (done : List UInt8) : List Char → Option (List UInt8)
  | [] => some done.reverse
  | high :: low :: rest =>
      match hexDigit? high, hexDigit? low with
      | some h, some l => readHex? (UInt8.ofNat (h * 16 + l) :: done) rest
      | _, _ => none
  | [_] => none

/-- The bytes that pairs of digits stand for. -/
def bytesOfHex? (text : String) : Option (List UInt8) := readHex? [] text.toList

end Passage.Text

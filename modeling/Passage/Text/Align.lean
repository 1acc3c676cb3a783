/-!
# Columns and hexadecimal numerals

The texts this library writes are laid out in fixed columns and show machine
words in base sixteen. Both are defined here on counts of characters.
-/

namespace Passage.Text

/-- Pads with blanks on the right up to `width` characters. -/
def alignLeft (width : Nat) (text : String) : String :=
  text ++ String.ofList (List.replicate (width - text.length) ' ')

/-- Pads with `fill` on the left up to `width` characters. -/
def padLeft (width : Nat) (fill : Char) (text : String) : String :=
  String.ofList (List.replicate (width - text.length) fill) ++ text

/-- Pads with blanks on the left up to `width` characters. -/
def alignRight (width : Nat) (text : String) : String :=
  padLeft width ' ' text

/-- Lower-case hexadecimal digits without leading zeros. -/
def hex (n : Nat) : String :=
  String.ofList (Nat.toDigits 16 n)

/-- At least `width` lower-case hexadecimal digits. -/
def hexPadded (width n : Nat) : String :=
  padLeft width '0' (hex n)

/-- The upper-case form of a hexadecimal digit. -/
def upperDigit (c : Char) : Char :=
  if 'a' ≤ c ∧ c ≤ 'f' then Char.ofNat (c.toNat - 32) else c

/-- At least `width` upper-case hexadecimal digits. -/
def hexUpper (width n : Nat) : String :=
  padLeft width '0' (String.ofList ((Nat.toDigits 16 n).map upperDigit))

/-- A word behind `0x`, with at least `width` digits. -/
def hexWord (width n : Nat) : String :=
  "0x" ++ hexPadded width n

/-- Items written one after another with `sep` between them. -/
def separated (sep : String) : List String → String
  | [] => ""
  | item :: rest => rest.foldl (fun acc next => acc ++ sep ++ next) item

end Passage.Text

/-!
# Snapshot primitives

Snapshots are sequences of bytes. A natural number is written in base 128, low
digits first, with the top bit set on every byte but the last; a signed one is
first folded onto the naturals. A sequence is written as its length and its
items.

A decoder takes what it needs from the front and returns the rest. It accepts
padding zeros within the longest form of a width, and refuses what exceeds it.
-/

namespace Passage.Snapshot

inductive SnapshotError where
  | unexpectedEnd
  | badVarint
  | badText
deriving DecidableEq, Repr

/-- Takes a value from the front of the bytes. -/
abbrev Decoder (α : Type) := List UInt8 → Except SnapshotError (α × List UInt8)

/-! ## Numbers -/

/-- A number in base 128; `fuel` bounds its continued bytes. -/
def varintWithin : Nat → Nat → List UInt8
  | 0, n => [UInt8.ofNat n]
  | fuel + 1, n =>
      if n < 128 then [UInt8.ofNat n]
      else UInt8.ofNat (n % 128 + 128) :: varintWithin fuel (n / 128)

/-- The longest number, of 64 bits, takes ten bytes. -/
def varint (n : Nat) : List UInt8 := varintWithin 9 n

/-- Reads a number of at most `left` bytes, whose lowest digit counts `2 ^ shift`
and whose last byte, if all are used, is at most `last`. -/
def readVarint (last : Nat) (shift value : Nat) : Nat → Decoder Nat
  | 0, _ => .error .badVarint
  | _ + 1, [] => .error .unexpectedEnd
  | left + 1, byte :: rest =>
      let value := value + (byte.toNat % 128) <<< shift
      if byte.toNat < 128 then
        if left = 0 && last < byte.toNat then .error .badVarint else .ok (value, rest)
      else readVarint last (shift + 7) value left rest

def nat16 : Decoder Nat := readVarint 3 0 0 3

def nat32 : Decoder Nat := readVarint 15 0 0 5

def nat64 : Decoder Nat := readVarint 1 0 0 10

/-- A signed number as the even or odd natural number next to its double. -/
def zigzag (n : Int) : Nat :=
  if 0 ≤ n then 2 * n.toNat else 2 * (-n).toNat - 1

def unzigzag (n : Nat) : Int :=
  if n % 2 = 0 then (n / 2 : Nat) else -((n / 2 + 1 : Nat) : Int)

/-! ## Sequences -/

/-- The first `count` bytes. -/
def take (count : Nat) : Decoder (List UInt8) := fun bytes =>
  let taken := bytes.take count
  if taken.length < count then .error .unexpectedEnd else .ok (taken, bytes.drop count)

/-- `count` items; `done` holds those before them, last first. -/
def many {α : Type} (item : Decoder α) : Nat → List α → Decoder (List α)
  | 0, done, bytes => .ok (done.reverse, bytes)
  | count + 1, done, bytes =>
      match item bytes with
      | .error e => .error e
      | .ok (x, rest) => many item count (x :: done) rest

/-- A sequence: its length, then its items. -/
def sequence {α : Type} (item : Decoder α) : Decoder (List α) := fun bytes =>
  match nat64 bytes with
  | .error e => .error e
  | .ok (count, rest) => many item count [] rest

def sequenceBytes {α : Type} (item : α → List UInt8) (items : List α) : List UInt8 :=
  varint items.length ++ items.flatMap item

/-- A text: its length in bytes, then its characters. -/
def text : Decoder String := fun bytes =>
  match nat64 bytes with
  | .error e => .error e
  | .ok (count, rest) =>
      match take count rest with
      | .error e => .error e
      | .ok (taken, rest) =>
          match String.fromUTF8? ⟨taken.toArray⟩ with
          | some s => .ok (s, rest)
          | none => .error .badText

def textBytes (s : String) : List UInt8 :=
  varint s.utf8ByteSize ++ s.toUTF8.data.toList

end Passage.Snapshot

import Passage.Object.Basic
import Passage.Object.Signature

/-!
# Frozen object tables

The objects that compiled code refers to by index, the string arena that string
objects refer to, and the built-in functions with their pointers.
-/

namespace Passage

structure ObjectTable where
  values : Array Object
  strings : ByteArray
  builtIns : List (Object × Signature)
deriving Inhabited

/-- Tables are compared part by part, and arenas byte by byte. -/
instance : DecidableEq ObjectTable := fun s t =>
  decidable_of_iff
    (s.values = t.values ∧ s.strings.data = t.strings.data ∧ s.builtIns = t.builtIns) (by
      cases s; cases t; simp [ByteArray.ext_iff])

namespace ObjectTable

def size (t : ObjectTable) : Nat := t.values.size

def get? (t : ObjectTable) (index : Nat) : Option Object := t.values[index]?

/-- Whether a character of the arena begins at an offset, or the arena ends there.
Bytes that continue a character have `10` as their highest bits. -/
def isBoundary (strings : ByteArray) (offset : Nat) : Bool :=
  if h : offset < strings.size then strings[offset].toNat / 64 != 2 else offset == strings.size

/-- The text in a slice of the arena: within its bounds, and whole characters. -/
def slice? (strings : ByteArray) (offset length : Nat) : Option String :=
  if isBoundary strings offset && isBoundary strings (offset + length) then
    String.fromUTF8? (strings.extract offset (offset + length))
  else none

/-- The text that a string object refers to. -/
def decodeString (t : ObjectTable) (o : Object) : Except ObjectError String := do
  let ref ← o.asString
  match slice? t.strings ref.offset.toNat ref.length.toNat with
  | some text => pure text
  | none => throw (.danglingString ref)

end ObjectTable

end Passage

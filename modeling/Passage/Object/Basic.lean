import Passage.Object.Value

/-!
# Objects

An object is a 64-bit word that packs a value. Words whose thirteen bits below
the sign are not all set are numbers. In the others, the sign and the two bits
above the payload give the category, and the low 48 bits are the payload.
-/

namespace Passage

structure Object where
  bits : UInt64
deriving DecidableEq, Inhabited

namespace Object

/-- The sixteen bits above the payload. -/
def head (o : Object) : Nat := o.bits.toNat >>> 48

/-- The low 48 bits. -/
def payload (o : Object) : Nat := o.bits.toNat % 0x1_0000_0000_0000

/-- Whether the word is not a number: the marker bits are all set. -/
def isBoxed (o : Object) : Bool := o.head % 0x8000 / 4 == 0x1FFF

def categoryOfCode : Nat → Category
  | 1 => .pointer
  | 2 => .string
  | 3 => .bytes
  | 4 => .signed
  | 5 => .unsigned
  | 6 => .bool
  | 7 => .null
  | _ => .reserved

/-- The code that marks a boxed category. -/
def codeOf : Category → Nat
  | .pointer => 1
  | .string => 2
  | .bytes => 3
  | .signed => 4
  | .unsigned => 5
  | .bool => 6
  | .null => 7
  | .number | .reserved => 0

def category (o : Object) : Category :=
  if o.isBoxed then categoryOfCode (o.head / 0x8000 * 4 + o.head % 4) else .number

/-! ## Packing -/

/-- The word with a category's marker above a payload. -/
def boxed (category : Category) (payload : Nat) : Object :=
  let code := codeOf category
  let head := code / 4 * 0x8000 + 0x7FFC + code % 4
  ⟨UInt64.ofNat (head <<< 48 + payload % 0x1_0000_0000_0000)⟩

def ofBool (b : Bool) : Object := boxed .bool (if b then 1 else 0)

def null : Object := boxed .null 0

def ofPointer (p : Pointer) : Object :=
  boxed .pointer (p.tag.code <<< 32 + p.address.toNat)

def ofString (s : StringRef) : Object :=
  boxed .string (s.length.toNat <<< 32 + s.offset.toNat)

def ofBytes (b : SixBytes) : Object :=
  boxed .bytes
    (b.b0.toNat + b.b1.toNat <<< 8 + b.b2.toNat <<< 16 + b.b3.toNat <<< 24 +
      b.b4.toNat <<< 32 + b.b5.toNat <<< 40)

def ofSigned (n : Int32) : Object := boxed .signed n.toUInt32.toNat

def ofUnsigned (n : UInt32) : Object := boxed .unsigned n.toNat

/-- A number packs as its own bits, unless it is NaN. -/
def ofNumber (x : Number) : Except ObjectError Object :=
  if x.isNaN then .error .notANumber else .ok ⟨x.bits⟩

def pack : Value → Except ObjectError Object
  | .number x => ofNumber x
  | .pointer p => .ok (ofPointer p)
  | .string s => .ok (ofString s)
  | .bytes b => .ok (ofBytes b)
  | .signed n => .ok (ofSigned n)
  | .unsigned n => .ok (ofUnsigned n)
  | .bool b => .ok (ofBool b)
  | .null => .ok null

/-! ## Reading -/

/-- The payload read as the given category. -/
def expect {α : Type} (o : Object) (category : Category) (read : Nat → α) : Except ObjectError α :=
  if o.category = category then .ok (read o.payload) else .error (.wrongType category o.category)

def asNumber (o : Object) : Except ObjectError Number :=
  o.expect .number fun _ => ⟨o.bits⟩

def asBool (o : Object) : Except ObjectError Bool :=
  o.expect .bool fun p => p != 0

def asPointer (o : Object) : Except ObjectError Pointer := do
  let payload ← o.expect .pointer id
  match PointerTag.ofCode? (payload >>> 32) with
  | some tag => pure ⟨tag, UInt32.ofNat payload⟩
  | none => throw (.unknownPointerTag (payload >>> 32))

def asString (o : Object) : Except ObjectError StringRef :=
  o.expect .string fun p => ⟨UInt32.ofNat p, UInt16.ofNat (p >>> 32)⟩

def asBytes (o : Object) : Except ObjectError SixBytes :=
  o.expect .bytes fun p =>
    ⟨UInt8.ofNat p, UInt8.ofNat (p >>> 8), UInt8.ofNat (p >>> 16), UInt8.ofNat (p >>> 24),
      UInt8.ofNat (p >>> 32), UInt8.ofNat (p >>> 40)⟩

def asSigned (o : Object) : Except ObjectError Int32 :=
  o.expect .signed fun p => (UInt32.ofNat p).toInt32

def asUnsigned (o : Object) : Except ObjectError UInt32 :=
  o.expect .unsigned fun p => UInt32.ofNat p

def unpack (o : Object) : Except ObjectError Value :=
  match o.category with
  | .number => o.asNumber.map .number
  | .pointer => o.asPointer.map .pointer
  | .string => o.asString.map .string
  | .bytes => o.asBytes.map .bytes
  | .signed => o.asSigned.map .signed
  | .unsigned => o.asUnsigned.map .unsigned
  | .bool => o.asBool.map .bool
  | .null => .ok .null
  | .reserved => .error (.wrongType .number .reserved)

/-- Every word is true but the packed false and the packed null. -/
def isTruthy (o : Object) : Bool := o != ofBool false && o != null

def isNull (o : Object) : Bool := o == null

/-- How an object is shown: its value, or its word if it has none. -/
def text (o : Object) : String :=
  match o.unpack with
  | .ok value => "Object(" ++ value.text ++ ")"
  | .error _ => "Object(" ++ Text.hexWord 16 o.bits.toNat ++ ")"

end Object

end Passage

import Passage.Diagnostic
import Passage.Number.Notation
import Passage.Text.Align

/-!
# Values of the machine

What a machine word can stand for: a number, a pointer to a world object, a
reference into the string arena, six raw bytes, a 32-bit integer, a truth value,
or nothing.
-/

namespace Passage

/-- What a pointer points at. -/
inductive PointerTag where
  | token | setting | function | region | transit
deriving DecidableEq, Repr, Inhabited

namespace PointerTag

def code : PointerTag → Nat
  | .token => 0x0A
  | .setting => 0x0B
  | .function => 0x0C
  | .region => 0x0D
  | .transit => 0x0E

def ofCode? : Nat → Option PointerTag
  | 0x0A => some .token
  | 0x0B => some .setting
  | 0x0C => some .function
  | 0x0D => some .region
  | 0x0E => some .transit
  | _ => none

def name : PointerTag → String
  | .token => "Token"
  | .setting => "Setting"
  | .function => "Func"
  | .region => "Region"
  | .transit => "Transit"

theorem ofCode?_code (tag : PointerTag) : ofCode? tag.code = some tag := by
  cases tag <;> rfl

end PointerTag

structure Pointer where
  tag : PointerTag
  address : UInt32
deriving DecidableEq, Inhabited

/-- A slice of the string arena, in bytes. -/
structure StringRef where
  offset : UInt32
  length : UInt16
deriving DecidableEq, Inhabited

structure SixBytes where
  b0 : UInt8
  b1 : UInt8
  b2 : UInt8
  b3 : UInt8
  b4 : UInt8
  b5 : UInt8
deriving DecidableEq, Inhabited

def SixBytes.toList (b : SixBytes) : List UInt8 := [b.b0, b.b1, b.b2, b.b3, b.b4, b.b5]

inductive Value where
  | number (value : Number)
  | pointer (value : Pointer)
  | string (value : StringRef)
  | bytes (value : SixBytes)
  | signed (value : Int32)
  | unsigned (value : UInt32)
  | bool (value : Bool)
  | null
deriving DecidableEq, Inhabited

/-- The variants of `Value`, and the words that are none of them. -/
inductive Category where
  | number | pointer | string | bytes | signed | unsigned | bool | null | reserved
deriving DecidableEq, Repr, Inhabited

def Category.name : Category → String
  | .number => "number"
  | .pointer => "ptr"
  | .string => "str"
  | .bytes => "bytes"
  | .signed => "i32"
  | .unsigned => "u32"
  | .bool => "bool"
  | .null => "null"
  | .reserved => "reserved"

def Value.category : Value → Category
  | .number _ => .number
  | .pointer _ => .pointer
  | .string _ => .string
  | .bytes _ => .bytes
  | .signed _ => .signed
  | .unsigned _ => .unsigned
  | .bool _ => .bool
  | .null => .null

inductive ObjectError where
  | wrongType (expected found : Category)
  | notANumber
  | unknownPointerTag (code : Nat)
  | danglingString (ref : StringRef)
deriving DecidableEq

def ObjectError.message : ObjectError → String
  | .wrongType expected found =>
      "expected " ++ expected.name ++ " object but found " ++ found.name
  | .notANumber => "NaN cannot be packed into an object"
  | .unknownPointerTag code => "unknown pointer tag " ++ Text.hexWord 4 code
  | .danglingString ref =>
      "string reference " ++ toString ref.offset.toNat ++ "+" ++ toString ref.length.toNat ++
        " is outside the arena"

def ObjectError.code : ObjectError → String
  | .wrongType .. => "WrongType"
  | .notANumber => "NotANumber"
  | .unknownPointerTag .. => "UnknownPtrTag"
  | .danglingString .. => "DanglingString"

instance : Diagnostic ObjectError := ⟨ObjectError.code, ObjectError.message⟩

/-! ## Values as text -/

def Pointer.text (p : Pointer) : String :=
  "Ptr \x7b tag: " ++ p.tag.name ++ ", addr: " ++ toString p.address.toNat ++ " \x7d"

def StringRef.text (s : StringRef) : String :=
  "StrRef \x7b offset: " ++ toString s.offset.toNat ++ ", len: " ++ toString s.length.toNat ++
    " \x7d"

def Value.text : Value → String
  | .number x => "Number(" ++ x.taggedText ++ ")"
  | .pointer p => "Ptr(" ++ p.text ++ ")"
  | .string s => "Str(" ++ s.text ++ ")"
  | .bytes b => "Bytes([" ++ Text.separated ", " (b.toList.map fun n => toString n.toNat) ++ "])"
  | .signed n => "I32(" ++ toString n.toInt ++ ")"
  | .unsigned n => "U32(" ++ toString n.toNat ++ ")"
  | .bool b => "Bool(" ++ (if b then "true" else "false") ++ ")"
  | .null => "Null"

end Passage

/-!
# Opcodes

The instruction set of the machine. Stored code depends on the byte of an opcode
and on the layout of its operands.
-/

namespace Passage

/-- What follows an opcode byte: nothing, a 16-bit word, or a word and a byte. -/
inductive Layout where
  | bare | word | wordByte
deriving DecidableEq, Repr, Inhabited

/-- The number of operand bytes. -/
def Layout.width : Layout → Nat
  | .bare => 0
  | .word => 2
  | .wordByte => 3

inductive Opcode where
  | nop
  | err
  | pushTrue
  | pushFalse
  | pushConst
  | pushPtr
  | pushStr
  | pushFunc
  | invert
  | needAll
  | needAny
  | checkQuantity
  | invoke
  | invokeBare
  | compareEqual
  | compareUnequal
  | compareLess
deriving DecidableEq, Repr, Inhabited

namespace Opcode

def byte : Opcode → UInt8
  | .nop => 0x00
  | .err => 0xFF
  | .pushTrue => 0x21
  | .pushFalse => 0x22
  | .pushConst => 0x23
  | .pushPtr => 0x24
  | .pushStr => 0x25
  | .pushFunc => 0x26
  | .invert => 0x31
  | .needAll => 0x32
  | .needAny => 0x33
  | .checkQuantity => 0x41
  | .invoke => 0x51
  | .invokeBare => 0x52
  | .compareEqual => 0x61
  | .compareUnequal => 0x62
  | .compareLess => 0x63

def ofByte? : UInt8 → Option Opcode
  | 0x00 => some .nop
  | 0xFF => some .err
  | 0x21 => some .pushTrue
  | 0x22 => some .pushFalse
  | 0x23 => some .pushConst
  | 0x24 => some .pushPtr
  | 0x25 => some .pushStr
  | 0x26 => some .pushFunc
  | 0x31 => some .invert
  | 0x32 => some .needAll
  | 0x33 => some .needAny
  | 0x41 => some .checkQuantity
  | 0x51 => some .invoke
  | 0x52 => some .invokeBare
  | 0x61 => some .compareEqual
  | 0x62 => some .compareUnequal
  | 0x63 => some .compareLess
  | _ => none

theorem ofByte?_byte (op : Opcode) : ofByte? op.byte = some op := by
  cases op <;> rfl

def mnemonic : Opcode → String
  | .nop => "NOP"
  | .err => "ERR"
  | .pushTrue => "PUSH_T"
  | .pushFalse => "PUSH_F"
  | .pushConst => "PUSH_CONST"
  | .pushPtr => "PUSH_PTR"
  | .pushStr => "PUSH_STR"
  | .pushFunc => "PUSH_FUNC"
  | .invert => "INVERT"
  | .needAll => "NEED_ALL"
  | .needAny => "NEED_ANY"
  | .checkQuantity => "CHK_QTY"
  | .invoke => "INVOKE"
  | .invokeBare => "INVOKE_0"
  | .compareEqual => "CMP_EQ"
  | .compareUnequal => "CMP_NQ"
  | .compareLess => "CMP_LT"

def layout : Opcode → Layout
  | .pushConst | .pushPtr | .pushStr | .pushFunc => .word
  | .needAll | .needAny | .invoke | .invokeBare => .word
  | .checkQuantity => .wordByte
  | _ => .bare

/-- How an instruction changes the number of operands, where its operand words
do not matter. -/
def stackEffect : Opcode → Option Int
  | .nop | .err | .invert | .checkQuantity => some 0
  | .pushTrue | .pushFalse | .pushConst | .pushPtr | .pushStr | .pushFunc | .invokeBare => some 1
  | .compareEqual | .compareUnequal | .compareLess => some (-1)
  | .needAll | .needAny | .invoke => none

end Opcode

end Passage

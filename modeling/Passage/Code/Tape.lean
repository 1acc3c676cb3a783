import Passage.Code.Opcode
import Passage.Diagnostic
import Passage.Text.Align

/-!
# Tapes

Code is stored as a tape of bytes: each opcode followed by its operands, words
with their low byte first. The assembler writes a tape and keeps account of the
operand stack that running it needs; `Listing.ofTape` reads one back into
instructions and says how the tape ends.
-/

namespace Passage

/-- The operands written behind an opcode. -/
inductive Operands where
  | bare
  | word (a : UInt16)
  | wordByte (a : UInt16) (b : UInt8)
deriving DecidableEq, Inhabited

namespace Operands

def layout : Operands → Layout
  | .bare => .bare
  | .word _ => .word
  | .wordByte _ _ => .wordByte

/-- A word as two bytes, the low one first. -/
def wordBytes (a : UInt16) : List UInt8 := [a.toUInt8, (a >>> 8).toUInt8]

/-- The word that two bytes make, the low one first. -/
def ofWordBytes (low high : UInt8) : UInt16 := low.toUInt16 ||| (high.toUInt16 <<< 8)

def bytes : Operands → List UInt8
  | .bare => []
  | .word a => wordBytes a
  | .wordByte a b => wordBytes a ++ [b]

end Operands

structure Instruction where
  op : Opcode
  operands : Operands
deriving DecidableEq, Inhabited

/-- Whether the operands are those that the opcode takes. -/
def Instruction.WellFormed (i : Instruction) : Prop := i.operands.layout = i.op.layout

def Instruction.bytes (i : Instruction) : List UInt8 := i.op.byte :: i.operands.bytes

/-! ## Writing -/

/-- A tape in the making, with the stack depth behind it and the deepest so far. -/
structure Assembler where
  tape : ByteArray
  depth : Nat
  deepest : Nat
deriving Inhabited

namespace Assembler

def empty : Assembler := ⟨ByteArray.empty, 0, 0⟩

/-- The deepest stack that is told apart. -/
def deepestCount : Nat := 65535

/-- An operand count for the stack account, which is kept in 16 signed bits. -/
def countOf (a : UInt16) : Int := min a.toNat 32767

/-- Moves the stack account, within its bounds. -/
def adjust (s : Assembler) (delta : Int) : Assembler :=
  let depth := min ((s.depth : Int) + delta).toNat deepestCount
  { s with depth := depth, deepest := max s.deepest depth }

/-- What writing an instruction does to the stack account. A junction pops its
operands and pushes one; a call pops its arguments and the function and pushes
one. -/
def account (op : Opcode) : Operands → Option Int
  | .word a =>
      match op with
      | .needAll | .needAny => some (1 - countOf a)
      | .invoke => some (-countOf a)
      | op => op.stackEffect
  | _ => op.stackEffect

/-- Writes an opcode and operands. -/
def emit (s : Assembler) (op : Opcode) (operands : Operands) : Assembler :=
  let written := { s with tape := operands.bytes.foldl ByteArray.push (s.tape.push op.byte) }
  match account op operands with
  | some delta => written.adjust delta
  | none => written

end Assembler

/-! ## Reading -/

/-- How a tape ends: with a whole instruction, at a byte that is no opcode, or
inside an instruction. -/
inductive TapeEnd where
  | complete
  | unknown (offset : Nat) (byte : UInt8)
  | truncated (offset : Nat) (op : Opcode)
deriving DecidableEq, Inhabited

/-- The instructions of a tape with their offsets, and how the tape ends. -/
structure Listing where
  instructions : List (Nat × Instruction)
  ending : TapeEnd
deriving DecidableEq, Inhabited

namespace Listing

/-- Reads on from `offset`; `done` holds the instructions before it, last first. -/
def read (offset : Nat) (done : List (Nat × Instruction)) : List UInt8 → Listing
  | [] => ⟨done.reverse, .complete⟩
  | byte :: rest =>
      match Opcode.ofByte? byte with
      | none => ⟨done.reverse, .unknown offset byte⟩
      | some op =>
          match op.layout, rest with
          | .bare, rest => read (offset + 1) ((offset, ⟨op, .bare⟩) :: done) rest
          | .word, low :: high :: rest =>
              read (offset + 3) ((offset, ⟨op, .word (Operands.ofWordBytes low high)⟩) :: done) rest
          | .wordByte, low :: high :: b :: rest =>
              read (offset + 4)
                ((offset, ⟨op, .wordByte (Operands.ofWordBytes low high) b⟩) :: done) rest
          | _, _ => ⟨done.reverse, .truncated offset op⟩

def ofTape (tape : ByteArray) : Listing := read 0 [] tape.data.toList

end Listing

inductive DecodeError where
  | unknownOpcode (offset : Nat) (byte : UInt8)
  | truncated (offset : Nat)
deriving DecidableEq

def DecodeError.message : DecodeError → String
  | .unknownOpcode offset byte =>
      "unrecognized op " ++ Text.hexWord 2 byte.toNat ++ " at " ++ toString offset
  | .truncated offset => "instruction at " ++ toString offset ++ " is truncated"

def DecodeError.code : DecodeError → String
  | .unknownOpcode .. => "UnknownOpcode"
  | .truncated .. => "Truncated"

instance : Diagnostic DecodeError := ⟨DecodeError.code, DecodeError.message⟩

/-- All instructions of a tape with their offsets, if it ends with a whole one. -/
def decodeTape (tape : ByteArray) : Except DecodeError (List (Nat × Instruction)) :=
  let listing := Listing.ofTape tape
  match listing.ending with
  | .complete => .ok listing.instructions
  | .unknown offset byte => .error (.unknownOpcode offset byte)
  | .truncated offset _ => .error (.truncated offset)

end Passage

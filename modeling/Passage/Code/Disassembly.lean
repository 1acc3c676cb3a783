import Passage.Code.Basic
import Passage.Object.Table
import Passage.Text.Quoted

/-!
# Disassembly

One line per instruction, with its offset and operands, then the constants that
the code refers to.
-/

namespace Passage.Code

def operandText : Operands → String
  | .bare => ""
  | .word a => " " ++ Text.hexWord 4 a.toNat
  | .wordByte a b => " " ++ Text.hexWord 4 a.toNat ++ " " ++ toString b.toNat

def instructionLine (offset : Nat) (i : Instruction) : String :=
  Text.padLeft 4 '0' (toString offset) ++ "  " ++ Text.alignLeft 10 i.op.mnemonic ++
    operandText i.operands ++ "\n"

/-- What a constant is, behind its index and word. -/
def constantText (code : Code) (table : ObjectTable) (index : UInt16) (o : Object) : String :=
  match o.unpack with
  | .ok (.pointer p) =>
      "ptr     " ++ p.tag.name ++ "@" ++ toString p.address.toNat ++
        match code.names.lookup index with
        | some name => "  " ++ Text.quoteString name
        | none => ""
  | .ok (.string _) =>
      match table.decodeString o with
      | .ok text => "str     " ++ Text.quoteString text
      | .error e => "str     <" ++ e.message ++ ">"
  | .ok (.number x) => "number  " ++ x.plainText
  | .ok value => Text.alignLeft 7 value.category.name ++ " " ++ value.text
  | .error e => "<" ++ e.message ++ ">"

def constantLine (code : Code) (table : ObjectTable) (index : UInt16) : String :=
  let label := Text.hexWord 4 index.toNat
  match table.get? index.toNat with
  | none => label ++ "  <missing>\n"
  | some o =>
      label ++ "  " ++ Text.hexUpper 16 o.bits.toNat ++ "  " ++ code.constantText table index o ++
        "\n"

def instructionText (code : Code) : String :=
  match decodeTape code.tape with
  | .ok instructions =>
      instructions.foldl (fun out (offset, i) => out ++ instructionLine offset i) ""
  | .error e => "<" ++ e.message ++ ">\n"

def constantsText (code : Code) (table : ObjectTable) : String :=
  if code.consts.isEmpty then ""
  else code.consts.foldl (fun out index => out ++ code.constantLine table index) "CONSTANTS\n"

def disassemble (code : Code) (table : ObjectTable) : String :=
  code.instructionText ++ code.constantsText table

end Passage.Code

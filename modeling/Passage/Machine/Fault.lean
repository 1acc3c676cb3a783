import Passage.Code.Opcode
import Passage.Object.Basic
import Passage.Text.Quoted

/-!
# Faults of a run
-/

namespace Passage

/-- The number of operands that the stack holds. -/
def stackLimit : Nat := 256

/-- Why a run failed. `ip` is the offset of the failing opcode. -/
inductive RunFault where
  | stackUnderflow (ip : Nat)
  | stackOverflow (ip : Nat)
  | unknownOpcode (ip : Nat) (byte : UInt8)
  | halted (ip : Nat)
  | comparison (ip : Nat) (op : Opcode)
  | truncatedTape (ip : Nat)
  | badConstant (ip : Nat) (index : UInt16)
  | unknownCallee (ip : Nat) (callee : Object)
  | missingQuantityCheck (ip : Nat)
  | argumentCount (name : String) (expected : Int) (received : Nat)
  | builtIn (name message : String)
  | panicked (payload : Option String)
deriving DecidableEq

namespace RunFault

def message : RunFault → String
  | .stackUnderflow ip => "stack underflow at " ++ toString ip
  | .stackOverflow ip =>
      "stack overflow at " ++ toString ip ++ " (limit " ++ toString stackLimit ++ ")"
  | .unknownOpcode ip byte =>
      "unrecognized op " ++ Text.hexWord 2 byte.toNat ++ " at " ++ toString ip
  | .halted ip => "execution halted at " ++ toString ip
  | .comparison ip op =>
      "runtime comparison not implemented: " ++ op.mnemonic ++ " at " ++ toString ip
  | .truncatedTape ip => "instruction at " ++ toString ip ++ " is truncated"
  | .badConstant ip index =>
      "constant " ++ Text.hexWord 4 index.toNat ++ " at " ++ toString ip ++ " is not in the table"
  | .unknownCallee ip callee =>
      callee.text ++ " at " ++ toString ip ++ " is not a callable built-in"
  | .missingQuantityCheck ip =>
      "no quantity check installed for " ++ Opcode.checkQuantity.mnemonic ++ " at " ++ toString ip
  | .argumentCount name expected received =>
      Text.quoteString name ++ " expects " ++ toString expected ++ " arguments but received " ++
        toString received
  | .builtIn name message => name ++ ": " ++ message
  | .panicked payload => "VM panicked: " ++ payload.getD "unknown panic payload"

def code : RunFault → String
  | .stackUnderflow .. => "StackUnderflow"
  | .stackOverflow .. => "StackOverflow"
  | .unknownOpcode .. => "UnknownOpcode"
  | .halted .. => "Halted"
  | .comparison .. => "Comparison"
  | .truncatedTape .. => "TruncatedTape"
  | .badConstant .. => "BadConstant"
  | .unknownCallee .. => "UnknownCallee"
  | .missingQuantityCheck .. => "MissingQuantityCheck"
  | .argumentCount .. => "ArgumentCount"
  | .builtIn .. => "BuiltIn"
  | .panicked .. => "Panicked"

instance : Diagnostic RunFault := ⟨code, message⟩

def isPanic : RunFault → Bool
  | .panicked _ => true
  | _ => false

end RunFault

end Passage

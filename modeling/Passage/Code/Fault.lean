import Passage.Object.Pool

/-!
# Faults of code generation
-/

namespace Passage

inductive CompileError where
  /-- A name of this kind has no value when the code is run. -/
  | uncompilable (name : String) (kind : Symbol.Kind)
  /-- Something other than a name is called. -/
  | notCallable
  /-- The function that is called is not built in. -/
  | unresolvedCallee (name : String)
  | argumentCount (name : String) (expected : Int) (received : Nat)
  | tooManyOperands (count : Nat)
  | unknownSymbol (id : SymbolId)
  | pool (error : PoolError)
deriving DecidableEq

def CompileError.message : CompileError → String
  | .uncompilable name kind =>
      "uncompilable identifier " ++ Text.quoteString name ++ " of kind " ++ kind.name
  | .notCallable => "can only invoke functions"
  | .unresolvedCallee name => "unresolved callee " ++ Text.quoteString name
  | .argumentCount name expected received =>
      Text.quoteString name ++ " expects " ++ toString expected ++ " arguments but received " ++
        toString received
  | .tooManyOperands count => toString count ++ " operands exceed the instruction limit"
  | .unknownSymbol id => "unknown symbol " ++ SymbolId.label id
  | .pool error => error.message

def CompileError.code : CompileError → String
  | .uncompilable .. => "Uncompilable"
  | .notCallable => "NotCallable"
  | .unresolvedCallee .. => "UnresolvedCallee"
  | .argumentCount .. => "ArgumentCount"
  | .tooManyOperands .. => "TooManyOperands"
  | .unknownSymbol .. => "UnknownSymbol"
  | .pool error => "Builder." ++ error.code

instance : Diagnostic CompileError := ⟨CompileError.code, CompileError.message⟩

end Passage

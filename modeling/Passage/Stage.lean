import Passage.Code.Fault
import Passage.Node.Lowering
import Passage.Pass.Fault
import Passage.Rule.Token

/-!
# Stages of compilation

A rule is parsed, lowered, optimized and compiled, over a table of symbols and a
pool of objects. What goes wrong is told with the stage it went wrong in.
-/

namespace Passage

inductive StageError where
  | parsing (error : Rule.ParseError)
  | lowering (error : LowerError)
  | optimization (error : PassError)
  | compilation (error : CompileError)
  | symbols (error : SymbolError)
  | objects (error : PoolError)
deriving DecidableEq

namespace StageError

/-- The name of the stage. -/
def stage : StageError → String
  | .parsing _ => "parsing"
  | .lowering _ => "lowering"
  | .optimization _ => "optimization"
  | .compilation _ => "compile"
  | .symbols _ => "symbols"
  | .objects _ => "objects"

/-- The message of the fault itself. -/
def cause : StageError → String
  | .parsing error => error.message
  | .lowering error => error.message
  | .optimization error => error.message
  | .compilation error => error.message
  | .symbols error => error.message
  | .objects error => error.message

def message (e : StageError) : String := e.stage ++ ": " ++ e.cause

def code : StageError → String
  | .parsing error => "Parse." ++ error.code
  | .lowering error => "Lower." ++ error.code
  | .optimization error => "Optimize." ++ error.code
  | .compilation error => "Compile." ++ error.code
  | .symbols error => "Symbol." ++ error.code
  | .objects error => "Builder." ++ error.code

instance : Diagnostic StageError := ⟨code, message⟩

end StageError

end Passage

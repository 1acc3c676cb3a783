import Passage.Pass.Call
import Passage.Pass.Connection
import Passage.Pass.Fold
import Passage.Pass.Kind
import Passage.Pass.Setting

/-!
# The standard passes
-/

namespace Passage

/-- The pass of a kind. Passes that read settings or answer calls of compiler
functions exist only where these are given. -/
def Pass.ofKind? (inlineDepth : Nat) (settings : Option Settings)
    (functions : Option CompilerFunctions) : PassKind → Option Pass
  | .connections => some .connections
  | .inlineCalls => some (.inlineCalls inlineDepth)
  | .fold => some .fold
  | .bareCalls => some .bareCalls
  | .collapseHas => some .collapseHas
  | .promoteTokens => some .promoteTokens
  | .settings => settings.map .settings
  | .compilerCalls => functions.map .compilerCalls

end Passage

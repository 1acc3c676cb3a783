/-!
# Kinds of passes

The standard passes by name, in the order in which they run within a round.
-/

namespace Passage

inductive PassKind where
  | connections | inlineCalls | fold | bareCalls | collapseHas | promoteTokens | settings
  | compilerCalls
deriving DecidableEq, Repr, Inhabited

namespace PassKind

def name : PassKind → String
  | .connections => "connections"
  | .inlineCalls => "inline"
  | .fold => "fold"
  | .bareCalls => "bare_funcs"
  | .collapseHas => "collapse_has"
  | .promoteTokens => "promote_tokens"
  | .settings => "settings"
  | .compilerCalls => "compiler_funcs"

/-- All passes in the order in which they run. -/
def all : List PassKind :=
  [.connections, .inlineCalls, .fold, .bareCalls, .collapseHas, .promoteTokens, .settings,
   .compilerCalls]

def ofName? (name : String) : Option PassKind := all.find? fun kind => kind.name == name

end PassKind

end Passage

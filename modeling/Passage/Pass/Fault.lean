import Passage.Object.Pool
import Passage.Setting.Basic

/-!
# Faults of passes
-/

namespace Passage

/-- The values that equality compares and `<` does not. -/
inductive Unordered where
  | booleans | identifiers
deriving DecidableEq, Repr

def Unordered.name : Unordered → String
  | .booleans => "booleans"
  | .identifiers => "identifiers"

inductive PassError where
  /-- A scripted function is called with the wrong number of arguments. -/
  | arity (name : String) (expected received : Nat)
  /-- Calls of scripted functions are nested more deeply than is allowed. -/
  | inlineDepth (name : String) (limit : Nat)
  | missingScript (name : String)
  /-- A function with parameters stands without arguments. -/
  | bareFunction (name : String) (params : Nat)
  | ordering (values : Unordered)
  | noCurrentRegion
  /-- The arguments of a call have the wrong shape. -/
  | malformed (construct reason : String)
  /-- A name of the schema belongs to a symbol that is no setting. -/
  | notASetting (name : String) (kind : Symbol.Kind)
  | setting (error : SettingError)
  | unknownSymbol (id : SymbolId)
  | symbol (error : SymbolError)
  | pool (error : PoolError)
deriving DecidableEq

def PassError.message : PassError → String
  | .arity name expected received =>
      name ++ ": expected " ++ toString expected ++ " args but got " ++ toString received
  | .inlineDepth name limit =>
      "inlining " ++ Text.quoteString name ++ " exceeds the nesting limit of " ++ toString limit
  | .missingScript name =>
      "fn " ++ Text.quoteString name ++ " was declared but not available in table"
  | .bareFunction name params =>
      "expected 0-arg function, but " ++ Text.quoteString name ++ " has " ++ toString params ++
        " args"
  | .ordering values => values.name ++ " do not support ordering"
  | .noCurrentRegion => "expected current location to be set"
  | .malformed construct reason => "malformed " ++ construct ++ ": " ++ reason
  | .notASetting name kind =>
      "found setting reader for non-setting " ++ Text.quoteString name ++ " of kind " ++ kind.name
  | .setting error => error.message
  | .unknownSymbol id => "unknown symbol " ++ SymbolId.label id
  | .symbol error => error.message
  | .pool error => error.message

def PassError.code : PassError → String
  | .arity .. => "Arity"
  | .inlineDepth .. => "InlineDepth"
  | .missingScript .. => "MissingScript"
  | .bareFunction .. => "BareFunction"
  | .ordering .. => "Ordering"
  | .noCurrentRegion => "NoCurrentRegion"
  | .malformed .. => "Malformed"
  | .notASetting .. => "NotASetting"
  | .setting (.unknown ..) => "UnknownSetting"
  | .setting error => "Setting." ++ error.code
  | .unknownSymbol .. => "UnknownSymbol"
  | .symbol error => "Symbol." ++ error.code
  | .pool error => "Builder." ++ error.code

instance : Diagnostic PassError := ⟨PassError.code, PassError.message⟩

end Passage

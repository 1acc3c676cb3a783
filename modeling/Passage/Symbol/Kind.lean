/-!
# Kinds of symbols

Every name a rule uses has a kind. Declaring a name again is allowed where the
second kind says the same or less, or refines what was known; `Kind.refine`
gives the kind that results.
-/

namespace Passage.Symbol

inductive Kind where
  | builtInFunction
  | compilerFunction
  /-- A callable of unknown provenance. -/
  | function
  | scriptedFunction
  | global
  | setting
  /-- A further name of another symbol. -/
  | byname
  /-- A parameter of a scripted function. -/
  | parameter
  | unknown
  | region
  | placement
  | token
  | transit
deriving DecidableEq, Repr, Inhabited

namespace Kind

def name : Kind → String
  | .builtInFunction => "BUILT_IN_FUNCTION"
  | .compilerFunction => "COMPILER_FUNCTION"
  | .function => "FUNCTION"
  | .scriptedFunction => "SCRIPTED_FUNC"
  | .global => "GLOBAL"
  | .setting => "SETTING"
  | .byname => "ALIAS"
  | .parameter => "LOCAL"
  | .unknown => "UNKNOWN"
  | .region => "REGION"
  | .placement => "PLACEMENT"
  | .token => "TOKEN"
  | .transit => "TRANSIT"

def all : List Kind :=
  [.builtInFunction, .compilerFunction, .function, .scriptedFunction, .global, .setting, .byname,
   .parameter, .unknown, .region, .placement, .token, .transit]

def ofName? (name : String) : Option Kind :=
  all.find? fun kind => kind.name == name

/-- Whether symbols of this kind name something callable. -/
def isFunction : Kind → Bool
  | .builtInFunction | .compilerFunction | .function | .scriptedFunction => true
  | _ => false

/-- The kind of a symbol that is declared again, if the two kinds agree. -/
def refine : Kind → Kind → Option Kind
  | known, .unknown => some known
  | known, .byname => some known
  | .unknown, incoming => some incoming
  | .token, .scriptedFunction => some .scriptedFunction
  | .builtInFunction, .function => some .builtInFunction
  | .compilerFunction, .function => some .compilerFunction
  | .scriptedFunction, .function => some .scriptedFunction
  | .function, .builtInFunction => some .builtInFunction
  | .scriptedFunction, .builtInFunction => some .builtInFunction
  | .function, .compilerFunction => some .compilerFunction
  | .scriptedFunction, .compilerFunction => some .compilerFunction
  | known, incoming => if known = incoming then some known else none

end Kind

end Passage.Symbol

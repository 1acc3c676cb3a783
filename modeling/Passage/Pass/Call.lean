import Passage.Pass.Basic

/-!
# Calls

The bare name of a function without parameters is a call of it. A call of a
compiler function is answered while the rule is compiled, by a node that takes
its place; the functions of the standard table answer what is fixed for a world.
-/

namespace Passage

/-! ## Bare names -/

namespace BareCall

/-- Calls a function that stands without arguments. -/
def identifier (scripts : Scripts) (id : SymbolId) : Transforming Node := do
  match (← Transforming.symbols).get? id with
  | none => throw (.unknownSymbol id)
  | some symbol =>
      match symbol.kind with
      | .builtInFunction | .compilerFunction => pure (.call id [])
      | .function | .scriptedFunction =>
          match scripts.get? symbol.name with
          | none => throw (.missingScript symbol.name)
          | some script =>
              if script.params.isEmpty then pure (.call id [])
              else throw (.bareFunction symbol.name script.params.length)
      | _ => pure (.identifier id)

end BareCall

/-- Calls functions whose names stand alone; the parts of calls are left alone. -/
def Pass.bareCalls : Pass :=
  .plain "bare_funcs" fun scripts =>
    { identifier := BareCall.identifier scripts, intercept := Rules.keepCalls }

/-! ## Compiler functions -/

/-- What a compiler function puts in place of a call, from the arguments. -/
abbrev CompilerFunction := List Node → Transforming Node

/-- Compiler functions by name, in order of registration. -/
structure CompilerFunctions where
  entries : List (String × CompilerFunction)

namespace CompilerFunctions

def empty : CompilerFunctions := ⟨[]⟩

instance : Inhabited CompilerFunctions := ⟨empty⟩

def find? (t : CompilerFunctions) (name : String) : Option CompilerFunction := t.entries.lookup name

def names (t : CompilerFunctions) : List String := t.entries.map (·.1)

def size (t : CompilerFunctions) : Nat := t.entries.length

/-- Puts a function under a name; one that is there keeps its place. -/
def put (name : String) (function : CompilerFunction) :
    List (String × CompilerFunction) → List (String × CompilerFunction)
  | [] => [(name, function)]
  | entry :: rest =>
      if entry.1 = name then (name, function) :: rest else entry :: put name function rest

def register (t : CompilerFunctions) (name : String) (function : CompilerFunction) :
    CompilerFunctions :=
  ⟨put name function t.entries⟩

/-- How a table is shown: its names in order. -/
def text (t : CompilerFunctions) : String :=
  "\x7b" ++ Text.separated ", " (t.names.map Text.quoteString) ++ "\x7d"

/-! ## The standard table -/

/-- Answers every call with one truth value. -/
def constant (value : Bool) : CompilerFunction := fun _ => pure (.boolean value)

/-- Says whether a trick is among those that are enabled. -/
def trickEnabled (tricks : List String) : CompilerFunction
  | [.string trick] => pure (.boolean (tricks.contains trick))
  | _ => throw (.malformed Lowering.trickName "expects a single string argument")

/-- Makes a comparison of a comparison code and two literals; until both sides
are literals, the call stays. -/
def compareSetting : CompilerFunction
  | [.number code, lhs, rhs] =>
      match Comparison.ofCode? code.clampToByte with
      | none => throw (.malformed Lowering.settingName ("unknown op code " ++ code.plainText))
      | some op =>
          if lhs.isLiteral && rhs.isLiteral then pure (.compare op lhs rhs)
          else do
            let callee ← Transforming.declare Lowering.settingName .function
            pure (.call callee [.number code, lhs, rhs])
  | args =>
      throw (.malformed Lowering.settingName
        ("expected op code and 2 operands, received " ++ toString args.length ++ " args"))

/-- The functions that every world is compiled with. Times of day and skipped
trials are taken as given, shortcuts as absent. -/
def standard (tricks : List String) (nightStart : Bool) : CompilerFunctions :=
  ⟨[(Lowering.trickName, trickEnabled tricks),
    (Lowering.settingName, compareSetting),
    (Lowering.trialName, constant true),
    (Lowering.shortcutName, constant false),
    ("at_day", constant true),
    ("at_night", constant true),
    ("at_dampe_time", constant true),
    ("had_night_start", constant nightStart)]⟩

/-- The function that a call target names. -/
def functionOf? (t : CompilerFunctions) (symbols : SymbolTable) (target : Node) :
    Option CompilerFunction :=
  (target.identifier?.bind symbols.nameOf?).bind t.find?

/-- Answers a call whose parts are transformed. -/
def answer (t : CompilerFunctions) (target : Node) (args : List Node) : Transforming Node := do
  match t.functionOf? (← Transforming.symbols) target with
  | some function => function args
  | none => pure (.invoke target args)

end CompilerFunctions

/-- Answers calls of compiler functions. -/
def Pass.compilerCalls (functions : CompilerFunctions) : Pass :=
  .plain "compiler_funcs" fun _ => { invoke := functions.answer }

end Passage

import Passage.Node.Basic
import Passage.Number.Rounding

/-!
# From parse trees to nodes

Lowering binds every name of a rule to a symbol. A name that is new is declared
as unknown, and a name that is called as a function. The short forms of the
language become calls of functions of fixed names:

* `logic_x` is `is_trick_enabled('x')`, except for `logic_rules`;
* a comparison with a setting is `compare_setting(code, lhs, rhs)`;
* `'x' in dungeon_shortcuts` is `region_has_shortcuts('x')`;
* `skipped_trials[X]` is `is_trial_skipped('X')`;
* a tuple is a call of `has`.

What was declared before a fault stays declared.
-/

namespace Passage

inductive LowerError where
  /-- `in` stands in a form other than the one it has a meaning in. -/
  | containment
  /-- Something other than `skipped_trials` is subscripted. -/
  | subscript
  /-- A text does not head a scripted function. -/
  | header (text : String)
  | symbol (error : SymbolError)
deriving DecidableEq

namespace LowerError

def invalid (construct reason : String) : String :=
  "invalid " ++ construct ++ " construction: " ++ reason

def message : LowerError → String
  | .containment => invalid "contains" "only 'region' in dungeon_shortcuts is supported"
  | .subscript => invalid "subscript" "only skipped_trials[Name] is supported"
  | .header text =>
      invalid "function header"
        ("expected `name` or `name(params..)`, found " ++ Text.quoteString text)
  | .symbol error => error.message

def code : LowerError → String
  | .symbol error => "Symbol." ++ error.code
  | _ => "Invalid"

instance : Diagnostic LowerError := ⟨code, message⟩

end LowerError

/-- A step of lowering: it may fail, and the symbol table is kept either way. -/
abbrev Lowering := ExceptT LowerError (StateM SymbolTable)

namespace Lowering

/-- The name of the function that asks for a quantity of an item. -/
def hasName : String := "has"

def trickName : String := "is_trick_enabled"

def settingName : String := "compare_setting"

def shortcutName : String := "region_has_shortcuts"

def trialName : String := "is_trial_skipped"

def declare (name : String) (kind : Symbol.Kind) : Lowering SymbolId := fun symbols =>
  match symbols.declare name kind with
  | (.ok id, symbols) => (.ok id, symbols)
  | (.error e, symbols) => (.error (.symbol e), symbols)

/-- A call of a function that is declared by its name. -/
def callNamed (name : String) (args : List Node) : Lowering Node := do
  let callee ← declare name .function
  pure (.call callee args)

/-- Marks a called symbol as a function, unless it is known to be something else. -/
def declareCallee (id : SymbolId) : Lowering Unit := do
  match (← get).get? id with
  | none => pure ()
  | some symbol =>
      if symbol.kind = .unknown || symbol.kind.isFunction then
        let _ ← declare symbol.name .function

/-- Whether a node is the name of a setting. -/
def isSetting (symbols : SymbolTable) (node : Node) : Bool :=
  (node.identifier?.bind symbols.kindOf?) == some .setting

/-- The trick that a name asks for, if it asks for one. -/
def trick? (name : String) : Option String :=
  if name = "logic_rules" then none
  else ("logic_".toList.isPrefixOf? name.toList).map String.ofList

end Lowering

namespace Rule.Tree

open Lowering

mutual

def lower : Tree → Lowering Node
  | .identifier name =>
      match trick? name with
      | some trick => callNamed trickName [.string trick]
      | none => do
          let id ← declare name .unknown
          pure (.identifier id)
  | .bool value => pure (.boolean value)
  | .number value => pure (.number value)
  | .string value => pure (.string value)
  | .within (.string region) (.identifier "dungeon_shortcuts") =>
      callNamed shortcutName [.string region]
  | .within _ _ => throw .containment
  | .compare op lhs rhs => do
      let lhs ← lower lhs
      let rhs ← lower rhs
      let symbols ← get
      if isSetting symbols lhs || isSetting symbols rhs then
        callNamed settingName [.number (Number.ofNat op.code), lhs, rhs]
      else pure (.compare op lhs rhs)
  | .connect op lhs rhs => do
      let lhs ← lower lhs
      let rhs ← lower rhs
      match op with
      | .and => pure (.conjoin [lhs, rhs])
      | .or => pure (.disjoin [lhs, rhs])
  | .not operand => do
      let inner ← lower operand
      pure (.invert inner)
  | .call callee args => do
      let target ← lower callee
      match target.identifier? with
      | some id => declareCallee id
      | none => pure ()
      let args ← lowerAll [] args
      pure (.invoke target args)
  | .subscript (.identifier "skipped_trials") (.identifier trial) =>
      callNamed trialName [.string trial]
  | .subscript _ _ => throw .subscript
  | .tuple elements => do
      let args ← lowerAll [] elements
      callNamed hasName args

/-- Lowers trees in order; `done` holds the nodes before them, last first. -/
def lowerAll (done : List Node) : List Tree → Lowering (List Node)
  | [] => pure done.reverse
  | tree :: rest => do
      let node ← lower tree
      lowerAll (node :: done) rest

end

end Rule.Tree

end Passage

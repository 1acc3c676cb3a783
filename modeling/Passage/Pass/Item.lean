import Passage.Number.Rounding
import Passage.Pass.Basic

/-!
# Items

The name of an item, where a truth value is asked for, asks whether one of the
item is held. Such questions are joined: of the questions in a conjunction one
call of `has_every` is made, of those in a disjunction one call of `has_anyof`.
-/

namespace Passage

namespace Item

def one : Number := Number.ofNat 1

/-- The call that asks for one of an item. -/
def held (token : SymbolId) : Transforming Node := do
  let has ← Transforming.declare Lowering.hasName .function
  pure (.has has token one)

/-! ## Promotion -/

/-- The token that goes by a name. -/
def tokenNamed? (symbols : SymbolTable) (name : String) : Option SymbolId :=
  (symbols.lookup? name).bind fun symbol => if symbol.kind = .token then some symbol.id else none

/-- A name with blanks for its underscores. -/
def spaced (name : String) : String := name.map fun c => if c = '_' then ' ' else c

/-- The token that a symbol stands for: itself, or one with blanks for the
underscores in its name. -/
def tokenOf? (symbols : SymbolTable) (symbol : Symbol) : Option SymbolId :=
  if symbol.kind = .token then some symbol.id
  else if symbol.name.contains '_' then tokenNamed? symbols (spaced symbol.name)
  else none

def promoteIdentifier (id : SymbolId) : Transforming Node := do
  let symbols ← Transforming.symbols
  match symbols.get? id with
  | none => throw (.unknownSymbol id)
  | some symbol =>
      match tokenOf? symbols symbol with
      | some token => held token
      | none => pure (.identifier id)

def promoteString (value : String) : Transforming Node := do
  match tokenNamed? (← Transforming.symbols) value with
  | some token => held token
  | none => pure (.string value)

/-! ## Joining -/

def everyName : String := "has_every"

def anyName : String := "has_anyof"

/-- What a node asks for one each of, if it is such a question: a call of `has`
for one, or a call of the function that joins. -/
def subjects? (has joined : Option SymbolId) : Node → Option (List Node)
  | .invoke (.identifier callee) args =>
      let single := match args with
        | [subject, .number quantity] =>
            if has == some callee && quantity.same one then some [subject] else none
        | _ => none
      single.or (if joined == some callee then some args else none)
  | _ => none

/-- The question for one each of some subjects, behind other items. -/
def question (joinedName : String) (others : List Node) : List Node → Transforming (List Node)
  | [] => pure others
  | [subject] => do
      let has ← Transforming.declare Lowering.hasName .function
      pure (others ++ [.call has [subject, .number one]])
  | subjects => do
      let joined ← Transforming.declare joinedName .function
      pure (others ++ [.call joined subjects])

/-- Joins the questions among the items of a junction into one. -/
def join (joinedName : String) (items : List Node) : Transforming (List Node) := do
  let symbols ← Transforming.symbols
  let asked := subjects? ((symbols.lookup? Lowering.hasName).map (·.id))
    ((symbols.lookup? joinedName).map (·.id))
  question joinedName (items.filter fun item => (asked item).isNone) (items.filterMap asked).flatten

def every (items : List Node) : Transforming Node := do
  let items ← join everyName items
  pure (.conjoin items)

def anyOf (items : List Node) : Transforming Node := do
  let items ← join anyName items
  pure (.disjoin items)

end Item

/-- Asks for an item where its name stands; the parts of calls are left alone. -/
def Pass.promoteTokens : Pass :=
  .plain "promote_tokens" fun _ =>
    { identifier := Item.promoteIdentifier
      string := Item.promoteString
      intercept := Rules.keepCalls }

/-- Joins the questions for single items in every junction. -/
def Pass.collapseHas : Pass :=
  .plain "collapse_has" fun _ => { anyOf := Item.anyOf, every := Item.every }

end Passage

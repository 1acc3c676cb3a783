import Passage.Rule.Parser
import Passage.Stage

/-!
# Scripted functions

A scripted function is declared by two texts: a header, `name` or
`name(a, b, ..)`, and a body, which is a rule. All headers are declared before
any body is lowered, so that functions may call each other in any order. The
first declaration of a name counts, and the name of a built-in function is left
to that function.
-/

namespace Passage

structure Script where
  symbol : SymbolId
  params : List SymbolId
  body : Node
deriving Inhabited

/-- Scripted functions by name, in order of declaration. -/
structure Scripts where
  entries : List (String × Script)
deriving Inhabited

namespace Scripts

def empty : Scripts := ⟨[]⟩

def get? (s : Scripts) (name : String) : Option Script := s.entries.lookup name

def contains (s : Scripts) (name : String) : Bool := (s.get? name).isSome

def size (s : Scripts) : Nat := s.entries.length

/-- Adds a function unless there is one of that name. -/
def insert (s : Scripts) (name : String) (script : Script) : Scripts :=
  if s.contains name then s else ⟨s.entries ++ [(name, script)]⟩

/-- Adds functions in order. -/
def insertAll (s other : Scripts) : Scripts :=
  other.entries.foldl (fun s (name, script) => s.insert name script) s

/-! ## Declaration -/

/-- The head of a scripted function, as it is written. -/
structure Header where
  name : String
  params : List String
deriving DecidableEq, Inhabited

/-- The name that a tree consists of. -/
def name? : Rule.Tree → Option String
  | .identifier name => some name
  | _ => none

/-- The header that a tree is: a name, or a call of a name with names. -/
def Header.ofTree? : Rule.Tree → Option Header
  | .identifier name => some ⟨name, []⟩
  | .call callee args => do
      let name ← name? callee
      let params ← args.mapM name?
      pure ⟨name, params⟩
  | _ => none

/-- A header whose names are declared, with the text of its body. -/
structure Declared where
  name : String
  symbol : SymbolId
  params : List SymbolId
  body : String

/-- A step of building scripts: it may fail, and the symbol table is kept either way. -/
abbrev Building := ExceptT StageError (StateM SymbolTable)

/-- An operation on the symbol table as a step. -/
def onSymbols {ε α : Type} (fault : ε → StageError)
    (op : SymbolTable → Except ε α × SymbolTable) : Building α := fun symbols =>
  let (result, symbols) := op symbols
  (result.mapError fault, symbols)

def parsed (text : String) : Building Rule.Tree :=
  match Rule.parse text with
  | .ok tree => pure tree
  | .error e => throw (.parsing e)

/-- Declares the names of a header, unless it names a built-in function. -/
def declareHeader (header body : String) : Building (Option Declared) := do
  let tree ← parsed header
  match Header.ofTree? tree with
  | none => throw (.lowering (.header header))
  | some head => do
      let known := (← get).lookup? head.name
      if known.map (·.kind) == some .builtInFunction then pure none
      else do
        let symbol ← onSymbols .symbols (·.declare head.name .scriptedFunction)
        let params ← onSymbols .symbols (·.declareMany head.params .parameter)
        pure (some ⟨head.name, symbol, params, body⟩)

/-- Declares headers in order; `done` holds those before them, last first. -/
def declareHeaders (done : List Declared) : List (String × String) → Building (List Declared)
  | [] => pure done.reverse
  | (header, body) :: rest => do
      match ← declareHeader header body with
      | some declared => declareHeaders (declared :: done) rest
      | none => declareHeaders done rest

/-- Lowers the bodies in order, of each name the first. -/
def lowerBodies (scripts : Scripts) : List Declared → Building Scripts
  | [] => pure scripts
  | declared :: rest => do
      if scripts.contains declared.name then lowerBodies scripts rest
      else
        let tree ← parsed declared.body
        let body ← onSymbols .lowering tree.lower.run.run
        lowerBodies (scripts.insert declared.name ⟨declared.symbol, declared.params, body⟩) rest

/-- The scripted functions that pairs of header and body declare. -/
def build (declarations : List (String × String)) : Building Scripts := do
  let headers ← declareHeaders [] declarations
  lowerBodies empty headers

end Scripts

end Passage

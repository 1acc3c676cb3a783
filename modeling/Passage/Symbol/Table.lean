import Std.Data.ExtTreeMap
import Passage.Diagnostic
import Passage.Symbol.Kind
import Passage.Text.Quoted

/-!
# The symbol table

Symbols are numbered in order of declaration. A name, canonical or alias, is
bound to one of these numbers. Every operation returns the table it leaves, also
when it fails, and a failing one leaves the table it was given.

`checkpoint` remembers three lengths; `rollback` drops what lies beyond them and
undoes the changes of kind that the refinement log holds.
-/

namespace Passage

/-- The number of a symbol: its position in the table. -/
abbrev SymbolId := Nat

/-- How a symbol number is shown. -/
def SymbolId.label (id : SymbolId) : String :=
  "$" ++ Text.hexUpper 4 id

/-- A name with its kind; for an alias, `id` is the symbol that it stands for. -/
structure Symbol where
  name : String
  id : SymbolId
  kind : Symbol.Kind
deriving DecidableEq, Inhabited

inductive SymbolError where
  | redeclared (id : SymbolId) (name : String) (known incoming : Symbol.Kind)
  | missingTarget (name : String)
  | aliasConflict (name : String) (existing : SymbolId)
  | tableFull (name : String)
deriving DecidableEq

def SymbolError.message : SymbolError → String
  | .redeclared id name known incoming =>
      SymbolId.label id ++ " " ++ Text.quoteString name ++
        " redeclared with different kind: " ++ known.name ++ " -> " ++ incoming.name
  | .missingTarget name => "cannot alias unknown symbol " ++ Text.quoteString name
  | .aliasConflict name existing =>
      "alias " ++ Text.quoteString name ++ " is already bound to " ++ SymbolId.label existing
  | .tableFull name => "no symbol id left for " ++ Text.quoteString name

def SymbolError.code : SymbolError → String
  | .redeclared .. => "Redeclared"
  | .missingTarget .. => "MissingOriginal"
  | .aliasConflict .. => "AliasConflict"
  | .tableFull .. => "TableFull"

instance : Diagnostic SymbolError := ⟨SymbolError.code, SymbolError.message⟩

structure SymbolTable where
  symbols : Array Symbol
  aliases : Array Symbol
  names : Std.ExtTreeMap String SymbolId
  /-- The kind that each refined symbol had before, oldest first. -/
  refinements : Array (SymbolId × Symbol.Kind)

/-- How far a table had grown. -/
structure SymbolTable.Checkpoint where
  symbols : Nat
  aliases : Nat
  refinements : Nat
deriving DecidableEq, Inhabited

namespace SymbolTable

def empty : SymbolTable := ⟨#[], #[], ∅, #[]⟩

instance : Inhabited SymbolTable := ⟨empty⟩

/-- Symbols are numbered with 32 bits. -/
def capacity : Nat := 0x1_0000_0000

def get? (t : SymbolTable) (id : SymbolId) : Option Symbol := t.symbols[id]?

def kindOf? (t : SymbolTable) (id : SymbolId) : Option Symbol.Kind :=
  (t.get? id).map (·.kind)

def nameOf? (t : SymbolTable) (id : SymbolId) : Option String :=
  (t.get? id).map (·.name)

/-- The symbol that a name is bound to, through an alias if it is one. -/
def lookup? (t : SymbolTable) (name : String) : Option Symbol :=
  t.names[name]?.bind t.get?

def size (t : SymbolTable) : Nat := t.symbols.size

/-- The number of canonical names and aliases. -/
def nameCount (t : SymbolTable) : Nat := t.symbols.size + t.aliases.size

def ofKind (t : SymbolTable) (kind : Symbol.Kind) : List Symbol :=
  t.symbols.toList.filter (·.kind == kind)

/-- Adds a name that is not bound. -/
def append (t : SymbolTable) (name : String) (kind : Symbol.Kind) :
    Except SymbolError SymbolId × SymbolTable :=
  if t.symbols.size < capacity then
    let id := t.symbols.size
    (.ok id, { t with symbols := t.symbols.push ⟨name, id, kind⟩, names := t.names.insert name id })
  else (.error (.tableFull name), t)

/-- Refines the kind of a symbol and logs the kind it had. -/
def refine (t : SymbolTable) (symbol : Symbol) (kind : Symbol.Kind) :
    Except SymbolError SymbolId × SymbolTable :=
  match symbol.kind.refine kind with
  | none => (.error (.redeclared symbol.id symbol.name symbol.kind kind), t)
  | some refined =>
      if refined = symbol.kind then (.ok symbol.id, t)
      else
        (.ok symbol.id,
          { t with
            symbols := t.symbols.setIfInBounds symbol.id { symbol with kind := refined }
            refinements := t.refinements.push (symbol.id, symbol.kind) })

/-- Declares a name: a new symbol, or a refinement of the one it is bound to. -/
def declare (t : SymbolTable) (name : String) (kind : Symbol.Kind) :
    Except SymbolError SymbolId × SymbolTable :=
  match t.lookup? name with
  | some symbol => t.refine symbol kind
  | none => t.append name kind

/-- Declares names in order up to the first fault. -/
def declareMany (t : SymbolTable) (names : List String) (kind : Symbol.Kind) :
    Except SymbolError (List SymbolId) × SymbolTable :=
  match names with
  | [] => (.ok [], t)
  | name :: rest =>
      match t.declare name kind with
      | (.error e, t) => (.error e, t)
      | (.ok id, t) =>
          let (ids, t) := t.declareMany rest kind
          (ids.map (id :: ·), t)

/-- Binds a further name to the symbol of `target`. -/
def bindAlias (t : SymbolTable) (target name : String) :
    Except SymbolError SymbolId × SymbolTable :=
  match t.names[target]? with
  | none => (.error (.missingTarget target), t)
  | some id =>
      match t.names[name]? with
      | some existing =>
          if existing = id then (.ok id, t) else (.error (.aliasConflict name existing), t)
      | none =>
          (.ok id,
            { t with
              aliases := t.aliases.push ⟨name, id, .byname⟩
              names := t.names.insert name id })

def checkpoint (t : SymbolTable) : Checkpoint :=
  ⟨t.symbols.size, t.aliases.size, t.refinements.size⟩

/-- Gives a symbol back the kind it had. -/
def restoreKind (symbols : Array Symbol) (entry : SymbolId × Symbol.Kind) : Array Symbol :=
  symbols.modify entry.1 fun symbol => { symbol with kind := entry.2 }

/-- Unbinds the names of the entries from `start` on. -/
def unbind (names : Std.ExtTreeMap String SymbolId) (entries : Array Symbol) (start : Nat) :
    Std.ExtTreeMap String SymbolId :=
  (entries.toList.drop start).foldl (fun names entry => names.erase entry.name) names

/-- Drops all that was added since the checkpoint and gives refined symbols
their earlier kinds, latest refinement first. -/
def rollback (t : SymbolTable) (mark : Checkpoint) : SymbolTable :=
  let symbols := ((t.refinements.toList.drop mark.refinements).reverse).foldl restoreKind t.symbols
  let names := unbind (unbind t.names t.aliases mark.aliases) symbols mark.symbols
  { symbols := symbols.take mark.symbols
    aliases := t.aliases.take mark.aliases
    names := names
    refinements := t.refinements.take mark.refinements }

end SymbolTable

end Passage

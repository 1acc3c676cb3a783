import Passage.Node.Basic
import Passage.Number.Notation

/-!
# Nodes as text

A node is shown in prefix form. A symbol is shown by its number and, where the
table knows it, its name; numbers have six places.
-/

namespace Passage.Node

/-- A symbol in prefix form. -/
def identifierText (nameOf : SymbolId → Option String) (id : SymbolId) : String :=
  match nameOf id with
  | some name => "(" ++ SymbolId.label id ++ " " ++ Text.quoteString name ++ ")"
  | none => "(" ++ SymbolId.label id ++ ")"

mutual

/-- The text of a node behind `out`. -/
def write (nameOf : SymbolId → Option String) (out : String) : Node → String
  | .anyOf items => writeAll nameOf (out ++ "(any-of") items ++ ")"
  | .every items => writeAll nameOf (out ++ "(every") items ++ ")"
  | .boolean value => out ++ if value then "True" else "False"
  | .compare op lhs rhs =>
      write nameOf (write nameOf (out ++ "(" ++ op.sign ++ " ") lhs ++ " ") rhs ++ ")"
  | .identifier id => out ++ identifierText nameOf id
  | .invert inner => write nameOf (out ++ "(not ") inner ++ ")"
  | .invoke target args => writeAll nameOf (write nameOf (out ++ "(invoke ") target) args ++ ")"
  | .number value => out ++ value.fixedText 6
  | .string value => out ++ "s" ++ Text.quoteString value

/-- The texts of nodes behind `out`, each behind a blank. -/
def writeAll (nameOf : SymbolId → Option String) (out : String) : List Node → String
  | [] => out
  | node :: rest => writeAll nameOf (write nameOf (out ++ " ") node) rest

end

/-- The text of a node without names. -/
def render (node : Node) : String :=
  node.write (fun _ => none) ""

/-- The text of a node with the names that the table knows. -/
def renderWith (symbols : SymbolTable) (node : Node) : String :=
  node.write symbols.nameOf? ""

end Passage.Node

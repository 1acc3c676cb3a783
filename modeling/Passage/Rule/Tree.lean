import Passage.Number.Basic

/-!
# Parse trees

The tree of a rule as it was written: names are not resolved, and forms that
only some contexts allow, such as tuples and subscripts, are kept as they stand.
-/

namespace Passage

/-- The comparisons a rule can make. -/
inductive Comparison where
  | equal | unequal | less
deriving DecidableEq, Repr, Inhabited

namespace Comparison

/-- The number that stands for a comparison in compiled and hashed forms. -/
def code : Comparison → Nat
  | .equal => 1
  | .unequal => 2
  | .less => 3

def ofCode? : Nat → Option Comparison
  | 1 => some .equal
  | 2 => some .unequal
  | 3 => some .less
  | _ => none

def sign : Comparison → String
  | .equal => "=="
  | .unequal => "!="
  | .less => "<"

end Comparison

namespace Rule

inductive Connective where
  | and | or
deriving DecidableEq, Repr

inductive Tree where
  | identifier (name : String)
  | bool (value : Bool)
  | number (value : Number)
  | string (value : String)
  | compare (op : Comparison) (lhs rhs : Tree)
  /-- `lhs in rhs` -/
  | within (lhs rhs : Tree)
  | connect (op : Connective) (lhs rhs : Tree)
  | not (operand : Tree)
  | call (callee : Tree) (args : List Tree)
  /-- `target[index]` -/
  | subscript (target index : Tree)
  /-- A parenthesised list with at least one comma. -/
  | tuple (elements : List Tree)
deriving Inhabited

end Rule

end Passage

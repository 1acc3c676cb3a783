import Passage.Pass.Basic

/-!
# Constant folding

A negated boolean is decided, and so is a comparison of two numbers, two
strings, two booleans or two names. Booleans and names have no order.
-/

namespace Passage

/-- Decides a comparison from the equality and the order of its sides. -/
def Comparison.decide (op : Comparison) (same less : Bool) : Bool :=
  match op with
  | .equal => same
  | .unequal => !same
  | .less => less

namespace Fold

/-- Decides a comparison of values without an order. -/
def unordered (values : Unordered) (op : Comparison) (same : Bool) : Except PassError Bool :=
  match op with
  | .equal => .ok same
  | .unequal => .ok (!same)
  | .less => .error (.ordering values)

/-- The outcome of a comparison, if its sides decide it. -/
def outcome? (op : Comparison) : Node → Node → Except PassError (Option Bool)
  | .number x, .number y => .ok (some (op.decide (x.same y) (x.less y)))
  | .string x, .string y => .ok (some (op.decide (x == y) (x < y)))
  | .boolean x, .boolean y => (unordered .booleans op (x == y)).map some
  | .identifier x, .identifier y => (unordered .identifiers op (x == y)).map some
  | _, _ => .ok none

def compare (op : Comparison) (lhs rhs : Node) : Transforming Node :=
  match outcome? op lhs rhs with
  | .ok (some value) => pure (.boolean value)
  | .ok none => pure (.compare op lhs rhs)
  | .error e => throw e

def invert : Node → Transforming Node
  | .boolean value => pure (.boolean !value)
  | inner => pure (.invert inner)

end Fold

/-- Decides negations and comparisons of constants. -/
def Pass.fold : Pass :=
  .plain "fold" fun _ => { compare := Fold.compare, invert := Fold.invert }

end Passage

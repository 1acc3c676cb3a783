import Passage.Node.Basic

/-!
# Substitution

Names of a node are replaced by nodes, also where a name is called. Conjunctions
and disjunctions are built anew, since an argument may be one, or a boolean.
-/

namespace Passage.Node

/-- What stands for each parameter. Of a parameter that is named twice, the last
argument counts. -/
def scopeOf (params : List SymbolId) (args : List Node) (id : SymbolId) : Option Node :=
  (params.zip args).reverse.lookup id

mutual

/-- The node with the names of a scope replaced. -/
def substitute (scope : SymbolId → Option Node) : Node → Node
  | .anyOf items => disjoin (substituteAll scope [] items)
  | .every items => conjoin (substituteAll scope [] items)
  | .boolean value => .boolean value
  | .compare op lhs rhs => .compare op (substitute scope lhs) (substitute scope rhs)
  | .identifier id => (scope id).getD (.identifier id)
  | .invert inner => .invert (substitute scope inner)
  | .invoke target args => .invoke (substitute scope target) (substituteAll scope [] args)
  | .number value => .number value
  | .string value => .string value

/-- Replaces in all nodes; `done` holds those before them, last first. -/
def substituteAll (scope : SymbolId → Option Node) (done : List Node) : List Node → List Node
  | [] => done.reverse
  | node :: rest => substituteAll scope (substitute scope node :: done) rest

end

end Passage.Node

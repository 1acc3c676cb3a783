import Passage.World.Basic

/-!
# Rules of passes

A pass transforms a node from the leaves up. `Rules` says what it puts in place of
each form of node once its parts are transformed, and `Rules.transform` applies it
throughout a node, left to right. A pass may also take a call before its parts
are transformed. The rules that say nothing rebuild the node. Most rules are steps
on the world; those of a pass with a state of its own are steps on that as well.
-/

namespace Passage

/-- What a pass makes of each form of node, in steps of the monad. -/
structure Rules (m : Type → Type) [Monad m] where
  anyOf : List Node → m Node := fun items => pure (.disjoin items)
  every : List Node → m Node := fun items => pure (.conjoin items)
  compare : Comparison → Node → Node → m Node :=
    fun op lhs rhs => pure (.compare op lhs rhs)
  identifier : SymbolId → m Node := fun id => pure (.identifier id)
  invert : Node → m Node := fun inner => pure (.invert inner)
  string : String → m Node := fun value => pure (.string value)
  /-- What replaces a call as it stands, if the pass takes it whole. -/
  intercept : Node → List Node → m (Option Node) := fun _ _ => pure none
  invoke : Node → List Node → m Node := fun target args => pure (.invoke target args)

namespace Rules

variable {m : Type → Type} [Monad m]

/-- Leaves every call as it stands. -/
def keepCalls (target : Node) (args : List Node) : m (Option Node) :=
  pure (some (.invoke target args))

mutual

def transform (r : Rules m) : Node → m Node
  | .anyOf items => do
      let items ← transformAll r [] items
      r.anyOf items
  | .every items => do
      let items ← transformAll r [] items
      r.every items
  | .boolean value => pure (.boolean value)
  | .compare op lhs rhs => do
      let lhs ← transform r lhs
      let rhs ← transform r rhs
      r.compare op lhs rhs
  | .identifier id => r.identifier id
  | .invert inner => do
      let inner ← transform r inner
      r.invert inner
  | .invoke target args => do
      match ← r.intercept target args with
      | some node => pure node
      | none =>
          let target ← transform r target
          let args ← transformAll r [] args
          r.invoke target args
  | .number value => pure (.number value)
  | .string value => r.string value

/-- Transforms nodes in order; `done` holds those before them, last first. -/
def transformAll (r : Rules m) (done : List Node) : List Node → m (List Node)
  | [] => pure done.reverse
  | node :: rest => do
      let node ← transform r node
      transformAll r (node :: done) rest

end

end Rules

end Passage

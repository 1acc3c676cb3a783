import Passage.Environment.Basic
import Passage.Node.Render

/-!
# Sources

A source is a rule with the place it belongs to. Sources are compiled as they
are given, or made of the connections that wait in the context.
-/

namespace Passage

/-- Where a rule comes from. -/
inductive SourceKind where
  /-- The rule of a place that holds an item. -/
  | check
  /-- The rule of an event. -/
  | event
  /-- The rule of a way between regions. -/
  | transit
  /-- The rule of a generated connection. -/
  | generated
deriving DecidableEq, Repr, Inhabited

def SourceKind.name : SourceKind → String
  | .check => "check"
  | .event => "event"
  | .transit => "transit"
  | .generated => "generated"

structure Source where
  kind : SourceKind
  text : String
  /-- The lowered rule, if the text is not to be lowered. -/
  node : Option Node
  /-- The region that is current while the rule is compiled. -/
  origin : Option String
  destination : Option String
deriving Inhabited

/-- A compiled rule, with its tree before and after optimization. -/
structure CompiledSource where
  source : Source
  node : Node
  optimized : Node
  code : Code
deriving Inhabited

/-- The source of a generated connection. -/
def Connection.source (c : Connection) (symbols : SymbolTable) : Source :=
  ⟨.generated, c.rule.renderWith symbols, some c.rule, some c.origin, some c.destination⟩

namespace Environment

/-- Optimizes a rule with a region current, if one is given. -/
def optimizeIn (region : Option String) (node : Node) : Compiling StageError Node := fun env =>
  let previous := env.world.context.region
  match optimizeStage node (if region.isSome then env.withRegion region else env) with
  | (result, env) => (result, env.withRegion previous)

/-- Compiles a source. What a failing compilation did is left as it is. -/
def compileStages (source : Source) : Compiling StageError CompiledSource := do
  let node ← match source.node with
    | some node => pure node
    | none => lower source.text
  let optimized ← optimizeIn source.origin node
  let code ← codegen optimized
  pure ⟨source, node, optimized, code⟩

def compileSource (source : Source) : Compiling StageError CompiledSource :=
  atomically (compileStages source)

/-- Removes the connections that wait. -/
def takeConnections : StateM Environment (Array Connection) := do
  let env ← get
  let (connections, context) := env.world.context.take
  set { env with world := { env.world with context } }
  pure connections

/-- Compiles connections in order; `done` holds the compiled ones, last first. -/
def compileBatch (done : List CompiledSource) :
    List Connection → Compiling StageError (List CompiledSource)
  | [] => pure done
  | connection :: rest => do
      let compiled ← compileStages (connection.source (← get).world.symbols)
      compileBatch (compiled :: done) rest

/-- Takes and compiles connections until none waits, at most as often as the
first argument says. -/
def compileBatches (done : List CompiledSource) : Nat → Compiling StageError (List CompiledSource)
  | 0 => pure done.reverse
  | left + 1 => do
      let batch ← takeConnections
      if batch.isEmpty then pure done.reverse
      else
        let done ← compileBatch done batch.toList
        compileBatches done left

/-- How often connections can be taken. Each one that is recorded has entered a
new token in the pool, so that later batches are no more than the free entries. -/
def batchLimit (env : Environment) : Nat := ObjectPool.capacity - env.world.pool.size + 2

/-- Compiles the connections that wait, and those that are generated by that. If
one fails, all that waited before wait again. -/
def compileConnections : Compiling StageError (List CompiledSource) := fun env =>
  let before := env.world.context
  match atomically (compileBatches [] env.batchLimit) env with
  | (.ok compiled, env) => (.ok compiled, env)
  | (.error e, env) =>
      let context := { before with region := env.world.context.region }
      (.error e, { env with world := { env.world with context } })

end Environment

end Passage

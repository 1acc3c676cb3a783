import Passage.Object.Pool
import Passage.Pass.Fault
import Passage.World.Context

/-!
# The world of a compilation

Symbols, objects and generated connections grow together while rules are
compiled. They are undone together: `rollback` returns each of the three to
where it was at the checkpoint.
-/

namespace Passage

structure World where
  symbols : SymbolTable
  pool : ObjectPool
  context : Context
deriving Inhabited

/-- How far a world had grown. -/
structure World.Checkpoint where
  symbols : SymbolTable.Checkpoint
  pool : ObjectPool.Checkpoint
  context : Context.Checkpoint
deriving DecidableEq, Inhabited

namespace World

def empty : World := ⟨.empty, .empty, .empty⟩

def checkpoint (w : World) : Checkpoint :=
  ⟨w.symbols.checkpoint, w.pool.checkpoint, w.context.checkpoint⟩

def rollback (w : World) (mark : Checkpoint) : World :=
  ⟨w.symbols.rollback mark.symbols, w.pool.rollback mark.pool, w.context.rollback mark.context⟩

/-- An operation on the symbols of a world. -/
def onSymbols {ε α : Type} (op : SymbolTable → Except ε α × SymbolTable) (w : World) :
    Except ε α × World :=
  match w with
  | ⟨symbols, pool, context⟩ =>
      let (result, symbols) := op symbols
      (result, ⟨symbols, pool, context⟩)

/-- An operation on the objects of a world. -/
def onPool {ε α : Type} (op : ObjectPool → Except ε α × ObjectPool) (w : World) :
    Except ε α × World :=
  match w with
  | ⟨symbols, pool, context⟩ =>
      let (result, pool) := op pool
      (result, ⟨symbols, pool, context⟩)

end World

/-- A step of a pass: it may fail, and the world is kept either way. -/
abbrev Transforming := ExceptT PassError (StateM World)

namespace Transforming

def symbols : Transforming SymbolTable := do pure (← get).symbols

def region : Transforming (Option String) := do pure (← get).context.region

/-- An operation on the world, whose faults are told as faults of passes. -/
def onWorld {ε α : Type} (fault : ε → PassError) (op : World → Except ε α × World) :
    Transforming α := fun w =>
  let (result, w) := op w
  (result.mapError fault, w)

/-- Declares a name. -/
def declare (name : String) (kind : Symbol.Kind) : Transforming SymbolId :=
  onWorld .symbol (World.onSymbols (·.declare name kind))

/-- Gives a symbol its pointer. -/
def associate (symbol : SymbolId) (pointer : Object) : Transforming ObjectIndex :=
  onWorld .pool (World.onPool (·.associate symbol pointer))

/-- Records a connection. -/
def record (origin destination placement : String) (rule : Node) : Transforming Unit :=
  modify fun w => { w with context := w.context.record origin destination placement rule }

end Transforming

end Passage

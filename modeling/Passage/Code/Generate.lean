import Passage.Code.Basic
import Passage.Code.Fault
import Passage.Node.Lowering

/-!
# Code generation

Each form of node has one shape of code: the operands, then the instruction
that consumes them. A call leaves its arguments and then its function on the
stack. Before that shape is used, a fast operation registered under the name of
the function may write shorter code for the call.

Numbers, strings and pointers are entered in the object pool, and stay there
when the generation fails.
-/

namespace Passage

/-- Code in the making. -/
structure Draft where
  pool : ObjectPool
  assembler : Assembler
  /-- The entries of the pool that the code refers to, ascending. -/
  consts : List UInt16
  names : List (UInt16 × String)
deriving Inhabited

/-- A step of code generation: it may fail, and the draft is kept either way. -/
abbrev Drafting := ExceptT CompileError (StateM Draft)

/-- A fast operation is given the symbols, the arguments of a call and the step
that writes the code of all arguments; it says whether it wrote the call. -/
abbrev FastOp := SymbolTable → List Node → Drafting Unit → Drafting Bool

/-- Fast operations by the name of the function that is called. -/
abbrev FastOps := List (String × FastOp)

namespace Draft

/-- The draft before the first instruction. -/
def start (pool : ObjectPool) : Draft := ⟨pool, .empty, [], []⟩

/-- Enters an index in an ascending list that may hold it. -/
def insertConst (index : UInt16) : List UInt16 → List UInt16
  | [] => [index]
  | other :: rest =>
      if index < other then index :: other :: rest
      else if index = other then other :: rest
      else other :: insertConst index rest

/-- Gives an index a name unless it has one. -/
def keepName (index : UInt16) (name : String) (names : List (UInt16 × String)) :
    List (UInt16 × String) :=
  if (names.lookup index).isSome then names else names ++ [(index, name)]

/-- The finished code. -/
def code (d : Draft) : Code :=
  ⟨d.assembler.tape, d.consts, d.names, UInt16.ofNat d.assembler.deepest⟩

end Draft

namespace Drafting

def emit (op : Opcode) (operands : Operands) : Drafting Unit :=
  modify fun d => { d with assembler := d.assembler.emit op operands }

/-- Counts an index among the constants. -/
def refer (index : UInt16) : Drafting Unit :=
  modify fun d => { d with consts := Draft.insertConst index d.consts }

/-- Enters a constant in the pool. -/
def intern (op : ObjectPool → Except PoolError ObjectIndex × ObjectPool) : Drafting UInt16
  | ⟨pool, assembler, consts, names⟩ =>
      match op pool with
      | (.ok index, pool) => (.ok (UInt16.ofNat index), ⟨pool, assembler, consts, names⟩)
      | (.error e, pool) => (.error (.pool e), ⟨pool, assembler, consts, names⟩)

/-- Enters a constant and writes the instruction that pushes it. -/
def pushConstant (op : ObjectPool → Except PoolError ObjectIndex × ObjectPool) : Drafting Unit := do
  let index ← intern op
  refer index
  emit .pushConst (.word index)

def symbol (symbols : SymbolTable) (id : SymbolId) : Drafting Symbol :=
  match symbols.get? id with
  | some symbol => pure symbol
  | none => throw (.unknownSymbol id)

/-- The index of a symbol's pointer, which becomes a named constant. -/
def pointerOf (symbols : SymbolTable) (id : SymbolId) : Drafting UInt16 := do
  let symbol ← symbol symbols id
  match (← get).pool.pointerFor id with
  | .error e => throw (.pool e)
  | .ok index =>
      let index := UInt16.ofNat index
      refer index
      modify fun d => { d with names := Draft.keepName index symbol.name d.names }
      pure index

/-- Whether symbols of a kind have pointers that code may push. -/
def isPushable : Symbol.Kind → Bool
  | .builtInFunction | .token | .setting => true
  | _ => false

/-- Writes the instruction that pushes a symbol's pointer. -/
def pushIdentifier (symbols : SymbolTable) (id : SymbolId) : Drafting UInt16 := do
  let known ← symbol symbols id
  if isPushable known.kind then
    let index ← pointerOf symbols id
    emit .pushConst (.word index)
    pure index
  else throw (.uncompilable known.name known.kind)

/-- The number of operands as an instruction word. -/
def operandCount (nodes : List Node) : Drafting UInt16 :=
  let count := nodes.length
  if count < 65536 then pure (UInt16.ofNat count) else throw (.tooManyOperands count)

/-- The name of a function that is built in and accepts a number of arguments. -/
def calleeName (symbols : SymbolTable) (target : Node) (count : Nat) :
    Drafting (SymbolId × String) := do
  match target.identifier? with
  | none => throw .notCallable
  | some callee =>
      let known ← symbol symbols callee
      match (← get).pool.definitionOf callee with
      | .error _ => throw (.unresolvedCallee known.name)
      | .ok signature =>
          if signature.accepts count then pure (callee, known.name)
          else throw (.argumentCount known.name signature.params count)

def comparisonOpcode : Comparison → Opcode
  | .equal => .compareEqual
  | .unequal => .compareUnequal
  | .less => .compareLess

mutual

/-- Writes the code of a node. -/
def visit (symbols : SymbolTable) (fastOps : FastOps) : Node → Drafting Unit
  | .anyOf items => do
      let count ← operandCount items
      visitAll symbols fastOps items
      emit .needAny (.word count)
  | .every items => do
      let count ← operandCount items
      visitAll symbols fastOps items
      emit .needAll (.word count)
  | .boolean value => emit (if value then .pushTrue else .pushFalse) .bare
  | .compare op lhs rhs => do
      visit symbols fastOps rhs
      visit symbols fastOps lhs
      emit (comparisonOpcode op) .bare
  | .identifier id => do
      let _ ← pushIdentifier symbols id
  | .invert inner => do
      visit symbols fastOps inner
      emit .invert .bare
  | .invoke target args => do
      let (callee, name) ← calleeName symbols target args.length
      let written ← match fastOps.lookup name with
        | some fast => fast symbols args (visitAll symbols fastOps args)
        | none => pure false
      if written then pure ()
      else if args.isEmpty then
        let index ← pointerOf symbols callee
        emit .invokeBare (.word index)
      else
        let count ← operandCount args
        visitAll symbols fastOps args
        visit symbols fastOps target
        emit .invoke (.word count)
  | .number value => pushConstant (·.internNumber value)
  | .string value => pushConstant (·.internString value)

/-- Writes the code of nodes in order. -/
def visitAll (symbols : SymbolTable) (fastOps : FastOps) : List Node → Drafting Unit
  | [] => pure ()
  | node :: rest => do
      visit symbols fastOps node
      visitAll symbols fastOps rest

end

end Drafting

/-! ## Fast operations -/

namespace FastOps

/-- Writes a call of `has` for a token and a literal quantity that is a byte as
a quantity check of the token. -/
def has : FastOp := fun symbols args _ =>
  match args with
  | [.identifier item, .number quantity] =>
      match quantity.byte? with
      | some count =>
          if symbols.kindOf? item = some .token then do
            let index ← Drafting.pushIdentifier symbols item
            Drafting.emit .checkQuantity (.wordByte index count)
            pure true
          else pure false
      | none => pure false
  | _ => pure false

/-- The fast operation of `has` alone. -/
def standard : FastOps := [(Lowering.hasName, has)]

end FastOps

/-- The code of a node, and the pool with the constants it refers to. -/
def Node.compile (node : Node) (symbols : SymbolTable) (fastOps : FastOps) (pool : ObjectPool) :
    Except CompileError Code × ObjectPool :=
  match (Drafting.visit symbols fastOps node).run.run (.start pool) with
  | (.ok (), draft) => (.ok draft.code, draft.pool)
  | (.error e, draft) => (.error e, draft.pool)

end Passage

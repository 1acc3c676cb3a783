import Passage.Code.Tape
import Passage.Machine.Event
import Passage.Machine.Host

/-!
# The machine

A machine is a frozen table, the host functions that its built-in pointers call,
and possibly a quantity check. It runs a tape from front to back over a stack of
objects; there are no jumps. The answer is the top of the stack, or null.
-/

namespace Passage

structure Callable where
  signature : Signature
  function : HostFunction

structure Machine where
  table : ObjectTable
  /-- What each pointer calls; a pointer stands here once. -/
  functions : List (Object × Callable)
  check : Option QuantityCheck

inductive MachineError where
  | unmapped (name : String)
deriving DecidableEq

def MachineError.message : MachineError → String
  | .unmapped name =>
      "built-in " ++ Text.quoteString name ++ " is declared but not mapped to a function"

def MachineError.code : MachineError → String
  | .unmapped .. => "UnmappedBuiltIn"

instance : Diagnostic MachineError := ⟨MachineError.code, MachineError.message⟩

namespace Machine

/-- Gives each built-in of a table the host function of its name. A function is
given away once. -/
def bind (functions : List (Object × Callable)) (host : Host) :
    List (Object × Signature) → Except MachineError (List (Object × Callable))
  | [] => .ok functions
  | (pointer, signature) :: rest =>
      match host.find? signature.name with
      | none => .error (.unmapped signature.name)
      | some function =>
          let others := functions.filter fun entry => entry.1 != pointer
          bind ((pointer, ⟨signature, function⟩) :: others) (host.erase signature.name) rest

/-- The machine over a table, if the host has a function for each built-in. -/
def ofTable (table : ObjectTable) (host : Host) : Except MachineError Machine :=
  (bind [] host table.builtIns).map fun functions => ⟨table, functions, none⟩

def withCheck (m : Machine) (check : QuantityCheck) : Machine := { m with check := some check }

/-- How a machine is shown. -/
def text (m : Machine) : String :=
  "VM \x7b objects: " ++ toString m.table.size ++ ", functions: " ++ toString m.functions.length ++
    ", quantity_check: " ++ (if m.check.isSome then "true" else "false") ++ " \x7d"

/-! ## One instruction -/

/-- The operand stack, top first, and the events so far, last first. -/
structure State where
  stack : List Object
  events : List Event

/-- A step of a run: it may fail, and its state is kept either way. -/
abbrev Step := ExceptT RunFault (StateM State)

def log (event : Event) : Step Unit :=
  modify fun s => { s with events := event :: s.events }

def push (ip : Nat) (o : Object) : Step Unit := do
  let s ← get
  if s.stack.length < stackLimit then set { s with stack := o :: s.stack }
  else throw (.stackOverflow ip)

def pop (ip : Nat) : Step Object := do
  let s ← get
  match s.stack with
  | [] => throw (.stackUnderflow ip)
  | o :: rest =>
      set { s with stack := rest }
      pure o

/-- The top `count` operands, lowest first, and the stack below them. -/
def window (ip count : Nat) : Step (List Object × List Object) := do
  let stack := (← get).stack
  if stack.length < count then throw (.stackUnderflow ip)
  else pure ((stack.take count).reverse, stack.drop count)

def constant (m : Machine) (ip : Nat) (index : UInt16) : Step Object :=
  match m.table.get? index.toNat with
  | some o => pure o
  | none => throw (.badConstant ip index)

/-- The answer of a host function or check that goes by `name`. -/
def ask (name : String) (answer : Except HostFault Object) : Step Object :=
  match answer with
  | .ok o => pure o
  | .error (.refused message) => throw (.builtIn name message)
  | .error (.panicked payload) => throw (.panicked payload)

/-- Calls the built-in function behind a pointer. -/
def call (m : Machine) (ip : Nat) (callee : Object) (args : List Object) : Step Object :=
  match m.functions.lookup callee with
  | none => throw (.unknownCallee ip callee)
  | some callable => do
      let signature := callable.signature
      if signature.accepts args.length then
        log (.call signature.name args.length)
        ask signature.name (callable.function m.table args)
      else throw (.argumentCount signature.name signature.params args.length)

/-- Pushes an answer; null answers nothing. -/
def pushAnswer (ip : Nat) (answer : Object) : Step Unit :=
  if answer.isNull then pure () else push ip answer

/-- Answers a junction over the top `count` operands. -/
def junction (ip count : Nat) (decideAll : List Object → Bool) : Step Unit := do
  let (operands, below) ← window ip count
  modify fun s => { s with stack := below }
  push ip (.ofBool (decideAll operands))

/-- Asks the quantity check about a constant, in place of the top operand. -/
def checkQuantity (m : Machine) (ip : Nat) (index : UInt16) (quantity : UInt8) : Step Unit :=
  match m.check with
  | none => throw (.missingQuantityCheck ip)
  | some check => do
      let item ← m.constant ip index
      let _ ← pop ip
      let answer ← ask Opcode.checkQuantity.mnemonic (check m.table item quantity)
      log (.quantity item quantity answer.isTruthy)
      push ip answer

/-- Calls the top operand with the `count` operands below it. -/
def invoke (m : Machine) (ip count : Nat) : Step Unit := do
  let callee ← pop ip
  let (args, below) ← window ip count
  let answer ← m.call ip callee args
  modify fun s => { s with stack := below }
  pushAnswer ip answer

/-- Calls a constant without arguments. -/
def invokeBare (m : Machine) (ip : Nat) (index : UInt16) : Step Unit := do
  let callee ← m.constant ip index
  let answer ← m.call ip callee []
  pushAnswer ip answer

/-- What an instruction does. Instructions whose operands are not those of their
opcode are never read from a tape; they do nothing. -/
def perform (m : Machine) (ip : Nat) (i : Instruction) : Step Unit :=
  match i.op, i.operands with
  | .nop, _ => pure ()
  | .err, _ => throw (.halted ip)
  | .pushTrue, _ => push ip (.ofBool true)
  | .pushFalse, _ => push ip (.ofBool false)
  | .pushConst, .word index | .pushPtr, .word index
  | .pushStr, .word index | .pushFunc, .word index => do
      let o ← m.constant ip index
      push ip o
  | .invert, _ => do
      let o ← pop ip
      push ip (.ofBool (!o.isTruthy))
  | .needAll, .word count => junction ip count.toNat (·.all Object.isTruthy)
  | .needAny, .word count => junction ip count.toNat (·.any Object.isTruthy)
  | .checkQuantity, .wordByte index quantity => m.checkQuantity ip index quantity
  | .invoke, .word count => m.invoke ip count.toNat
  | .invokeBare, .word index => m.invokeBare ip index
  | .compareEqual, _ => throw (.comparison ip .compareEqual)
  | .compareUnequal, _ => throw (.comparison ip .compareUnequal)
  | .compareLess, _ => throw (.comparison ip .compareLess)
  | _, _ => pure ()

/-! ## Runs -/

/-- How a run ended, and its events in order. -/
structure Run where
  result : Except RunFault Object
  events : List Event

/-- Ends a run in a fault, which is an event unless the host panicked. -/
def fail (s : State) (offset : Nat) (fault : RunFault) : Run :=
  ⟨.error fault, (if fault.isPanic then s.events else .fault offset fault :: s.events).reverse⟩

/-- The state in which an opcode has been dispatched. -/
def dispatched (s : State) (offset : Nat) (op : Opcode) : State :=
  { s with events := .instruction offset op s.stack.length :: s.events }

/-- Runs the instructions from a state on, then meets the end of the tape. -/
def runFrom (m : Machine) (ending : TapeEnd) (s : State) : List (Nat × Instruction) → Run
  | [] =>
      match ending with
      | .complete => ⟨.ok (s.stack.headD .null), s.events.reverse⟩
      | .unknown offset byte => fail s offset (.unknownOpcode offset byte)
      | .truncated offset op => fail (dispatched s offset op) offset (.truncatedTape offset)
  | (offset, i) :: rest =>
      match (m.perform offset i).run.run (dispatched s offset i.op) with
      | (.ok (), s) => m.runFrom ending s rest
      | (.error fault, s) => fail s offset fault

/-- Runs a tape on an empty stack. -/
def run (m : Machine) (tape : ByteArray) : Run :=
  let listing := Listing.ofTape tape
  m.runFrom listing.ending ⟨[], []⟩ listing.instructions

end Machine

end Passage

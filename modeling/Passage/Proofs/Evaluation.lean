import Mathlib
import Passage.Code.Generate
import Passage.Machine.Basic

/-!
# What nodes mean

`Node.evaluate` reads a node as an expression: its operands are evaluated in order,
its calls are asked of the host, and the first failure is the failure of the whole. It
knows nothing of code, stacks or offsets. What a compiled node does on the machine is
later shown to be just this.
-/

namespace Passage

/-- Why a node has no value. -/
inductive NodeFault where
  /-- The node compares; comparisons are not answered. -/
  | comparison (op : Opcode)
  | refused (name message : String)
  | panicked (payload : Option String)
  /-- A function answers null, which is no answer. -/
  | silent
  /-- The node uses what has no object, or calls what has no function. -/
  | undefined
deriving DecidableEq

/-- What a fault of a run says about the node that was compiled. The other faults are
those of a machine that was given bad code. -/
def RunFault.cause? : RunFault → Option NodeFault
  | .comparison _ op => some (.comparison op)
  | .builtIn name message => some (.refused name message)
  | .panicked payload => some (.panicked payload)
  | _ => none

/-- The token and quantity that a call asks for, if it is a call of `has` that may be made
as a quantity check: for a token, and for a literal quantity that is a byte. -/
def SymbolTable.quantityAsked? (symbols : SymbolTable) (fast : Bool) :
    Node → List Node → Option (SymbolId × UInt8)
  | .identifier callee, [.identifier item, .number quantity] =>
      if fast = true ∧ symbols.nameOf? callee = some Lowering.hasName ∧
          symbols.kindOf? item = some .token then
        quantity.byte?.map fun count => (item, count)
      else none
  | _, _ => none

/-- The pointer of a symbol. -/
def ObjectPool.pointer? (p : ObjectPool) (id : SymbolId) : Option Object :=
  p.pointers[id]?.bind p.get?

/-- The object of a text. -/
def ObjectPool.text? (p : ObjectPool) (s : String) : Option Object := p.texts[s]?.bind p.get?

/-- What the names and literals of nodes stand for, and who answers their calls. -/
structure Meaning where
  symbols : SymbolTable
  pool : ObjectPool
  host : Host
  check : QuantityCheck
  /-- Whether calls of `has` may be made as quantity checks. -/
  fast : Bool

namespace Meaning

/-- What is there, as a value. -/
def defined {α : Type} : Option α → Except NodeFault α
  | some a => .ok a
  | none => .error .undefined

/-- The answer of a function or check that goes by `name`. -/
def asked (name : String) : Except HostFault Object → Except NodeFault Object
  | .ok o => .ok o
  | .error (.refused message) => .error (.refused name message)
  | .error (.panicked payload) => .error (.panicked payload)

/-- An answer that is one. -/
def spoken (o : Object) : Except NodeFault Object :=
  if o.isNull then .error .silent else .ok o

/-- Asks the function that a symbol is defined as. -/
def call (m : Meaning) (callee : SymbolId) (args : List Object) : Except NodeFault Object := do
  let signature ← defined (m.pool.definitions.lookup callee)
  let function ← defined (m.host.find? signature.name)
  let answer ← asked signature.name (function m.pool.freeze args)
  spoken answer

/-- Asks whether a quantity of a token is held. -/
def holds (m : Meaning) (item : SymbolId) (quantity : UInt8) : Except NodeFault Object := do
  let token ← defined (m.pool.pointer? item)
  asked Opcode.checkQuantity.mnemonic (m.check m.pool.freeze token quantity)

end Meaning

mutual

/-- The value of a node. -/
def Node.evaluate (m : Meaning) : Node → Except NodeFault Object
  | .anyOf items => do
      let values ← evaluateAll m items
      pure (.ofBool (values.any Object.isTruthy))
  | .every items => do
      let values ← evaluateAll m items
      pure (.ofBool (values.all Object.isTruthy))
  | .boolean value => pure (.ofBool value)
  | .compare op lhs rhs => do
      let _ ← evaluate m rhs
      let _ ← evaluate m lhs
      throw (.comparison (Drafting.comparisonOpcode op))
  | .identifier id => Meaning.defined (m.pool.pointer? id)
  | .invert inner => do
      let value ← evaluate m inner
      pure (.ofBool (!value.isTruthy))
  | .invoke target args =>
      match m.symbols.quantityAsked? m.fast target args with
      | some (item, quantity) => m.holds item quantity
      | none => do
          let callee ← Meaning.defined target.identifier?
          let values ← evaluateAll m args
          m.call callee values
  | .number value => Meaning.defined (Object.ofNumber value).toOption
  | .string value => Meaning.defined (m.pool.text? value)

/-- The values of nodes, evaluated in order. -/
def Node.evaluateAll (m : Meaning) : List Node → Except NodeFault (List Object)
  | [] => pure []
  | node :: rest => do
      let value ← evaluate m node
      let values ← evaluateAll m rest
      pure (value :: values)

end

/-! ## Answers -/

/-- Functions that never answer null. -/
def Meaning.Answers (m : Meaning) : Prop :=
  ∀ {name : String} {function : HostFunction}, m.host.find? name = some function →
    ∀ args, function m.pool.freeze args ≠ .ok .null

section

variable {m : Meaning} {α β : Type}

theorem bind_ne_silent {x : Except NodeFault α} {f : α → Except NodeFault β}
    (hx : x ≠ .error .silent) (hf : ∀ a, f a ≠ .error .silent) : (x >>= f) ≠ .error .silent := by
  rcases x with cause | a
  · intro h
    exact hx (congrArg Except.error (Except.error.inj h))
  · exact hf a

theorem Meaning.defined_ne_silent (o : Option α) : Meaning.defined o ≠ .error .silent := by
  cases o <;> exact nofun

theorem Meaning.asked_ne_silent (name : String) (answer : Except HostFault Object) :
    Meaning.asked name answer ≠ .error .silent := by
  rcases answer with (message | payload) | o <;> exact nofun

/-- No call is silent where no function answers null. -/
theorem Meaning.Answers.call_ne_silent (h : m.Answers) (callee : SymbolId) (args : List Object) :
    m.call callee args ≠ .error .silent := by
  refine bind_ne_silent (defined_ne_silent _) fun signature => ?_
  rcases hfind : m.host.find? signature.name with _ | function
  · exact nofun
  · show (Meaning.asked signature.name (function m.pool.freeze args) >>= Meaning.spoken) ≠ _
    have hanswer := h hfind args
    rcases hvalue : function m.pool.freeze args with (message | payload) | o
    · exact nofun
    · exact nofun
    · have hnull : o.isNull = false :=
        beq_eq_false_iff_ne.mpr fun ho => hanswer (hvalue.trans (congrArg Except.ok ho))
      show Meaning.spoken o ≠ _
      unfold Meaning.spoken
      rw [hnull]
      exact nofun

mutual

/-- Where no function answers null, no node fails by silence. -/
theorem Meaning.Answers.evaluate_ne_silent (h : m.Answers) :
    (node : Node) → node.evaluate m ≠ .error .silent
  | .anyOf items | .every items => by
    rw [Node.evaluate]
    exact bind_ne_silent (evaluateAll_ne_silent h items) fun _ => nofun
  | .boolean value => nofun
  | .compare op lhs rhs => by
    rw [Node.evaluate]
    exact bind_ne_silent (evaluate_ne_silent h rhs) fun _ =>
      bind_ne_silent (evaluate_ne_silent h lhs) fun _ => nofun
  | .identifier id => by
    rw [Node.evaluate]
    exact defined_ne_silent _
  | .invert inner => by
    rw [Node.evaluate]
    exact bind_ne_silent (evaluate_ne_silent h inner) fun _ => nofun
  | .invoke target args => by
    rw [Node.evaluate]
    split
    · exact bind_ne_silent (defined_ne_silent _) fun _ => asked_ne_silent _ _
    · exact bind_ne_silent (defined_ne_silent _) fun callee =>
        bind_ne_silent (evaluateAll_ne_silent h args) fun values => h.call_ne_silent callee values
  | .number value => by
    rw [Node.evaluate]
    exact defined_ne_silent _
  | .string value => by
    rw [Node.evaluate]
    exact defined_ne_silent _

theorem Meaning.Answers.evaluateAll_ne_silent (h : m.Answers) :
    (nodes : List Node) → Node.evaluateAll m nodes ≠ .error .silent
  | [] => nofun
  | node :: rest => by
    rw [Node.evaluateAll]
    exact bind_ne_silent (evaluate_ne_silent h node) fun _ =>
      bind_ne_silent (evaluateAll_ne_silent h rest) fun _ => nofun

end

end

/-! ## Texts -/

mutual

/-- The literal texts of a node. -/
def Node.texts : Node → List String
  | .anyOf items => textsAll items
  | .every items => textsAll items
  | .boolean _ => []
  | .compare _ lhs rhs => texts lhs ++ texts rhs
  | .identifier _ => []
  | .invert inner => texts inner
  | .invoke target args => texts target ++ textsAll args
  | .number _ => []
  | .string value => [value]

def Node.textsAll : List Node → List String
  | [] => []
  | node :: rest => texts node ++ textsAll rest

end

end Passage

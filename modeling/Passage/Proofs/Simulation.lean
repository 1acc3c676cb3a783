import Passage.Proofs.Fallible
import Passage.Proofs.Stack

/-!
# Running the code of a node

`Machine.Runs` says what instructions make of a stack: another stack, or a fault of
which the cause is known. Runs are composed like the instructions
(`Runs.then_ok`, `Runs.then_error`), so that the code of a node runs to the value of the
node as soon as each instruction does its part (`Node.Codes.runs`).
-/

namespace Passage

open Meaning (asked defined spoken)

namespace Machine

/-- Performs instructions in order. -/
def performAll (m : Machine) : List (Nat × Instruction) → Step Unit
  | [] => pure ()
  | (offset, i) :: rest => do
      modify (dispatched · offset i.op)
      m.perform offset i
      performAll m rest

theorem performAll_cons (m : Machine) (offset : Nat) (i : Instruction)
    (rest : List (Nat × Instruction)) (s : State) :
    m.performAll ((offset, i) :: rest) s =
      (m.perform offset i >>= fun _ => m.performAll rest) (dispatched s offset i.op) := by
  rw [performAll, bind_apply, modify_apply]

/-- A run to the end of a tape answers with the top of the stack, unless an instruction
fails. -/
theorem runFrom_result (m : Machine) (s : State) (instructions : List (Nat × Instruction)) :
    (m.runFrom .complete s instructions).result =
      (m.performAll instructions s).1.map fun _ =>
        (m.performAll instructions s).2.stack.headD .null := by
  induction instructions generalizing s with
  | nil => rfl
  | cons entry rest ih =>
    obtain ⟨offset, i⟩ := entry
    rw [performAll_cons, bind_apply, runFrom]
    rcases h : m.perform offset i (dispatched s offset i.op) with ⟨fault | ⟨⟩, s'⟩ <;>
      rw [show (m.perform offset i).run.run (dispatched s offset i.op) = _ from h]
    · rfl
    · exact ih s'

/-! ## What instructions make of a stack -/

/-- From the stack, the instructions reach the outcome: a stack, or a fault with that
cause. Where they lie on a tape makes no difference. Nothing is said of a run in which a
function is silent, since an operand is missing from there on. -/
def Runs (m : Machine) (code : List Instruction) (stack : List Object) :
    Except NodeFault (List Object) → Prop
  | .ok stack' => ∀ offset (s : State), s.stack = stack → ∃ s',
      m.performAll (Instruction.placed offset code) s = (.ok (), s') ∧ s'.stack = stack'
  | .error cause => cause ≠ .silent → ∀ offset (s : State), s.stack = stack → ∃ fault s',
      m.performAll (Instruction.placed offset code) s = (.error fault, s') ∧
        fault.cause? = some cause

theorem performAll_append (m : Machine) (code more : List Instruction) (offset : Nat) (s : State) :
    m.performAll (Instruction.placed offset (code ++ more)) s =
      (m.performAll (Instruction.placed offset code) >>= fun _ =>
        m.performAll (Instruction.placed (offset + (Instruction.allBytes code).length) more))
          s := by
  induction code generalizing offset s with
  | nil => rfl
  | cons i rest ih =>
    rw [List.cons_append, Instruction.placed, performAll_cons, bind_apply, bind_apply,
      Instruction.placed, performAll_cons, bind_apply]
    rcases m.perform offset i (dispatched s offset i.op) with ⟨fault | ⟨⟩, s'⟩
    · rfl
    · dsimp only
      rw [ih, bind_apply, Instruction.allBytes_cons, List.length_append, ← Nat.add_assoc]

namespace Runs

variable {m : Machine} {code more : List Instruction} {stack stack' : List Object}

theorem nil : m.Runs [] stack (.ok stack) := fun _ s hs => ⟨s, rfl, hs⟩

theorem then_ok {outcome : Except NodeFault (List Object)} (h : m.Runs code stack (.ok stack'))
    (h' : m.Runs more stack' outcome) : m.Runs (code ++ more) stack outcome := by
  cases outcome with
  | ok stack'' =>
    intro offset s hs
    obtain ⟨s', hrun, hstack⟩ := h offset s hs
    obtain ⟨s'', hrun', hstack'⟩ := h' (offset + (Instruction.allBytes code).length) s' hstack
    exact ⟨s'', by rw [performAll_append, bind_apply, hrun]; exact hrun', hstack'⟩
  | error cause =>
    intro hspoken offset s hs
    obtain ⟨s', hrun, hstack⟩ := h offset s hs
    obtain ⟨fault, s'', hrun', hcause⟩ :=
      h' hspoken (offset + (Instruction.allBytes code).length) s' hstack
    exact ⟨fault, s'', by rw [performAll_append, bind_apply, hrun]; exact hrun', hcause⟩

/-- What fails, fails whatever comes behind it. -/
theorem then_error {cause : NodeFault} (h : m.Runs code stack (.error cause))
    (more : List Instruction) : m.Runs (code ++ more) stack (.error cause) := by
  intro hspoken offset s hs
  obtain ⟨fault, s', hrun, hcause⟩ := h hspoken offset s hs
  exact ⟨fault, s', by rw [performAll_append, bind_apply, hrun], hcause⟩

end Runs

/-- One instruction that reaches a stack. -/
theorem runs_ok {m : Machine} {i : Instruction} {stack stack' : List Object}
    (h : ∀ offset (s : State), s.stack = stack → ∃ s',
      m.perform offset i s = (.ok (), s') ∧ s'.stack = stack') : m.Runs [i] stack (.ok stack') := by
  intro offset s hs
  obtain ⟨s', hperform, hstack⟩ := h offset (dispatched s offset i.op) hs
  refine ⟨s', ?_, hstack⟩
  rw [Instruction.placed, performAll_cons, bind_apply, hperform]
  rfl

/-- One instruction that fails. -/
theorem runs_error {m : Machine} {i : Instruction} {stack : List Object} {cause : NodeFault}
    (h : ∀ offset (s : State), s.stack = stack → ∃ fault s',
      m.perform offset i s = (.error fault, s') ∧ fault.cause? = some cause) :
    m.Runs [i] stack (.error cause) := by
  intro _ offset s hs
  obtain ⟨fault, s', hperform, hcause⟩ := h offset (dispatched s offset i.op) hs
  refine ⟨fault, s', ?_, hcause⟩
  rw [Instruction.placed, performAll_cons, bind_apply, hperform]

/-- What holds as long as the function that was asked is not silent, holds of its answer
where only answers that are not null count. -/
theorem Runs.unless_silent {m : Machine} {code : List Instruction} {stack below : List Object}
    {name : String} {answer : Except HostFault Object}
    (h : (∀ o, answer = .ok o → o.isNull = false) →
      m.Runs code stack ((asked name answer).map (· :: below))) :
    m.Runs code stack ((asked name answer >>= spoken).map (· :: below)) := by
  rcases answer with (message | payload) | o
  · exact h nofun
  · exact h nofun
  · show m.Runs code stack ((spoken o).map (· :: below))
    unfold Meaning.spoken
    rcases hnull : o.isNull with _ | _
    · exact h fun o' ho => Except.ok.inj ho ▸ hnull
    · exact fun hspoken => absurd rfl hspoken

/-! ## What each instruction does -/

section

variable {m : Machine} {stack : List Object} {s : State} {ip : Nat}

theorem log_apply (event : Event) (s : State) :
    log event s = (.ok (), { s with events := event :: s.events }) := rfl

theorem push_apply {o : Object} (h : s.stack.length < stackLimit) :
    push ip o s = (.ok (), { s with stack := o :: s.stack }) := by
  rw [push, bind_ok (get_apply s), if_pos h, set_apply]

theorem pop_apply {o : Object} (h : s.stack = o :: stack) :
    pop ip s = (.ok o, { s with stack }) := by
  rw [pop, bind_ok (get_apply s), h]
  rfl

theorem constant_apply {index : UInt16} {o : Object} (h : m.table.get? index.toNat = some o) :
    m.constant ip index s = (.ok o, s) := by
  rw [constant, h]
  rfl

/-- The operands on top of the stack, as they were pushed. -/
theorem window_apply {operands : List Object} (h : s.stack = operands.reverse ++ stack) :
    window ip operands.length s = (.ok (operands, stack), s) := by
  have hlength : ¬ s.stack.length < operands.length := by
    rw [h, List.length_append, List.length_reverse]
    omega
  have htake : (s.stack.take operands.length).reverse = operands := by
    rw [h, List.take_left' List.length_reverse, List.reverse_reverse]
  have hdrop : s.stack.drop operands.length = stack := by
    rw [h, List.drop_left' List.length_reverse]
  rw [window, bind_ok (get_apply s), if_neg hlength, htake, hdrop, pure_apply]

/-- A call of a function that the machine knows, with arguments that it accepts. -/
theorem call_apply {callee : Object} {callable : Callable} {args : List Object}
    (hlookup : m.functions.lookup callee = some callable)
    (haccepts : callable.signature.accepts args.length = true) (s : State) :
    m.call ip callee args s =
      ask callable.signature.name (callable.function m.table args)
        { s with events := .call callable.signature.name args.length :: s.events } := by
  rw [call, hlookup]
  dsimp only
  rw [if_pos haccepts, bind_ok (log_apply _ s)]

theorem pushAnswer_apply {answer : Object} (hanswer : answer.isNull = false) :
    pushAnswer ip answer s = push ip answer s := by
  rw [pushAnswer, hanswer]
  rfl

/-! ## What each instruction comes to

An instruction that finds the operands that it needs comes to pushing an object, or to asking
the host before that. Whether there is room for the object is left open here. -/

theorem perform_push {index : ObjectIndex} {o : Object} (hindex : index < 65536)
    (h : m.table.get? index = some o) (s : State) :
    m.perform ip (.push index) s = push ip o s := by
  have hconstant : m.constant ip (UInt16.ofNat index) s = (.ok o, s) :=
    constant_apply (by rw [UInt16.toNat_ofNat', Nat.mod_eq_of_lt hindex, h])
  show (m.constant ip (UInt16.ofNat index) >>= fun o => push ip o) s = _
  rw [bind_ok hconstant]

theorem perform_invert {o : Object} (hs : s.stack = o :: stack) :
    m.perform ip ⟨.invert, .bare⟩ s = push ip (.ofBool (!o.isTruthy)) { s with stack } := by
  show (pop ip >>= fun o => push ip (.ofBool (!o.isTruthy))) s = _
  rw [bind_ok (pop_apply hs)]

/-- A junction answers for the operands that its items have left. -/
theorem junction_apply {operands : List Object} (hcount : operands.length < 65536)
    (decideAll : List Object → Bool) (hs : s.stack = operands.reverse ++ stack) :
    junction ip (UInt16.ofNat operands.length).toNat decideAll s =
      push ip (.ofBool (decideAll operands)) { s with stack } := by
  rw [UInt16.toNat_ofNat', Nat.mod_eq_of_lt hcount, junction, bind_ok (window_apply hs)]
  dsimp only
  rw [bind_ok (modify_apply _ s)]

/-- The quantity check is asked about the token on the stack. -/
theorem perform_checkQuantity {check : QuantityCheck} (hcheck : m.check = some check)
    {index : ObjectIndex} {o : Object} (hindex : index < 65536) (h : m.table.get? index = some o)
    (quantity : UInt8) (hs : s.stack = o :: stack) :
    m.perform ip ⟨.checkQuantity, .wordByte (UInt16.ofNat index) quantity⟩ s =
      (ask Opcode.checkQuantity.mnemonic (check m.table o quantity) >>= fun answer => do
        log (.quantity o quantity answer.isTruthy)
        push ip answer) { s with stack } := by
  have hconstant : m.constant ip (UInt16.ofNat index) s = (.ok o, s) :=
    constant_apply (by rw [UInt16.toNat_ofNat', Nat.mod_eq_of_lt hindex, h])
  show m.checkQuantity ip (UInt16.ofNat index) quantity s = _
  rw [checkQuantity, hcheck]
  dsimp only
  rw [bind_ok hconstant, bind_ok (pop_apply hs)]

/-- The function on the stack is asked about the arguments below it. -/
theorem perform_invoke {callee : Object} {callable : Callable} {args : List Object}
    (hcount : args.length < 65536) (hlookup : m.functions.lookup callee = some callable)
    (haccepts : callable.signature.accepts args.length = true)
    (hs : s.stack = callee :: (args.reverse ++ stack)) :
    m.perform ip ⟨.invoke, .word (UInt16.ofNat args.length)⟩ s =
      (ask callable.signature.name (callable.function m.table args) >>= fun answer => do
        modify fun s => { s with stack }
        pushAnswer ip answer)
        ⟨args.reverse ++ stack, .call callable.signature.name args.length :: s.events⟩ := by
  show m.invoke ip (UInt16.ofNat args.length).toNat s = _
  rw [UInt16.toNat_ofNat', Nat.mod_eq_of_lt hcount, invoke, bind_ok (pop_apply hs),
    bind_ok (window_apply rfl)]
  dsimp only
  rw [bind_apply, call_apply hlookup haccepts, bind_apply]

/-- The function behind the constant is asked. -/
theorem perform_invokeBare {callee : Object} {callable : Callable} {index : ObjectIndex}
    (hindex : index < 65536) (h : m.table.get? index = some callee)
    (hlookup : m.functions.lookup callee = some callable)
    (haccepts : callable.signature.accepts 0 = true) (s : State) :
    m.perform ip ⟨.invokeBare, .word (UInt16.ofNat index)⟩ s =
      (ask callable.signature.name (callable.function m.table []) >>= pushAnswer ip)
        { s with events := .call callable.signature.name 0 :: s.events } := by
  have hconstant : m.constant ip (UInt16.ofNat index) s = (.ok callee, s) :=
    constant_apply (by rw [UInt16.toNat_ofNat', Nat.mod_eq_of_lt hindex, h])
  have hnone : callable.signature.accepts ([] : List Object).length = true := haccepts
  have hcall : m.call ip callee [] s =
      ask callable.signature.name (callable.function m.table [])
        { s with events := .call callable.signature.name 0 :: s.events } :=
    call_apply hlookup hnone s
  show m.invokeBare ip (UInt16.ofNat index) s = _
  rw [invokeBare, bind_ok hconstant, bind_apply, hcall, bind_apply]

/-! ## What each instruction does where there is room -/

/-- An instruction that asks the host, and then pushes the answer. -/
theorem runs_asked {i : Instruction} {below : List Object} {name : String}
    {answer : Except HostFault Object}
    (h : ∀ offset (s : State), s.stack = stack → ∃ (finish : Object → Step Unit) (s' : State),
      m.perform offset i s = (ask name answer >>= finish) s' ∧
        ∀ o, answer = .ok o → ∃ s'', finish o s' = (.ok (), s'') ∧ s''.stack = o :: below) :
    m.Runs [i] stack ((asked name answer).map (· :: below)) := by
  rcases answer with (message | payload) | o
  · refine runs_error fun offset s hs => ?_
    obtain ⟨finish, s', hperform, -⟩ := h offset s hs
    exact ⟨.builtIn name message, s', hperform, rfl⟩
  · refine runs_error fun offset s hs => ?_
    obtain ⟨finish, s', hperform, -⟩ := h offset s hs
    exact ⟨.panicked payload, s', hperform, rfl⟩
  · refine runs_ok fun offset s hs => ?_
    obtain ⟨finish, s', hperform, hfinish⟩ := h offset s hs
    obtain ⟨s'', hlast, hstack⟩ := hfinish o rfl
    exact ⟨s'', hperform.trans hlast, hstack⟩

/-- An instruction that comes to pushing an object. -/
theorem runs_pushing {i : Instruction} {below : List Object} {o : Object}
    (h : ∀ offset (s : State), s.stack = stack → ∃ t : State,
      m.perform offset i s = push offset o t ∧ t.stack = below)
    (hroom : below.length < stackLimit) : m.Runs [i] stack (.ok (o :: below)) := by
  refine runs_ok fun offset s hs => ?_
  obtain ⟨t, hperform, hbelow⟩ := h offset s hs
  subst hbelow
  exact ⟨_, hperform.trans (push_apply hroom), rfl⟩

theorem runs_boolean (value : Bool) (hroom : stack.length < stackLimit) :
    m.Runs [⟨if value then .pushTrue else .pushFalse, .bare⟩] stack
      (.ok (.ofBool value :: stack)) := by
  refine runs_pushing (fun offset s hs => ⟨s, ?_, hs⟩) hroom
  cases value <;> rfl

theorem runs_constant {index : ObjectIndex} {o : Object} (hindex : index < 65536)
    (h : m.table.get? index = some o) (hroom : stack.length < stackLimit) :
    m.Runs [.push index] stack (.ok (o :: stack)) :=
  runs_pushing (fun _ s hs => ⟨s, perform_push hindex h s, hs⟩) hroom

theorem runs_invert {o : Object} (hroom : stack.length < stackLimit) :
    m.Runs [⟨.invert, .bare⟩] (o :: stack) (.ok (.ofBool (!o.isTruthy) :: stack)) :=
  runs_pushing (fun _ s hs => ⟨{ s with stack }, perform_invert hs, rfl⟩) hroom

theorem runs_needAny {operands : List Object} (hcount : operands.length < 65536)
    (hroom : stack.length < stackLimit) :
    m.Runs [⟨.needAny, .word (UInt16.ofNat operands.length)⟩] (operands.reverse ++ stack)
      (.ok (.ofBool (operands.any Object.isTruthy) :: stack)) :=
  runs_pushing (fun _ s hs => ⟨{ s with stack },
    junction_apply hcount (·.any Object.isTruthy) hs, rfl⟩) hroom

theorem runs_needAll {operands : List Object} (hcount : operands.length < 65536)
    (hroom : stack.length < stackLimit) :
    m.Runs [⟨.needAll, .word (UInt16.ofNat operands.length)⟩] (operands.reverse ++ stack)
      (.ok (.ofBool (operands.all Object.isTruthy) :: stack)) :=
  runs_pushing (fun _ s hs => ⟨{ s with stack },
    junction_apply hcount (·.all Object.isTruthy) hs, rfl⟩) hroom

theorem runs_comparison (op : Comparison) :
    m.Runs [⟨Drafting.comparisonOpcode op, .bare⟩] stack
      (.error (.comparison (Drafting.comparisonOpcode op))) := by
  refine runs_error fun offset s _ => ?_
  cases op <;> exact ⟨_, s, rfl, rfl⟩

theorem runs_checkQuantity {check : QuantityCheck} (hcheck : m.check = some check)
    {index : ObjectIndex} {o : Object} (hindex : index < 65536) (h : m.table.get? index = some o)
    (quantity : UInt8) (hroom : stack.length < stackLimit) :
    m.Runs [⟨.checkQuantity, .wordByte (UInt16.ofNat index) quantity⟩] (o :: stack)
      ((asked Opcode.checkQuantity.mnemonic (check m.table o quantity)).map (· :: stack)) := by
  refine runs_asked fun offset s hs =>
    ⟨_, _, perform_checkQuantity hcheck hindex h quantity hs, fun answer _ => ?_⟩
  refine ⟨⟨answer :: stack, .quantity o quantity answer.isTruthy :: s.events⟩, ?_, rfl⟩
  rw [bind_ok (log_apply _ _), push_apply hroom]

theorem runs_invoke {callee : Object} {callable : Callable} {args : List Object}
    (hcount : args.length < 65536) (hlookup : m.functions.lookup callee = some callable)
    (haccepts : callable.signature.accepts args.length = true)
    (hanswer : ∀ o, callable.function m.table args = .ok o → o.isNull = false)
    (hroom : stack.length < stackLimit) :
    m.Runs [⟨.invoke, .word (UInt16.ofNat args.length)⟩] (callee :: (args.reverse ++ stack))
      ((asked callable.signature.name (callable.function m.table args)).map (· :: stack)) := by
  refine runs_asked fun offset s hs =>
    ⟨_, _, perform_invoke hcount hlookup haccepts hs, fun answer ho => ?_⟩
  refine ⟨⟨answer :: stack, .call callable.signature.name args.length :: s.events⟩, ?_, rfl⟩
  rw [bind_ok (modify_apply _ _), pushAnswer_apply (hanswer answer ho), push_apply hroom]

theorem runs_invokeBare {callee : Object} {callable : Callable} {index : ObjectIndex}
    (hindex : index < 65536) (h : m.table.get? index = some callee)
    (hlookup : m.functions.lookup callee = some callable)
    (haccepts : callable.signature.accepts 0 = true)
    (hanswer : ∀ o, callable.function m.table [] = .ok o → o.isNull = false)
    (hroom : stack.length < stackLimit) :
    m.Runs [⟨.invokeBare, .word (UInt16.ofNat index)⟩] stack
      ((asked callable.signature.name (callable.function m.table [])).map (· :: stack)) := by
  refine runs_asked fun offset s hs =>
    ⟨_, _, perform_invokeBare hindex h hlookup haccepts s, fun answer ho => ?_⟩
  subst hs
  exact ⟨_, (pushAnswer_apply (hanswer answer ho)).trans (push_apply hroom), rfl⟩

end

end Machine

/-- A call is asked of the function that its callee is defined as. -/
theorem Meaning.call_eq {meaning : Meaning} {callee : SymbolId} {signature : Signature}
    {function : HostFunction} (hsignature : meaning.pool.definitions.lookup callee = some signature)
    (hfunction : meaning.host.find? signature.name = some function) (args : List Object) :
    meaning.call callee args =
      asked signature.name (function meaning.pool.freeze args) >>= spoken := by
  rw [call, hsignature]
  show (defined (meaning.host.find? signature.name) >>= fun function => _) = _
  rw [hfunction]
  rfl

namespace Machine

/-! ## The machine of a meaning -/

/-- The machine has the objects, the functions and the check of the meaning. -/
structure Serves (m : Machine) (meaning : Meaning) : Prop where
  sound : meaning.pool.Sound
  table : m.table = meaning.pool.freeze
  check : m.check = some meaning.check
  /-- A pointer calls the host's function of the name under which it is defined. -/
  functions : ∀ {callee : SymbolId} {signature : Signature} {pointer : Object},
    meaning.pool.definitions.lookup callee = some signature →
    meaning.pool.pointer? callee = some pointer → ∃ function,
      meaning.host.find? signature.name = some function ∧
      m.functions.lookup pointer = some ⟨signature, function⟩

namespace Serves

variable {m : Machine} {meaning : Meaning} {stack : List Object}

theorem get? (h : m.Serves meaning) (index : ObjectIndex) :
    m.table.get? index = meaning.pool.get? index := by
  rw [h.table]
  rfl

theorem lt (h : m.Serves meaning) {index : ObjectIndex} {o : Object}
    (ho : meaning.pool.get? index = some o) : index < 65536 :=
  Nat.lt_of_lt_of_le (ObjectPool.get?_eq_some_lt ho) h.sound.size

/-- An entry of the pool is pushed as it is. -/
theorem runs_push (h : m.Serves meaning) {index : ObjectIndex} {o : Object}
    (ho : meaning.pool.get? index = some o) (hroom : stack.length < stackLimit) :
    m.Runs [.push index] stack (.ok (o :: stack)) :=
  runs_constant (h.lt ho) ((h.get? index).trans ho) hroom

/-- The pointer of a symbol is an entry of the pool. -/
theorem pointer (h : m.Serves meaning) {id : SymbolId} {index : ObjectIndex}
    (hindex : meaning.pool.pointers[id]? = some index) :
    ∃ o, meaning.pool.get? index = some o ∧ meaning.pool.pointer? id = some o := by
  obtain ⟨o, ho⟩ := ObjectPool.get?_of_lt (h.sound.pointers hindex)
  exact ⟨o, ho, by rw [ObjectPool.pointer?, hindex]; exact ho⟩

end Serves

end Machine

namespace Node

open Machine (Runs Serves)

variable {m : Machine} {meaning : Meaning} {stack : List Object} {a : Assembler}

theorem evaluateAll_length {nodes : List Node} {values : List Object}
    (h : evaluateAll meaning nodes = .ok values) : values.length = nodes.length := by
  induction nodes generalizing values with
  | nil =>
    rw [← Except.ok.inj h]
    rfl
  | cons node rest ih =>
    rw [evaluateAll] at h
    rcases hnode : node.evaluate meaning with e | value <;> rw [hnode] at h
    · exact absurd h nofun
    · rcases hrest : evaluateAll meaning rest with e | values' <;> rw [hrest] at h
      · exact absurd h nofun
      · rw [← Except.ok.inj h, List.length_cons, List.length_cons, ih hrest]

/-- Code that fits and adds an operand begins with room for it. -/
theorem room {code : List Instruction} (hfits : a.Fits code)
    (hdepth : (a.emitAll code).depth = a.depth + 1) (hstack : stack.length = a.depth) :
    stack.length < stackLimit := by
  have hbehind := hfits.behind
  omega

mutual

/-- On a machine that serves the meaning, from a stack as high as was accounted for, the
code of a node pushes the value of the node, or fails as the node does. -/
theorem Codes.runs (hm : m.Serves meaning) {stack : List Object} {a : Assembler} {node : Node}
    {code : List Instruction} :
    node.Codes (meaning.symbols.quantityAsked? meaning.fast) meaning.pool code →
    a.Fits code → stack.length = a.depth →
      m.Runs code stack ((node.evaluate meaning).map (· :: stack)) := by
  intro hcode hfits hstack
  have hroom := room hfits (hcode.depth hfits) hstack
  cases hcode with
  | anyOf hlength hitems =>
    have hruns := CodesAll.runs hm hitems hfits.left hstack
    rw [evaluate]
    rcases hvalues : evaluateAll meaning _ with e | values <;> rw [hvalues] at hruns
    · exact hruns.then_error _
    · have hcount := evaluateAll_length hvalues
      rw [Instruction.junction, ← hcount]
      exact hruns.then_ok (Machine.runs_needAny (hcount ▸ hlength) hroom)
  | every hlength hitems =>
    have hruns := CodesAll.runs hm hitems hfits.left hstack
    rw [evaluate]
    rcases hvalues : evaluateAll meaning _ with e | values <;> rw [hvalues] at hruns
    · exact hruns.then_error _
    · have hcount := evaluateAll_length hvalues
      rw [Instruction.junction, ← hcount]
      exact hruns.then_ok (Machine.runs_needAll (hcount ▸ hlength) hroom)
  | boolean value => exact Machine.runs_boolean value hroom
  | @compare op lhs rhs first second hrhs hlhs =>
    have hfirst := Codes.runs hm hrhs hfits.left hstack
    rw [evaluate]
    rcases hvalue : evaluate meaning _ with e | value <;> rw [hvalue] at hfirst
    · exact hfirst.then_error _
    · have hheight : (value :: stack).length = (a.emitAll first).depth := by
        rw [hrhs.depth hfits.left, List.length_cons, hstack]
      have hsecond := Codes.runs hm hlhs hfits.right.left hheight
      refine hfirst.then_ok ?_
      rcases hvalue' : evaluate meaning _ with e | value' <;> rw [hvalue'] at hsecond
      · exact hsecond.then_error _
      · exact hsecond.then_ok (Machine.runs_comparison _)
  | identifier hpointer =>
    obtain ⟨o, ho, hid⟩ := hm.pointer hpointer
    rw [evaluate, hid]
    exact hm.runs_push ho hroom
  | invert hinner =>
    have hruns := Codes.runs hm hinner hfits.left hstack
    rw [evaluate]
    rcases hvalue : evaluate meaning _ with e | value <;> rw [hvalue] at hruns
    · exact hruns.then_error _
    · exact hruns.then_ok (Machine.runs_invert hroom)
  | @asked target args item quantity index hasked hpointer =>
    obtain ⟨o, ho, hid⟩ := hm.pointer hpointer
    have hcheck := Machine.runs_checkQuantity hm.check (hm.lt ho) ((hm.get? _).trans ho)
      quantity hroom
    rw [evaluate, hasked]
    dsimp only
    rw [Meaning.holds, hid, ← hm.table]
    exact (hm.runs_push ho hroom).then_ok hcheck
  | bare hasked haccepts hpointer =>
    obtain ⟨o, ho, hid⟩ := hm.pointer hpointer
    obtain ⟨signature, hsignature, hcount⟩ := haccepts
    obtain ⟨function, hfunction, hlookup⟩ := hm.functions hsignature hid
    rw [evaluate, hasked]
    show m.Runs _ _ ((meaning.call _ []).map _)
    rw [Meaning.call_eq hsignature hfunction, ← hm.table]
    exact .unless_silent fun hanswer =>
      Machine.runs_invokeBare (hm.lt ho) ((hm.get? _).trans ho) hlookup
      hcount hanswer hroom
  | @invoke callee args code index hasked haccepts hlength hargs hpointer =>
    have hsplit : a.Fits (code ++ ([.push index] ++ [.junction .invoke args])) := hfits
    have hruns := CodesAll.runs hm hargs hfits.left hstack
    obtain ⟨o, ho, hid⟩ := hm.pointer hpointer
    obtain ⟨signature, hsignature, hcount⟩ := haccepts
    obtain ⟨function, hfunction, hlookup⟩ := hm.functions hsignature hid
    rw [evaluate, hasked]
    show m.Runs _ _ ((do
      let values ← evaluateAll meaning args
      meaning.call callee values).map _)
    rcases hvalues : evaluateAll meaning args with e | values <;> rw [hvalues] at hruns
    · exact hruns.then_error _
    · have hvaluesLength := evaluateAll_length hvalues
      have hheight : (values.reverse ++ stack).length = (a.emitAll code).depth := by
        rw [hargs.depth hfits.left, List.length_append, List.length_reverse, hvaluesLength, hstack,
          Nat.add_comm]
      have hpush : ((a.emitAll code).emitAll [.push index]).depth = (a.emitAll code).depth + 1 :=
        hsplit.right.left.depth_single rfl (by omega) (by omega)
      have hpushed := hm.runs_push ho (room hsplit.right.left hpush hheight)
      have hjunction : Instruction.junction .invoke args =
          ⟨.invoke, .word (UInt16.ofNat values.length)⟩ := by
        rw [Instruction.junction, hvaluesLength]
      show m.Runs _ _ ((meaning.call callee values).map _)
      rw [Meaning.call_eq hsignature hfunction, ← hm.table, hjunction]
      exact hruns.then_ok (hpushed.then_ok (.unless_silent fun hanswer =>
        Machine.runs_invoke (hvaluesLength ▸ hlength) hlookup (hvaluesLength ▸ hcount) hanswer
          hroom))
  | number hvalue hobject =>
    rw [evaluate, hvalue]
    exact hm.runs_push hobject hroom
  | @string value index htext =>
    obtain ⟨o, ho, -⟩ := hm.sound.texts htext
    have hobject : meaning.pool.text? value = some o := by rw [ObjectPool.text?, htext]; exact ho
    rw [evaluate, hobject]
    exact hm.runs_push ho hroom

theorem CodesAll.runs (hm : m.Serves meaning) {stack : List Object} {a : Assembler}
    {nodes : List Node} {code : List Instruction} :
    CodesAll (meaning.symbols.quantityAsked? meaning.fast) meaning.pool nodes code →
    a.Fits code → stack.length = a.depth →
      m.Runs code stack ((evaluateAll meaning nodes).map (·.reverse ++ stack))
  | .nil, hfits, hstack => .nil
  | @CodesAll.cons _ _ node rest code more hnode hrest, hfits, hstack => by
    have hfirst := Codes.runs hm hnode hfits.left hstack
    rw [evaluateAll]
    rcases hvalue : evaluate meaning _ with e | value <;> rw [hvalue] at hfirst
    · exact hfirst.then_error _
    · have hheight : (value :: stack).length = (a.emitAll code).depth := by
        rw [hnode.depth hfits.left, List.length_cons, hstack]
      have hsecond := CodesAll.runs hm hrest hfits.right hheight
      refine hfirst.then_ok ?_
      rcases hvalues : evaluateAll meaning _ with e | values <;> rw [hvalues] at hsecond
      · exact hsecond
      · have hstacked : (value :: values).reverse ++ stack = values.reverse ++ value :: stack := by
          simp
        show m.Runs _ _ (.ok ((value :: values).reverse ++ stack))
        rw [hstacked]
        exact hsecond

end

end Node

end Passage

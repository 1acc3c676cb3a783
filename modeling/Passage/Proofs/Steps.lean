import Passage.Proofs.Simulation

/-!
# What one instruction can do

`Machine.Outcome` says once what an instruction makes of the state that it finds: it puts
one operand in the place of those it takes, or leaves none there because the function it
calls is silent, or does nothing, or fails. Everything that is later said of whole runs, of
their stacks and of their events, goes through `perform_outcome`; no other proof opens the
instructions.

`Machine.stacksFrom` and `Machine.repliesFrom` observe a run: the stacks that it meets, and
the answers that the functions give to its calls.
-/

namespace Passage

/-! ## Operands taken and given -/

namespace Instruction

/-- The number of operands that the instruction takes off the stack. -/
def pops (i : Instruction) : Nat :=
  match i.op, i.operands with
  | .invert, _ => 1
  | .needAll, .word count | .needAny, .word count => count.toNat
  | .checkQuantity, .wordByte _ _ => 1
  | .invoke, .word count => count.toNat + 1
  | .compareEqual, _ | .compareUnequal, _ | .compareLess, _ => 2
  | _, _ => 0

/-- The number of operands that the instruction puts there. -/
def pushes (i : Instruction) : Nat :=
  match i.op, i.operands with
  | .pushTrue, _ | .pushFalse, _ | .invert, _ => 1
  | .pushConst, .word _ | .pushPtr, .word _ | .pushStr, .word _ | .pushFunc, .word _ => 1
  | .needAll, .word _ | .needAny, .word _ | .invoke, .word _ | .invokeBare, .word _ => 1
  | .checkQuantity, .wordByte _ _ => 1
  | .compareEqual, _ | .compareUnequal, _ | .compareLess, _ => 1
  | _, _ => 0

end Instruction

/-- An event that an instruction causes between its dispatch and its end. -/
def Event.Quiet : Event → Prop
  | .call _ _ | .quantity _ _ _ => True
  | .instruction _ _ _ | .fault _ _ => False

namespace Machine

/-! ## Answers of functions -/

/-- The answer of the function behind a pointer, if it is called and does not fail. -/
def answer? (m : Machine) (callee : Object) (args : List Object) : Option Object :=
  match m.functions.lookup callee with
  | none => none
  | some callable =>
      if callable.signature.accepts args.length then (callable.function m.table args).toOption
      else none

/-- The answer to the call that an instruction makes on a stack. -/
def reply? (m : Machine) (stack : List Object) (i : Instruction) : Option Object :=
  match i.op, i.operands with
  | .invoke, .word count =>
      match stack with
      | [] => none
      | callee :: rest =>
          if count.toNat ≤ rest.length then m.answer? callee (rest.take count.toNat).reverse
          else none
  | .invokeBare, .word index => (m.table.get? index.toNat).bind (m.answer? · [])
  | _, _ => none

/-- Some function of the machine, or its check, panics when it is asked. -/
inductive Panics (m : Machine) : Prop
  | function {callee : Object} {callable : Callable} {args : List Object}
      {payload : Option String} :
      m.functions.lookup callee = some callable →
      callable.function m.table args = .error (.panicked payload) → Panics m
  | check {check : QuantityCheck} {item : Object} {quantity : UInt8} {payload : Option String} :
      m.check = some check → check m.table item quantity = .error (.panicked payload) → Panics m

/-! ## The parts of an instruction -/

section

variable {m : Machine} {ip : Nat} {s : State}

theorem push_cases (ip : Nat) (o : Object) (s : State) :
    (s.stack.length < stackLimit ∧ push ip o s = (.ok (), { s with stack := o :: s.stack })) ∨
      (stackLimit ≤ s.stack.length ∧ push ip o s = (.error (.stackOverflow ip), s)) := by
  by_cases h : s.stack.length < stackLimit
  · exact .inl ⟨h, push_apply h⟩
  · refine .inr ⟨Nat.le_of_not_lt h, ?_⟩
    rw [push, bind_ok (get_apply s), if_neg h, throw_apply]

theorem pop_cases (ip : Nat) (s : State) :
    (s.stack = [] ∧ pop ip s = (.error (.stackUnderflow ip), s)) ∨
      ∃ o rest, s.stack = o :: rest ∧ pop ip s = (.ok o, { s with stack := rest }) := by
  rcases h : s.stack with _ | ⟨o, rest⟩
  · refine .inl ⟨rfl, ?_⟩
    rw [pop, bind_ok (get_apply s), h]
    rfl
  · exact .inr ⟨o, rest, rfl, pop_apply h⟩

theorem window_cases (ip count : Nat) (s : State) :
    (s.stack.length < count ∧ window ip count s = (.error (.stackUnderflow ip), s)) ∨
      (count ≤ s.stack.length ∧
        window ip count s = (.ok ((s.stack.take count).reverse, s.stack.drop count), s)) := by
  by_cases h : s.stack.length < count
  · refine .inl ⟨h, ?_⟩
    rw [window, bind_ok (get_apply s), if_pos h, throw_apply]
  · refine .inr ⟨Nat.le_of_not_lt h, ?_⟩
    rw [window, bind_ok (get_apply s), if_neg h, pure_apply]

theorem constant_cases (m : Machine) (ip : Nat) (index : UInt16) (s : State) :
    (m.table.get? index.toNat = none ∧
        m.constant ip index s = (.error (.badConstant ip index), s)) ∨
      ∃ o, m.table.get? index.toNat = some o ∧ m.constant ip index s = (.ok o, s) := by
  unfold constant
  rcases m.table.get? index.toNat with _ | o
  · exact .inl ⟨rfl, rfl⟩
  · exact .inr ⟨o, rfl, rfl⟩

/-- Whoever is asked does not touch the machine. -/
theorem ask_cases (name : String) (answer : Except HostFault Object) (s : State) :
    (∃ o, answer = .ok o ∧ ask name answer s = (.ok o, s)) ∨
      ∃ fault, answer.toOption = none ∧ (∀ ip, fault ≠ .stackOverflow ip) ∧
        (fault.isPanic = true → ∃ payload, answer = .error (.panicked payload)) ∧
        ask name answer s = (.error fault, s) := by
  rcases answer with (message | payload) | o
  · exact .inr ⟨.builtIn name message, rfl, nofun, nofun, rfl⟩
  · exact .inr ⟨.panicked payload, rfl, nofun, fun _ => ⟨payload, rfl⟩, rfl⟩
  · exact .inl ⟨o, rfl, rfl⟩

/-- A call answers as its function does, or fails. -/
theorem call_cases (m : Machine) (ip : Nat) (callee : Object) (args : List Object) (s : State) :
    ∃ quiet : List Event, (∀ e ∈ quiet, e.Quiet) ∧
      ((∃ o, m.answer? callee args = some o ∧
          m.call ip callee args s = (.ok o, { s with events := quiet ++ s.events })) ∨
        ∃ fault, m.answer? callee args = none ∧ (∀ ip, fault ≠ .stackOverflow ip) ∧
          (fault.isPanic = true → m.Panics) ∧
            m.call ip callee args s = (.error fault, { s with events := quiet ++ s.events })) := by
  unfold answer?
  rcases hlookup : m.functions.lookup callee with _ | callable
  · refine ⟨[], List.forall_mem_nil _, .inr ⟨.unknownCallee ip callee, rfl, by simp,
      fun h => absurd h Bool.false_ne_true, ?_⟩⟩
    rw [call, hlookup]
    rfl
  · by_cases haccepts : callable.signature.accepts args.length
    · refine ⟨[.call callable.signature.name args.length], ?_, ?_⟩
      · intro e he
        rw [List.mem_singleton.mp he]
        trivial
      · rw [call_apply hlookup haccepts]
        dsimp only
        rw [if_pos haccepts]
        obtain ⟨o, ho, hask⟩ | ⟨fault, hnone, hfault, hpanic, hask⟩ :=
          ask_cases callable.signature.name (callable.function m.table args)
            { s with events := .call callable.signature.name args.length :: s.events }
        · exact .inl ⟨o, by rw [ho]; rfl, hask⟩
        · refine .inr ⟨fault, hnone, hfault, fun h => ?_, hask⟩
          obtain ⟨payload, hpayload⟩ := hpanic h
          exact .function hlookup hpayload
    · refine ⟨[], List.forall_mem_nil _, .inr ⟨.argumentCount callable.signature.name
        callable.signature.params args.length, if_neg haccepts, by simp,
        fun h => absurd h Bool.false_ne_true, ?_⟩⟩
      rw [call, hlookup]
      dsimp only
      rw [if_neg haccepts]
      rfl

end

/-! ## The outcome of an instruction -/

/-- How an instruction ends, and in which state. -/
inductive Outcome (m : Machine) (ip : Nat) (i : Instruction) (s : State) :
    Except RunFault Unit × State → Prop
  /-- One operand takes the place of those that the instruction took. -/
  | pushed {o : Object} {quiet : List Event} : (∀ e ∈ quiet, e.Quiet) →
      m.reply? s.stack i ≠ some .null → i.pushes = 1 → i.pops ≤ s.stack.length →
      s.stack.length - i.pops < stackLimit →
      Outcome m ip i s (.ok (), ⟨o :: s.stack.drop i.pops, quiet ++ s.events⟩)
  /-- The function that is called answers null, and no operand takes their place. -/
  | silent {quiet : List Event} : (∀ e ∈ quiet, e.Quiet) →
      m.reply? s.stack i = some .null → i.pushes = 1 → i.pops ≤ s.stack.length →
      Outcome m ip i s (.ok (), ⟨s.stack.drop i.pops, quiet ++ s.events⟩)
  /-- Nothing happens. -/
  | idle : m.reply? s.stack i = none → i.pushes = 0 → i.pops = 0 → Outcome m ip i s (.ok (), s)
  /-- There is no room for the operand. -/
  | overflowed {quiet : List Event} : (∀ e ∈ quiet, e.Quiet) →
      m.reply? s.stack i ≠ some .null → i.pushes = 1 → i.pops ≤ s.stack.length →
      stackLimit ≤ s.stack.length - i.pops →
      Outcome m ip i s
        (.error (.stackOverflow ip), ⟨s.stack.drop i.pops, quiet ++ s.events⟩)
  /-- The instruction fails for another reason. -/
  | failed {fault : RunFault} {stack : List Object} {quiet : List Event} :
      (∀ e ∈ quiet, e.Quiet) → m.reply? s.stack i ≠ some .null →
      (∀ ip, fault ≠ .stackOverflow ip) → (fault.isPanic = true → m.Panics) →
      stack.length ≤ s.stack.length → Outcome m ip i s (.error fault, ⟨stack, quiet ++ s.events⟩)

namespace Outcome

variable {m : Machine} {ip : Nat} {i : Instruction} {s : State}

/-- An instruction that fails before it causes an event. -/
theorem failed_unheard {fault : RunFault} {stack : List Object}
    (hreply : m.reply? s.stack i ≠ some .null) (hfault : ∀ ip, fault ≠ .stackOverflow ip)
    (hpanic : fault.isPanic = true → m.Panics) (hlength : stack.length ≤ s.stack.length) :
    m.Outcome ip i s (.error fault, { s with stack }) := by
  have hquiet : ∀ e ∈ ([] : List Event), e.Quiet := nofun
  exact failed hquiet hreply hfault hpanic hlength

/-- An instruction that does no more than fail. -/
theorem fault {fault : RunFault} (hreply : m.reply? s.stack i ≠ some .null)
    (hfault : ∀ ip, fault ≠ .stackOverflow ip) (hpanic : fault.isPanic = true → m.Panics) :
    m.Outcome ip i s (.error fault, s) :=
  failed_unheard hreply hfault hpanic (Nat.le_refl _)

/-- An instruction that has taken its operands, and now pushes one. -/
theorem push {o : Object} {quiet : List Event} (hquiet : ∀ e ∈ quiet, e.Quiet)
    (hreply : m.reply? s.stack i ≠ some .null) (hpushes : i.pushes = 1)
    (hpops : i.pops ≤ s.stack.length) :
    m.Outcome ip i s (Machine.push ip o ⟨s.stack.drop i.pops, quiet ++ s.events⟩) := by
  have hlength : (s.stack.drop i.pops).length = s.stack.length - i.pops := List.length_drop
  obtain ⟨hroom, happly⟩ | ⟨hfull, happly⟩ :=
    push_cases ip o ⟨s.stack.drop i.pops, quiet ++ s.events⟩ <;> rw [happly]
  · exact pushed hquiet hreply hpushes hpops (hlength ▸ hroom)
  · exact overflowed hquiet hreply hpushes hpops (hlength ▸ hfull)

/-- As `push`, for an instruction that causes no event. -/
theorem push_unheard {o : Object} (hreply : m.reply? s.stack i = none) (hpushes : i.pushes = 1)
    (hpops : i.pops ≤ s.stack.length) :
    m.Outcome ip i s (Machine.push ip o { s with stack := s.stack.drop i.pops }) := by
  have hquiet : ∀ e ∈ ([] : List Event), e.Quiet := nofun
  exact push hquiet (by rw [hreply]; nofun) hpushes hpops

/-- An instruction that has taken its operands, and now hears the answer to its call. -/
theorem pushAnswer {o : Object} {quiet : List Event} (hquiet : ∀ e ∈ quiet, e.Quiet)
    (hreply : m.reply? s.stack i = some o) (hpushes : i.pushes = 1)
    (hpops : i.pops ≤ s.stack.length) :
    m.Outcome ip i s (Machine.pushAnswer ip o ⟨s.stack.drop i.pops, quiet ++ s.events⟩) := by
  unfold Machine.pushAnswer
  split
  · next hnull =>
    obtain rfl : o = .null := eq_of_beq hnull
    exact silent hquiet hreply hpushes hpops
  · next hnull =>
    refine push hquiet ?_ hpushes hpops
    rw [hreply]
    exact fun h => hnull (beq_iff_eq.mpr (Option.some.inj h))

end Outcome

section

variable (m : Machine) (ip : Nat) (s : State)

/-- An instruction that pushes a constant. -/
theorem outcome_constant {i : Instruction} {index : UInt16}
    (hperform : m.perform ip i s = (m.constant ip index >>= fun o => push ip o) s)
    (hreply : m.reply? s.stack i = none) (hpushes : i.pushes = 1) (hpops : i.pops = 0) :
    m.Outcome ip i s (m.perform ip i s) := by
  rw [hperform]
  obtain ⟨-, hconstant⟩ | ⟨o, -, hconstant⟩ := constant_cases m ip index s
  · rw [bind_apply, hconstant]
    exact .fault (by rw [hreply]; nofun) nofun nofun
  · have hpush : m.Outcome ip i s (push ip o { s with stack := s.stack.drop i.pops }) :=
      .push_unheard hreply hpushes (by omega)
    rw [hpops] at hpush
    rw [bind_ok hconstant]
    exact hpush

/-- An instruction that answers a junction. -/
theorem outcome_junction {i : Instruction} (decideAll : List Object → Bool)
    (hperform : m.perform ip i s = junction ip i.pops decideAll s)
    (hreply : m.reply? s.stack i = none) (hpushes : i.pushes = 1) :
    m.Outcome ip i s (m.perform ip i s) := by
  rw [hperform, junction]
  obtain ⟨-, hwindow⟩ | ⟨hpops, hwindow⟩ := window_cases ip i.pops s
  · rw [bind_apply, hwindow]
    exact .fault (by simp [hreply]) (by simp) fun h => absurd h Bool.false_ne_true
  · rw [bind_ok hwindow]
    dsimp only
    rw [bind_ok (modify_apply _ s)]
    exact .push_unheard hreply hpushes hpops

theorem outcome_invert (operands : Operands) :
    m.Outcome ip ⟨.invert, operands⟩ s (m.perform ip ⟨.invert, operands⟩ s) := by
  show m.Outcome ip _ s ((pop ip >>= fun o => push ip (.ofBool (!o.isTruthy))) s)
  obtain ⟨-, hpop⟩ | ⟨o, rest, hstack, hpop⟩ := pop_cases ip s
  · rw [bind_apply, hpop]
    exact .fault nofun nofun nofun
  · have hrest : rest = s.stack.drop 1 := by rw [hstack]; rfl
    rw [bind_ok hpop, hrest]
    exact .push_unheard rfl rfl (by rw [hstack]; exact Nat.succ_le_succ (Nat.zero_le _))

theorem outcome_checkQuantity (index : UInt16) (quantity : UInt8) :
    m.Outcome ip ⟨.checkQuantity, .wordByte index quantity⟩ s
      (m.checkQuantity ip index quantity s) := by
  unfold checkQuantity
  rcases hcheck : m.check with _ | check
  · exact .fault nofun nofun nofun
  · dsimp only
    obtain ⟨-, hconstant⟩ | ⟨item, -, hconstant⟩ := constant_cases m ip index s
    · rw [bind_apply, hconstant]
      exact .fault nofun nofun nofun
    · rw [bind_ok hconstant]
      obtain ⟨-, hpop⟩ | ⟨o, rest, hstack, hpop⟩ := pop_cases ip s
      · rw [bind_apply, hpop]
        exact .fault nofun nofun nofun
      · have hrest : rest = s.stack.drop 1 := by rw [hstack]; rfl
        have hlength : rest.length + 1 = s.stack.length := by rw [hstack]; rfl
        rw [bind_ok hpop]
        obtain ⟨answer, -, hask⟩ | ⟨fault, -, hfault, hpanic, hask⟩ := ask_cases
          Opcode.checkQuantity.mnemonic (check m.table item quantity) { s with stack := rest }
        · rw [bind_ok hask, bind_ok (log_apply _ _), hrest]
          have hquiet : ∀ e ∈ [Event.quantity item quantity answer.isTruthy], e.Quiet := by
            intro e he
            rw [List.mem_singleton.mp he]
            trivial
          exact .push hquiet nofun rfl (by show 1 ≤ _; omega)
        · rw [bind_apply, hask]
          refine .failed_unheard nofun hfault (fun h => ?_) (by omega)
          obtain ⟨payload, hpayload⟩ := hpanic h
          exact .check hcheck hpayload

theorem outcome_invoke (count : UInt16) :
    m.Outcome ip ⟨.invoke, .word count⟩ s (m.invoke ip count.toNat s) := by
  unfold invoke
  obtain ⟨hempty, hpop⟩ | ⟨callee, rest, hstack, hpop⟩ := pop_cases ip s
  · rw [bind_apply, hpop]
    refine .fault ?_ nofun nofun
    rw [hempty]
    nofun
  · have hlength : rest.length + 1 = s.stack.length := by rw [hstack]; rfl
    rw [bind_ok hpop]
    obtain ⟨hshort, hwindow⟩ | ⟨hcount, hwindow⟩ :=
      window_cases ip count.toNat { s with stack := rest }
    · have hreply : m.reply? s.stack ⟨.invoke, .word count⟩ = none := by
        rw [hstack]
        exact if_neg (Nat.not_le_of_lt hshort)
      rw [bind_apply, hwindow]
      exact .failed_unheard (by rw [hreply]; nofun) nofun nofun (by omega)
    · have hreply : m.reply? s.stack ⟨.invoke, .word count⟩ =
          m.answer? callee (rest.take count.toNat).reverse := by
        rw [hstack]
        exact if_pos hcount
      have hdrop : rest.drop count.toNat = s.stack.drop (count.toNat + 1) := by rw [hstack]; rfl
      have hpops : count.toNat + 1 ≤ s.stack.length := hlength ▸ Nat.succ_le_succ hcount
      rw [bind_ok hwindow]
      dsimp only
      obtain ⟨quiet, hquiet, ⟨o, ho, hcall⟩ | ⟨fault, ho, hfault, hpanic, hcall⟩⟩ :=
        call_cases m ip callee (rest.take count.toNat).reverse { s with stack := rest }
      · rw [bind_ok hcall, bind_ok (modify_apply _ _), hdrop]
        exact .pushAnswer hquiet (hreply.trans ho) rfl hpops
      · rw [bind_apply, hcall]
        exact .failed hquiet (by rw [hreply, ho]; nofun) hfault hpanic
          (by show rest.length ≤ _; omega)

theorem outcome_invokeBare (index : UInt16) :
    m.Outcome ip ⟨.invokeBare, .word index⟩ s (m.invokeBare ip index s) := by
  have hreply : m.reply? s.stack ⟨.invokeBare, .word index⟩ =
      (m.table.get? index.toNat).bind (m.answer? · []) := rfl
  unfold invokeBare
  obtain ⟨hnone, hconstant⟩ | ⟨callee, hsome, hconstant⟩ := constant_cases m ip index s
  · rw [bind_apply, hconstant]
    exact .fault (by rw [hreply, hnone]; nofun) nofun nofun
  · rw [hsome] at hreply
    rw [bind_ok hconstant]
    obtain ⟨quiet, hquiet, ⟨o, ho, hcall⟩ | ⟨fault, ho, hfault, hpanic, hcall⟩⟩ :=
      call_cases m ip callee [] s
    · rw [bind_ok hcall]
      exact .pushAnswer hquiet (hreply.trans ho) rfl (Nat.zero_le _)
    · rw [bind_apply, hcall]
      exact .failed hquiet (by rw [hreply]; show m.answer? callee [] ≠ _; rw [ho]; nofun) hfault
        hpanic (Nat.le_refl _)

/-- What an instruction can do, whatever the machine and the state. -/
theorem perform_outcome (i : Instruction) : m.Outcome ip i s (m.perform ip i s) := by
  obtain ⟨op, operands⟩ := i
  cases op with
  | nop => exact .idle rfl rfl rfl
  | err | compareEqual | compareUnequal | compareLess => exact .fault nofun nofun nofun
  | pushTrue | pushFalse => exact .push_unheard rfl rfl (Nat.zero_le _)
  | invert => exact m.outcome_invert ip s operands
  | pushConst | pushPtr | pushStr | pushFunc =>
    cases operands with
    | bare | wordByte => exact .idle rfl rfl rfl
    | word index => exact m.outcome_constant ip s rfl rfl rfl rfl
  | needAll =>
    cases operands with
    | bare | wordByte => exact .idle rfl rfl rfl
    | word count => exact m.outcome_junction ip s (·.all Object.isTruthy) rfl rfl rfl
  | needAny =>
    cases operands with
    | bare | wordByte => exact .idle rfl rfl rfl
    | word count => exact m.outcome_junction ip s (·.any Object.isTruthy) rfl rfl rfl
  | checkQuantity =>
    cases operands with
    | bare | word => exact .idle rfl rfl rfl
    | wordByte index quantity => exact m.outcome_checkQuantity ip s index quantity
  | invoke =>
    cases operands with
    | bare | wordByte => exact .idle rfl rfl rfl
    | word count => exact m.outcome_invoke ip s count
  | invokeBare =>
    cases operands with
    | bare | wordByte => exact .idle rfl rfl rfl
    | word index => exact m.outcome_invokeBare ip s index

end

/-! ## Runs observed -/

/-- The stacks on which a run meets the instructions, and the one that the last of them
leaves unless one has failed. -/
def stacksFrom (m : Machine) (s : State) : List (Nat × Instruction) → List (List Object)
  | [] => [s.stack]
  | (offset, i) :: rest =>
      s.stack :: match m.perform offset i (dispatched s offset i.op) with
        | (.ok (), s) => m.stacksFrom s rest
        | (.error _, _) => []

/-- The answers to the calls of a run, each with the offset of the call. -/
def repliesFrom (m : Machine) (s : State) (instructions : List (Nat × Instruction)) :
    List (Nat × Object) :=
  (instructions.zip (m.stacksFrom s instructions)).filterMap fun (entry, stack) =>
    (m.reply? stack entry.2).map (entry.1, ·)

/-- The stacks that a run of a tape meets. -/
def stacksOf (m : Machine) (tape : ByteArray) : List (List Object) :=
  m.stacksFrom ⟨[], []⟩ (Listing.ofTape tape).instructions

/-- The answers that a run of a tape is given by the functions it calls. -/
def replies (m : Machine) (tape : ByteArray) : List (Nat × Object) :=
  m.repliesFrom ⟨[], []⟩ (Listing.ofTape tape).instructions

section

variable {m : Machine} {s s' : State} {offset : Nat} {i : Instruction}
  {rest : List (Nat × Instruction)}

theorem stacksFrom_ok (h : m.perform offset i (dispatched s offset i.op) = (.ok (), s')) :
    m.stacksFrom s ((offset, i) :: rest) = s.stack :: m.stacksFrom s' rest := by
  rw [stacksFrom, h]

theorem repliesFrom_ok (h : m.perform offset i (dispatched s offset i.op) = (.ok (), s')) :
    m.repliesFrom s ((offset, i) :: rest) =
      ((m.reply? s.stack i).map (offset, ·)).toList ++ m.repliesFrom s' rest := by
  rw [repliesFrom, stacksFrom_ok h, List.zip_cons_cons, List.filterMap_cons]
  dsimp only
  rcases m.reply? s.stack i with _ | o <;> rfl

theorem repliesFrom_error {fault : RunFault}
    (h : m.perform offset i (dispatched s offset i.op) = (.error fault, s')) :
    m.repliesFrom s ((offset, i) :: rest) = ((m.reply? s.stack i).map (offset, ·)).toList := by
  rw [repliesFrom, stacksFrom, h, List.zip_cons_cons, List.filterMap_cons, List.zip_nil_right]
  dsimp only
  rcases m.reply? s.stack i with _ | o <;> rfl

/-- Instructions in order succeed if each of them does. -/
theorem performAll_cons_ok (h : m.performAll ((offset, i) :: rest) s = (.ok (), s')) :
    ∃ t, m.perform offset i (dispatched s offset i.op) = (.ok (), t) ∧
      m.performAll rest t = (.ok (), s') := by
  rw [performAll_cons] at h
  obtain ⟨⟨⟩, t, hperform, hrest⟩ := bind_eq_ok h
  exact ⟨t, hperform, hrest⟩

/-- Behind instructions that succeed, the others go on. -/
theorem performAll_append_ok {first more : List (Nat × Instruction)} {t : State}
    (h : m.performAll first s = (.ok (), t)) :
    m.performAll (first ++ more) s = m.performAll more t := by
  induction first generalizing s with
  | nil =>
    cases h
    rfl
  | cons entry rest ih =>
    obtain ⟨offset, i⟩ := entry
    obtain ⟨u, hperform, hrest⟩ := performAll_cons_ok h
    rw [List.cons_append, performAll_cons, bind_ok hperform]
    exact ih hrest

/-- What an instruction can do to the stack where it succeeds. -/
theorem perform_ok (h : m.perform offset i (dispatched s offset i.op) = (.ok (), s')) :
    (i.pushes = 1 ∧ i.pops ≤ s.stack.length ∧
        ((m.reply? s.stack i ≠ some .null ∧ s.stack.length - i.pops < stackLimit ∧
            ∃ o, s'.stack = o :: s.stack.drop i.pops) ∨
          (m.reply? s.stack i = some .null ∧ s'.stack = s.stack.drop i.pops))) ∨
      (m.reply? s.stack i = none ∧ i.pushes = 0 ∧ i.pops = 0 ∧ s'.stack = s.stack) := by
  have houtcome := m.perform_outcome offset (dispatched s offset i.op) i
  rw [h] at houtcome
  cases houtcome with
  | pushed _ hreply hpushes hpops hroom => exact .inl ⟨hpushes, hpops, .inl ⟨hreply, hroom, _, rfl⟩⟩
  | silent _ hreply hpushes hpops => exact .inl ⟨hpushes, hpops, .inr ⟨hreply, rfl⟩⟩
  | idle hreply hpushes hpops => exact .inr ⟨hreply, hpushes, hpops, rfl⟩

/-- An answer is that to an instruction which the run reaches. -/
theorem mem_repliesFrom {instructions : List (Nat × Instruction)} {o : Object}
    (h : (offset, o) ∈ m.repliesFrom s instructions) :
    ∃ before i after t, instructions = before ++ (offset, i) :: after ∧
      m.performAll before s = (.ok (), t) ∧ m.reply? t.stack i = some o := by
  induction instructions generalizing s with
  | nil => exact absurd h List.not_mem_nil
  | cons entry rest ih =>
    obtain ⟨offset', i⟩ := entry
    have hhere : (offset, o) ∈ ((m.reply? s.stack i).map (offset', ·)).toList →
        ∃ before j after t, (offset', i) :: rest = before ++ (offset, j) :: after ∧
          m.performAll before s = (.ok (), t) ∧ m.reply? t.stack j = some o := by
      intro hmem
      obtain ⟨o', ho, heq⟩ := Option.map_eq_some_iff.mp (Option.mem_toList.mp hmem)
      cases heq
      exact ⟨[], i, rest, s, rfl, rfl, ho⟩
    rcases hperform : m.perform offset' i (dispatched s offset' i.op) with ⟨fault | ⟨⟩, t⟩
    · rw [repliesFrom_error hperform] at h
      exact hhere h
    · rw [repliesFrom_ok hperform] at h
      obtain hmem | hmem := List.mem_append.mp h
      · exact hhere hmem
      · obtain ⟨before, j, after, u, rfl, hbefore, hreply⟩ := ih hmem
        refine ⟨(offset', i) :: before, j, after, u, rfl, ?_, hreply⟩
        rw [performAll_cons, bind_ok hperform]
        exact hbefore

end

end Machine

end Passage

import Passage.Proofs.Coding
import Passage.Proofs.Simulation

/-!
# Machines in lockstep

Two machines run the same tape. If both have the same objects where the code refers to
constants, read the same texts behind them, and call the same functions, which look at
nothing but the decoded values of their arguments, then each instruction does the same to
equal stacks (`Node.Codes.accord`), and both runs have the same result, down to the fault
(`Machine.InTandem.run_result`).

`Together` is the relational rule behind this: two steps that are one and the same step
from every state of an assertion, with what then holds of answer and state.
-/

namespace Passage

/-! ## Steps that do the same -/

section

variable {ε σ α β : Type} {P R : σ → Prop}

/-- From every state of `P`, both steps do the same; answers and the states behind them
satisfy `Q`. -/
def Together (P : σ → Prop) (x y : ExceptT ε (StateM σ) α) (Q : α → σ → Prop) : Prop :=
  ∀ s, P s → y s = x s ∧ ∀ a s', x s = (.ok a, s') → Q a s'

namespace Together

variable {x y : ExceptT ε (StateM σ) α} {f g : α → ExceptT ε (StateM σ) β}
  {Q Q' : α → σ → Prop} {S : β → σ → Prop}

theorem refl (h : ∀ s, P s → ∀ a s', x s = (.ok a, s') → Q a s') : Together P x x Q :=
  fun s hs => ⟨rfl, h s hs⟩

theorem pure {a : α} (h : ∀ s, P s → Q a s) :
    Together P (Pure.pure a : ExceptT ε (StateM σ) α) (Pure.pure a) Q :=
  refl fun s hs a' s' heq => by
    rw [pure_apply] at heq
    cases heq
    exact h s hs

theorem throw (e : ε) : Together P (throw e : ExceptT ε (StateM σ) α) (throw e) Q :=
  refl fun _ _ _ _ heq => absurd (congrArg Prod.fst heq) nofun

theorem bind (hx : Together P x y Q) (hf : ∀ a, Together (Q a) (f a) (g a) S) :
    Together P (x >>= f) (y >>= g) S := by
  intro s hs
  obtain ⟨hsame, hok⟩ := hx s hs
  rw [bind_apply, bind_apply, hsame]
  rcases hstep : x s with ⟨e | a, s'⟩
  · exact ⟨rfl, nofun⟩
  · exact hf a s' (hok a s' hstep)

theorem mono (hx : Together P x y Q) (h : ∀ a s, Q a s → Q' a s) : Together P x y Q' :=
  fun s hs => ⟨(hx s hs).1, fun a s' heq => h a s' ((hx s hs).2 a s' heq)⟩

/-- What holds apart from the state may be assumed. -/
theorem assuming {φ : Prop} (h : φ → Together P x y Q) : Together (fun s => φ ∧ P s) x y Q :=
  fun s hs => h hs.1 s hs.2

theorem modify {m : σ → σ} (h : ∀ s, P s → R (m s)) :
    Together P (modify m : ExceptT ε (StateM σ) PUnit) (modify m) fun _ => R :=
  refl fun s hs a s' heq => by
    rw [modify_apply] at heq
    cases heq
    exact h s hs

end Together

end

/-! ## What hosts read -/

/-- Both tables read the same behind the object: the same text, or none for the same
reason. -/
def ObjectTable.ReadsAlike (t t' : ObjectTable) (o : Object) : Prop :=
  t'.decodeString o = t.decodeString o

/-- What is no string, no table reads as a text. -/
theorem ObjectTable.readsAlike_of_category {o : Object} (h : o.category ≠ .string)
    (t t' : ObjectTable) : t.ReadsAlike t' o := by
  have herror : o.asString = .error (.wrongType .string o.category) := if_neg h
  unfold ReadsAlike decodeString
  rw [herror]
  rfl

theorem ObjectTable.readsAlike_ofBool (value : Bool) (t t' : ObjectTable) :
    t.ReadsAlike t' (.ofBool value) :=
  readsAlike_of_category (by cases value <;> decide) t t'

/-- A function that looks at nothing but the decoded values of its arguments, and whose
answer decodes to the same. -/
def HostFunction.ByValue (function : HostFunction) : Prop :=
  ∀ (t t' : ObjectTable) (args : List Object), (∀ o ∈ args, t.ReadsAlike t' o) →
    function t' args = function t args ∧
      ∀ answer, function t args = .ok answer → t.ReadsAlike t' answer

/-- A check that looks at nothing but the decoded value of the item. -/
def QuantityCheck.ByValue (check : QuantityCheck) : Prop :=
  ∀ (t t' : ObjectTable) (item : Object) (quantity : UInt8), t.ReadsAlike t' item →
    check t' item quantity = check t item quantity ∧
      ∀ answer, check t item quantity = .ok answer → t.ReadsAlike t' answer

namespace Machine

/-! ## Two machines -/

/-- Both machines have the constants of the pool and read them alike, and call the same
functions behind the pointers of the functions that it defines. -/
structure InTandem (p : ObjectPool) (m m' : Machine) : Prop where
  constants : ∀ {index : ObjectIndex}, p.IsConstant index → index < 65536 ∧
    ∃ o, p.get? index = some o ∧ m.table.get? index = some o ∧ m'.table.get? index = some o ∧
      m.table.ReadsAlike m'.table o
  functions : ∀ {callee : SymbolId} {count : Nat} {pointer : Object}, p.Accepts callee count →
    p.pointer? callee = some pointer → ∃ callable : Callable,
      m.functions.lookup pointer = some callable ∧ m'.functions.lookup pointer = some callable ∧
      callable.function.ByValue
  check : m'.check = m.check
  byValue : ∀ {check : QuantityCheck}, m.check = some check → check.ByValue

/-- The tables of both machines read alike what is on the stack. -/
def Shares (t t' : ObjectTable) (s : State) : Prop := ∀ o ∈ s.stack, t.ReadsAlike t' o

/-- As `Shares`, where the object is on top of the stack. -/
def SharesUnder (t t' : ObjectTable) (top : Object) (s : State) : Prop :=
  ∃ below, s.stack = top :: below ∧ ∀ o ∈ top :: below, t.ReadsAlike t' o

section

variable {t t' : ObjectTable} {ip : Nat}

theorem together_push {o : Object} (ho : t.ReadsAlike t' o) :
    Together (Shares t t') (push ip o) (push ip o) fun _ => SharesUnder t t' o := by
  refine .refl fun s hs a s' heq => ?_
  unfold push at heq
  rw [bind_ok (get_apply s)] at heq
  split at heq
  · rw [set_apply] at heq
    cases heq
    exact ⟨s.stack, rfl, List.forall_mem_cons.mpr ⟨ho, hs⟩⟩
  · exact absurd (congrArg Prod.fst heq) nofun

theorem together_push_shares {o : Object} (ho : t.ReadsAlike t' o) :
    Together (Shares t t') (push ip o) (push ip o) fun _ => Shares t t' :=
  (together_push ho).mono fun _ s ⟨below, hstack, hall⟩ => by
    rw [Shares, hstack]
    exact hall

theorem together_pop :
    Together (Shares t t') (pop ip) (pop ip) fun o s => t.ReadsAlike t' o ∧ Shares t t' s := by
  refine .refl fun s hs a s' heq => ?_
  unfold pop at heq
  rw [bind_ok (get_apply s)] at heq
  rcases hstack : s.stack with _ | ⟨top, rest⟩ <;> rw [hstack] at heq
  · exact absurd (congrArg Prod.fst heq) nofun
  · obtain ⟨rfl, rfl⟩ : top = a ∧ { s with stack := rest } = s' := by
      cases heq
      exact ⟨rfl, rfl⟩
    have hall : ∀ o ∈ top :: rest, t.ReadsAlike t' o := hstack ▸ hs
    exact List.forall_mem_cons.mp hall

theorem together_window (count : Nat) :
    Together (Shares t t') (window ip count) (window ip count) fun operands s =>
      (∀ o ∈ operands.1, t.ReadsAlike t' o) ∧ (∀ o ∈ operands.2, t.ReadsAlike t' o) ∧
        Shares t t' s := by
  refine .refl fun s hs a s' heq => ?_
  unfold window at heq
  rw [bind_ok (get_apply s)] at heq
  split at heq
  · exact absurd (congrArg Prod.fst heq) nofun
  · cases heq
    exact ⟨fun o ho => hs o (List.mem_of_mem_take (List.mem_reverse.mp ho)),
      fun o ho => hs o (List.mem_of_mem_drop ho), hs⟩

theorem together_ask {name : String} {answer answer' : Except HostFault Object}
    {P : State → Prop} (hsame : answer' = answer)
    (hanswer : ∀ o, answer = .ok o → t.ReadsAlike t' o) :
    Together P (ask name answer) (ask name answer') fun o s => t.ReadsAlike t' o ∧ P s := by
  subst hsame
  refine .refl fun s hs o s' heq => ?_
  rcases answer' with (message | payload) | o'
  · exact absurd (congrArg Prod.fst heq) nofun
  · exact absurd (congrArg Prod.fst heq) nofun
  · cases heq
    exact ⟨hanswer o rfl, hs⟩

theorem together_log (event : Event) :
    Together (Shares t t') (log event) (log event) fun _ => Shares t t' :=
  .modify fun _ hs => hs

theorem together_dispatched (offset : Nat) (op : Opcode) :
    Together (Shares t t') (modify (dispatched · offset op) : Step Unit)
      (modify (dispatched · offset op)) fun _ => Shares t t' :=
  .modify fun _ hs => hs

theorem together_below {below : List Object} (hbelow : ∀ o ∈ below, t.ReadsAlike t' o)
    {P : State → Prop} :
    Together P (modify fun s => { s with stack := below } : Step Unit)
      (modify fun s => { s with stack := below }) fun _ => Shares t t' :=
  .modify fun _ _ => hbelow

theorem together_pushAnswer {answer : Object} (hanswer : t.ReadsAlike t' answer) :
    Together (Shares t t') (pushAnswer ip answer) (pushAnswer ip answer)
      fun _ => Shares t t' := by
  unfold pushAnswer
  split
  · exact .pure fun _ hs => hs
  · exact together_push_shares hanswer

theorem together_junction (count : Nat) (decideAll : List Object → Bool) :
    Together (Shares t t') (junction ip count decideAll) (junction ip count decideAll)
      fun _ => Shares t t' := by
  refine .bind (together_window count) fun operands => .assuming fun _ => .assuming fun hbelow =>
    .bind (together_below hbelow) fun _ => ?_
  exact together_push_shares (ObjectTable.readsAlike_ofBool _ t t')

end

section

variable {p : ObjectPool} {m m' : Machine} {ip : Nat}

theorem together_constant {P : State → Prop} {index : ObjectIndex} (hindex : index < 65536)
    {o : Object} (h : m.table.get? index = some o) (h' : m'.table.get? index = some o) :
    Together P (m.constant ip (UInt16.ofNat index)) (m'.constant ip (UInt16.ofNat index))
      fun answer s => answer = o ∧ P s := by
  have hword : (UInt16.ofNat index).toNat = index := by
    rw [UInt16.toNat_ofNat', Nat.mod_eq_of_lt hindex]
  unfold constant
  rw [hword, h, h']
  exact .pure fun _ hs => ⟨rfl, hs⟩

theorem together_call {callee : Object} {callable : Callable} {args : List Object}
    (h : m.functions.lookup callee = some callable)
    (h' : m'.functions.lookup callee = some callable) (hvalue : callable.function.ByValue)
    (hargs : ∀ o ∈ args, m.table.ReadsAlike m'.table o) :
    Together (Shares m.table m'.table) (m.call ip callee args) (m'.call ip callee args)
      fun answer s => m.table.ReadsAlike m'.table answer ∧ Shares m.table m'.table s := by
  obtain ⟨hsame, hanswer⟩ := hvalue m.table m'.table args hargs
  unfold call
  rw [h, h']
  dsimp only
  split
  · exact .bind (together_log _) fun _ => together_ask hsame hanswer
  · exact .throw _

theorem together_needAny (items : List Node) :
    Together (Shares m.table m'.table) (m.perform ip (.junction .needAny items))
      (m'.perform ip (.junction .needAny items)) fun _ => Shares m.table m'.table :=
  together_junction (UInt16.ofNat items.length).toNat (·.any Object.isTruthy)

theorem together_needAll (items : List Node) :
    Together (Shares m.table m'.table) (m.perform ip (.junction .needAll items))
      (m'.perform ip (.junction .needAll items)) fun _ => Shares m.table m'.table :=
  together_junction (UInt16.ofNat items.length).toNat (·.all Object.isTruthy)

theorem together_boolean (value : Bool) :
    Together (Shares m.table m'.table)
      (m.perform ip ⟨if value then .pushTrue else .pushFalse, .bare⟩)
      (m'.perform ip ⟨if value then .pushTrue else .pushFalse, .bare⟩)
      fun _ => Shares m.table m'.table := by
  have hpush : Together (Shares m.table m'.table) (push ip (.ofBool value))
      (push ip (.ofBool value)) fun _ => Shares m.table m'.table :=
    together_push_shares (ObjectTable.readsAlike_ofBool value m.table m'.table)
  cases value <;> exact hpush

namespace InTandem

theorem together_checkQuantity (h : InTandem p m m') {index : ObjectIndex}
    (hindex : p.IsConstant index) (quantity : UInt8) :
    Together (Shares m.table m'.table) (m.checkQuantity ip (UInt16.ofNat index) quantity)
      (m'.checkQuantity ip (UInt16.ofNat index) quantity) fun _ => Shares m.table m'.table := by
  obtain ⟨hlt, o, -, hget, hget', ho⟩ := h.constants hindex
  unfold checkQuantity
  rw [h.check]
  rcases hcheck : m.check with _ | check
  · exact .throw _
  · obtain ⟨hsame, hanswer⟩ := h.byValue hcheck m.table m'.table o quantity ho
    refine .bind (together_constant hlt hget hget') fun item => .assuming fun hitem => ?_
    subst hitem
    exact .bind together_pop fun _ => .assuming fun _ =>
      .bind (together_ask hsame hanswer) fun _ => .assuming fun hread =>
        .bind (together_log _) fun _ => together_push_shares hread

/-- The pointer of a function that is defined is a constant, behind which both machines have
the same function. -/
theorem callee (h : InTandem p m m') {callee : SymbolId} {count : Nat} {index : ObjectIndex}
    (haccepts : p.Accepts callee count) (hindex : p.pointers[callee]? = some index) :
    index < 65536 ∧ ∃ (pointer : Object) (callable : Callable),
      m.table.get? index = some pointer ∧ m'.table.get? index = some pointer ∧
      m.table.ReadsAlike m'.table pointer ∧ m.functions.lookup pointer = some callable ∧
      m'.functions.lookup pointer = some callable ∧ callable.function.ByValue := by
  obtain ⟨hlt, pointer, hp, hget, hget', hread⟩ := h.constants (.pointer hindex)
  have hpointer : p.pointer? callee = some pointer := by
    rw [ObjectPool.pointer?, hindex]
    exact hp
  obtain ⟨callable, hlookup, hlookup', hvalue⟩ := h.functions haccepts hpointer
  exact ⟨hlt, pointer, callable, hget, hget', hread, hlookup, hlookup', hvalue⟩

theorem together_invokeBare (h : InTandem p m m') {callee : SymbolId} {count : Nat}
    {index : ObjectIndex} (haccepts : p.Accepts callee count)
    (hindex : p.pointers[callee]? = some index) :
    Together (Shares m.table m'.table) (m.invokeBare ip (UInt16.ofNat index))
      (m'.invokeBare ip (UInt16.ofNat index)) fun _ => Shares m.table m'.table := by
  obtain ⟨hlt, pointer, callable, hget, hget', -, hlookup, hlookup', hvalue⟩ :=
    h.callee haccepts hindex
  refine .bind (together_constant hlt hget hget') fun answer => .assuming fun hanswer => ?_
  subst hanswer
  exact .bind (together_call hlookup hlookup' hvalue fun _ h => absurd h List.not_mem_nil)
    fun _ => .assuming fun hread => together_pushAnswer hread

/-- Above a function that both machines have, they call alike. -/
theorem together_invoke {pointer : Object} {callable : Callable}
    (hlookup : m.functions.lookup pointer = some callable)
    (hlookup' : m'.functions.lookup pointer = some callable) (hvalue : callable.function.ByValue)
    (count : Nat) :
    Together (SharesUnder m.table m'.table pointer) (m.invoke ip count) (m'.invoke ip count)
      fun _ => Shares m.table m'.table := by
  have hpop : Together (SharesUnder m.table m'.table pointer) (pop ip) (pop ip) fun o s =>
    o = pointer ∧ Shares m.table m'.table s := by
    refine .refl fun s ⟨below, hstack, hall⟩ a s' heq => ?_
    rw [pop_apply hstack] at heq
    cases heq
    exact ⟨rfl, (List.forall_mem_cons.mp hall).2⟩
  refine .bind hpop fun o => .assuming fun ho => ?_
  subst ho
  refine .bind (together_window count) fun operands => .assuming fun hargs =>
    .assuming fun hbelow => ?_
  exact .bind (together_call hlookup hlookup' hvalue hargs) fun _ => .assuming fun hread =>
    .bind (together_below hbelow) fun _ => together_pushAnswer hread

end InTandem

/-! ## Instructions in order -/

/-- Both machines do the same with the instructions, wherever these lie on a tape. -/
def Accord (m m' : Machine) (code : List Instruction) : Prop :=
  ∀ offset, Together (Shares m.table m'.table) (m.performAll (Instruction.placed offset code))
    (m'.performAll (Instruction.placed offset code)) fun _ => Shares m.table m'.table

theorem Accord.nil : Accord m m' [] := fun _ => .pure fun _ hs => hs

theorem Accord.append {code more : List Instruction} (h : Accord m m' code)
    (h' : Accord m m' more) : Accord m m' (code ++ more) := by
  intro offset s hs
  rw [performAll_append, performAll_append]
  exact Together.bind (h offset) (fun _ => h' _) s hs

theorem Accord.single {i : Instruction}
    (h : ∀ ip, Together (Shares m.table m'.table) (m.perform ip i) (m'.perform ip i)
      fun _ => Shares m.table m'.table) : Accord m m' [i] :=
  fun offset => .bind (together_dispatched _ _) fun _ => .bind (h offset) fun _ =>
    .pure fun _ hs => hs

theorem InTandem.push (h : InTandem p m m') {index : ObjectIndex} (hindex : p.IsConstant index) :
    Accord m m' [.push index] := by
  obtain ⟨hlt, o, -, hget, hget', ho⟩ := h.constants hindex
  refine .single fun ip => .bind (together_constant hlt hget hget') fun answer =>
    .assuming fun hanswer => ?_
  subst hanswer
  exact together_push_shares ho

/-- A function is pushed and then called. -/
theorem InTandem.invoke (h : InTandem p m m') {callee : SymbolId} {args : List Node}
    {index : ObjectIndex} (haccepts : p.Accepts callee args.length)
    (hindex : p.pointers[callee]? = some index) :
    Accord m m' [.push index, .junction .invoke args] := by
  obtain ⟨hlt, pointer, callable, hget, hget', hread, hlookup, hlookup', hvalue⟩ :=
    h.callee haccepts hindex
  intro offset
  have hpush : Together (Shares m.table m'.table) (m.perform offset (.push index))
      (m'.perform offset (.push index)) fun _ => SharesUnder m.table m'.table pointer := by
    refine .bind (together_constant hlt hget hget') fun answer => .assuming fun hanswer => ?_
    subst hanswer
    exact together_push hread
  have hdispatched : ∀ ip op, Together (SharesUnder m.table m'.table pointer)
      (modify (dispatched · ip op) : Step Unit) (modify (dispatched · ip op))
      fun _ => SharesUnder m.table m'.table pointer := fun _ _ => .modify fun _ hs => hs
  exact .bind (together_dispatched _ _) fun _ => .bind hpush fun _ => .bind (hdispatched _ _)
    fun _ => .bind (together_invoke hlookup hlookup' hvalue _) fun _ => .pure fun _ hs => hs

end

end Machine

namespace Node

open Machine (InTandem Accord)

variable {quantityAsked? : Node → List Node → Option (SymbolId × UInt8)} {p : ObjectPool}
  {m m' : Machine}

mutual

/-- Machines in tandem do the same with the code of a node. -/
theorem Codes.accord (h : InTandem p m m') {node : Node} {code : List Instruction} :
    node.Codes quantityAsked? p code → Accord m m' code
  | .anyOf _ hitems => (CodesAll.accord h hitems).append (.single fun _ =>
      Machine.together_needAny _)
  | .every _ hitems => (CodesAll.accord h hitems).append (.single fun _ =>
      Machine.together_needAll _)
  | .boolean value => .single fun _ => Machine.together_boolean value
  | @Codes.compare _ _ op _ _ _ _ hrhs hlhs => by
    refine (Codes.accord h hrhs).append ((Codes.accord h hlhs).append (.single fun _ => ?_))
    cases op <;> exact .throw _
  | .identifier hpointer => h.push (.pointer hpointer)
  | .invert hinner => (Codes.accord h hinner).append (.single fun _ =>
      .bind Machine.together_pop fun _ => .assuming fun _ =>
        Machine.together_push_shares (ObjectTable.readsAlike_ofBool _ _ _))
  | .asked _ hpointer => (h.push (.pointer hpointer)).append
      (.single fun _ => h.together_checkQuantity (.pointer hpointer) _)
  | .bare _ haccepts hpointer => .single fun _ => h.together_invokeBare haccepts hpointer
  | .invoke _ haccepts _ hargs hpointer => (CodesAll.accord h hargs).append
      (h.invoke haccepts hpointer)
  | .number hvalue hobject => h.push (.number hvalue hobject)
  | .string htext => h.push (.text htext)

theorem CodesAll.accord (h : InTandem p m m') {nodes : List Node} {code : List Instruction} :
    CodesAll quantityAsked? p nodes code → Accord m m' code
  | .nil => .nil
  | .cons hnode hrest => (Codes.accord h hnode).append (CodesAll.accord h hrest)

end

end Node

/-- Machines in tandem run the tape of a node to the same result. -/
theorem Machine.InTandem.run_result {p : ObjectPool} {m m' : Machine} (h : InTandem p m m')
    {quantityAsked? : Node → List Node → Option (SymbolId × UInt8)} {node : Node}
    {instructions : List Instruction} (hcode : node.Codes quantityAsked? p instructions) :
    (m'.run (Assembler.empty.emitAll instructions).tape).result =
      (m.run (Assembler.empty.emitAll instructions).tape).result := by
  obtain ⟨hsame, -⟩ := hcode.accord h 0 ⟨[], []⟩ fun _ ho => absurd ho List.not_mem_nil
  rw [run, run, Listing.ofTape_emitAll hcode.wellFormed]
  dsimp only
  rw [runFrom_result, runFrom_result, hsame]

end Passage

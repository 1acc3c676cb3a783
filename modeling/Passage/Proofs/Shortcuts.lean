import Passage.Proofs.Callees
import Passage.Proofs.Continuity
import Passage.Proofs.Inventories
import Passage.Proofs.Numerals
import Passage.Proofs.Wording

/-!
# Fast operations only shorten code

A call of `has` for a token and a small quantity may be written as a quantity check. The code
is another then, its constants are others, and all later entries of the pool are moved. But
the pointers, the functions and the texts of both pools are the same (`Node.compile_wording`),
so both codes mean the node under two meanings that differ in one point: one asks the check
what the other asks `has` (`Meaning.Bypasses`). Where the check answers like `has`, the node has
the same value under both (`Node.Codes.evaluate_bypass`), and both codes have the same result
(`Environment.fastOps_agree`).
-/

namespace Passage

/-! ## Failures of both -/

def HostFault.isPanic : HostFault → Bool
  | .refused _ => false
  | .panicked _ => true

def NodeFault.isPanic : NodeFault → Bool
  | .panicked _ => true
  | _ => false

theorem RunFault.isPanic_of_cause? {fault : RunFault} {cause : NodeFault}
    (h : fault.cause? = some cause) : fault.isPanic = cause.isPanic := by
  cases fault <;> cases h <;> rfl

/-- Steps that agree up to their errors, one behind the other. -/
theorem mapError_bind_congr {ε ε' α β : Type} {e : ε → ε'} {x y : Except ε α}
    {f g : α → Except ε β} (hxy : x.mapError e = y.mapError e)
    (hfg : ∀ a, (f a).mapError e = (g a).mapError e) :
    (x >>= f).mapError e = (y >>= g).mapError e := by
  rcases x with cause | a <;> rcases y with cause' | b
  · exact congrArg Except.error (Except.error.inj hxy)
  · exact absurd hxy nofun
  · exact absurd hxy nofun
  · obtain rfl := Except.ok.inj hxy
    exact hfg a

/-- The check answers about tokens like the function that the host calls `has`: for quantities
of one value, both have the same answer, or both refuse one, or both panic. -/
def QuantityCheck.AnswersLike (check : QuantityCheck) (host : Host) (w : World) : Prop :=
  ∀ {has : HostFunction}, host.find? Lowering.hasName = some has →
    ∀ {item : SymbolId} {token o : Object} {quantity : UInt8} {x : Number},
      w.symbols.kindOf? item = some .token → w.pool.pointer? item = some token →
      x.same (.ofNat quantity.toNat) = true → Object.ofNumber x = .ok o →
        (check w.pool.freeze token quantity).mapError HostFault.isPanic =
          (has w.pool.freeze [token, o]).mapError HostFault.isPanic

namespace Meaning

theorem asked_mapError (name : String) (answer : Except HostFault Object) :
    (asked name answer).mapError NodeFault.isPanic = answer.mapError HostFault.isPanic := by
  rcases answer with (message | payload) | o <;> rfl

/-- Where no function answers null, a call answers as its function does. -/
theorem Answers.call_mapError {m : Meaning} (h : m.Answers) {callee : SymbolId}
    {signature : Signature} {function : HostFunction}
    (hs : m.pool.definitions.lookup callee = some signature)
    (hf : m.host.find? signature.name = some function) (args : List Object) :
    (m.call callee args).mapError NodeFault.isPanic =
      (function m.pool.freeze args).mapError HostFault.isPanic := by
  have hanswer := h hf args
  rw [call_eq hs hf, ← asked_mapError signature.name]
  rcases hvalue : function m.pool.freeze args with (message | payload) | o
  · rfl
  · rfl
  · rw [hvalue] at hanswer
    have hnull : o.isNull = false :=
      beq_eq_false_iff_ne.mpr fun ho => hanswer (congrArg Except.ok ho)
    show (spoken o).mapError NodeFault.isPanic = _
    rw [spoken, hnull]
    rfl

/-- The meanings differ only in that the first may ask its check where the second calls `has`,
and has the same answer from it. -/
structure Bypasses (m m' : Meaning) : Prop where
  symbols : m.symbols = m'.symbols
  slow : m'.fast = false
  pointers : ∀ id, m.pool.pointer? id = m'.pool.pointer? id
  texts : ∀ s, m.pool.text? s = m'.pool.text? s
  calls : ∀ callee args, m.call callee args = m'.call callee args
  checks : ∀ {callee item : SymbolId} {signature : Signature} {token o : Object}
    {quantity : UInt8} {x : Number}, m'.symbols.nameOf? callee = some Lowering.hasName →
    m'.pool.definitions.lookup callee = some signature →
    m'.symbols.kindOf? item = some .token → m'.pool.pointer? item = some token →
    x.byte? = some quantity → Object.ofNumber x = .ok o →
      (m.holds item quantity).mapError NodeFault.isPanic =
        (m'.call callee [token, o]).mapError NodeFault.isPanic

end Meaning

/-- What is written as a quantity check is a call of `has` for a token and a byte. -/
theorem SymbolTable.quantityAsked?_eq_some {symbols : SymbolTable} {fast : Bool} {target : Node}
    {args : List Node} {item : SymbolId} {quantity : UInt8}
    (h : symbols.quantityAsked? fast target args = some (item, quantity)) :
    ∃ callee x, target = .identifier callee ∧ args = [.identifier item, .number x] ∧
      symbols.nameOf? callee = some Lowering.hasName ∧ symbols.kindOf? item = some .token ∧
      x.byte? = some quantity := by
  unfold quantityAsked? at h
  split at h
  · next callee id x =>
    split at h
    · next hcall =>
      obtain ⟨k, hk, hpair⟩ := Option.map_eq_some_iff.mp h
      obtain ⟨rfl, rfl⟩ := Prod.mk.inj hpair
      exact ⟨callee, x, rfl, rfl, hcall.2.1, hcall.2.2, hk⟩
    · exact absurd h nofun
  · exact absurd h nofun

theorem SymbolTable.quantityAsked?_slow (symbols : SymbolTable) (target : Node)
    (args : List Node) : symbols.quantityAsked? false target args = none := by
  rcases h : symbols.quantityAsked? false target args with _ | ⟨item, quantity⟩
  · rfl
  · obtain ⟨callee, x, rfl, rfl, -⟩ := quantityAsked?_eq_some h
    exact absurd h (by simp [quantityAsked?])

/-- A number with the value of a byte has an object. -/
theorem Number.ofNumber_of_byte? {x : Number} {quantity : UInt8} (h : x.byte? = some quantity) :
    ∃ o, Object.ofNumber x = .ok o := by
  have hsame := same_of_byte? h
  unfold same at hsame
  simp only [Bool.and_eq_true, Bool.not_eq_true'] at hsame
  exact ⟨_, if_neg (by rw [hsame.1.1]; exact nofun)⟩

namespace Node

variable {m m' : Meaning}

/-- A call has the same value, whether or not it is made as a quantity check. -/
theorem evaluate_call_bypass (h : m.Bypasses m') {callee : SymbolId} {args : List Node}
    (haccepts : m'.pool.Accepts callee args.length)
    (hargs : (evaluateAll m args).mapError NodeFault.isPanic =
      (evaluateAll m' args).mapError NodeFault.isPanic) :
    (evaluate m (.invoke (.identifier callee) args)).mapError NodeFault.isPanic =
      (evaluate m' (.invoke (.identifier callee) args)).mapError NodeFault.isPanic := by
  rw [evaluate, evaluate, h.slow, SymbolTable.quantityAsked?_slow]
  rcases hasked : m.symbols.quantityAsked? m.fast (.identifier callee) args with
    _ | ⟨item, quantity⟩
  · show (evaluateAll m args >>= fun values => m.call callee values).mapError NodeFault.isPanic =
      (evaluateAll m' args >>= fun values => m'.call callee values).mapError NodeFault.isPanic
    exact mapError_bind_congr hargs fun values => by rw [h.calls]
  · rw [h.symbols] at hasked
    obtain ⟨callee', x, heq, rfl, hname, hkind, hbyte⟩ := SymbolTable.quantityAsked?_eq_some hasked
    obtain rfl := identifier.inj heq
    obtain ⟨signature, hsignature, -⟩ := haccepts
    obtain ⟨o, ho⟩ := Number.ofNumber_of_byte? hbyte
    have hvalues : evaluateAll m' [.identifier item, .number x] =
        (Meaning.defined (m'.pool.pointer? item)).map fun token => [token, o] := by
      rw [evaluateAll, evaluateAll, evaluateAll, evaluate, evaluate, ho]
      rcases m'.pool.pointer? item with _ | token <;> rfl
    show (m.holds item quantity).mapError NodeFault.isPanic =
      (evaluateAll m' [.identifier item, .number x] >>= fun values =>
        m'.call callee values).mapError NodeFault.isPanic
    rw [hvalues]
    rcases htoken : m'.pool.pointer? item with _ | token
    · rw [Meaning.holds, h.pointers, htoken]
      rfl
    · exact h.checks hname hsignature hkind htoken hbyte ho

variable {quantityAsked? : Node → List Node → Option (SymbolId × UInt8)}

mutual

/-- A node that is coded without quantity checks has the same value with them, or fails in
the same way. -/
theorem Codes.evaluate_bypass (h : m.Bypasses m') (hslow : ∀ target args,
      quantityAsked? target args = none) {node : Node} {code : List Instruction} :
    node.Codes quantityAsked? m'.pool code →
      (node.evaluate m).mapError NodeFault.isPanic = (node.evaluate m').mapError NodeFault.isPanic
  | .anyOf _ hitems | .every _ hitems => by
    rw [evaluate, evaluate]
    exact mapError_bind_congr (CodesAll.evaluate_bypass h hslow hitems) fun _ => rfl
  | .boolean value => rfl
  | .compare hrhs hlhs => by
    rw [evaluate, evaluate]
    exact mapError_bind_congr (Codes.evaluate_bypass h hslow hrhs) fun _ =>
      mapError_bind_congr (Codes.evaluate_bypass h hslow hlhs) fun _ => rfl
  | @Codes.identifier _ _ id _ _ => by
    rw [evaluate, evaluate, h.pointers id]
  | .invert hinner => by
    rw [evaluate, evaluate]
    exact mapError_bind_congr (Codes.evaluate_bypass h hslow hinner) fun _ => rfl
  | .asked hasked _ => absurd ((hslow _ _).symm.trans hasked) nofun
  | .bare _ haccepts _ => evaluate_call_bypass h haccepts rfl
  | .invoke _ haccepts _ hargs _ =>
    evaluate_call_bypass h haccepts (CodesAll.evaluate_bypass h hslow hargs)
  | .number _ _ => by
    rw [evaluate, evaluate]
  | @Codes.string _ _ value _ _ => by
    rw [evaluate, evaluate, h.texts value]

theorem CodesAll.evaluate_bypass (h : m.Bypasses m') (hslow : ∀ target args,
      quantityAsked? target args = none) {nodes : List Node} {code : List Instruction} :
    CodesAll quantityAsked? m'.pool nodes code →
      (evaluateAll m nodes).mapError NodeFault.isPanic =
        (evaluateAll m' nodes).mapError NodeFault.isPanic
  | .nil => rfl
  | .cons hnode hrest => by
    rw [evaluateAll, evaluateAll]
    exact mapError_bind_congr (Codes.evaluate_bypass h hslow hnode) fun _ =>
      mapError_bind_congr (CodesAll.evaluate_bypass h hslow hrest) fun _ => rfl

end

end Node

/-! ## Both codes of a node -/

/-- Compiling gives no pointers. -/
theorem ObjectPool.Interns.pointer?_eq {p p' : ObjectPool} (h : p.Interns p') (hp : p.Sound)
    (id : SymbolId) : p'.pointer? id = p.pointer? id :=
  Option.ext fun _ => ⟨h.pointer? hp, h.continues.pointer?⟩

/-- Tables with one arena read all objects alike. -/
theorem ObjectPool.readsAlike_of_wording {p p' : ObjectPool} (h : p.wording = p'.wording)
    (o : Object) : p.freeze.ReadsAlike p'.freeze o := by
  have harena : p'.freeze.strings = p.freeze.strings := congrArg Wording.arena h.symm
  unfold ObjectTable.ReadsAlike ObjectTable.decodeString
  rw [harena]

/-- Over all tables, a pointer is checked alike. -/
theorem QuantityCheck.ByValue.eq_ofPointer {check : QuantityCheck} (h : check.ByValue)
    (t t' : ObjectTable) (pointer : Pointer) (quantity : UInt8) :
    check t' (.ofPointer pointer) quantity = check t (.ofPointer pointer) quantity := by
  refine (h t t' _ quantity (ObjectTable.readsAlike_of_category ?_ t t')).1
  rw [ObjectPool.category_ofPointer]
  exact nofun

/-- Over all tables, a function is called alike with arguments that are no strings. -/
theorem HostFunction.ByValue.eq_of_category {function : HostFunction} (h : function.ByValue)
    (t t' : ObjectTable) {args : List Object} (hargs : ∀ o ∈ args, o.category ≠ .string) :
    function t' args = function t args :=
  (h t t' args fun o ho => ObjectTable.readsAlike_of_category (hargs o ho) t t').1

namespace World.Named

variable {w : World} {p p' : ObjectPool} {host : Host} {check : QuantityCheck}

/-- The function that a call of `has` is mapped to is the host's `has`. -/
theorem find?_has (hw : w.Named) (hi' : w.pool.Interns p') {m' : Machine} {meaning : Meaning}
    (hserves : m'.Serves meaning) (hpool : meaning.pool = p') {callee : SymbolId}
    {signature : Signature} (hname : w.symbols.nameOf? callee = some Lowering.hasName)
    (hs : p'.definitions.lookup callee = some signature) :
    signature.name = Lowering.hasName ∧
      ∃ has, meaning.host.find? Lowering.hasName = some has := by
  have hnamed : signature.name = Lowering.hasName :=
    hw.signature_name hname (by decide) (hi'.definitions ▸ hs)
  subst hpool
  obtain ⟨index, hindex⟩ := Option.isSome_iff_exists.mp
    ((hi'.sound hw.pool).definitions _ (ObjectPool.mem_of_lookup hs))
  obtain ⟨pointer, -, hpointer⟩ := hserves.pointer hindex
  obtain ⟨has, hhas, -⟩ := hserves.functions hs hpointer
  exact ⟨hnamed, has, hnamed ▸ hhas⟩

/-- Of two pools to which a node was compiled, one with and one without quantity checks, the
first means what the second means, if the check answers like `has`. -/
theorem bypasses (hw : w.Named) (hpointers : w.pool.PointersOnly) (hi : w.pool.Interns p)
    (hi' : w.pool.Interns p') (hwording : p.wording = p'.wording) (hhost : host.ByValue)
    (hcheck : check.ByValue)
    (hanswers : ∀ {name function}, host.find? name = some function →
      ∀ table args, function table args ≠ .ok .null)
    (hlike : check.AnswersLike host w) {m' : Machine}
    (hserves : m'.Serves ⟨w.symbols, p', host, check, false⟩) :
    Meaning.Bypasses ⟨w.symbols, p, host, check, true⟩ ⟨w.symbols, p', host, check, false⟩ where
  symbols := rfl
  slow := rfl
  pointers id := (hi.pointer?_eq hw.pool id).trans (hi'.pointer?_eq hw.pool id).symm
  texts s := congrFun (congrArg Wording.object? hwording) s
  calls := by
    intro callee args
    have hdefinitions : p.definitions = p'.definitions := hi.definitions.trans hi'.definitions.symm
    show (Meaning.defined (p.definitions.lookup callee) >>= fun signature => _) =
      (Meaning.defined (p'.definitions.lookup callee) >>= fun signature => _)
    rw [hdefinitions]
    refine bind_congr fun signature => ?_
    dsimp only
    rcases hfind : host.find? signature.name with _ | function
    · rfl
    · have hsame := (hhost hfind p.freeze p'.freeze args fun o _ =>
        ObjectPool.readsAlike_of_wording hwording o).1
      show (Meaning.asked signature.name (function p.freeze args) >>= Meaning.spoken) =
        (Meaning.asked signature.name (function p'.freeze args) >>= Meaning.spoken)
      rw [hsame]
  checks := by
    intro callee item signature token o quantity x hname hs hkind htoken hbyte ho
    dsimp only at hname hs hkind htoken
    obtain ⟨hsignature, has, hhas⟩ := hw.find?_has hi' hserves rfl hname hs
    have hanswered : (Meaning.mk w.symbols p' host check false).Answers :=
      fun h args => hanswers h _ args
    have hcurrent : w.pool.pointer? item = some token :=
      (hi'.pointer?_eq hw.pool item).symm.trans htoken
    obtain ⟨pointer, rfl⟩ := hpointers hcurrent
    have hholds : (Meaning.mk w.symbols p host check true).holds item quantity =
        Meaning.asked Opcode.checkQuantity.mnemonic
          (check p.freeze (.ofPointer pointer) quantity) := by
      have hp : p.pointer? item = some (.ofPointer pointer) :=
        (hi.pointer?_eq hw.pool item).trans hcurrent
      rw [Meaning.holds, hp]
      rfl
    have hplain : ∀ o' ∈ [.ofPointer pointer, o], o'.category ≠ .string := by
      refine List.forall_mem_cons.mpr ⟨?_, List.forall_mem_singleton.mpr ?_⟩
      · rw [ObjectPool.category_ofPointer]
        exact nofun
      · rw [Object.category_ofNumber ho]
        exact nofun
    rw [hanswered.call_mapError hs (hsignature.symm ▸ hhas), hholds, Meaning.asked_mapError,
      hcheck.eq_ofPointer w.pool.freeze, (hhost hhas).eq_of_category w.pool.freeze _ hplain]
    exact hlike hhas hkind hcurrent (Number.same_of_byte? hbyte) ho

end World.Named

/-- Runs whose nodes have the same value have the same answer, or both fail. -/
theorem RunFault.both {result result' : Except RunFault Object}
    {value value' : Except NodeFault Object}
    (h : result.mapError cause? = value.mapError some)
    (h' : result'.mapError cause? = value'.mapError some)
    (hsame : value.mapError NodeFault.isPanic = value'.mapError NodeFault.isPanic) :
    (∃ o, result = .ok o ∧ result' = .ok o) ∨
      ∃ fault fault', result = .error fault ∧ result' = .error fault' ∧
        fault.isPanic = fault'.isPanic := by
  rcases value with cause | o <;> rcases value' with cause' | o'
  · rcases result with fault | _
    · rcases result' with fault' | _
      · refine .inr ⟨fault, fault', rfl, rfl, ?_⟩
        rw [isPanic_of_cause? (Except.error.inj h), isPanic_of_cause? (Except.error.inj h')]
        exact Except.error.inj hsame
      · exact absurd h' nofun
    · exact absurd h nofun
  · exact absurd hsame nofun
  · exact absurd hsame nofun
  · obtain rfl := Except.ok.inj hsame
    rcases result with fault | r
    · exact absurd h nofun
    · rcases result' with fault' | r'
      · exact absurd h' nofun
      · exact .inl ⟨o, congrArg Except.ok (Except.ok.inj h), congrArg Except.ok (Except.ok.inj h')⟩

/-- Compiled code runs as the node means over the pool that its compilation leaves. -/
theorem Node.compile_runs {node : Node} {symbols : SymbolTable} {fast : Bool}
    {pool pool' : ObjectPool} {count : Nat} {code : Code} (hp : pool.Sound)
    (hf : pool.Functions count)
    (hc : node.compile symbols (FastOps.enabled fast) pool = (.ok code, pool'))
    (hstack : code.maxStack.toNat ≤ stackLimit) {host : Host} {check : QuantityCheck} {m : Machine}
    (hm : Machine.ofTable pool'.freeze host = .ok m)
    (hanswers : (Meaning.mk symbols pool' host check fast).Answers) :
    pool.Interns pool' ∧ (m.withCheck check).Serves ⟨symbols, pool', host, check, fast⟩ ∧
      (∃ instructions, node.Codes (symbols.quantityAsked? fast) pool' instructions) ∧
      ((m.withCheck check).run code.tape).result.mapError RunFault.cause? =
        (node.evaluate ⟨symbols, pool', host, check, fast⟩).mapError some := by
  obtain ⟨hgrows, instructions, hcode, htape, hmax⟩ := Node.compile_eq_ok hp hc
  have hserves : (m.withCheck check).Serves ⟨symbols, pool', host, check, fast⟩ :=
    Machine.serves_ofTable ⟨symbols, pool', host, check, fast⟩ (hgrows.sound hp)
      (hf.grown hgrows) hm
  have hinterns := (node.compile_interns symbols (FastOps.enabled_grow fast) hp).1
  rw [hc] at hinterns
  refine ⟨hinterns, hserves, ⟨instructions, hcode⟩, ?_⟩
  rw [hmax, Assembler.toNat_deepest] at hstack
  rw [htape]
  exact hserves.run hcode hstack (hanswers.evaluate_ne_silent node)

namespace Environment

/-- Fast operations change no answer. Compiled with them or without, from the same symbols and
objects, a node has the same answer, or fails both times, if the check of the host answers
like its `has`. -/
theorem fastOps_agree {answers : List Answer} {env : Environment}
    (hr : Reached (Request.Within Latitude.pointers) answers env) {node : Node}
    {fast slow : Code} {fastPool slowPool : ObjectPool}
    (hfast : node.compile env.world.symbols .standard env.world.pool = (.ok fast, fastPool))
    (hslow : node.compile env.world.symbols [] env.world.pool = (.ok slow, slowPool))
    (hfastStack : fast.maxStack.toNat ≤ stackLimit)
    (hslowStack : slow.maxStack.toNat ≤ stackLimit) {host : Host} {check : QuantityCheck}
    (hhost : host.ByValue) (hcheck : check.ByValue)
    (hanswers : ∀ {name function}, host.find? name = some function →
      ∀ table args, function table args ≠ .ok .null)
    (hlike : check.AnswersLike host env.world) {m m' : Machine}
    (hm : Machine.ofTable fastPool.freeze host = .ok m)
    (hm' : Machine.ofTable slowPool.freeze host = .ok m') :
    (∃ o, ((m.withCheck check).run fast.tape).result = .ok o ∧
        ((m'.withCheck check).run slow.tape).result = .ok o) ∨
      ∃ fault fault', ((m.withCheck check).run fast.tape).result = .error fault ∧
        ((m'.withCheck check).run slow.tape).result = .error fault' ∧
        fault.isPanic = fault'.isPanic := by
  have h := continued_of_reached hr
  have hnamed : env.world.Named := (named_of_reached Latitude.pointers_ample hr).world
  have hp := h.furnished.pool
  have hf := h.furnished.functions
  have hfast' : node.compile env.world.symbols (FastOps.enabled true) env.world.pool =
      (.ok fast, fastPool) := hfast
  have hslow' : node.compile env.world.symbols (FastOps.enabled false) env.world.pool =
      (.ok slow, slowPool) := hslow
  have hspoken : ∀ pool fast, (Meaning.mk env.world.symbols pool host check fast).Answers :=
    fun _ _ _ _ hfind args => hanswers hfind _ args
  obtain ⟨hi, -, -, hrun⟩ := Node.compile_runs hp hf hfast' hfastStack hm (hspoken _ true)
  obtain ⟨hi', hserves, ⟨code, hcode⟩, hrun'⟩ :=
    Node.compile_runs hp hf hslow' hslowStack hm' (hspoken _ false)
  have hwording : fastPool.wording = slowPool.wording :=
    (Node.compile_wording hp hfast').trans (Node.compile_wording hp hslow').symm
  have hbypasses := hnamed.bypasses h.pointersOnly hi hi' hwording hhost hcheck hanswers hlike
    hserves
  exact RunFault.both hrun hrun'
    (hcode.evaluate_bypass hbypasses (SymbolTable.quantityAsked?_slow _))

end Environment

/-! ## Inventories -/

/-- Quantities of one value are exceeded by the same numbers. -/
theorem Number.atMost_of_same {x y : Number} (h : x.same y = true) (z : Number) :
    x.atMost z = y.atMost z := by
  unfold same at h
  simp only [Bool.and_eq_true, Bool.not_eq_true', beq_iff_eq] at h
  obtain ⟨⟨hx, hy⟩, hrank⟩ := h
  rw [atMost, atMost, hx, hy, hrank]

namespace Inventory

variable {inventory : Inventory}

/-- What is asked of an inventory is answered with a truth value. -/
theorem has_ofBool {args : List Object} {answer : Object} (h : inventory.has args = .ok answer) :
    ∃ value, answer = .ofBool value := by
  unfold has at h
  split at h
  · exact absurd h nofun
  · next quantity _ =>
    rcases hheld : inventory.holds (args.headD .null) quantity with fault | value <;>
      rw [hheld] at h
    · exact absurd h nofun
    · exact ⟨value, (Except.ok.inj h).symm⟩

theorem check_byValue (inventory : Inventory) : inventory.check.ByValue := by
  refine fun t t' item quantity _ => ⟨rfl, fun answer hanswer => ?_⟩
  rw [check] at hanswer
  rcases hheld : inventory.holds item (.ofNat quantity.toNat) with fault | value <;>
    rw [hheld] at hanswer
  · cases hanswer
  · rw [← Except.ok.inj hanswer]
    exact ObjectTable.readsAlike_ofBool value t t'

/-- The check of an inventory answers like its `has`: it compares the same quantities. -/
theorem check_answersLike {host : Host}
    (hhas : host.find? Lowering.hasName = some fun _ args => inventory.has args) (w : World) :
    inventory.check.AnswersLike host w := by
  intro has hfind item token o quantity x _ _ hsame ho
  obtain rfl := Option.some.inj (hhas.symm.trans hfind)
  have hquantity : ∀ item, inventory.holds item (.ofNat quantity.toNat) =
      inventory.holds item x := by
    intro item
    unfold holds
    split
    · rfl
    · rw [Number.atMost_of_same hsame]
  dsimp only
  rw [check, hquantity, has_pair inventory (Object.asNumber_ofNumber ho)]

end Inventory

namespace Environment

/-- A host that answers `has` from an inventory. -/
def scoutHost (inventory : Inventory) : Host :=
  Host.empty.register Lowering.hasName fun _ args => inventory.has args

theorem find?_scoutHost {inventory : Inventory} {name : String} {function : HostFunction}
    (h : (scoutHost inventory).find? name = some function) :
    function = fun _ args => inventory.has args := by
  have hlookup : List.lookup name [(Lowering.hasName,
    (fun _ args => inventory.has args : HostFunction))] = some function := h
  rw [List.lookup_cons] at hlookup
  split at hlookup
  · exact (Option.some.inj hlookup).symm
  · exact absurd hlookup nofun

/-- The answers of an inventory depend on nothing but the decoded values of what is asked. -/
theorem scoutHost_byValue {inventory : Inventory} : (scoutHost inventory).ByValue := by
  intro name function h
  obtain rfl := find?_scoutHost h
  refine fun t t' args _ => ⟨rfl, fun answer hanswer => ?_⟩
  obtain ⟨value, rfl⟩ := Inventory.has_ofBool hanswer
  exact ObjectTable.readsAlike_ofBool value t t'

theorem scoutHost_answers {inventory : Inventory} {name : String} {function : HostFunction}
    (h : (scoutHost inventory).find? name = some function) (table : ObjectTable)
    (args : List Object) : function table args ≠ .ok .null := by
  obtain rfl := find?_scoutHost h
  intro hnull
  obtain ⟨value, hvalue⟩ := Inventory.has_ofBool hnull
  exact absurd hvalue (by cases value <;> decide)

/-- A rule about no swords, as many as the negative zero, and about more than fit in a byte. -/
def swordsRule : Node :=
  .every [.has 13 14 ⟨0x8000000000000000⟩, .invert (.has 13 14 (.ofNat 300))]

set_option maxRecDepth 4000 in
/-- With one sword, the rule holds, whether or not its first call is a quantity check. -/
theorem swordsRule_fastOps_agree :
    ∃ fast fastPool slow slowPool m m',
      swordsRule.compile armory.world.symbols .standard armory.world.pool =
        (.ok fast, fastPool) ∧
      swordsRule.compile armory.world.symbols [] armory.world.pool = (.ok slow, slowPool) ∧
      Machine.ofTable fastPool.freeze (scoutHost fun _ => 1) = .ok m ∧
      Machine.ofTable slowPool.freeze (scoutHost fun _ => 1) = .ok m' ∧
      ((m.withCheck (Inventory.check fun _ => 1)).run fast.tape).result = .ok (.ofBool true) ∧
      ((m'.withCheck (Inventory.check fun _ => 1)).run slow.tape).result = .ok (.ofBool true) := by
  have hall : ((swordsRule.compile armory.world.symbols .standard
        armory.world.pool).1.toOption.map (·.maxStack.toNat),
      (swordsRule.compile armory.world.symbols []
        armory.world.pool).1.toOption.map (·.maxStack.toNat),
      ((swordsRule.compile armory.world.symbols .standard
        armory.world.pool).1.toOption.bind fun code =>
          (Machine.ofTable (swordsRule.compile armory.world.symbols .standard
            armory.world.pool).2.freeze (scoutHost fun _ => 1)).toOption.bind fun m =>
              ((m.withCheck (Inventory.check fun _ => 1)).run code.tape).result.toOption),
      (Machine.ofTable (swordsRule.compile armory.world.symbols []
        armory.world.pool).2.freeze (scoutHost fun _ => 1)).toOption.isSome) =
      (some 4, some 4, some (.ofBool true), true) := by decide +kernel
  obtain ⟨hfastDepth, hrest⟩ := Prod.mk.inj hall
  obtain ⟨hslowDepth, hrest⟩ := Prod.mk.inj hrest
  obtain ⟨hruns, hbound⟩ := Prod.mk.inj hrest
  obtain ⟨answers, hr⟩ := reached_armory_within
  rcases hfast : swordsRule.compile armory.world.symbols .standard armory.world.pool
    with ⟨e | fast, fastPool⟩ <;> rw [hfast] at hfastDepth hruns
  · cases hfastDepth
  rcases hslow : swordsRule.compile armory.world.symbols [] armory.world.pool
    with ⟨e | slow, slowPool⟩ <;> rw [hslow] at hslowDepth hbound
  · cases hslowDepth
  rcases hm : Machine.ofTable fastPool.freeze (scoutHost fun _ => 1) with e | m
  · dsimp only [Except.toOption, Option.bind] at hruns
    rw [hm] at hruns
    cases hruns
  rcases hm' : Machine.ofTable slowPool.freeze (scoutHost fun _ => 1) with e | m'
  · rw [hm'] at hbound
    cases hbound
  have hfastStack : fast.maxStack.toNat = 4 := Option.some.inj hfastDepth
  have hslowStack : slow.maxStack.toNat = 4 := Option.some.inj hslowDepth
  have hrun : ((m.withCheck (Inventory.check fun _ => 1)).run fast.tape).result.toOption =
      some (.ofBool true) := by
    dsimp only [Except.toOption, Option.bind] at hruns
    rw [hm] at hruns
    exact hruns
  refine ⟨fast, fastPool, slow, slowPool, m, m', rfl, rfl, hm, hm', ?_⟩
  obtain ⟨o, ho, ho'⟩ | ⟨fault, fault', hfault, -⟩ := fastOps_agree hr hfast hslow
    (by rw [hfastStack]; decide) (by rw [hslowStack]; decide) scoutHost_byValue
    (Inventory.check_byValue _) scoutHost_answers (Inventory.check_answersLike rfl _) hm hm'
  · rw [ho] at hrun
    obtain rfl := Option.some.inj hrun
    exact ⟨ho, ho'⟩
  · rw [hfault] at hrun
    cases hrun

end Environment

end Passage

import Passage.Proofs.Conversation
import Passage.Proofs.Functions
import Passage.Proofs.Simulation

/-!
# Compiled nodes mean what their nodes mean

A node is compiled in an environment that was filled with names, functions, scripts and
settings. On every machine that can be made of the frozen table, its code does what the
direct evaluation of the node does (`Environment.codegen_correct`): the same answer, or a
fault with the same cause. Faults of the machine itself, such as those of its stack or of
its constants, have no cause in any node, and do not occur.
-/

namespace Passage

/-! ## Machines of frozen tables -/

namespace ObjectPool

theorem mem_of_lookup {definitions : List (SymbolId × Signature)} {symbol : SymbolId}
    {signature : Signature} (h : definitions.lookup symbol = some signature) :
    (symbol, signature) ∈ definitions := by
  obtain ⟨before, after, rfl, -⟩ := List.lookup_eq_some_iff.mp h
  exact List.mem_append_right _ List.mem_cons_self

/-- What the frozen table calls is what the pool defines. -/
theorem freeze_builtIns (p : ObjectPool) :
    p.freeze.builtIns = p.definitions.filterMap fun entry =>
      (p.pointer? entry.1).map fun pointer => (pointer, entry.2) := by
  rw [freeze]
  refine List.filterMap_congr ?_
  rintro ⟨symbol, signature⟩ -
  show (p.pointers[symbol]?.bind fun index => (p.get? index).bind fun pointer =>
    some (pointer, signature)) = _
  rw [pointer?]
  rcases p.pointers[symbol]? with _ | index
  · rfl
  · show ((p.get? index).bind fun pointer => some (pointer, signature)) = (p.get? index).map _
    rcases p.get? index with _ | pointer <;> rfl

/-- The functions of the frozen table have pointers of their own. -/
theorem Functions.nodup_freeze {p : ObjectPool} {count : Nat} (h : p.Functions count) :
    (p.freeze.builtIns.map (·.1)).Nodup := by
  rw [freeze_builtIns]
  refine List.pairwise_map.mpr (List.Pairwise.filterMap _ ?_ h.apart)
  intro entry entry' hne bound hb bound' hb' heq
  obtain ⟨pointer, hpointer, rfl⟩ := Option.map_eq_some_iff.mp hb
  obtain ⟨pointer', hpointer', rfl⟩ := Option.map_eq_some_iff.mp hb'
  exact hne (by rw [hpointer, hpointer', show pointer = pointer' from heq])

/-- A machine of the frozen table calls, behind the pointer of a function, the host's
function of that name. -/
theorem Functions.lookup_ofTable {p : ObjectPool} {count : Nat} (h : p.Functions count)
    {host : Host} {m : Machine} (hm : Machine.ofTable p.freeze host = .ok m) {symbol : SymbolId}
    {signature : Signature} {pointer : Object} (hs : p.definitions.lookup symbol = some signature)
    (hp : p.pointer? symbol = some pointer) :
    ∃ function, host.find? signature.name = some function ∧
      m.functions.lookup pointer = some ⟨signature, function⟩ := by
  have hmem : (pointer, signature) ∈ p.freeze.builtIns := by
    rw [freeze_builtIns]
    exact List.mem_filterMap.mpr ⟨(symbol, signature), mem_of_lookup hs, by rw [hp]; rfl⟩
  obtain ⟨-, hbind⟩ := Machine.ofTable_eq_ok hm
  exact (Machine.functions_of_bind hbind h.nodup_freeze).2 _ hmem

end ObjectPool

/-- A machine that is made of a frozen table and given a check serves the meaning of its
pool. -/
theorem Machine.serves_ofTable (meaning : Meaning) {count : Nat} (hp : meaning.pool.Sound)
    (hf : meaning.pool.Functions count) {m : Machine}
    (hm : ofTable meaning.pool.freeze meaning.host = .ok m) :
    (m.withCheck meaning.check).Serves meaning where
  sound := hp
  table := (ofTable_eq_ok hm).1
  check := rfl
  functions := hf.lookup_ofTable hm

namespace Node

variable {quantityAsked? : Node → List Node → Option (SymbolId × UInt8)} {p : ObjectPool}

/-- A call that is a quantity check holds no text. -/
theorem texts_of_quantityAsked? {symbols : SymbolTable} {fast : Bool} {target : Node}
    {args : List Node} {item : SymbolId} {quantity : UInt8}
    (h : symbols.quantityAsked? fast target args = some (item, quantity)) :
    (Node.invoke target args).texts = [] := by
  unfold SymbolTable.quantityAsked? at h
  split at h
  · rfl
  · exact absurd h (by simp)

mutual

/-- The texts of a node have entries. -/
theorem Codes.texts (hasked : ∀ {target args item quantity},
      quantityAsked? target args = some (item, quantity) → (invoke target args).texts = [])
    {node : Node} {code : List Instruction} :
    node.Codes quantityAsked? p code → ∀ s ∈ node.texts, p.texts[s]? ≠ none
  | .anyOf _ hitems | .every _ hitems => CodesAll.texts hasked hitems
  | .compare hrhs hlhs => by
    intro s hs
    obtain hs | hs := List.mem_append.mp hs
    · exact Codes.texts hasked hlhs s hs
    · exact Codes.texts hasked hrhs s hs
  | .invert hinner => by
    intro s hs
    exact Codes.texts hasked hinner s hs
  | .asked hask _ => by
    rw [hasked hask]
    nofun
  | .invoke _ _ _ hargs _ => CodesAll.texts hasked hargs
  | .string htext => by
    intro s hs
    obtain rfl := List.mem_singleton.mp hs
    rw [htext]
    nofun
  | .boolean _ | .identifier _ | .bare _ _ _ | .number _ _ => nofun

theorem CodesAll.texts (hasked : ∀ {target args item quantity},
      quantityAsked? target args = some (item, quantity) → (invoke target args).texts = [])
    {nodes : List Node} {code : List Instruction} :
    CodesAll quantityAsked? p nodes code → ∀ s ∈ textsAll nodes, p.texts[s]? ≠ none
  | .nil => nofun
  | .cons hnode hrest => by
    intro s hs
    obtain hs | hs := List.mem_append.mp hs
    · exact Codes.texts hasked hnode s hs
    · exact CodesAll.texts hasked hrest s hs

end

end Node

/-! ## From instructions to tapes -/

/-- The stack that code is said to need is the one that was accounted for. -/
theorem Assembler.toNat_deepest (instructions : List Instruction) :
    (UInt16.ofNat (empty.emitAll instructions).deepest).toNat =
      (empty.emitAll instructions).deepest := by
  have hdeepest : (empty.emitAll instructions).deepest ≤ deepestCount :=
    deepest_emitAll_le (Nat.zero_le _) instructions
  unfold deepestCount at hdeepest
  rw [UInt16.toNat_ofNat', Nat.mod_eq_of_lt (by omega)]

/-- A run of the tape that was written with the code of a node ends as the node does, if no
function that the node asks is silent. -/
theorem Machine.Serves.run {m : Machine} {meaning : Meaning} (hm : m.Serves meaning) {node : Node}
    {instructions : List Instruction}
    (hcode : node.Codes (meaning.symbols.quantityAsked? meaning.fast) meaning.pool instructions)
    (hdeepest : (Assembler.empty.emitAll instructions).deepest ≤ stackLimit)
    (hspoken : node.evaluate meaning ≠ .error .silent) :
    (m.run (Assembler.empty.emitAll instructions).tape).result.mapError RunFault.cause? =
      (node.evaluate meaning).mapError some := by
  have hfits : Assembler.empty.Fits instructions := ⟨Nat.le_refl _, hdeepest⟩
  have hruns : m.Runs instructions [] ((node.evaluate meaning).map (· :: [])) :=
    hcode.runs hm hfits rfl
  rw [Machine.run, Listing.ofTape_emitAll hcode.wellFormed]
  dsimp only
  rw [runFrom_result]
  rcases hvalue : node.evaluate meaning with cause | o <;> rw [hvalue] at hruns hspoken
  · have hcauseSpoken : cause ≠ .silent := fun h => hspoken (congrArg Except.error h)
    obtain ⟨fault, s, hrun, hcause⟩ := hruns hcauseSpoken 0 ⟨[], []⟩ rfl
    rw [hrun]
    show Except.error fault.cause? = _
    rw [hcause]
    rfl
  · obtain ⟨s, hrun, hstack⟩ := hruns 0 ⟨[], []⟩ rfl
    rw [hrun]
    show Except.ok (s.stack.headD .null) = _
    rw [hstack]
    rfl

/-! ## Environments -/

/-- The requests that fill an environment, and compile nothing. -/
def Request.Fills : Request → Prop
  | .builtIns _ | .tokens _ | .settings _ | .aliases | .scripts _ | .functions _
  | .settingValues _ | .region _ => True
  | _ => False

namespace Environment

/-- An environment whose functions have pointers of their own. -/
structure Furnished (env : Environment) : Prop where
  pool : env.world.pool.Sound
  functions : env.world.pool.Functions env.builtInCount
  fastOps : env.fastOps = FastOps.enabled env.config.fastOps

theorem ofConfig_furnished (config : Config) : (ofConfig config).Furnished :=
  ⟨ObjectPool.empty_sound, ObjectPool.empty_functions, rfl⟩

/-- What happens to symbols alone leaves the environment furnished. -/
theorem onSymbols_furnished {ε δ α : Type} (fault : δ → ε)
    (op : SymbolTable → Except δ α × SymbolTable) :
    Keeps Furnished (onWorld fault (World.onSymbols op)) :=
  fun _ h => ⟨h.pool, h.functions, h.fastOps⟩

theorem associate_furnished (symbol : SymbolId) (pointer : Object) :
    Keeps Furnished (onPool (·.associate symbol pointer)) := by
  intro env h
  have hgrows := (ObjectPool.associate_step h.pool symbol pointer).grows
  exact ⟨hgrows.sound h.pool, h.functions.grown hgrows, h.fastOps⟩

theorem addToken_furnished (name : String) : Keeps Furnished (addToken name) :=
  .bind (onSymbols_furnished _ _) fun _ => .bind (associate_furnished _ _) fun _ => .pure _

theorem addSetting_furnished (name : String) : Keeps Furnished (addSetting name) :=
  .bind (onSymbols_furnished _ _) fun _ => .bind .get fun _ =>
    .bind (associate_furnished _ _) fun _ =>
      .modify fun _ h => ⟨h.pool, h.functions, h.fastOps⟩

/-- A built-in function gets the next address, or nothing happens to the pool. -/
theorem addBuiltIn_furnished (signature : Signature) : Keeps Furnished (addBuiltIn signature) := by
  refine .bind (onSymbols_furnished _ _) fun symbol env h => ?_
  rw [bind_ok (get_apply env), bind_apply]
  have hdefine : onPool (·.define symbol (functionPointer env.builtInCount) signature) env =
      ((env.world.pool.define symbol (functionPointer env.builtInCount) signature).1.mapError
          .objects,
        { env with world := { env.world with
          pool := (env.world.pool.define symbol (functionPointer env.builtInCount)
            signature).2 } }) := rfl
  rw [show onPool (·.define symbol (.ofPointer ⟨.function, UInt32.ofNat env.builtInCount⟩)
    signature) env = _ from hdefine]
  rcases hd : env.world.pool.define symbol (functionPointer env.builtInCount) signature
    with ⟨e | index, pool⟩
  · obtain rfl := ObjectPool.define_error h.pool hd
    exact h
  · have hretains := ObjectPool.define_retains h.pool symbol
      (functionPointer env.builtInCount) signature
    rw [hd] at hretains
    exact ⟨hretains.sound, h.functions.define h.pool hd, h.fastOps⟩

/-- Filling an environment leaves it furnished. -/
theorem Furnished.respond {env : Environment} (h : env.Furnished) {request : Request}
    (hfills : request.Fills) : (env.respond request).2.Furnished := by
  cases request with
  | builtIns signatures =>
    exact (Keeps.forM_of_mem fun _ _ => addBuiltIn_furnished _) env h
  | tokens names => exact (Keeps.forM_of_mem fun _ _ => addToken_furnished _) env h
  | settings names => exact (Keeps.forM_of_mem fun _ _ => addSetting_furnished _) env h
  | aliases =>
    have hkeeps : Keeps Furnished aliasTokens :=
      .bind .get fun _ => .bind (.forM_of_mem fun _ _ => .bind (onSymbols_furnished _ _) fun _ =>
        .pure _) fun _ => .bind .get fun _ => .pure _
    exact hkeeps env h
  | scripts declarations =>
    have hkeeps : Keeps Furnished (withScripts declarations) :=
      .bind (onSymbols_furnished _ _) fun _ =>
        .modify fun _ h => ⟨h.pool, h.functions, h.fastOps⟩
    exact hkeeps env h
  | functions functions =>
    have hkeeps : Keeps Furnished (withFunctions functions) :=
      .bind (.forM_of_mem fun _ _ => .bind (onSymbols_furnished _ _) fun _ => .pure _) fun _ =>
        .modify fun _ h => ⟨h.pool, h.functions, h.fastOps⟩
    exact hkeeps env h
  | settingValues values => exact ⟨h.pool, h.functions, h.fastOps⟩
  | region region => exact ⟨h.pool, h.functions, h.fastOps⟩
  | _ => exact hfills.elim

theorem furnished_of_reached {answers : List Answer} {env : Environment}
    (hr : Reached Request.Fills answers env) : env.Furnished := by
  induction hr with
  | start config => exact ofConfig_furnished config
  | step request _ hfills ih => exact ih.respond hfills

/-- What the names and literals of nodes stand for in an environment, for a host and a
check. -/
def meaning (env : Environment) (host : Host) (check : QuantityCheck) : Meaning :=
  ⟨env.world.symbols, env.world.pool, host, check, env.config.fastOps⟩

theorem codegen_eq_ok {env env' : Environment} {node : Node} {code : Code}
    (h : codegen node env = (.ok code, env')) :
    ∃ pool, node.compile env.world.symbols env.fastOps env.world.pool = (.ok code, pool) ∧
      env' = { env with world := { env.world with pool } } := by
  have hvalue : (node.compile env.world.symbols env.fastOps env.world.pool).1.mapError
      StageError.compilation = .ok code := congrArg Prod.fst h
  refine ⟨(node.compile env.world.symbols env.fastOps env.world.pool).2, Prod.ext ?_ rfl,
    (congrArg Prod.snd h).symm⟩
  rcases hc : (node.compile env.world.symbols env.fastOps env.world.pool).1 with e | code' <;>
    rw [hc] at hvalue
  · exact absurd hvalue nofun
  · exact congrArg Except.ok (Except.ok.inj hvalue)

/-- What code generation in a furnished environment leaves: a pool that has grown, and the
instructions of the node on the tape. -/
theorem Furnished.codegen_codes {env env' : Environment} (h : env.Furnished) {node : Node}
    {code : Code} (hc : codegen node env = (.ok code, env')) :
    env'.Furnished ∧ ∃ instructions,
      node.Codes (env'.world.symbols.quantityAsked? env'.config.fastOps) env'.world.pool
        instructions ∧
      code.tape = (Assembler.empty.emitAll instructions).tape ∧
      code.maxStack.toNat = (Assembler.empty.emitAll instructions).deepest := by
  obtain ⟨pool, hcompile, rfl⟩ := codegen_eq_ok hc
  rw [h.fastOps] at hcompile
  obtain ⟨hgrows, instructions, hcode, htape, hmax⟩ := Node.compile_eq_ok h.pool hcompile
  exact ⟨⟨hgrows.sound h.pool, h.functions.grown hgrows, h.fastOps⟩, instructions, hcode, htape,
    (congrArg UInt16.toNat hmax).trans (Assembler.toNat_deepest instructions)⟩

/-- In a furnished environment, a compiled node does on the machine what it means, if no
function that it asks is silent. -/
theorem Furnished.codegen_runs {env env' : Environment} (h : env.Furnished) {node : Node}
    {code : Code} (hc : codegen node env = (.ok code, env'))
    (hstack : code.maxStack.toNat ≤ stackLimit) {host : Host} {m : Machine}
    (hm : Machine.ofTable env'.freeze host = .ok m) {check : QuantityCheck}
    (hspoken : node.evaluate (env'.meaning host check) ≠ .error .silent) :
    ((m.withCheck check).run code.tape).result.mapError RunFault.cause? =
      (node.evaluate (env'.meaning host check)).mapError some := by
  obtain ⟨hfurnished, instructions, hcode, htape, hdeepest⟩ := h.codegen_codes hc
  have hserves : (m.withCheck check).Serves (env'.meaning host check) :=
    Machine.serves_ofTable (env'.meaning host check) hfurnished.pool hfurnished.functions hm
  rw [htape]
  exact hserves.run hcode (hdeepest ▸ hstack) hspoken

/-- The texts of a node that compiles have objects that decode to them. -/
theorem Furnished.codegen_texts {env env' : Environment} (h : env.Furnished) {node : Node}
    {code : Code} (hc : codegen node env = (.ok code, env')) {s : String} (hs : s ∈ node.texts) :
    ∃ o, env'.world.pool.text? s = some o ∧ env'.freeze.decodeString o = .ok s := by
  obtain ⟨hfurnished, instructions, hcode, -, -⟩ := h.codegen_codes hc
  obtain ⟨index, hindex⟩ := Option.ne_none_iff_exists'.mp
    (hcode.texts Node.texts_of_quantityAsked? s hs)
  obtain ⟨o, ho, hlies⟩ := hfurnished.pool.texts hindex
  refine ⟨o, ?_, hlies.decodeString⟩
  rw [ObjectPool.text?, hindex]
  exact ho

/-- A node that compiles in a filled environment does on the machine what it means: it
has the same answer, or the same failure. Its texts have objects that decode to them. -/
theorem codegen_correct {answers : List Answer} {env env' : Environment}
    (hr : Reached Request.Fills answers env) {node : Node} {code : Code}
    (hc : codegen node env = (.ok code, env')) (hstack : code.maxStack.toNat ≤ stackLimit)
    {host : Host} {m : Machine} (hm : Machine.ofTable env'.freeze host = .ok m)
    (hanswers : ∀ {name function}, host.find? name = some function →
      ∀ args, function env'.freeze args ≠ .ok .null) (check : QuantityCheck) :
    ((m.withCheck check).run code.tape).result.mapError RunFault.cause? =
        (node.evaluate (env'.meaning host check)).mapError some ∧
      (∀ s ∈ node.texts, ∃ o, env'.world.pool.text? s = some o ∧
        env'.freeze.decodeString o = .ok s) ∧
      ∀ fault, ((m.withCheck check).run code.tape).result = .error fault →
        (∃ ip op, fault = .comparison ip op) ∨ (∃ name message, fault = .builtIn name message) ∨
        ∃ payload, fault = .panicked payload := by
  have hfurnished := furnished_of_reached hr
  have hanswered : (env'.meaning host check).Answers := hanswers
  have hruns := hfurnished.codegen_runs hc hstack hm (hanswered.evaluate_ne_silent node)
  refine ⟨hruns, fun s hs => hfurnished.codegen_texts hc hs, fun fault hfault => ?_⟩
  rw [hfault] at hruns
  have hcause : fault.cause? ≠ none := by
    intro hnone
    rw [show (Except.error fault : Except RunFault Object).mapError RunFault.cause? =
      .error fault.cause? from rfl, hnone] at hruns
    rcases hvalue : node.evaluate (env'.meaning host check) with cause | o <;> rw [hvalue] at hruns
    · exact absurd (Except.error.inj hruns) nofun
    · exact absurd hruns nofun
  cases fault with
  | comparison ip op => exact .inl ⟨ip, op, rfl⟩
  | builtIn name message => exact .inr (.inl ⟨name, message, rfl⟩)
  | panicked payload => exact .inr (.inr ⟨payload, rfl⟩)
  | _ => exact absurd rfl hcause

/-- An environment with one function and one token. -/
def armory : Environment :=
  (((ofConfig .standard).respond (.builtIns [⟨"has", 2⟩])).2.respond (.tokens ["Sword"])).2

/-- A host whose one function always agrees. -/
def armoryHost : Host := Host.empty.register "has" fun _ _ => .ok (.ofBool true)

/-- A check that finds one of everything. -/
def armoryCheck : QuantityCheck := fun _ _ quantity => .ok (.ofBool (quantity ≤ 1))

/-- A rule over both, and over a text. -/
def swordRule : Node :=
  .every [.call 13 [.identifier 14, .string "edge"], .has 13 14 (Number.ofNat 2)]

theorem reached_armory : ∃ answers, Reached Request.Fills answers armory :=
  ⟨_, .step (.tokens ["Sword"]) (.step (.builtIns [⟨"has", 2⟩]) (.start .standard) trivial) trivial⟩

/-- A host whose one function agrees does not answer null. -/
theorem armoryHost_answers {name : String} {function : HostFunction}
    (h : armoryHost.find? name = some function) (table : ObjectTable) (args : List Object) :
    function table args ≠ .ok .null := by
  have hlookup : List.lookup name
    [("has", (fun _ _ => .ok (.ofBool true) : HostFunction))] = some function := h
  rw [List.lookup_cons] at hlookup
  split at hlookup
  · rw [← Option.some.inj hlookup]
    show (Except.ok (Object.ofBool true) : Except HostFault Object) ≠ .ok .null
    decide
  · exact absurd hlookup (by simp)

/-- Compiled there, the rule answers as it evaluates: the function agrees, but there are no
two swords. -/
theorem swordRule_correct :
    ∃ code m, codegen swordRule armory = (.ok code, (codegen swordRule armory).2) ∧
      code.maxStack.toNat ≤ stackLimit ∧
      Machine.ofTable (codegen swordRule armory).2.freeze armoryHost = .ok m ∧
      ((m.withCheck armoryCheck).run code.tape).result.mapError RunFault.cause? =
        .ok (.ofBool false) := by
  have hall : ((codegen swordRule armory).1.toOption.map (·.maxStack.toNat),
      (Machine.ofTable (codegen swordRule armory).2.freeze armoryHost).toOption.isSome,
      swordRule.evaluate ((codegen swordRule armory).2.meaning armoryHost armoryCheck)) =
      (some 3, true, .ok (.ofBool false)) := by decide +kernel
  obtain ⟨hdepth, hrest⟩ := Prod.mk.inj hall
  obtain ⟨hmachine, hvalue⟩ := Prod.mk.inj hrest
  clear hall hrest
  generalize hcodegen : codegen swordRule armory = compiled at *
  obtain ⟨answers, hr⟩ := reached_armory
  obtain ⟨result, env'⟩ := compiled
  dsimp only at *
  cases result with
  | error e => exact absurd hdepth (by simp [Except.toOption])
  | ok code =>
    rcases hm : Machine.ofTable env'.freeze armoryHost with e | m <;> rw [hm] at hmachine
    · exact absurd hmachine (by simp [Except.toOption])
    · have hstack : code.maxStack.toNat ≤ stackLimit := by
        rw [show code.maxStack.toNat = 3 from Option.some.inj hdepth]
        decide
      obtain ⟨hrun, -, -⟩ := codegen_correct hr hcodegen hstack hm
        (fun h args => armoryHost_answers h _ args) armoryCheck
      rw [hvalue] at hrun
      exact ⟨code, m, rfl, hstack, rfl, hrun⟩

end Environment

end Passage

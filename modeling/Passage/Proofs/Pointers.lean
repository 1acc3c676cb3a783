import Passage.Proofs.Functions
import Passage.Proofs.Generation
import Passage.Proofs.Maintenance
import Passage.Proofs.Naming

/-!
# Who has a pointer

Symbols get pointers when an environment is filled, when a rule about a region needs a
new token, and from compiler functions. `World.Pointed` is the invariant: no symbol has a
pointer before it is declared, and all pointers are of a sort that may be given. So a token
that is new has no pointer yet, and its pointer takes an entry of its own in the pool
(`World.Pointed.generate`).

`Latitude` says what compiler functions may do: the kinds under which they declare names,
and the pointers that they give.
-/

namespace Passage

/-! ## What compiler functions may do -/

/-- The kinds under which names are declared, and the pointers that symbols are given. -/
structure Latitude where
  declares : Symbol.Kind → Prop
  gives : SymbolId → Object → Prop

/-- Compiler functions that declare names, enter objects and give pointers to declared
symbols, as far as they may, and do nothing else to the world. -/
def CompilerFunctions.Within (l : Latitude) (functions : CompilerFunctions) : Prop :=
  ∀ name function, functions.find? name = some function → ∀ args w, w.Sound → ∃ symbols pool,
    w.symbols.DeclaredAs (fun _ kind => l.declares kind) symbols ∧ w.pool.Grows pool ∧
      (∀ {id o}, pool.pointer? id = some o →
        w.pool.pointer? id = some o ∨ id < symbols.size ∧ l.gives id o) ∧
      (function args w).2 = { w with symbols, pool }

namespace CompilerFunctions

theorem trickEnabled_snd (tricks : List String) (args : List Node) (w : World) :
    (trickEnabled tricks args w).2 = w := by
  unfold trickEnabled
  split <;> rfl

/-- The comparison of settings at most declares its name. -/
theorem compareSetting_snd (args : List Node) (w : World) :
    (compareSetting args w).2 = w ∨
      (compareSetting args w).2 =
        { w with symbols := (w.symbols.declare Lowering.settingName .function).2 } := by
  unfold compareSetting
  split
  · next code lhs rhs =>
    rcases Comparison.ofCode? code.clampToByte with _ | op
    · exact .inl rfl
    dsimp only
    split
    · exact .inl rfl
    · rw [bind_apply]
      rcases hres : Transforming.declare Lowering.settingName .function w with ⟨e | id, w'⟩
      all_goals exact .inr (congrArg Prod.snd hres).symm
  · exact .inl rfl

/-- The functions of the standard table. -/
theorem standard_cases {tricks : List String} {nightStart : Bool} {name : String}
    {function : CompilerFunction} (h : (standard tricks nightStart).find? name = some function) :
    function = trickEnabled tricks ∨
      name = Lowering.settingName ∧ function = compareSetting ∨
        ∃ value, function = constant value := by
  obtain ⟨before, after, hsplit, -⟩ := List.lookup_eq_some_iff.mp h
  have hmem : (name, function) ∈ (standard tricks nightStart).entries := by
    rw [hsplit]
    exact List.mem_append_right _ List.mem_cons_self
  simp only [standard, List.mem_cons, List.not_mem_nil, Prod.mk.injEq, or_false] at hmem
  obtain ⟨-, rfl⟩ | ⟨hname, rfl⟩ | ⟨-, rfl⟩ | ⟨-, rfl⟩ | ⟨-, rfl⟩ | ⟨-, rfl⟩ | ⟨-, rfl⟩
    | ⟨-, rfl⟩ :=
    hmem
  · exact .inl rfl
  · exact .inr (.inl ⟨hname, rfl⟩)
  all_goals exact .inr (.inr ⟨_, rfl⟩)

/-- The functions of the standard table at most declare the name of the comparison. -/
theorem standard_snd {tricks : List String} {nightStart : Bool} {name : String}
    {function : CompilerFunction} (h : (standard tricks nightStart).find? name = some function)
    (args : List Node) (w : World) : (function args w).2 = w ∨ (function args w).2 =
      { w with symbols := (w.symbols.declare Lowering.settingName .function).2 } := by
  obtain rfl | ⟨-, rfl⟩ | ⟨value, rfl⟩ := standard_cases h
  · exact .inl (trickEnabled_snd tricks args w)
  · exact compareSetting_snd args w
  · exact .inl rfl

/-- The functions of the standard table declare one name, and do nothing else to the world. -/
theorem standard_within {l : Latitude} (hl : l.declares .function) (tricks : List String)
    (nightStart : Bool) : (standard tricks nightStart).Within l := by
  intro name function h args w _
  obtain hsame | hdeclared := standard_snd h args w
  · exact ⟨w.symbols, w.pool, .nothing, .refl _, .inl, hsame⟩
  · exact ⟨_, w.pool, .declare _ _ .nothing hl, .refl _, .inl, hdeclared⟩

theorem standard_declareOnly (tricks : List String) (nightStart : Bool) :
    (standard tricks nightStart).DeclareOnly fun _ => True := by
  intro name function h args w
  obtain hsame | hdeclared := standard_snd h args w
  · exact ⟨w.symbols, w.pool, .nothing, .refl _, hsame⟩
  · exact ⟨_, w.pool, .declare _ _ .nothing trivial, .refl _, hdeclared⟩

end CompilerFunctions

/-- A request that brings no compiler functions but such as keep within the latitude. -/
def Request.Within (l : Latitude) : Request → Prop
  | .functions table => table.Within l
  | _ => True

/-! ## Pointers of a pool -/

namespace ObjectPool

variable {p p' : ObjectPool} {id symbol : SymbolId} {o pointer : Object}

theorem Interns.pointer? (h : p.Interns p') (hp : p.Sound) (ho : p'.pointer? id = some o) :
    p.pointer? id = some o := by
  obtain ⟨index, hindex, hget⟩ := Option.bind_eq_some_iff.mp ho
  rw [h.pointers_eq] at hindex
  obtain ⟨o', hget'⟩ := get?_of_lt (hp.pointers hindex)
  rw [ObjectPool.pointer?, hindex]
  exact hget'.trans ((h.values hget').symm.trans hget)

/-- An association gives a pointer to no other symbol. -/
theorem pointer?_of_associate (hp : p.Sound) {index : ObjectIndex}
    (h : p.associate symbol pointer = (.ok index, p')) (ho : p'.pointer? id = some o) :
    p.pointer? id = some o ∨ id = symbol ∧ o = pointer := by
  obtain ⟨e, h'⟩ | ⟨i, -, -, h'⟩ | ⟨-, -, h'⟩ := associate_cases hp symbol pointer <;>
    rw [h'] at h <;> cases h
  · exact .inl ho
  · obtain ⟨i, hi, hget⟩ := Option.bind_eq_some_iff.mp ho
    simp only [pointed, Std.ExtTreeMap.getElem?_insert, Std.LawfulEqCmp.compare_eq_iff_eq] at hi
    split at hi
    · next heq =>
      obtain rfl := Option.some.inj hi
      have hnew : (p.pointed symbol pointer).get? p.values.size = some pointer :=
        Array.getElem?_push_size
      exact .inr ⟨heq.symm, Option.some.inj (hget.symm.trans hnew)⟩
    · obtain ⟨o', hget'⟩ := get?_of_lt (hp.pointers hi)
      have hkept : (p.pointed symbol pointer).get? i = some o' := getElem?_push_of_some _ hget'
      rw [ObjectPool.pointer?, hi]
      exact .inl (hget'.trans (hkept.symm.trans hget))

/-- The pointer of a symbol that had none takes an entry of its own. -/
theorem size_associate (hp : p.Sound) {index : ObjectIndex} (hnone : p.pointer? symbol = none)
    (h : p.associate symbol pointer = (.ok index, p')) : p'.size = p.size + 1 := by
  obtain ⟨e, h'⟩ | ⟨i, hi, hget, -⟩ | ⟨-, -, h'⟩ := associate_cases hp symbol pointer
  · rw [h'] at h
    cases h
  · rw [ObjectPool.pointer?, hi] at hnone
    cases hget.symm.trans hnone
  · rw [h'] at h
    cases h
    exact Array.size_push _

end ObjectPool

/-- A symbol that is declared is one of the table. -/
theorem SymbolTable.lt_of_declare {t t' : SymbolTable} (ht : t.Sound) {name : String}
    {kind : Symbol.Kind} {id : SymbolId} (h : t.declare name kind = (.ok id, t')) :
    id < t'.size := by
  obtain ⟨e, h'⟩ | ⟨s, hl, -, h'⟩ | ⟨s, refined, hl, -, -, h'⟩ | ⟨-, -, h'⟩ :=
    declare_cases ht name kind <;> rw [h'] at h
  · exact absurd (congrArg Prod.fst h) nofun
  · cases h
    exact get?_eq_some_lt (names_of_lookup? ht hl).2
  · cases h
    have hlt := get?_eq_some_lt (names_of_lookup? ht hl).2
    simpa [size, SymbolTable.refined] using hlt
  · cases h
    simp [size, appended]

/-! ## Pointers of a world -/

/-- Only symbols of the table have pointers, and only such as may be given. -/
structure World.Pointed (gives : SymbolId → Object → Prop) (w : World) : Prop
    extends World.Sound w where
  given : ∀ {id : SymbolId} {o : Object}, w.pool.pointer? id = some o →
    id < w.symbols.size ∧ gives id o

namespace World.Pointed

variable {gives : SymbolId → Object → Prop} {w : World} {l : Latitude}

theorem start (config : Config) : (Environment.ofConfig config).world.Pointed gives where
  symbols := SymbolTable.initial_sound
  pool := ObjectPool.empty_sound
  given h := by
    obtain ⟨index, hindex, -⟩ := Option.bind_eq_some_iff.mp h
    exact absurd hindex (by simp [Environment.ofConfig, World.empty, ObjectPool.empty])

theorem mono {gives' : SymbolId → Object → Prop} (h : w.Pointed gives)
    (hgives : ∀ {id o}, gives id o → gives' id o) : w.Pointed gives' :=
  ⟨h.toSound, fun ho => (h.given ho).imp id hgives⟩

theorem declared (h : w.Pointed gives) {symbols : SymbolTable} (hg : w.symbols.Grows symbols) :
    World.Pointed gives { w with symbols } where
  symbols := hg.sound h.symbols
  pool := h.pool
  given ho := ⟨Nat.lt_of_lt_of_le (h.given ho).1 hg.symbols, (h.given ho).2⟩

/-- Objects that give pointers only to symbols of the table, and only such as may be given. -/
theorem entered (h : w.Pointed gives) {pool : ObjectPool} (hpool : pool.Sound)
    (hgiven : ∀ {id o}, pool.pointer? id = some o →
      w.pool.pointer? id = some o ∨ id < w.symbols.size ∧ gives id o) :
    World.Pointed gives { w with pool } where
  symbols := h.symbols
  pool := hpool
  given ho := (hgiven ho).elim h.given id

theorem interned (h : w.Pointed gives) {pool : ObjectPool} (hi : w.pool.Interns pool) :
    World.Pointed gives { w with pool } :=
  h.entered (hi.sound h.pool) fun ho => .inl (hi.pointer? h.pool ho)

theorem associated (h : w.Pointed gives) {symbol : SymbolId} {pointer : Object}
    {index : ObjectIndex} {pool : ObjectPool}
    (hok : w.pool.associate symbol pointer = (.ok index, pool))
    (hsymbol : symbol < w.symbols.size) (hgives : gives symbol pointer) :
    World.Pointed gives { w with pool } := by
  have hstep := ObjectPool.associate_step h.pool symbol pointer
  rw [hok] at hstep
  refine h.entered (hstep.sound h.pool) fun ho => ?_
  obtain hold | ⟨rfl, rfl⟩ := ObjectPool.pointer?_of_associate h.pool hok ho
  · exact .inl hold
  · exact .inr ⟨hsymbol, hgives⟩

theorem defined (h : w.Pointed gives) {symbol : SymbolId} {pointer : Object}
    {signature : Signature} {index : ObjectIndex} {pool : ObjectPool}
    (hok : w.pool.define symbol pointer signature = (.ok index, pool))
    (hsymbol : symbol < w.symbols.size) (hgives : gives symbol pointer) :
    World.Pointed gives { w with pool } := by
  have hretains := ObjectPool.define_retains h.pool symbol pointer signature
  obtain ⟨p₁, hassociate, rfl⟩ := ObjectPool.define_eq_ok hok
  rw [hok] at hretains
  have hassociated := h.associated hassociate hsymbol hgives
  exact ⟨⟨h.symbols, hretains.sound⟩, fun ho => hassociated.given ho⟩

theorem context (h : w.Pointed gives) (context : Context) :
    World.Pointed gives { w with context } :=
  ⟨⟨h.symbols, h.pool⟩, h.given⟩

/-- No symbol has a pointer before it is declared. -/
theorem pointer?_fresh (h : w.Pointed gives) : w.pool.pointer? w.symbols.size = none := by
  rcases ho : w.pool.pointer? w.symbols.size with _ | o
  · rfl
  · exact absurd (h.given ho).1 (Nat.lt_irrefl _)

/-- A rule about a region that is replaced leaves objects and connections as they are, or
enters one pointer and records one connection. -/
theorem generate (h : w.Pointed gives) (htokens : ∀ id, gives id (Elsewhere.tokenPointer id))
    {origin : String} {rule node : Node} {w' : World}
    (hok : Elsewhere.generate origin rule w = (.ok node, w')) :
    w'.Pointed gives ∧ w.pool.Grows w'.pool ∧
      (w'.pool = w.pool ∧ w'.context = w.context ∨
        w'.pool.size = w.pool.size + 1 ∧
          w'.context.pending.size = w.context.pending.size + 1) := by
  obtain ⟨symbols, hdeclared, hrest⟩ := Elsewhere.generate_eq_ok h.toSound hok
  obtain ⟨-, hnext⟩ := hdeclared.conducted (fun h => h.toSound)
    (fun h _ => h.declared (SymbolTable.declare_grows h.symbols _ _)) h
  obtain rfl | ⟨token, symbols', index, pool, hn, htoken, hindex, rfl⟩ := hrest
  · exact ⟨hnext, .refl _, .inl ⟨rfl, rfl⟩⟩
  · have hdeclared' : symbols.Grows symbols' := by
      have hgrows := SymbolTable.declare_grows hnext.symbols
        (Elsewhere.tokenName origin rule.hash) .token
      rwa [show ({ w with symbols } : World).symbols.declare _ _ = _ from htoken] at hgrows
    have hlt := SymbolTable.lt_of_declare hnext.symbols htoken
    have hassociated := (hnext.declared hdeclared').associated hindex hlt (htokens token)
    have hgrows := (ObjectPool.associate_step h.pool token (Elsewhere.tokenPointer token)).grows
    obtain ⟨rfl, -⟩ := SymbolTable.declare_fresh hn htoken
    have hsize := ObjectPool.size_associate h.pool hnext.pointer?_fresh hindex
    rw [hindex] at hgrows
    exact ⟨hassociated.context _, hgrows, .inr ⟨hsize, Array.size_push _⟩⟩

end World.Pointed

/-! ## Tallies -/

/-- What is said of the numbers of connections, delivered and waiting, and of the objects,
and survives whatever rules do: objects are entered, connections are taken, and each one
that is recorded comes with an entry. -/
structure Tally (E : Nat → Nat → ObjectPool → Prop) : Prop where
  entered : ∀ {delivered waiting p p'}, E delivered waiting p → p.Sound → p.Grows p' →
    E delivered waiting p'
  taken : ∀ {delivered waiting p}, E delivered waiting p → E (delivered + waiting) 0 p
  recorded : ∀ {delivered waiting p p'}, E delivered waiting p → p.Sound → p.Grows p' →
    p'.size = p.size + 1 → E delivered (waiting + 1) p'

/-- A pointed world of which the tally is true. -/
structure World.Tallied (gives : SymbolId → Object → Prop) (E : Nat → Nat → ObjectPool → Prop)
    (delivered : List String) (w : World) : Prop where
  pointed : w.Pointed gives
  tally : E delivered.length w.context.pending.size w.pool

/-- A tally is sustained, whatever is declared and whatever compiler functions do within
their latitude. -/
theorem Tally.sustained {l : Latitude} {E : Nat → Nat → ObjectPool → Prop} (hE : Tally E)
    (hordinary : ∀ {kind : Symbol.Kind},
      kind = .unknown ∨ kind = .function ∨ kind = .parameter → l.declares kind)
    (htokens : ∀ id, l.gives id (Elsewhere.tokenPointer id)) :
    Sustained (fun _ kind => l.declares kind) (CompilerFunctions.Within l)
      (World.Tallied l.gives E) where
  sound h := h.pointed.toSound
  ordinary := hordinary
  declare h _ := ⟨h.pointed.declared (SymbolTable.declare_grows h.pointed.symbols _ _), h.tally⟩
  byname h := ⟨h.pointed.declared (SymbolTable.bindAlias_grows _ _ _), h.tally⟩
  literals h hi := ⟨h.pointed.interned hi, hE.entered h.tally h.pointed.pool hi.toGrows⟩
  functions := by
    intro delivered functions hwithin name function hfind args w h
    obtain ⟨symbols, pool, hdeclared, hpool, hgiven, heq⟩ :=
      hwithin name function hfind args w h.pointed.toSound
    obtain ⟨hgrows, hnext⟩ := hdeclared.conducted (fun h => h.toSound)
      (fun h _ => h.declared (SymbolTable.declare_grows h.symbols _ _)) h.pointed
    rw [heq]
    exact ⟨⟨hgrows, hpool, .refl _⟩, fun _ _ =>
      ⟨hnext.entered (hpool.sound h.pointed.pool) hgiven,
        hE.entered h.tally h.pointed.pool hpool⟩⟩
  region _ h := ⟨h.pointed.context _, h.tally⟩
  take h := by
    refine ⟨h.pointed.context _, ?_⟩
    rw [List.length_append, destinations, List.length_map, Array.length_toList]
    exact hE.taken h.tally
  generate := by
    intro delivered origin rule w h
    refine ⟨(Elsewhere.generate_conducts origin rule w h.pointed.toSound).1, fun node hnode => ?_⟩
    obtain ⟨hpointed, hgrows, ⟨hpool, hcontext⟩ | ⟨hsize, hpending⟩⟩ :=
      h.pointed.generate htokens (Prod.ext hnode rfl)
    · refine ⟨hpointed, ?_⟩
      rw [hpool, hcontext]
      exact h.tally
    · refine ⟨hpointed, ?_⟩
      rw [hpending]
      exact hE.recorded h.tally h.pointed.pool hgrows hsize

/-! ## Filling and compiling -/

/-- A latitude within which all can be done that callers ask for. -/
structure Latitude.Ample (l : Latitude) : Prop where
  declares : ∀ kind, l.declares kind
  gives : ∀ id pointer, l.gives id (.ofPointer pointer)

namespace World.Pointed

open Environment (Holds)

variable {l : Latitude} {allowed : CompilerFunctions → Prop}

/-- A symbol that was declared and given a pointer. -/
theorem supplied {gives : SymbolId → Object → Prop} {env : Environment}
    (h : env.world.Pointed gives) {name : String} {kind : Symbol.Kind} {id : SymbolId}
    {symbols : SymbolTable} (hd : env.world.symbols.declare name kind = (.ok id, symbols)) :
    id < symbols.size ∧ World.Pointed gives { env.world with symbols } := by
  have hgrows := SymbolTable.declare_grows h.symbols name kind
  rw [hd] at hgrows
  exact ⟨SymbolTable.lt_of_declare h.symbols hd, h.declared hgrows⟩

theorem declaring {gives : SymbolId → Object → Prop} {env : Environment}
    (h : Holds allowed (World.Pointed gives) env) (name : String) (kind : Symbol.Kind) :
    Holds allowed (World.Pointed gives) (env.declaring name kind) :=
  ⟨h.world.declared (SymbolTable.declare_grows h.world.symbols name kind), h.ready.functions,
    h.ready.pipeline, h.ready.fastOps⟩

theorem addBuiltIn_keeps (hl : l.Ample) (signature : Signature) :
    Keeps (Holds allowed (World.Pointed l.gives)) (Environment.addBuiltIn signature) := by
  intro env h
  obtain ⟨e, hadd⟩ | ⟨id, symbols, index, pool, hd, hp, hadd⟩ :=
    Environment.addBuiltIn_cases h.world.pool signature <;> rw [hadd]
  · exact declaring h _ _
  · obtain ⟨hlt, hpointed⟩ := h.world.supplied hd
    exact ⟨hpointed.defined hp hlt (hl.gives id _), h.ready.functions, h.ready.pipeline,
      h.ready.fastOps⟩

theorem addToken_keeps (hl : l.Ample) (name : String) :
    Keeps (Holds allowed (World.Pointed l.gives)) (Environment.addToken name) := by
  intro env h
  obtain ⟨e, hadd⟩ | ⟨id, symbols, index, pool, hd, hp, hadd⟩ :=
    Environment.addToken_cases h.world.pool name <;> rw [hadd]
  · exact declaring h _ _
  · obtain ⟨hlt, hpointed⟩ := h.world.supplied hd
    exact ⟨hpointed.associated hp hlt (hl.gives id _), h.ready.functions, h.ready.pipeline,
      h.ready.fastOps⟩

theorem addSetting_keeps (hl : l.Ample) (name : String) :
    Keeps (Holds allowed (World.Pointed l.gives)) (Environment.addSetting name) := by
  intro env h
  obtain ⟨e, hadd⟩ | ⟨id, symbols, index, pool, hd, hp, hadd⟩ :=
    Environment.addSetting_cases h.world.pool name <;> rw [hadd]
  · exact declaring h _ _
  · obtain ⟨hlt, hpointed⟩ := h.world.supplied hd
    exact ⟨hpointed.associated hp hlt (hl.gives id _), h.ready.functions, h.ready.pipeline,
      h.ready.fastOps⟩

end World.Pointed

theorem Tally.trivial : Tally fun _ _ _ => True := ⟨fun _ _ _ => ⟨⟩, fun _ => ⟨⟩, fun _ _ _ _ => ⟨⟩⟩

namespace Environment

variable {l : Latitude}

/-- Every answer leaves the world pointed. -/
theorem pointed_respond (hl : l.Ample) {env : Environment}
    (h : Holds (CompilerFunctions.Within l) (World.Pointed l.gives) env) {request : Request}
    (hwithin : request.Within l) :
    Holds (CompilerFunctions.Within l) (World.Pointed l.gives) (env.respond request).2 := by
  have hrules : request.Ordinary (fun _ kind => l.declares kind) (CompilerFunctions.Within l) →
      Holds (CompilerFunctions.Within l) (World.Pointed l.gives) (env.respond request).2 := by
    intro hordinary
    have htallied : Holds (CompilerFunctions.Within l)
        (World.Tallied l.gives (fun _ _ _ => True) []) env := ⟨⟨h.world, trivial⟩, h.ready⟩
    have hafter := (Tally.trivial.sustained (fun _ => hl.declares _)
      fun id => hl.gives id _).respond htallied hordinary
    exact ⟨hafter.world.pointed, hafter.ready⟩
  cases request with
  | builtIns signatures =>
    exact Keeps.forM_of_mem (fun _ _ => World.Pointed.addBuiltIn_keeps hl _) env h
  | tokens names => exact Keeps.forM_of_mem (fun _ _ => World.Pointed.addToken_keeps hl _) env h
  | settings names =>
    exact Keeps.forM_of_mem (fun _ _ => World.Pointed.addSetting_keeps hl _) env h
  | scripts declarations => exact hrules fun _ _ _ _ _ _ => hl.declares _
  | functions functions => exact hrules ⟨fun _ _ => hl.declares _, hwithin⟩
  | _ => exact hrules trivial

/-- The world of every environment that is reached is pointed. -/
theorem pointed_of_reached (hl : l.Ample) {answers : List Answer} {env : Environment}
    (hr : Reached (Request.Within l) answers env) :
    Holds (CompilerFunctions.Within l) (World.Pointed l.gives) env := by
  induction hr with
  | start config => exact ⟨World.Pointed.start config, ofConfig_ready config⟩
  | step request _ hwithin ih => exact pointed_respond hl ih hwithin

end Environment

end Passage

import Passage.Proofs.Correctness
import Passage.Proofs.Names

/-!
# Filling an environment

An environment that was filled with functions and tokens, and with nothing else, knows
their names: each function has a signature of its own, each token the pointer that is made
of its number, and the functions about regions are still what they were (`Filled`). A
function or token that is added changes none of what was there.
-/

namespace Passage

namespace Environment

/-! ## Parts of the environment -/

theorem onSymbols_eq_ok {α : Type} {op : SymbolTable → Except SymbolError α × SymbolTable}
    {env env' : Environment} {a : α} (h : onSymbols op env = (.ok a, env')) :
    ∃ symbols, op env.world.symbols = (.ok a, symbols) ∧
      env' = { env with world := { env.world with symbols } } := by
  have hvalue : (op env.world.symbols).1.mapError StageError.symbols = .ok a :=
    congrArg Prod.fst h
  exact ⟨(op env.world.symbols).2, Prod.ext (ok_of_mapError hvalue) rfl,
    (congrArg Prod.snd h).symm⟩

theorem onPool_eq_ok {α : Type} {op : ObjectPool → Except PoolError α × ObjectPool}
    {env env' : Environment} {a : α} (h : onPool op env = (.ok a, env')) :
    ∃ pool, op env.world.pool = (.ok a, pool) ∧
      env' = { env with world := { env.world with pool } } := by
  have hvalue : (op env.world.pool).1.mapError StageError.objects = .ok a := congrArg Prod.fst h
  exact ⟨(op env.world.pool).2, Prod.ext (ok_of_mapError hvalue) rfl, (congrArg Prod.snd h).symm⟩

end Environment

/-! ## Filled environments -/

/-- The world knows the functions and tokens by their names: functions have signatures,
tokens have pointers. -/
structure World.Stocks (functions : List Signature) (tokens : List String) (w : World) : Prop where
  symbols : w.symbols.Sound
  function : ∀ signature ∈ functions, ∃ id,
    w.symbols.Knows signature.name .builtInFunction id ∧
      w.pool.definitions.lookup id = some signature
  token : ∀ name ∈ tokens, ∃ id, w.symbols.Knows name .token id ∧
    w.pool.pointer? id = some (Elsewhere.tokenPointer id)
  elsewhere : ∀ name ∈ [Elsewhere.atName, Elsewhere.hereName], ∃ id,
    w.symbols.Knows name .compilerFunction id

namespace Environment

/-- The environment was filled with the functions and tokens, and with nothing else. -/
structure Filled (config : Config) (functions : List Signature) (tokens : List String)
    (env : Environment) : Prop extends World.Stocks functions tokens env.world where
  furnished : env.Furnished
  same : env = { ofConfig config with world := env.world, builtInCount := env.builtInCount }

namespace Filled

variable {config : Config} {functions : List Signature} {tokens : List String}
  {env env' : Environment}

theorem ofConfig (config : Config) : Filled config [] [] (ofConfig config) where
  symbols := SymbolTable.initial_sound
  furnished := ofConfig_furnished config
  function := List.forall_mem_nil _
  token := List.forall_mem_nil _
  elsewhere := by
    have hat : initialSymbols.lookup? Elsewhere.atName =
        some ⟨Elsewhere.atName, 11, .compilerFunction⟩ := by decide +kernel
    have hhere : initialSymbols.lookup? Elsewhere.hereName =
        some ⟨Elsewhere.hereName, 12, .compilerFunction⟩ := by cbv
    exact List.forall_mem_cons.mpr ⟨⟨11, _, hat, rfl, rfl⟩,
      List.forall_mem_singleton.mpr ⟨12, _, hhere, rfl, rfl⟩⟩
  same := rfl

/-- What a declared function or token leaves of what was there. -/
theorem kept (h : Filled config functions tokens env) {name : String} {kind : Symbol.Kind}
    {id : SymbolId} {symbols : SymbolTable} (hkind : SymbolTable.IsGiven kind)
    (hd : env.world.symbols.declare name kind = (.ok id, symbols)) {name' : String}
    {kind' : Symbol.Kind} {id' : SymbolId} (hsettled : SymbolTable.IsSettled kind')
    (hknown : env.world.symbols.Knows name' kind' id') : symbols.Knows name' kind' id' :=
  hknown.declare h.symbols hsettled hkind hd

theorem addBuiltIn (h : Filled config functions tokens env) {signature : Signature}
    (hadd : addBuiltIn signature env = (.ok (), env')) :
    Filled config (functions ++ [signature]) tokens env' := by
  have hfurnished : env'.Furnished := by
    have hkeeps := addBuiltIn_furnished signature env h.furnished
    rwa [hadd] at hkeeps
  obtain ⟨id, env₁, hdeclare, hrest⟩ := bind_eq_ok hadd
  obtain ⟨symbols, hd, rfl⟩ := onSymbols_eq_ok hdeclare
  rw [bind_ok (get_apply _)] at hrest
  obtain ⟨index, env₂, hdefine, hlast⟩ := bind_eq_ok hrest
  obtain ⟨pool, hp, rfl⟩ := onPool_eq_ok hdefine
  rw [modify_apply] at hlast
  obtain rfl := congrArg Prod.snd hlast
  have hpool : env.world.pool.define id (functionPointer env.builtInCount) signature =
      (.ok index, pool) := hp
  obtain ⟨hfound, hothers⟩ :=
    h.furnished.functions.lookup_define h.furnished.pool hpool
  have hretains := ObjectPool.define_retains h.furnished.pool id
    (functionPointer env.builtInCount) signature
  rw [hpool] at hretains
  have hkept : ∀ {name' : String} {kind' : Symbol.Kind} {id' : SymbolId},
      SymbolTable.IsSettled kind' → env.world.symbols.Knows name' kind' id' →
      symbols.Knows name' kind' id' := h.kept (.inl rfl) hd
  refine ⟨⟨?_, ?_, ?_, ?_⟩, hfurnished, ?_⟩
  · have hgrows := SymbolTable.declare_grows h.symbols signature.name .builtInFunction
    rw [hd] at hgrows
    exact hgrows.sound h.symbols
  · intro known hmem
    obtain hmem | hmem := List.mem_append.mp hmem
    · obtain ⟨id', hknown, hlookup⟩ := h.function known hmem
      exact ⟨id', hkept (.inl rfl) hknown, hothers hlookup⟩
    · obtain rfl := List.mem_singleton.mp hmem
      exact ⟨id, SymbolTable.declare_knows h.symbols (.inl rfl) hd, hfound⟩
  · intro name hname
    obtain ⟨id', hknown, hpointer⟩ := h.token name hname
    exact ⟨id', hkept (.inr (.inr rfl)) hknown, hretains.pointer? hpointer⟩
  · intro name hname
    obtain ⟨id', hknown⟩ := h.elsewhere name hname
    exact ⟨id', hkept (.inr (.inl rfl)) hknown⟩
  · exact congrArg (fun e : Environment => { e with
      world := { env.world with symbols, pool }, builtInCount := env.builtInCount + 1 }) h.same

theorem addToken (h : Filled config functions tokens env) {name : String}
    (hadd : addToken name env = (.ok (), env')) :
    Filled config functions (tokens ++ [name]) env' := by
  have hfurnished : env'.Furnished := by
    have hkeeps := addToken_furnished name env h.furnished
    rwa [hadd] at hkeeps
  obtain ⟨id, env₁, hdeclare, hrest⟩ := bind_eq_ok hadd
  obtain ⟨symbols, hd, rfl⟩ := onSymbols_eq_ok hdeclare
  obtain ⟨index, env₂, hassociate, hlast⟩ := bind_eq_ok hrest
  obtain ⟨pool, hp, rfl⟩ := onPool_eq_ok hassociate
  rw [pure_apply] at hlast
  obtain rfl := congrArg Prod.snd hlast
  have hpool : env.world.pool.associate id (Elsewhere.tokenPointer id) = (.ok index, pool) := hp
  have hgrows := (ObjectPool.associate_step h.furnished.pool id (Elsewhere.tokenPointer id)).grows
  rw [hpool] at hgrows
  have hkept : ∀ {name' : String} {kind' : Symbol.Kind} {id' : SymbolId},
      SymbolTable.IsSettled kind' → env.world.symbols.Knows name' kind' id' →
      symbols.Knows name' kind' id' := h.kept (.inr (.inl rfl)) hd
  refine ⟨⟨?_, ?_, ?_, ?_⟩, hfurnished, ?_⟩
  · have hsymbols := SymbolTable.declare_grows h.symbols name .token
    rw [hd] at hsymbols
    exact hsymbols.sound h.symbols
  · intro signature hmem
    obtain ⟨id', hknown, hlookup⟩ := h.function signature hmem
    exact ⟨id', hkept (.inl rfl) hknown, hgrows.definitions ▸ hlookup⟩
  · intro known hmem
    obtain hmem | hmem := List.mem_append.mp hmem
    · obtain ⟨id', hknown, hpointer⟩ := h.token known hmem
      exact ⟨id', hkept (.inr (.inr rfl)) hknown, hgrows.pointer? hpointer⟩
    · obtain rfl := List.mem_singleton.mp hmem
      exact ⟨id, SymbolTable.declare_knows h.symbols (.inr (.inl rfl)) hd,
        ObjectPool.pointer?_associate h.furnished.pool hpool⟩
  · intro known hmem
    obtain ⟨id', hknown⟩ := h.elsewhere known hmem
    exact ⟨id', hkept (.inr (.inl rfl)) hknown⟩
  · exact congrArg (fun e : Environment => { e with
      world := { env.world with symbols, pool } }) h.same

theorem withBuiltIns {added : List Signature} (h : Filled config functions tokens env)
    (hadd : withBuiltIns added env = (.ok (), env')) :
    Filled config (functions ++ added) tokens env' := by
  induction added generalizing functions env with
  | nil =>
    obtain rfl : env = env' := congrArg Prod.snd hadd
    rwa [List.append_nil]
  | cons signature rest ih =>
    obtain ⟨_, env₁, hfirst, hrest⟩ := bind_eq_ok hadd
    have hnext := ih (h.addBuiltIn hfirst) hrest
    rwa [List.append_assoc] at hnext

theorem withTokens {added : List String} (h : Filled config functions tokens env)
    (hadd : withTokens added env = (.ok (), env')) :
    Filled config functions (tokens ++ added) env' := by
  induction added generalizing tokens env with
  | nil =>
    obtain rfl : env = env' := congrArg Prod.snd hadd
    rwa [List.append_nil]
  | cons name rest ih =>
    obtain ⟨_, env₁, hfirst, hrest⟩ := bind_eq_ok hadd
    have hnext := ih (h.addToken hfirst) hrest
    rwa [List.append_assoc] at hnext

end Filled

/-- Declares functions, then tokens. -/
def fill (functions : List Signature) (tokens : List String) : Compiling StageError Unit := do
  withBuiltIns functions
  withTokens tokens

/-- A new environment is filled with what is declared. -/
theorem filled_of_ok {config : Config} {functions : List Signature} {tokens : List String}
    {env : Environment} (h : fill functions tokens (ofConfig config) = (.ok (), env)) :
    Filled config functions tokens env := by
  obtain ⟨_, env₁, hfunctions, htokens⟩ := bind_eq_ok h
  exact ((Filled.ofConfig config).withBuiltIns hfunctions).withTokens htokens

end Environment

end Passage

import Passage.Environment.Basic
import Passage.Proofs.Fallible
import Passage.Proofs.Functions

/-!
# What it takes to name something

A built-in function, a token and a setting are added alike: a name is declared, and its
symbol is given a pointer. Either both succeed, or the objects are left as they were. The
lemmas of this module say so, once for each of them.
-/

namespace Passage

/-- The pointer of the setting at an address. -/
def settingPointer (address : Nat) : Object := .ofPointer ⟨.setting, UInt32.ofNat address⟩

/-- An association that fails leaves the pool as it was. -/
theorem ObjectPool.associate_error {p p' : ObjectPool} (hp : p.Sound) {symbol : SymbolId}
    {pointer : Object} {e : PoolError} (h : p.associate symbol pointer = (.error e, p')) :
    p' = p := by
  obtain ⟨e', ha⟩ | ⟨i, -, -, ha⟩ | ⟨-, -, ha⟩ := associate_cases hp symbol pointer <;>
    rw [ha] at h <;> cases h
  rfl

namespace Environment

variable {env : Environment}

/-- The environment with other symbols and objects. -/
def supplied (env : Environment) (symbols : SymbolTable) (pool : ObjectPool) : Environment :=
  { env with world := { env.world with symbols, pool } }

/-- The environment in which a name was declared, and nothing else. -/
def declaring (env : Environment) (name : String) (kind : Symbol.Kind) : Environment :=
  env.supplied (env.world.symbols.declare name kind).2 env.world.pool

/-- What is behind a declaration is reached with a symbol, or not at all. -/
theorem declare_bind_cases {α : Type} (env : Environment) (name : String) (kind : Symbol.Kind)
    (rest : SymbolId → Compiling StageError α) :
    (∃ e, (onSymbols (·.declare name kind) >>= rest) env = (.error e, env.declaring name kind)) ∨
    ∃ id symbols, env.world.symbols.declare name kind = (.ok id, symbols) ∧
      (onSymbols (·.declare name kind) >>= rest) env =
        rest id (env.supplied symbols env.world.pool) := by
  have hdeclare : onSymbols (·.declare name kind) env =
      ((env.world.symbols.declare name kind).1.mapError .symbols, env.declaring name kind) := rfl
  rw [bind_apply, hdeclare]
  rcases hd : env.world.symbols.declare name kind with ⟨e | id, symbols⟩
  · exact .inl ⟨_, rfl⟩
  · refine .inr ⟨id, symbols, rfl, ?_⟩
    rw [declaring, hd]
    rfl

/-- What is behind an operation on the pool is reached with an index, or the pool is left. -/
theorem onPool_bind_cases {α : Type} (env : Environment)
    (op : ObjectPool → Except PoolError ObjectIndex × ObjectPool)
    (hop : ∀ {e pool}, op env.world.pool = (.error e, pool) → pool = env.world.pool)
    (rest : ObjectIndex → Compiling StageError α) :
    (∃ e, (onPool op >>= rest) env = (.error e, env)) ∨
    ∃ index pool, op env.world.pool = (.ok index, pool) ∧
      (onPool op >>= rest) env = rest index (env.supplied env.world.symbols pool) := by
  have hpool : onPool op env = ((op env.world.pool).1.mapError .objects,
      env.supplied env.world.symbols (op env.world.pool).2) := rfl
  rw [bind_apply, hpool]
  rcases hp : op env.world.pool with ⟨e | index, pool⟩
  · obtain rfl := hop hp
    exact .inl ⟨_, rfl⟩
  · exact .inr ⟨index, pool, rfl, rfl⟩

/-- A built-in function is added under the next function pointer, or its name is at most
declared. -/
theorem addBuiltIn_cases (hp : env.world.pool.Sound) (signature : Signature) :
    (∃ e, addBuiltIn signature env = (.error e, env.declaring signature.name .builtInFunction)) ∨
    ∃ id symbols index pool,
      env.world.symbols.declare signature.name .builtInFunction = (.ok id, symbols) ∧
      env.world.pool.define id (functionPointer env.builtInCount) signature = (.ok index, pool) ∧
      addBuiltIn signature env = (.ok (), { env.supplied symbols pool with
        builtInCount := env.builtInCount + 1 }) := by
  unfold addBuiltIn
  obtain ⟨e, h⟩ | ⟨id, symbols, hd, h⟩ := declare_bind_cases env signature.name
    .builtInFunction fun symbol => do
      let address := (← get).builtInCount
      let _ ← onPool (·.define symbol (functionPointer address) signature)
      modify fun env => { env with builtInCount := env.builtInCount + 1 }
  · exact .inl ⟨e, h⟩
  · rw [bind_ok (get_apply _)] at h
    obtain ⟨e, h'⟩ | ⟨index, pool, hdefine, h'⟩ := onPool_bind_cases
      (env.supplied symbols env.world.pool)
      (·.define id (functionPointer env.builtInCount) signature) (ObjectPool.define_error hp)
      fun _ => modify fun env => { env with builtInCount := env.builtInCount + 1 }
    · refine .inl ⟨e, h.trans (h'.trans ?_)⟩
      rw [declaring, hd]
    · exact .inr ⟨id, symbols, index, pool, hd, hdefine, h.trans h'⟩

/-- A token is added under the pointer that is made of its number, or its name is at most
declared. -/
theorem addToken_cases (hp : env.world.pool.Sound) (name : String) :
    (∃ e, addToken name env = (.error e, env.declaring name .token)) ∨
    ∃ id symbols index pool, env.world.symbols.declare name .token = (.ok id, symbols) ∧
      env.world.pool.associate id (Elsewhere.tokenPointer id) = (.ok index, pool) ∧
      addToken name env = (.ok (), env.supplied symbols pool) := by
  unfold addToken
  obtain ⟨e, h⟩ | ⟨id, symbols, hd, h⟩ := declare_bind_cases env name .token
    fun symbol => do let _ ← onPool (·.associate symbol (Elsewhere.tokenPointer symbol))
  · exact .inl ⟨e, h⟩
  · obtain ⟨e, h'⟩ | ⟨index, pool, hassociate, h'⟩ := onPool_bind_cases
      (env.supplied symbols env.world.pool) (·.associate id (Elsewhere.tokenPointer id))
      (ObjectPool.associate_error hp) fun _ => pure ()
    · refine .inl ⟨e, h.trans (h'.trans ?_)⟩
      rw [declaring, hd]
    · exact .inr ⟨id, symbols, index, pool, hd, hassociate, h.trans h'⟩

/-- A setting is added under the next setting pointer, or its name is at most declared. -/
theorem addSetting_cases (hp : env.world.pool.Sound) (name : String) :
    (∃ e, addSetting name env = (.error e, env.declaring name .setting)) ∨
    ∃ id symbols index pool, env.world.symbols.declare name .setting = (.ok id, symbols) ∧
      env.world.pool.associate id (settingPointer env.settingCount) = (.ok index, pool) ∧
      addSetting name env = (.ok (), { env.supplied symbols pool with
        settingCount := env.settingCount + 1 }) := by
  unfold addSetting
  obtain ⟨e, h⟩ | ⟨id, symbols, hd, h⟩ := declare_bind_cases env name .setting
    fun symbol => do
      let address := (← get).settingCount
      let _ ← onPool (·.associate symbol (settingPointer address))
      modify fun env => { env with settingCount := env.settingCount + 1 }
  · exact .inl ⟨e, h⟩
  · rw [bind_ok (get_apply _)] at h
    obtain ⟨e, h'⟩ | ⟨index, pool, hassociate, h'⟩ := onPool_bind_cases
      (env.supplied symbols env.world.pool)
      (·.associate id (settingPointer env.settingCount)) (ObjectPool.associate_error hp)
      fun _ => modify fun env => { env with settingCount := env.settingCount + 1 }
    · refine .inl ⟨e, h.trans (h'.trans ?_)⟩
      rw [declaring, hd]
    · exact .inr ⟨id, symbols, index, pool, hd, hassociate, h.trans h'⟩

end Environment

end Passage

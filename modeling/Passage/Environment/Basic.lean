import Passage.Code.Generate
import Passage.Config
import Passage.Pass.Pipeline
import Passage.Pass.Standard

/-!
# The compile environment

An environment holds all that turns the text of a rule into code: symbols,
objects, scripted functions, the region whose rules are compiled, and what the
configured passes look up. It is filled with the names of a world first, and
then compiles the rules of the world one by one.

`Environment.atomically` undoes what a failing action did to the world, so that
a rule that fails to compile leaves nothing behind.
-/

namespace Passage

structure Environment where
  config : Config
  world : World
  scripts : Scripts
  fastOps : FastOps
  settings : Option Settings
  functions : Option CompilerFunctions
  /-- The pipeline, from its first use until its inputs change. -/
  pipeline : Option Pipeline
  builtInCount : Nat
  settingCount : Nat
deriving Inhabited

/-- An action on an environment: it may fail, and the environment is kept either way. -/
abbrev Compiling (ε α : Type) := ExceptT ε (StateM Environment) α

namespace Environment

/-- The names that every rule may use as plain values. -/
def globalNames : List String :=
  ["Fire", "Forest", "Light", "Shadow", "Spirit", "Water", "adult", "age", "both", "either",
   "child"]

/-- The symbols that every environment starts with. -/
def initialSymbols : SymbolTable :=
  let symbols := (SymbolTable.empty.declareMany globalNames .global).2
  (symbols.declareMany [Elsewhere.atName, Elsewhere.hereName] .compilerFunction).2

def ofConfig (config : Config) : Environment :=
  { config
    world := { World.empty with symbols := initialSymbols }
    scripts := .empty
    fastOps := if config.fastOps then .standard else []
    settings := none
    functions := none
    pipeline := none
    builtInCount := 0
    settingCount := 0 }

/-- How an environment is shown. -/
def text (e : Environment) : String :=
  "CompileEnv \x7b config: " ++ e.config.text ++ ", symbols: " ++ toString e.world.symbols.size ++
    ", objects: " ++ toString e.world.pool.size ++ ", scripts: " ++ toString e.scripts.size ++
    ", pipeline: " ++
    (match e.pipeline with
      | some p => "Some(" ++ p.text ++ ")"
      | none => "None") ++
    ", .. \x7d"

/-! ## Parts of the environment -/

/-- An operation on the world. -/
def onWorld {ε δ α : Type} (fault : δ → ε) (op : World → Except δ α × World) : Compiling ε α :=
  fun env =>
    let (result, world) := op env.world
    (result.mapError fault, { env with world })

def onSymbols {α : Type} (op : SymbolTable → Except SymbolError α × SymbolTable) :
    Compiling StageError α :=
  onWorld .symbols (World.onSymbols op)

def onPool {α : Type} (op : ObjectPool → Except PoolError α × ObjectPool) :
    Compiling StageError α :=
  onWorld .objects (World.onPool op)

/-- An action that is undone in the world if it fails. -/
def atomically {ε α : Type} (action : Compiling ε α) : Compiling ε α := fun env =>
  let mark := env.world.checkpoint
  match action env with
  | (.ok a, env) => (.ok a, env)
  | (.error e, env) => (.error e, { env with world := env.world.rollback mark })

/-! ## Filling -/

/-- Declares a built-in function under the next function pointer. -/
def addBuiltIn (signature : Signature) : Compiling StageError Unit := do
  let symbol ← onSymbols (·.declare signature.name .builtInFunction)
  let address := (← get).builtInCount
  let _ ← onPool (·.define symbol (.ofPointer ⟨.function, UInt32.ofNat address⟩) signature)
  modify fun env => { env with builtInCount := env.builtInCount + 1 }

/-- Declares built-in functions in order up to the first fault. -/
def withBuiltIns (signatures : List Signature) : Compiling StageError Unit :=
  signatures.forM addBuiltIn

def addToken (name : String) : Compiling StageError Unit := do
  let symbol ← onSymbols (·.declare name .token)
  let _ ← onPool (·.associate symbol (Elsewhere.tokenPointer symbol))

/-- Declares tokens in order up to the first fault. -/
def withTokens (names : List String) : Compiling StageError Unit := names.forM addToken

/-- Declares a setting under the next setting pointer. -/
def addSetting (name : String) : Compiling StageError Unit := do
  let symbol ← onSymbols (·.declare name .setting)
  let address := (← get).settingCount
  let _ ← onPool (·.associate symbol (.ofPointer ⟨.setting, UInt32.ofNat address⟩))
  modify fun env => { env with settingCount := env.settingCount + 1 }

/-- Declares settings that are read at run time, in order up to the first fault. -/
def withSettings (names : List String) : Compiling StageError Unit := names.forM addSetting

/-- The characters that the written form of a name leaves out. -/
def isLeftOut (c : Char) : Bool := ['\'', '(', ')', '[', ']', '-'].contains c

/-- The form in which a name is written in rules: without quotes, brackets and
dashes, and with underscores for blanks. -/
def escapeName (name : String) : String :=
  String.ofList ((name.toList.filter fun c => !isLeftOut c).map fun c => if c = ' ' then '_' else c)

/-- The tokens whose written form differs from their name, with that form. -/
def renames (symbols : SymbolTable) : List (String × String) :=
  (symbols.ofKind .token).filterMap fun token =>
    let escaped := escapeName token.name
    if escaped = token.name then none else some (token.name, escaped)

/-- Binds the written form of every token name, and counts the new names. -/
def aliasTokens : Compiling StageError Nat := do
  let symbols := (← get).world.symbols
  let before := symbols.aliases.size
  (renames symbols).forM fun (name, escaped) => do
    let _ ← onSymbols (·.bindAlias name escaped)
  pure ((← get).world.symbols.aliases.size - before)

/-- Declares scripted functions by pairs of header and body. -/
def withScripts (declarations : List (String × String)) : Compiling StageError Unit := do
  let built ← onWorld id (World.onSymbols (Scripts.build declarations).run.run)
  modify fun env => { env with scripts := env.scripts.insertAll built }

/-- Declares the names of compiler functions and takes them in place of others. -/
def withFunctions (functions : CompilerFunctions) : Compiling StageError Unit := do
  functions.names.forM fun name => do
    let _ ← onSymbols (·.declare name .compilerFunction)
  modify fun env => { env with functions := some functions, pipeline := none }

/-- Takes settings that are read while rules are compiled. -/
def withSettingValues (env : Environment) (settings : Settings) : Environment :=
  { env with settings := some settings, pipeline := none }

def withRegion (env : Environment) (region : Option String) : Environment :=
  { env with world := { env.world with context := { env.world.context with region } } }

/-! ## Rules -/

/-- The pipeline that the configuration asks for. -/
def newPipeline (env : Environment) : Pipeline :=
  let pass? := Pass.ofKind? env.config.inlineDepth env.settings env.functions
  ⟨env.config.passes.enabled.filterMap pass?, env.config.rounds⟩

/-- The pipeline, which is kept from now on. -/
def usePipeline : StateM Environment Pipeline := do
  let env ← get
  match env.pipeline with
  | some p => pure p
  | none =>
      let p := env.newPipeline
      set { env with pipeline := some p }
      pure p

/-- The names of the passes that run in each round. -/
def passNames : StateM Environment (List String) := do
  pure (← usePipeline).names

/-- Parses and lowers a rule. -/
def lower (text : String) : Compiling StageError Node :=
  match Rule.parse text with
  | .error e => throw (.parsing e)
  | .ok tree => onWorld .lowering (World.onSymbols tree.lower.run.run)

/-- Runs the pipeline on a rule, and undoes what the run did to the world if it fails. The
pipeline is kept as the run leaves it. -/
def optimizeTraced (node : Node) : StateM Environment PipelineRun := do
  let mark := (← get).world.checkpoint
  let pipeline ← usePipeline
  let env ← get
  let ((r, pipeline), world) := pipeline.drive env.scripts node env.world
  match r.result with
  | .ok _ => set { env with world, pipeline := some pipeline }
  | .error _ => set { env with world := world.rollback mark, pipeline := some pipeline }
  pure r

/-- The optimized form of a rule. -/
def optimize (node : Node) : Compiling PassError Node := fun env =>
  let (r, env) := optimizeTraced node env
  (r.result, env)

/-- Optimizes a rule as a stage of its compilation. -/
def optimizeStage (node : Node) : Compiling StageError Node := fun env =>
  let (result, env) := optimize node env
  (result.mapError .optimization, env)

/-- The code of an optimized rule. -/
def codegen (node : Node) : Compiling StageError Code := do
  let env ← get
  onWorld .compilation (World.onPool (node.compile env.world.symbols env.fastOps))

/-- The code of the text of a rule. -/
def compile (text : String) : Compiling StageError Code :=
  atomically do
    let node ← lower text
    let optimized ← optimizeStage node
    codegen optimized

/-- The object table of all code so far. -/
def freeze (env : Environment) : ObjectTable := env.world.pool.freeze

end Environment

/-- The built-in functions that the rules of a world call. -/
def Signature.standard : List Signature :=
  [⟨"has", 2⟩, ⟨"has_anyof", anyCount⟩, ⟨"has_every", anyCount⟩, ⟨"is_adult", 0⟩, ⟨"is_child", 0⟩,
   ⟨"has_bottle", 0⟩, ⟨"has_dungeon_rewards", 1⟩, ⟨"has_hearts", 1⟩, ⟨"has_medallions", 1⟩,
   ⟨"has_stones", 1⟩, ⟨"is_starting_age", 0⟩]

end Passage

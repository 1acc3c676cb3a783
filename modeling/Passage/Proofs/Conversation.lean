import Passage.Environment.Source
import Passage.Proofs.Pool
import Passage.Proofs.Symbols

/-!
# Conversations with an environment

A caller talks to an environment in requests, each of which is answered and
leaves the environment changed. `Environment.respond` is that step, and
`Environment.Reached` holds of the environments that some conversation leads to,
with the answers given on the way. Hosts take part with compiler functions of
their own, which declare names, enter objects and build nodes but touch nothing
else of the world; `Request.Plain` says that of a request, and that the names it
declares are of a given sort.
-/

namespace Passage

/-- What an environment can be asked to do. -/
inductive Request where
  | builtIns (signatures : List Signature)
  | tokens (names : List String)
  | settings (names : List String)
  | aliases
  | scripts (declarations : List (String × String))
  | functions (functions : CompilerFunctions)
  | settingValues (values : Settings)
  | region (region : Option String)
  | passNames
  | lower (text : String)
  | optimize (node : Node)
  | codegen (node : Node)
  | compile (text : String)
  | source (source : Source)
  | generated
  | take
  | freeze

inductive Answer where
  | done (result : Except StageError Unit)
  | count (result : Except StageError Nat)
  | names (names : List String)
  | node (result : Except StageError Node)
  | run (run : PipelineRun)
  | code (result : Except StageError Code)
  | compiled (result : Except StageError CompiledSource)
  | batch (result : Except StageError (List CompiledSource))
  | connections (connections : Array Connection)
  | table (table : ObjectTable)

/-- The answers that tell of a failure. -/
inductive Answer.Failed : Answer → Prop
  | done (e : StageError) : Failed (.done (.error e))
  | count (e : StageError) : Failed (.count (.error e))
  | node (e : StageError) : Failed (.node (.error e))
  | run {run : PipelineRun} {e : PassError} : run.result = .error e → Failed (.run run)
  | code (e : StageError) : Failed (.code (.error e))
  | compiled (e : StageError) : Failed (.compiled (.error e))
  | batch (e : StageError) : Failed (.batch (.error e))

namespace Environment

/-- An action, with its outcome as an answer. -/
def told {α : Type} (answer : Except StageError α → Answer) (action : Compiling StageError α)
    (env : Environment) : Answer × Environment :=
  let outcome := action.run.run env
  (answer outcome.1, outcome.2)

/-- The answer to a request, and the environment behind it. -/
def respond (env : Environment) : Request → Answer × Environment
  | .builtIns signatures => told .done (withBuiltIns signatures) env
  | .tokens names => told .done (withTokens names) env
  | .settings names => told .done (withSettings names) env
  | .aliases => told .count aliasTokens env
  | .scripts declarations => told .done (withScripts declarations) env
  | .functions functions => told .done (withFunctions functions) env
  | .settingValues values => (.done (.ok ()), env.withSettingValues values)
  | .region region => (.done (.ok ()), env.withRegion region)
  | .passNames =>
      let outcome := passNames env
      (.names outcome.1, outcome.2)
  | .lower text => told .node (lower text) env
  | .optimize node =>
      let outcome := optimizeTraced node env
      (.run outcome.1, outcome.2)
  | .codegen node => told .code (codegen node) env
  | .compile text => told .code (compile text) env
  | .source source => told .compiled (compileSource source) env
  | .generated => told .batch compileConnections env
  | .take =>
      let outcome := takeConnections env
      (.connections outcome.1, outcome.2)
  | .freeze => (.table env.freeze, env)

/-- The answers to requests in order. -/
def answers (env : Environment) : List Request → List Answer
  | [] => []
  | request :: rest => (env.respond request).1 :: (env.respond request).2.answers rest

/-- The environment behind all answers to the requests. -/
def after (env : Environment) : List Request → Environment
  | [] => env
  | request :: rest => (env.respond request).2.after rest

/-- The environments that conversations of allowed requests lead to, with the
answers given so far, last first. -/
inductive Reached (allowed : Request → Prop) : List Answer → Environment → Prop
  | start (config : Config) : Reached allowed [] (ofConfig config)
  | step {answers : List Answer} {env : Environment} (request : Request) :
      Reached allowed answers env → allowed request →
      Reached allowed ((env.respond request).1 :: answers) (env.respond request).2

/-- A conversation that goes on leads on. -/
theorem Reached.after {allowed : Request → Prop} {answers : List Answer} {env : Environment}
    (hr : Reached allowed answers env) {requests : List Request}
    (hallowed : ∀ request ∈ requests, allowed request) :
    Reached allowed ((env.answers requests).reverse ++ answers) (env.after requests) := by
  induction requests generalizing answers env with
  | nil => exact hr
  | cons request rest ih =>
    obtain ⟨hfirst, hrest⟩ := List.forall_mem_cons.mp hallowed
    rw [Environment.answers, List.reverse_cons, List.append_assoc]
    exact ih (.step request hr hfirst) hrest

end Environment

/-- The symbols that every environment starts with are sound. -/
theorem SymbolTable.initial_sound : Environment.initialSymbols.Sound := by
  have hfirst := (SymbolTable.declareMany_grows SymbolTable.empty_sound
    Environment.globalNames .global).sound SymbolTable.empty_sound
  exact (SymbolTable.declareMany_grows hfirst _ _).sound hfirst

/-! ## What hosts may do -/

/-- The second table has come from the first by declarations of plain names. -/
inductive SymbolTable.Declared (plain : String → Prop) (t : SymbolTable) : SymbolTable → Prop
  | nothing : Declared plain t t
  | declare {t' : SymbolTable} (name : String) (kind : Symbol.Kind) :
      Declared plain t t' → plain name → Declared plain t (t'.declare name kind).2

/-- The second table has come from the first by declarations that may be made. -/
inductive SymbolTable.DeclaredAs (may : String → Symbol.Kind → Prop) (t : SymbolTable) :
    SymbolTable → Prop
  | nothing : DeclaredAs may t t
  | declare {t' : SymbolTable} (name : String) (kind : Symbol.Kind) :
      DeclaredAs may t t' → may name kind → DeclaredAs may t (t'.declare name kind).2

/-- Compiler functions that declare plain names and enter objects, and do nothing
else to the world. -/
def CompilerFunctions.DeclareOnly (plain : String → Prop) (functions : CompilerFunctions) : Prop :=
  ∀ name function, functions.find? name = some function → ∀ args w, ∃ symbols pool,
    w.symbols.Declared plain symbols ∧ w.pool.Grows pool ∧
      (function args w).2 = { w with symbols, pool }

/-- A request that declares plain names only, also by way of compiler functions. -/
def Request.Plain (plain : String → Prop) : Request → Prop
  | .builtIns signatures => ∀ signature ∈ signatures, plain signature.name
  | .tokens names | .settings names => ∀ name ∈ names, plain name
  | .scripts declarations => ∀ declaration ∈ declarations, ∀ tree head,
      Rule.parse declaration.1 = .ok tree → Scripts.Header.ofTree? tree = some head →
        plain head.name
  | .functions table => (∀ name ∈ table.names, plain name) ∧ table.DeclareOnly plain
  | _ => True

end Passage

import Passage.Proofs.Coding
import Passage.Proofs.Maintenance

/-!
# What compiling leaves alone

The configuration of an environment, its fast operations and the counters of its functions
and settings stand from when it was filled: `Environment.standing` is the same before and
after every request that gives no pointers (`respond_standing`). What the passes look up
is brought by the requests to do so, and by no other ones (`respond_resembles`).
-/

namespace Passage

namespace Environment

/-- What no rule changes. -/
def standing (env : Environment) : Config × FastOps × Nat × Nat :=
  (env.config, env.fastOps, env.builtInCount, env.settingCount)

/-- The environment stands as given. -/
def Stands (frame : Config × FastOps × Nat × Nat) (env : Environment) : Prop :=
  env.standing = frame

variable {frame : Config × FastOps × Nat × Nat} {ε δ α : Type}

theorem onWorld_stands (fault : δ → ε) (op : World → Except δ α × World) :
    Keeps (Stands frame) (onWorld fault op) :=
  fun _ h => h

theorem lower_stands (text : String) : Keeps (Stands frame) (lower text) := by
  unfold lower
  split
  · exact .throw _
  · exact onWorld_stands _ _

theorem optimizeTraced_stands {env : Environment} (h : env.Stands frame) (node : Node) :
    (optimizeTraced node env).2.Stands frame := by
  rw [optimizeTraced_eq]
  exact h

theorem optimizeStage_stands (node : Node) : Keeps (Stands frame) (optimizeStage node) :=
  fun _ h => optimizeTraced_stands h node

theorem optimizeIn_stands (region : Option String) (node : Node) :
    Keeps (Stands frame) (optimizeIn region node) := by
  intro env h
  have hinside : (if region.isSome then env.withRegion region else env).Stands frame := by
    split <;> exact h
  exact optimizeStage_stands node _ hinside

theorem codegen_stands (node : Node) : Keeps (Stands frame) (codegen node) :=
  .bind .get fun _ => onWorld_stands _ _

theorem compileStages_stands (source : Source) : Keeps (Stands frame) (compileStages source) := by
  have hrest : ∀ node, Keeps (Stands frame) (do
      let optimized ← optimizeIn source.origin node
      let code ← codegen optimized
      pure (⟨source, node, optimized, code⟩ : CompiledSource) :
        Compiling StageError CompiledSource) := fun node =>
    .bind (optimizeIn_stands _ node) fun _ => .bind (codegen_stands _) fun _ => .pure _
  unfold compileStages
  dsimp only
  split
  · exact hrest _
  · exact .bind (lower_stands _) hrest

theorem atomically_stands {action : Compiling ε α} (h : Keeps (Stands frame) action) :
    Keeps (Stands frame) (atomically action) := by
  intro env henv
  have hafter := h env henv
  unfold atomically
  rcases hres : action env with ⟨e | a, env'⟩ <;> rw [hres] at hafter <;> exact hafter

theorem compileBatch_stands (done : List CompiledSource) (connections : List Connection) :
    Keeps (Stands frame) (compileBatch done connections) := by
  induction connections generalizing done with
  | nil => exact .pure _
  | cons connection rest ih =>
    exact .bind .get fun _ => .bind (compileStages_stands _) fun _ => ih _

theorem compileBatches_stands (done : List CompiledSource) (left : Nat) :
    Keeps (Stands frame) (compileBatches done left) := by
  induction left generalizing done with
  | zero => exact .pure _
  | succ left ih =>
    intro env henv
    rw [compileBatches_succ]
    split
    · exact henv
    · exact (compileBatch_stands done _).bind ih _ henv

theorem compileConnections_stands : Keeps (Stands frame) compileConnections := by
  intro env henv
  have hafter := atomically_stands (compileBatches_stands [] env.batchLimit) env henv
  unfold compileConnections
  dsimp only
  rcases hres : atomically (compileBatches [] env.batchLimit) env with ⟨e | compiled, env'⟩ <;>
    rw [hres] at hafter <;> exact hafter

theorem aliasTokens_stands : Keeps (Stands frame) aliasTokens :=
  .bind .get fun _ => .bind (.forM_of_mem fun _ _ => .bind (onWorld_stands _ _) fun _ => .pure _)
    fun _ => .bind .get fun _ => .pure _

theorem withScripts_stands (declarations : List (String × String)) :
    Keeps (Stands frame) (withScripts declarations) :=
  .bind (onWorld_stands _ _) fun _ => .modify fun _ h => h

theorem withFunctions_stands (functions : CompilerFunctions) :
    Keeps (Stands frame) (withFunctions functions) :=
  .bind (.forM_of_mem fun _ _ => .bind (onWorld_stands _ _) fun _ => .pure _) fun _ =>
    .modify fun _ h => h

/-- Requests that give no pointers leave configuration and counters alone. -/
theorem respond_standing (env : Environment) {may : String → Symbol.Kind → Prop}
    {allowed : CompilerFunctions → Prop} {request : Request}
    (hordinary : request.Ordinary may allowed) :
    (env.respond request).2.standing = env.standing := by
  cases request with
  | builtIns _ | tokens _ | settings _ => exact hordinary.elim
  | aliases => exact aliasTokens_stands env rfl
  | scripts declarations => exact withScripts_stands declarations env rfl
  | functions functions => exact withFunctions_stands functions env rfl
  | passNames =>
    show (usePipeline env).2.standing = _
    rw [usePipeline_eq]
    rfl
  | lower text => exact lower_stands text env rfl
  | optimize node => exact optimizeTraced_stands rfl node
  | codegen node => exact codegen_stands node env rfl
  | compile text =>
    exact atomically_stands (.bind (lower_stands text) fun node =>
      .bind (optimizeStage_stands node) codegen_stands) env rfl
  | source source => exact atomically_stands (compileStages_stands source) env rfl
  | generated => exact compileConnections_stands env rfl
  | settingValues _ | region _ | take | freeze => rfl

/-- The fast operations are those that the configuration asks for. -/
def Configured (env : Environment) : Prop := env.fastOps = FastOps.enabled env.config.fastOps

theorem Configured.of_standing {env env' : Environment} (h : env.Configured)
    (hs : env'.standing = env.standing) : env'.Configured := by
  have hconfig : env'.config = env.config := congrArg Prod.fst hs
  have hfast : env'.fastOps = env.fastOps := congrArg (·.2.1) hs
  rw [Configured, hfast, hconfig]
  exact h

/-! ## What passes look up -/

/-- What passes look up, and what code is written by. -/
def given (env : Environment) :
    Config × FastOps × Scripts × Option Settings × Option CompilerFunctions :=
  (env.config, env.fastOps, env.scripts, env.settings, env.functions)

/-- The environment has been given the same things as the first one. -/
def Resembles (first env : Environment) : Prop := env.given = first.given

section

variable {first env : Environment}

theorem Follows.resembles {R : World → World → Prop} {env' : Environment} (h : Follows R env env') :
    Resembles env env' :=
  (congrArg given h.same).trans rfl

theorem onWorld_resembles (fault : δ → ε) (op : World → Except δ α × World) :
    Keeps (Resembles first) (onWorld fault op) :=
  fun _ h => h

theorem addBuiltIn_resembles (signature : Signature) :
    Keeps (Resembles first) (addBuiltIn signature) :=
  .bind (onWorld_resembles _ _) fun _ => .bind .get fun _ => .bind (onWorld_resembles _ _) fun _ =>
    .modify fun _ h => h

theorem addToken_resembles (name : String) : Keeps (Resembles first) (addToken name) :=
  .bind (onWorld_resembles _ _) fun _ => .bind (onWorld_resembles _ _) fun _ => .pure _

theorem addSetting_resembles (name : String) : Keeps (Resembles first) (addSetting name) :=
  .bind (onWorld_resembles _ _) fun _ => .bind .get fun _ => .bind (onWorld_resembles _ _) fun _ =>
    .modify fun _ h => h

theorem aliasTokens_resembles : Keeps (Resembles first) aliasTokens :=
  .bind .get fun _ => .bind (.forM_of_mem fun _ _ => .bind (onWorld_resembles _ _) fun _ => .pure _)
    fun _ => .bind .get fun _ => .pure _

/-- Scripts, functions and values of settings are brought by the requests to do so, and by no
other ones. -/
theorem respond_resembles {may : String → Symbol.Kind → Prop} {allowed : CompilerFunctions → Prop}
    {P : List String → World → Prop} {delivered : List String} (h : Sustained may allowed P)
    (henv : Holds allowed (P delivered) env) {request : Request}
    (hscripts : ∀ declarations, request ≠ .scripts declarations)
    (hfunctions : ∀ functions, request ≠ .functions functions)
    (hvalues : ∀ values, request ≠ .settingValues values) :
    Resembles env (env.respond request).2 := by
  have hself : Resembles env env := rfl
  cases request with
  | builtIns signatures => exact Keeps.forM_of_mem (fun s _ => addBuiltIn_resembles s) env hself
  | tokens names => exact Keeps.forM_of_mem (fun name _ => addToken_resembles name) env hself
  | settings names => exact Keeps.forM_of_mem (fun name _ => addSetting_resembles name) env hself
  | aliases => exact aliasTokens_resembles env hself
  | scripts declarations => exact absurd rfl (hscripts declarations)
  | functions functions => exact absurd rfl (hfunctions functions)
  | settingValues values => exact absurd rfl (hvalues values)
  | passNames =>
    show Resembles env (usePipeline env).2
    rw [usePipeline_eq]
    rfl
  | lower text => exact (h.lower text env henv).1.resembles
  | optimize node => exact (h.optimizeTraced henv node).1.resembles
  | codegen node => exact (h.codegen_holds henv node).1.resembles
  | compile text => exact (h.atomically (h.stages text) henv).1.resembles
  | source source => exact (h.atomically (h.compileStages source) henv).1.resembles
  | generated => exact (h.compileConnections henv).1.resembles
  | region _ | take | freeze => rfl

end

end Environment

end Passage

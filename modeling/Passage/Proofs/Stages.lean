import Passage.Proofs.Conversation
import Passage.Proofs.Drafting
import Passage.Proofs.Traversal

/-!
# What the stages of compilation preserve

`Sustained` lists what an assertion about the world has to survive: declarations,
aliases, new literals, generated connections, compiler functions, a change of region, and
the taking of connections. It is indexed by the destinations of the connections that
callers have been given. The theorems of this module lead such an assertion through the
stages of compilation.

On the way, `Environment.Follows` records what a stage may do to an environment at
all, so that what fails can be undone.
-/

namespace Passage

/-- The destinations of connections. -/
def destinations (connections : Array Connection) : List String :=
  connections.toList.map (·.destination)

/-- An assertion about the world that holds while rules are compiled, where `delivered` are
the destinations of the connections that the caller was given. It survives the declarations
that `may` be made and the compiler functions that are `allowed`. -/
structure Sustained (may : String → Symbol.Kind → Prop) (allowed : CompilerFunctions → Prop)
    (P : List String → World → Prop) : Prop where
  sound : ∀ {delivered w}, P delivered w → w.Sound
  /-- Rules may give these kinds to all names. -/
  ordinary : ∀ {name kind}, kind = .unknown ∨ kind = .function ∨ kind = .parameter → may name kind
  declare : ∀ {delivered w name kind}, P delivered w → may name kind →
    P delivered { w with symbols := (w.symbols.declare name kind).2 }
  byname : ∀ {delivered w name}, P delivered w →
    P delivered { w with symbols := (w.symbols.bindAlias name (Environment.escapeName name)).2 }
  literals : ∀ {delivered w pool}, P delivered w → w.pool.Interns pool → P delivered { w with pool }
  functions : ∀ {delivered fs}, allowed fs → fs.Conduct (P delivered) World.Grows
  region : ∀ {delivered w} region, P delivered w →
    P delivered { w with context := { w.context with region } }
  take : ∀ {delivered w}, P delivered w →
    P (delivered ++ destinations w.context.pending) { w with context := w.context.take.2 }
  generate : ∀ {delivered} origin rule,
    Conducts (P delivered) World.Grows (Elsewhere.generate origin rule)

variable {may : String → Symbol.Kind → Prop} {allowed : CompilerFunctions → Prop}
  {P : List String → World → Prop} {delivered : List String}

/-! ## Declarations and lowering -/

/-- An assertion about the world, as one about its symbols. -/
def World.At (P : World → Prop) (w : World) (symbols : SymbolTable) : Prop :=
  P { w with symbols }

theorem Transforming.declare_snd (name : String) (kind : Symbol.Kind) (w : World) :
    (Transforming.declare name kind w).2 = (World.onSymbols (·.declare name kind) w).2 := rfl

theorem Lowering.declare_snd (name : String) (kind : Symbol.Kind) (t : SymbolTable) :
    (Lowering.declare name kind t).2 = (t.declare name kind).2 := by
  unfold Lowering.declare
  rcases t.declare name kind with ⟨_ | _, _⟩ <;> rfl

/-- A name that does not start like those of tricks asks for none. -/
theorem Lowering.trick?_eq_none {name : String} (h : ¬"logic_".toList <+: name.toList) :
    trick? name = none := by
  rw [trick?]
  split
  · rfl
  · rcases hprefix : "logic_".toList.isPrefixOf? name.toList with _ | rest
    · rfl
    · exact absurd ⟨rest, List.isPrefixOf?_eq_some_iff_append_eq.mp hprefix⟩ h

theorem SymbolTable.grows_advances : Advances SymbolTable.Grows := ⟨.refl, .trans⟩

namespace Sustained

theorem transformingDeclare (h : Sustained may allowed P) {name : String} {kind : Symbol.Kind}
    (hd : may name kind) :
    Conducts (P delivered) World.Grows (Transforming.declare name kind) := by
  intro w hw
  rw [Transforming.declare_snd]
  exact ⟨World.onSymbols_grows (SymbolTable.declare_grows (h.sound hw).symbols name kind),
    fun _ _ => h.declare hw hd⟩

theorem supports (h : Sustained may allowed P) : Supports (P delivered) World.Grows where
  advances := World.grows_advances
  function _ := h.transformingDeclare (h.ordinary (.inr (.inl rfl)))
  generate := h.generate

theorem tableDeclare (h : Sustained may allowed P) (w : World) {name : String} {kind : Symbol.Kind}
    (hd : may name kind) :
    Conducts (w.At (P delivered)) SymbolTable.Grows (Lowering.declare name kind) := by
  intro t ht
  rw [Lowering.declare_snd]
  exact ⟨SymbolTable.declare_grows (h.sound ht).symbols name kind, fun _ _ => h.declare ht hd⟩

end Sustained

section Lowering

variable {Q : SymbolTable → Prop} {S : SymbolTable → SymbolTable → Prop}

theorem Lowering.callNamed_conducts (hS : Advances S)
    (hf : ∀ name, Conducts Q S (Lowering.declare name .function)) (name : String)
    (args : List Node) : Conducts Q S (Lowering.callNamed name args) :=
  .bind hS (hf name) fun _ => .pure hS _

theorem Lowering.declareCallee_conducts (hS : Advances S)
    (hf : ∀ name, Conducts Q S (Lowering.declare name .function)) (id : SymbolId) :
    Conducts Q S (Lowering.declareCallee id) := by
  refine .bind hS (.get hS) fun symbols => ?_
  cases symbols.get? id with
  | none => exact .pure hS _
  | some symbol =>
    dsimp only
    split
    · exact .bind hS (hf symbol.name) fun _ => .pure hS _
    · exact .pure hS _

mutual

/-- Lowering only declares: names as unknown, and names as functions. -/
theorem Rule.Tree.lower_conducts (hS : Advances S)
    (hu : ∀ name, Conducts Q S (Lowering.declare name .unknown))
    (hf : ∀ name, Conducts Q S (Lowering.declare name .function)) :
    (tree : Rule.Tree) → Conducts Q S tree.lower
  | .identifier name => by
    unfold lower
    split
    · exact Lowering.callNamed_conducts hS hf _ _
    · exact .bind hS (hu name) fun _ => .pure hS _
  | .bool value => by
    unfold lower
    exact .pure hS _
  | .number value => by
    unfold lower
    exact .pure hS _
  | .string value => by
    unfold lower
    exact .pure hS _
  | .within lhs rhs => by
    unfold lower
    split
    all_goals first
      | contradiction
      | exact Lowering.callNamed_conducts hS hf _ _
      | exact .throw hS _
  | .compare op lhs rhs => by
    unfold lower
    refine .bind hS (lower_conducts hS hu hf lhs) fun lhs =>
      .bind hS (lower_conducts hS hu hf rhs) fun rhs => .bind hS (.get hS) fun symbols => ?_
    split
    · exact Lowering.callNamed_conducts hS hf _ _
    · exact .pure hS _
  | .connect op lhs rhs => by
    unfold lower
    refine .bind hS (lower_conducts hS hu hf lhs) fun lhs =>
      .bind hS (lower_conducts hS hu hf rhs) fun rhs => ?_
    cases op <;> exact .pure hS _
  | .not operand => by
    unfold lower
    exact .bind hS (lower_conducts hS hu hf operand) fun _ => .pure hS _
  | .call callee args => by
    unfold lower
    refine .bind hS (lower_conducts hS hu hf callee) fun target => ?_
    have hargs : Conducts Q S (Rule.Tree.lowerAll [] args >>= fun args =>
        pure (Node.invoke target args)) :=
      .bind hS (lowerAll_conducts hS hu hf [] args) fun _ => .pure hS _
    dsimp only
    split
    · exact .bind hS (Lowering.declareCallee_conducts hS hf _) fun _ => hargs
    · exact hargs
  | .subscript target index => by
    unfold lower
    split
    all_goals first
      | contradiction
      | exact Lowering.callNamed_conducts hS hf _ _
      | exact .throw hS _
  | .tuple elements => by
    unfold lower
    exact .bind hS (lowerAll_conducts hS hu hf [] elements) fun _ =>
      Lowering.callNamed_conducts hS hf _ _

theorem Rule.Tree.lowerAll_conducts (hS : Advances S)
    (hu : ∀ name, Conducts Q S (Lowering.declare name .unknown))
    (hf : ∀ name, Conducts Q S (Lowering.declare name .function)) (done : List Node) :
    (trees : List Rule.Tree) → Conducts Q S (Rule.Tree.lowerAll done trees)
  | [] => by
    unfold lowerAll
    exact .pure hS _
  | tree :: rest => by
    unfold lowerAll
    exact .bind hS (lower_conducts hS hu hf tree) fun node =>
      lowerAll_conducts hS hu hf (node :: done) rest

end

end Lowering

/-! ## What happens to an environment -/

namespace Environment

/-- The world of an environment has moved along a relation, and nothing else has
happened but that the pipeline may have been built. -/
structure Follows (R : World → World → Prop) (env env' : Environment) : Prop where
  world : R env.world env'.world
  same : env' = { env with world := env'.world, pipeline := env'.pipeline }
  pipeline : env'.pipeline = env.pipeline ∨
    env.pipeline = none ∧ env'.pipeline = some env.newPipeline

/-- An environment whose compiler functions are allowed, and whose pipeline is the one that
its configuration asks for. -/
structure Ready (allowed : CompilerFunctions → Prop) (env : Environment) : Prop where
  functions : ∀ fs, env.functions = some fs → allowed fs
  pipeline : ∀ p, env.pipeline = some p → p = env.newPipeline
  fastOps : env.fastOps.Grow

/-- A ready environment whose world satisfies an assertion. -/
structure Holds (allowed : CompilerFunctions → Prop) (P : World → Prop) (env : Environment) :
    Prop where
  world : P env.world
  ready : env.Ready allowed

namespace Follows

variable {R : World → World → Prop} {env env' env'' : Environment}

theorem newPipeline (h : Follows R env env') : env'.newPipeline = env.newPipeline :=
  (congrArg Environment.newPipeline h.same).trans rfl

theorem trans (hR : Advances R) (h : Follows R env env') (h' : Follows R env' env'') :
    Follows R env env'' where
  world := hR.trans h.world h'.world
  same := h'.same.trans (congrArg
    (fun e : Environment => { e with world := env''.world, pipeline := env''.pipeline }) h.same)
  pipeline := by
    obtain hp | ⟨hnone, hp⟩ := h.pipeline
    · obtain hp' | ⟨hnone, hp'⟩ := h'.pipeline
      · exact .inl (hp'.trans hp)
      · exact .inr ⟨hp ▸ hnone, hp'.trans (congrArg some h.newPipeline)⟩
    · obtain hp' | ⟨hnone', -⟩ := h'.pipeline
      · exact .inr ⟨hnone, hp'.trans hp⟩
      · rw [hp] at hnone'
        exact absurd hnone' (by simp)

theorem ready (h : Follows R env env') (hr : env.Ready allowed) : env'.Ready allowed where
  functions := by
    rw [show env'.functions = env.functions from congrArg (·.functions) h.same]
    exact hr.functions
  pipeline := by
    intro p hp
    rw [h.newPipeline]
    obtain heq | ⟨-, heq⟩ := h.pipeline
    · exact hr.pipeline p (heq ▸ hp)
    · rw [heq] at hp
      exact (Option.some.inj hp).symm
  fastOps := by
    rw [show env'.fastOps = env.fastOps from congrArg (·.fastOps) h.same]
    exact hr.fastOps

theorem mono {R' : World → World → Prop} (hR : ∀ {w w'}, R w w' → R' w w')
    (h : Follows R env env') : Follows R' env env' :=
  ⟨hR h.world, h.same, h.pipeline⟩

end Follows

/-- What follows from an environment in a region, follows from the environment once
its own region is set back. -/
theorem Follows.withRegion {env env' : Environment} {region : Option String}
    (h : Follows World.Grows (env.withRegion region) env') :
    Follows World.Grows env (env'.withRegion env.world.context.region) where
  world := ⟨h.world.symbols, h.world.pool,
    ⟨rfl, h.world.context.generation, h.world.context.pending⟩⟩
  same := (congrArg (Environment.withRegion · env.world.context.region) h.same).trans rfl
  pipeline := h.pipeline

theorem follows_advances {R : World → World → Prop} (hR : Advances R) : Advances (Follows R) where
  refl env := ⟨hR.refl env.world, rfl, .inl rfl⟩
  trans := .trans hR

/-- An operation on the world conducts in the environment what it conducts there. -/
theorem onWorld_conducts {ε δ α : Type} {Q : World → Prop} {R : World → World → Prop}
    (fault : δ → ε) {op : ExceptT δ (StateM World) α} (h : Conducts Q R op) :
    Conducts (Holds allowed Q) (Follows R) (onWorld fault op) := by
  intro env henv
  obtain ⟨hmove, hok⟩ := h env.world henv.world
  have hfollows : Follows R env (onWorld fault op env).2 := ⟨hmove, rfl, .inl rfl⟩
  refine ⟨hfollows, fun a ha => ⟨?_, hfollows.ready henv.ready⟩⟩
  exact hok a (ok_of_mapError ha)

/-- What follows an action on the symbols and goes back to it, at the symbols. -/
theorem onSymbols_conducts {ε δ α : Type} {Q : World → Prop} (fault : δ → ε)
    {op : ExceptT δ (StateM SymbolTable) α}
    (h : ∀ w : World, Conducts (w.At Q) SymbolTable.Grows op) :
    Conducts (Holds allowed Q) (Follows World.Grows) (onWorld fault (World.onSymbols op)) := by
  refine onWorld_conducts fault fun w hw => ?_
  obtain ⟨hmove, hok⟩ := h w w.symbols hw
  exact ⟨World.onSymbols_grows hmove, hok⟩

end Environment

/-! ## Stages of compilation -/

namespace Sustained

open Environment (Follows Holds Ready onWorld_conducts onSymbols_conducts)

/-- The passes of the pipeline that an environment asks for. -/
theorem passes (h : Sustained may allowed P) {env : Environment} (hr : env.Ready allowed) :
    ∀ pass ∈ env.newPipeline.passes, pass.Conduct (P delivered) World.Grows := by
  intro pass hpass
  obtain ⟨kind, -, hkind⟩ := List.mem_filterMap.mp hpass
  exact Pass.conduct_of_ofKind? h.supports (fun fs hfs => h.functions (hr.functions fs hfs)) hkind

theorem tree (h : Sustained may allowed P) (w : World) (tree : Rule.Tree) :
    Conducts (w.At (P delivered)) SymbolTable.Grows tree.lower :=
  tree.lower_conducts SymbolTable.grows_advances
    (fun _ => h.tableDeclare w (h.ordinary (.inl rfl)))
    (fun _ => h.tableDeclare w (h.ordinary (.inr (.inl rfl))))

theorem lower (h : Sustained may allowed P) (text : String) :
    Conducts (Holds allowed (P delivered)) (Follows World.Grows) (Environment.lower text) := by
  unfold Environment.lower
  split
  · exact .throw (Environment.follows_advances World.grows_advances) _
  · exact onSymbols_conducts _ fun w => h.tree w _

end Sustained

namespace Environment

/-- The pipeline that is kept, or else the one that is built. -/
def kept (env : Environment) : Pipeline := env.pipeline.getD env.newPipeline

/-- A pipeline that was built is the one that is kept. -/
theorem kept_of_pipeline {env : Environment} {pipeline : Pipeline}
    (h : env.pipeline = some pipeline) : env.kept = pipeline := by
  rw [kept, h, Option.getD_some]

theorem Ready.kept {env : Environment} (hr : env.Ready allowed) : env.kept = env.newPipeline := by
  rcases hp : env.pipeline with _ | p
  · rw [Environment.kept, hp, Option.getD_none]
  · exact (kept_of_pipeline hp).trans (hr.pipeline p hp)

theorem usePipeline_eq (env : Environment) :
    usePipeline env = (env.kept, { env with pipeline := some env.kept }) := by
  obtain ⟨config, world, scripts, fastOps, settings, functions, _ | p, builtIns, given⟩ := env
  · rfl
  · rfl

/-- What is lowered in the table is lowered in the environment. -/
theorem lower_eq {env : Environment} {text : String} {tree : Rule.Tree} {node : Node}
    {t : SymbolTable} (hparse : Rule.parse text = .ok tree)
    (h : tree.lower env.world.symbols = (.ok node, t)) :
    lower text env = (.ok node, { env with world := { env.world with symbols := t } }) := by
  rw [lower, hparse]
  show ((tree.lower env.world.symbols).1.mapError _, { env with world :=
    { env.world with symbols := (tree.lower env.world.symbols).2 } }) = _
  rw [h]
  rfl

/-- What optimizing does to the world: what the run does, unless it fails. -/
def optimized (env : Environment) (node : Node) : PipelineRun × World :=
  let outcome := env.kept.run env.scripts node env.world
  match outcome.1.result with
  | .ok _ => outcome
  | .error _ => (outcome.1, outcome.2.rollback env.world.checkpoint)

theorem optimizeTraced_eq (env : Environment) (node : Node) :
    optimizeTraced node env = ((env.optimized node).1,
      { env with world := (env.optimized node).2, pipeline := some env.kept }) := by
  rw [optimizeTraced, state_bind_apply, state_get_apply]
  dsimp only
  rw [state_bind_apply, usePipeline_eq]
  dsimp only
  rw [state_bind_apply, state_get_apply]
  dsimp only
  rw [Pipeline.drive_eq]
  unfold optimized
  dsimp only
  rcases (env.kept.run env.scripts node env.world).1.result with _ | _ <;> rfl

end Environment

namespace Sustained

open Environment (Follows Holds Ready onWorld_conducts onSymbols_conducts)

/-- Optimizing lets the world grow, and where it fails there is no growth. -/
theorem optimized (h : Sustained may allowed P) {env : Environment}
    (henv : Holds allowed (P delivered) env) (node : Node) :
    env.world.Grows (env.optimized node).2 ∧ P delivered (env.optimized node).2 ∧
      ∀ e, (env.optimized node).1.result = .error e → (env.optimized node).2 = env.world := by
  obtain ⟨hgrows, hok⟩ := Pipeline.run_conducted (P := P delivered) World.grows_advances
    (h.passes henv.ready) env.scripts node henv.world
  unfold Environment.optimized
  rw [henv.ready.kept]
  dsimp only
  rcases hres : (env.newPipeline.run env.scripts node env.world).1.result with e | node'
  · have hback := hgrows.rollback_eq (h.sound henv.world)
    refine ⟨?_, ?_, fun _ _ => hback⟩ <;> rw [hback]
    · exact World.grows_advances.refl _
    · exact henv.world
  · exact ⟨hgrows, hok node' hres, fun e he => absurd (hres.symm.trans he) (by simp)⟩

theorem optimizeTraced (h : Sustained may allowed P) {env : Environment}
    (henv : Holds allowed (P delivered) env) (node : Node) :
    Follows World.Grows env (Environment.optimizeTraced node env).2 ∧
      Holds allowed (P delivered) (Environment.optimizeTraced node env).2 := by
  obtain ⟨hgrows, hkept, -⟩ := h.optimized henv node
  rw [Environment.optimizeTraced_eq, henv.ready.kept]
  have hfollows : Follows World.Grows env { env with
      world := (env.optimized node).2, pipeline := some env.newPipeline } := by
    refine ⟨hgrows, rfl, ?_⟩
    rcases hp : env.pipeline with _ | p
    · exact .inr ⟨rfl, rfl⟩
    · rw [henv.ready.pipeline p hp]
      exact .inl rfl
  exact ⟨hfollows, hkept, hfollows.ready henv.ready⟩

/-- A failing optimization leaves the world as it was. -/
theorem optimizeTraced_error (h : Sustained may allowed P) {env : Environment}
    (henv : Holds allowed (P delivered) env) {node : Node} {e : PassError}
    (he : (Environment.optimizeTraced node env).1.result = .error e) :
    (Environment.optimizeTraced node env).2.world = env.world := by
  rw [Environment.optimizeTraced_eq] at he ⊢
  exact (h.optimized henv node).2.2 e he

theorem optimizeStage (h : Sustained may allowed P) (node : Node) :
    Conducts (Holds allowed (P delivered)) (Follows World.Grows)
      (Environment.optimizeStage node) := by
  intro env henv
  obtain ⟨hfollows, hholds⟩ := h.optimizeTraced henv node
  exact ⟨hfollows, fun _ _ => hholds⟩

/-- Optimizing in a region is optimizing, with the region set back. -/
theorem optimizeIn (h : Sustained may allowed P) (region : Option String) (node : Node) :
    Conducts (Holds allowed (P delivered)) (Follows World.Grows)
      (Environment.optimizeIn region node) := by
  intro env henv
  let inside := if region.isSome then env.withRegion region else env
  have hinside : ∃ r, inside = env.withRegion r := by
    by_cases hr : region.isSome
    · exact ⟨region, if_pos hr⟩
    · exact ⟨env.world.context.region, if_neg hr⟩
  obtain ⟨r, hr⟩ := hinside
  have hholds : Holds allowed (P delivered) inside := by
    rw [hr]
    exact ⟨h.region r henv.world, ⟨henv.ready.functions, henv.ready.pipeline, henv.ready.fastOps⟩⟩
  obtain ⟨hfollows, hafter⟩ := h.optimizeStage node inside hholds
  have hout : (Environment.optimizeIn region node env).1 =
        (Environment.optimizeStage node inside).1 ∧
      (Environment.optimizeIn region node env).2 =
        (Environment.optimizeStage node inside).2.withRegion env.world.context.region :=
    ⟨rfl, rfl⟩
  rw [hout.1, hout.2]
  rw [hr] at hfollows hafter ⊢
  have hback := hfollows.withRegion
  exact ⟨hback, fun a ha => ⟨h.region _ (hafter a ha).world, hback.ready henv.ready⟩⟩

/-- Generating code enters literals, also where it fails. -/
theorem codegen_holds (h : Sustained may allowed P) {env : Environment}
    (henv : Holds allowed (P delivered) env) (node : Node) :
    Follows World.Grows env (Environment.codegen node env).2 ∧
      Holds allowed (P delivered) (Environment.codegen node env).2 := by
  have hinterns :=
    (node.compile_interns env.world.symbols henv.ready.fastOps (h.sound henv.world).pool).1
  have hafter : (Environment.codegen node env).2 = { env with
      world := (World.onPool (node.compile env.world.symbols env.fastOps) env.world).2 } := rfl
  rw [hafter]
  have hfollows : Follows World.Grows env { env with
      world := (World.onPool (node.compile env.world.symbols env.fastOps) env.world).2 } :=
    ⟨World.onPool_grows hinterns.toGrows, rfl, .inl rfl⟩
  exact ⟨hfollows, h.literals henv.world hinterns, hfollows.ready henv.ready⟩

theorem codegen (h : Sustained may allowed P) (node : Node) :
    Conducts (Holds allowed (P delivered)) (Follows World.Grows) (Environment.codegen node) :=
  fun _ henv => ⟨(h.codegen_holds henv node).1, fun _ _ => (h.codegen_holds henv node).2⟩

/-- The stages of a rule let the world grow. -/
theorem stages (h : Sustained may allowed P) (text : String) :
    Conducts (Holds allowed (P delivered)) (Follows World.Grows) (do
      let node ← Environment.lower text
      let optimized ← Environment.optimizeStage node
      Environment.codegen optimized) :=
  have hR := Environment.follows_advances World.grows_advances
  .bind hR (h.lower text) fun node => .bind hR (h.optimizeStage node) h.codegen

theorem compileStages (h : Sustained may allowed P) (source : Source) :
    Conducts (Holds allowed (P delivered)) (Follows World.Grows)
      (Environment.compileStages source) := by
  have hR := Environment.follows_advances World.grows_advances
  have hrest : ∀ node, Conducts (Holds allowed (P delivered)) (Follows World.Grows) (do
      let optimized ← Environment.optimizeIn source.origin node
      let code ← Environment.codegen optimized
      pure (⟨source, node, optimized, code⟩ : CompiledSource)) := fun node =>
    .bind hR (h.optimizeIn source.origin node) fun optimized =>
      .bind hR (h.codegen optimized) fun _ => .pure hR _
  unfold Environment.compileStages
  dsimp only
  split
  · exact hrest _
  · exact .bind hR (h.lower source.text) hrest

end Sustained

/-! ## Undoing -/

namespace Environment

theorem atomically_ok {ε α : Type} {action : Compiling ε α} {env : Environment} {a : α}
    (h : (atomically action env).1 = .ok a) : atomically action env = action env := by
  unfold atomically at h ⊢
  rcases hres : action env with ⟨e | b, env'⟩
  · rw [hres] at h
    exact absurd h (by simp)
  · rfl

/-- An action that fails is undone as far as rolling back goes. -/
theorem atomically_error {ε α : Type} {action : Compiling ε α} {env : Environment} {e : ε}
    (h : (atomically action env).1 = .error e) :
    (action env).1 = .error e ∧ (atomically action env).2 = { (action env).2 with
      world := (action env).2.world.rollback env.world.checkpoint } := by
  unfold atomically at h ⊢
  rcases hres : action env with ⟨e' | b, env'⟩
  · rw [hres] at h
    exact ⟨h, rfl⟩
  · rw [hres] at h
    exact absurd h (by simp)

end Environment

namespace Sustained

open Environment (Follows Holds Ready)

/-- An action that lets the world grow, done atomically: a success is the action's,
and a failure leaves the world as it was. -/
theorem atomically (h : Sustained may allowed P) {ε α : Type} {action : Compiling ε α}
    (ha : Conducts (Holds allowed (P delivered)) (Follows World.Grows) action) {env : Environment}
    (henv : Holds allowed (P delivered) env) :
    Follows World.Grows env (Environment.atomically action env).2 ∧
      Holds allowed (P delivered) (Environment.atomically action env).2 ∧
      ∀ e, (Environment.atomically action env).1 = .error e →
        (Environment.atomically action env).2.world = env.world := by
  obtain ⟨hfollows, hok⟩ := ha env henv
  rcases hres : (Environment.atomically action env).1 with e | a
  · obtain ⟨-, hback⟩ := Environment.atomically_error hres
    have hworld := hfollows.world.rollback_eq (h.sound henv.world)
    rw [hback, hworld]
    have hundone : Follows World.Grows env { (action env).2 with world := env.world } := by
      refine ⟨World.grows_advances.refl _, ?_, hfollows.pipeline⟩
      exact congrArg (fun e : Environment => { e with world := env.world }) hfollows.same
    exact ⟨hundone, ⟨henv.world, hundone.ready henv.ready⟩, fun _ _ => rfl⟩
  · have heq := Environment.atomically_ok hres
    rw [heq] at hres ⊢
    exact ⟨hfollows, hok a hres, fun e he => absurd he (by simp)⟩

end Sustained

end Passage

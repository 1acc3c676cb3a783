import Passage.Proofs.Generation
import Passage.Proofs.Maintenance

/-!
# Failing leaves nothing behind

An environment is `Alike` another one if they differ at most in whether their
pipeline has been built. Callers cannot tell such environments apart
(`Alike.answers`), and a rule that fails to be optimized or compiled leaves an
environment that is alike the one before, whose world is the very same
(`failure_leaves_no_trace`). The pipeline it leaves counts no call that it would be
inside of: wherever a run fails, the inlining pass has lowered its counter again
(`Pipeline.drive_eq`).
-/

namespace Passage

/-! ## Soundness throughout -/

/-- Soundness, which does not depend on what has been delivered. -/
def World.SoundAt (_ : List String) (w : World) : Prop := w.Sound

/-- The world stays sound, whatever names are declared. -/
theorem World.sound_maintained : Maintained (fun _ => True) World.SoundAt where
  sound := id
  start _ := ⟨SymbolTable.initial_sound, ObjectPool.empty_sound⟩
  declare hw _ := ⟨(SymbolTable.declare_grows hw.symbols _ _).sound hw.symbols, hw.pool⟩
  byname hw := ⟨(SymbolTable.bindAlias_grows _ _ _).sound hw.symbols, hw.pool⟩
  objects hw h := ⟨hw.symbols, h.sound⟩
  region _ hw := ⟨hw.symbols, hw.pool⟩
  take hw := ⟨hw.symbols, hw.pool⟩
  generate := Elsewhere.generate_conducts

namespace Environment

/-! ## Environments that cannot be told apart -/

/-- The environments differ at most in whether the pipeline has been built. -/
structure Alike (env env' : Environment) : Prop where
  same : env' = { env with pipeline := env'.pipeline }
  kept : env'.kept = env.kept

theorem Alike.refl (env : Environment) : env.Alike env := ⟨rfl, rfl⟩

theorem Alike.world {env env' : Environment} (h : env.Alike env') : env'.world = env.world :=
  congrArg (·.world) h.same

/-- A change to parts other than the pipeline, and to none that it is built from. -/
theorem Alike.update {env env' : Environment} (h : env.Alike env') {f : Environment → Environment}
    (hf : ∀ env pipeline, f { env with pipeline } = { f env with pipeline })
    (hpipeline : ∀ env, (f env).newPipeline = env.newPipeline) : (f env).Alike (f env') := by
  have hkeep : ∀ env, (f env).pipeline = env.pipeline := fun env =>
    congrArg (·.pipeline) (hf env env.pipeline)
  refine ⟨?_, ?_⟩
  · rw [hkeep env', ← hf env env'.pipeline, ← h.same]
  · have hkept := h.kept
    unfold Environment.kept at hkept ⊢
    rw [hkeep, hkeep, hpipeline, hpipeline, hkept]

/-- Environments that are alike stay so once both keep one world and one pipeline. -/
theorem Alike.keep {env env' : Environment} (h : env.Alike env') (world : World)
    (pipeline : Pipeline) :
    Alike { env with world, pipeline := some pipeline }
      { env' with world, pipeline := some pipeline } :=
  ⟨congrArg (fun e : Environment => { e with world, pipeline := some pipeline }) h.same,
    (kept_of_pipeline rfl).trans (kept_of_pipeline rfl).symm⟩

/-- What follows in a world that is the same is alike. -/
theorem Follows.alike {R : World → World → Prop} {env env' : Environment}
    (h : Follows R env env') (hworld : env'.world = env.world) : env.Alike env' := by
  refine ⟨?_, ?_⟩
  · have hsame := h.same
    rw [hworld] at hsame
    exact hsame
  · unfold kept
    rw [h.newPipeline]
    obtain heq | ⟨hnone, heq⟩ := h.pipeline
    · rw [heq]
    · rw [heq, hnone]
      rfl

/-- An action that answers alike in environments that are alike, and leaves them alike. -/
def Agrees {α : Type} (action : Environment → α × Environment) : Prop :=
  ∀ env env', env.Alike env' →
    (action env').1 = (action env).1 ∧ (action env).2.Alike (action env').2

section Agreement

variable {ε α β : Type}

theorem agrees_pure (a : α) : Agrees (pure a : Compiling ε α) := fun _ _ h => ⟨rfl, h⟩

theorem agrees_throw (e : ε) : Agrees (throw e : Compiling ε α) := fun _ _ h => ⟨rfl, h⟩

theorem Agrees.bind {x : Compiling ε α} {f : α → Compiling ε β} (hx : Agrees x)
    (hf : ∀ a, Agrees (f a)) : Agrees (x >>= f) := by
  intro env env' h
  obtain ⟨hvalue, halike⟩ := hx env env' h
  rw [bind_apply, bind_apply]
  rcases hres : x env with ⟨e | a, s⟩ <;> rcases hres' : x env' with ⟨e' | a', s'⟩ <;>
    rw [hres, hres'] at hvalue halike
  · obtain rfl := Except.error.inj hvalue
    exact ⟨rfl, halike⟩
  · exact absurd hvalue (by simp)
  · exact absurd hvalue (by simp)
  · obtain rfl := Except.ok.inj hvalue
    exact hf a' s s' halike

/-- What is read from an environment may be used if it is not the pipeline. -/
theorem Agrees.get_bind {f : Environment → Compiling ε β}
    (hf : ∀ env pipeline, f { env with pipeline } = f env) (h : ∀ env, Agrees (f env)) :
    Agrees ((MonadState.get : Compiling ε Environment) >>= f) := by
  intro env env' halike
  show (f env' env').1 = (f env env).1 ∧ (f env env).2.Alike (f env' env').2
  have hsame : f env' = f env := by
    rw [halike.same]
    exact hf env env'.pipeline
  rw [hsame]
  exact h env env env' halike

theorem agrees_modify {f : Environment → Environment}
    (hf : ∀ env pipeline, f { env with pipeline } = { f env with pipeline })
    (hpipeline : ∀ env, (f env).newPipeline = env.newPipeline) :
    Agrees (modify f : Compiling ε PUnit) :=
  fun _ _ h => ⟨rfl, h.update hf hpipeline⟩

theorem Agrees.forM {f : α → Compiling ε PUnit} (hf : ∀ a, Agrees (f a)) (as : List α) :
    Agrees (as.forM f) := by
  induction as with
  | nil => exact agrees_pure _
  | cons a as ih => exact .bind (hf a) fun _ => ih

theorem agrees_onWorld {δ : Type} (fault : δ → ε) (op : World → Except δ α × World) :
    Agrees (onWorld fault op) := by
  intro env env' h
  show (op env'.world).1.mapError fault = (op env.world).1.mapError fault ∧ _
  rw [h.world]
  refine ⟨rfl, ?_⟩
  show Alike { env with world := (op env.world).2 } { env' with world := (op env'.world).2 }
  rw [h.world]
  exact h.update (f := fun e => { e with world := (op env.world).2 }) (fun _ _ => rfl) fun _ => rfl

theorem Agrees.atomically {action : Compiling ε α} (ha : Agrees action) :
    Agrees (Environment.atomically action) := by
  intro env env' h
  obtain ⟨hvalue, halike⟩ := ha env env' h
  unfold Environment.atomically
  dsimp only
  rcases hres : action env with ⟨e | a, s⟩ <;> rcases hres' : action env' with ⟨e' | a', s'⟩ <;>
    rw [hres, hres'] at hvalue halike
  · obtain rfl := Except.error.inj hvalue
    refine ⟨rfl, ?_⟩
    dsimp only at halike ⊢
    rw [h.world, halike.world]
    exact halike.update (f := fun e => { e with world := s.world.rollback env.world.checkpoint })
      (fun _ _ => rfl) fun _ => rfl
  · exact absurd hvalue (by simp)
  · exact absurd hvalue (by simp)
  · obtain rfl := Except.ok.inj hvalue
    exact ⟨rfl, halike⟩

end Agreement

/-! ### The actions of an environment -/

theorem agrees_lower (text : String) : Agrees (lower text) := by
  unfold lower
  split
  · exact agrees_throw _
  · exact agrees_onWorld _ _

theorem agrees_optimizeTraced (node : Node) : Agrees (optimizeTraced node) := by
  intro env env' h
  have hopt : env'.optimized node = env.optimized node := by
    unfold optimized
    rw [h.kept, h.world, show env'.scripts = env.scripts from congrArg (·.scripts) h.same]
  rw [optimizeTraced_eq, optimizeTraced_eq, hopt, h.kept]
  exact ⟨rfl, h.keep _ _⟩

theorem agrees_optimizeStage (node : Node) : Agrees (optimizeStage node) := by
  intro env env' h
  obtain ⟨hvalue, halike⟩ := agrees_optimizeTraced node env env' h
  refine ⟨?_, halike⟩
  show (optimizeTraced node env').1.result.mapError _ =
    (optimizeTraced node env).1.result.mapError _
  rw [hvalue]

theorem Alike.withRegion {env env' : Environment} (h : env.Alike env') (region : Option String) :
    (env.withRegion region).Alike (env'.withRegion region) :=
  h.update (f := (·.withRegion region)) (fun _ _ => rfl) fun _ => rfl

theorem agrees_optimizeIn (region : Option String) (node : Node) :
    Agrees (optimizeIn region node) := by
  intro env env' h
  have hinside : (if region.isSome then env.withRegion region else env).Alike
      (if region.isSome then env'.withRegion region else env') := by
    by_cases hr : region.isSome
    · rw [if_pos hr, if_pos hr]
      exact h.withRegion region
    · rw [if_neg hr, if_neg hr]
      exact h
  obtain ⟨hvalue, halike⟩ := agrees_optimizeStage node _ _ hinside
  refine ⟨hvalue, ?_⟩
  show Alike (Environment.withRegion _ env.world.context.region)
    (Environment.withRegion _ env'.world.context.region)
  rw [h.world]
  exact halike.withRegion _

theorem agrees_codegen (node : Node) : Agrees (codegen node) :=
  .get_bind (fun _ _ => rfl) fun _ => agrees_onWorld _ _

theorem agrees_compileStages (source : Source) : Agrees (compileStages source) := by
  have hrest : ∀ node, Agrees (do
      let optimized ← optimizeIn source.origin node
      let code ← codegen optimized
      pure ⟨source, node, optimized, code⟩ : Compiling StageError CompiledSource) := fun node =>
    .bind (agrees_optimizeIn source.origin node) fun optimized =>
      .bind (agrees_codegen optimized) fun _ => agrees_pure _
  unfold compileStages
  dsimp only
  split
  · exact hrest _
  · exact .bind (agrees_lower source.text) hrest

theorem agrees_takeConnections : Agrees takeConnections := by
  intro env env' h
  have hworld := h.world
  refine ⟨congrArg (·.context.pending) hworld, ?_⟩
  exact h.update (f := fun e => { e with
    world := { e.world with context := e.world.context.take.2 } }) (fun _ _ => rfl) fun _ => rfl

theorem agrees_compileBatch (connections : List Connection) (done : List CompiledSource) :
    Agrees (compileBatch done connections) := by
  induction connections generalizing done with
  | nil => exact agrees_pure _
  | cons connection rest ih =>
    exact .get_bind (fun _ _ => rfl) fun _ =>
      .bind (agrees_compileStages _) fun compiled => ih (compiled :: done)

theorem agrees_compileBatches (left : Nat) (done : List CompiledSource) :
    Agrees (compileBatches done left) := by
  induction left generalizing done with
  | zero => exact agrees_pure _
  | succ left ih =>
    rw [compileBatches]
    have htake : Agrees (monadLift takeConnections : Compiling StageError (Array Connection)) := by
      intro env env' h
      obtain ⟨hvalue, halike⟩ := agrees_takeConnections env env' h
      exact ⟨congrArg Except.ok hvalue, halike⟩
    refine .bind htake fun batch => ?_
    split
    · exact agrees_pure _
    · exact .bind (agrees_compileBatch _ _) fun done => ih done

theorem agrees_compileConnections : Agrees compileConnections := by
  intro env env' h
  have hlimit : env'.batchLimit = env.batchLimit := by
    unfold batchLimit
    rw [h.world]
  obtain ⟨hvalue, halike⟩ := (agrees_compileBatches env.batchLimit []).atomically env env' h
  unfold compileConnections
  rw [hlimit, h.world]
  dsimp only
  rcases hres : Environment.atomically (compileBatches [] env.batchLimit) env with ⟨e | a, s⟩ <;>
    rcases hres' : Environment.atomically (compileBatches [] env.batchLimit) env'
      with ⟨e' | a', s'⟩ <;>
    rw [hres, hres'] at hvalue halike
  · obtain rfl := Except.error.inj hvalue
    refine ⟨rfl, ?_⟩
    dsimp only at halike ⊢
    rw [halike.world]
    exact halike.update (f := fun e => { e with world := { s.world with context :=
      { env.world.context with region := s.world.context.region } } }) (fun _ _ => rfl) fun _ => rfl
  · exact absurd hvalue (by simp)
  · exact absurd hvalue (by simp)
  · obtain rfl := Except.ok.inj hvalue
    exact ⟨rfl, halike⟩

theorem agrees_addBuiltIn (signature : Signature) : Agrees (addBuiltIn signature) :=
  .bind (agrees_onWorld _ _) fun _ => .get_bind (fun _ _ => rfl) fun _ =>
    .bind (agrees_onWorld _ _) fun _ => agrees_modify (fun _ _ => rfl) fun _ => rfl

theorem agrees_addToken (name : String) : Agrees (addToken name) :=
  .bind (agrees_onWorld _ _) fun _ => .bind (agrees_onWorld _ _) fun _ => agrees_pure _

theorem agrees_addSetting (name : String) : Agrees (addSetting name) :=
  .bind (agrees_onWorld _ _) fun _ => .get_bind (fun _ _ => rfl) fun _ =>
    .bind (agrees_onWorld _ _) fun _ => agrees_modify (fun _ _ => rfl) fun _ => rfl

theorem agrees_aliasTokens : Agrees aliasTokens :=
  .get_bind (fun _ _ => rfl) fun _ =>
    .bind (.forM (fun _ => .bind (agrees_onWorld _ _) fun _ => agrees_pure _) _) fun _ =>
      .get_bind (fun _ _ => rfl) fun _ => agrees_pure _

theorem agrees_withScripts (declarations : List (String × String)) :
    Agrees (withScripts declarations) :=
  .bind (agrees_onWorld _ _) fun _ => agrees_modify (fun _ _ => rfl) fun _ => rfl

/-- An environment that takes new inputs for its pipeline drops the one it had. -/
theorem Alike.dropPipeline {env env' : Environment} (h : env.Alike env')
    {f : Environment → Environment} (hf : ∀ env pipeline, f { env with pipeline } = f env) :
    (f env).Alike (f env') := by
  rw [show f env' = f env from (congrArg f h.same).trans (hf env env'.pipeline)]
  exact .refl _

theorem agrees_withFunctions (functions : CompilerFunctions) :
    Agrees (withFunctions functions) :=
  .bind (.forM (fun _ => .bind (agrees_onWorld _ _) fun _ => agrees_pure _) _) fun _ =>
    fun _ _ h => ⟨rfl, h.dropPipeline
      (f := fun e => { e with functions := some functions, pipeline := none }) fun _ _ => rfl⟩

theorem Agrees.told {α : Type} {answer : Except StageError α → Answer}
    {action : Compiling StageError α} (ha : Agrees action) : Agrees (told answer action) :=
  fun env env' h => ⟨congrArg answer (ha env env' h).1, (ha env env' h).2⟩

/-- Environments that are alike answer every request alike, and stay alike. -/
theorem agrees_respond (request : Request) : Agrees (respond · request) := by
  cases request with
  | builtIns signatures => exact .told (.forM agrees_addBuiltIn _)
  | tokens names => exact .told (.forM agrees_addToken _)
  | settings names => exact .told (.forM agrees_addSetting _)
  | aliases => exact .told agrees_aliasTokens
  | scripts declarations => exact .told (agrees_withScripts declarations)
  | functions functions => exact .told (agrees_withFunctions functions)
  | settingValues values =>
    exact fun _ _ h => ⟨rfl, h.dropPipeline (f := (·.withSettingValues values)) fun _ _ => rfl⟩
  | region region => exact fun _ _ h => ⟨rfl, h.withRegion region⟩
  | passNames =>
    intro env env' h
    have hnames : ∀ e : Environment, respond e .passNames =
        (.names e.kept.names, { e with world := e.world, pipeline := some e.kept }) := fun e => by
      show (Answer.names (usePipeline e).1.names, (usePipeline e).2) = _
      rw [usePipeline_eq]
    dsimp only
    rw [hnames, hnames, h.kept, h.world]
    exact ⟨rfl, h.keep _ _⟩
  | lower text => exact .told (agrees_lower text)
  | optimize node =>
    exact fun env env' h => ⟨congrArg Answer.run (agrees_optimizeTraced node env env' h).1,
      (agrees_optimizeTraced node env env' h).2⟩
  | codegen node => exact .told (agrees_codegen node)
  | compile text =>
    exact .told (.atomically (.bind (agrees_lower text) fun node =>
      .bind (agrees_optimizeStage node) agrees_codegen))
  | source source => exact .told (.atomically (agrees_compileStages source))
  | generated => exact .told agrees_compileConnections
  | take =>
    exact fun env env' h => ⟨congrArg Answer.connections (agrees_takeConnections env env' h).1,
      (agrees_takeConnections env env' h).2⟩
  | freeze =>
    exact fun env env' h => ⟨congrArg (fun w : World => Answer.table w.pool.freeze) h.world, h⟩

/-- No sequence of requests tells environments apart that are alike. -/
theorem Alike.answers {env env' : Environment} (h : env.Alike env') (requests : List Request) :
    env'.answers requests = env.answers requests := by
  induction requests generalizing env env' with
  | nil => rfl
  | cons request rest ih =>
    obtain ⟨hvalue, halike⟩ := agrees_respond request env env' h
    show (env'.respond request).1 :: (env'.respond request).2.answers rest = _
    rw [hvalue, ih halike]
    rfl

end Environment

/-! ## Undone requests -/

theorem Answer.failed_run {run : PipelineRun} :
    (Answer.run run).Failed ↔ ∃ e, run.result = .error e :=
  ⟨fun | .run h => ⟨_, h⟩, fun ⟨_, h⟩ => .run h⟩

theorem Answer.failed_code {result : Except StageError Code} :
    (Answer.code result).Failed ↔ ∃ e, result = .error e :=
  ⟨fun | .code e => ⟨e, rfl⟩, fun ⟨e, h⟩ => h ▸ .code e⟩

theorem Answer.failed_compiled {result : Except StageError CompiledSource} :
    (Answer.compiled result).Failed ↔ ∃ e, result = .error e :=
  ⟨fun | .compiled e => ⟨e, rfl⟩, fun ⟨e, h⟩ => h ▸ .compiled e⟩

theorem Answer.failed_batch {result : Except StageError (List CompiledSource)} :
    (Answer.batch result).Failed ↔ ∃ e, result = .error e :=
  ⟨fun | .batch e => ⟨e, rfl⟩, fun ⟨e, h⟩ => h ▸ .batch e⟩

/-- The requests that undo what they did if they fail. -/
def Request.IsUndone : Request → Prop
  | .optimize _ | .compile _ | .source _ | .generated => True
  | _ => False

namespace Environment

/-- A request that is undone follows along extensions of the world, and along none
if it fails. -/
theorem respond_undone {delivered : List String} {env : Environment}
    (henv : Holds (CompilerFunctions.DeclareOnly fun _ => True) (World.SoundAt delivered) env)
    {request : Request} (hu : request.IsUndone) :
    Follows World.Extends env (env.respond request).2 ∧
      ((env.respond request).1.Failed → (env.respond request).2.world = env.world) := by
  have hm := World.sound_maintained.sustained
  have hatomic : ∀ {α : Type} {action : Compiling StageError α}
      (_ : Conducts (Holds (CompilerFunctions.DeclareOnly fun _ => True) (World.SoundAt delivered))
        (Follows World.Grows) action),
      Follows World.Extends env (atomically action env).2 ∧
        ∀ e, (atomically action env).1 = .error e →
          (atomically action env).2.world = env.world := by
    intro α action ha
    obtain ⟨hfollows, -, herror⟩ := hm.atomically ha henv
    exact ⟨hfollows.mono World.Grows.extends, herror⟩
  cases request with
  | optimize node =>
    refine ⟨(hm.optimizeTraced henv node).1.mono World.Grows.extends, fun hfailed => ?_⟩
    obtain ⟨e, he⟩ := Answer.failed_run.mp hfailed
    exact hm.optimizeTraced_error henv he
  | compile text =>
    obtain ⟨hfollows, herror⟩ := hatomic (hm.stages text)
    exact ⟨hfollows, fun hfailed => (Answer.failed_code.mp hfailed).elim herror⟩
  | source source =>
    obtain ⟨hfollows, herror⟩ := hatomic (hm.compileStages source)
    exact ⟨hfollows, fun hfailed => (Answer.failed_compiled.mp hfailed).elim herror⟩
  | generated =>
    obtain ⟨hfollows, -, herror⟩ := hm.compileConnections henv
    exact ⟨hfollows, fun hfailed => (Answer.failed_batch.mp hfailed).elim herror⟩
  | _ => exact hu.elim

/-- The passes that a configuration asks for are inside of no calls. -/
theorem newPipeline_depth (env : Environment) {pass : Pass}
    (hpass : pass ∈ env.newPipeline.passes) :
    pass.depth = 0 := by
  obtain ⟨kind, -, hkind⟩ := List.mem_filterMap.mp hpass
  cases kind
  case settings | compilerCalls =>
    obtain ⟨_, -, rfl⟩ := Option.map_eq_some_iff.mp hkind
    rfl
  all_goals
    obtain rfl := Option.some.inj hkind
    rfl

/-- A rule that fails to be optimized or compiled, at whatever stage, leaves the
environment as it was, but that the pipeline may have been built; no later request
is answered differently. Whether it fails or not, the region stays current, and the
passes of the pipeline that is kept are inside of no calls. -/
theorem failure_leaves_no_trace {answers : List Answer} {env : Environment}
    (hr : Reached (Request.Plain fun _ => True) answers env) {request : Request}
    (hu : request.IsUndone) :
    ((env.respond request).1.Failed →
      ∃ pipeline, (env.respond request).2 = { env with pipeline } ∧
        (pipeline = env.pipeline ∨ env.pipeline = none ∧ pipeline = some env.newPipeline) ∧
        ∀ later, (env.respond request).2.answers later = env.answers later) ∧
    (env.respond request).2.world.context.region = env.world.context.region ∧
    ∀ pipeline, (env.respond request).2.pipeline = some pipeline →
      ∀ pass ∈ pipeline.passes, pass.depth = 0 := by
  have hholds := World.sound_maintained.reached hr
  obtain ⟨hfollows, hworld⟩ := respond_undone hholds hu
  refine ⟨fun hfailed => ?_, hfollows.world.region, fun pipeline hpipeline pass hpass => ?_⟩
  · have halike := hfollows.alike (hworld hfailed)
    exact ⟨_, halike.same, hfollows.pipeline, halike.answers⟩
  · rw [(hfollows.ready hholds.ready).pipeline pipeline hpipeline] at hpass
    exact newPipeline_depth _ hpass

theorem failed_of_compile_error (env : Environment) (text : String) {e : StageError}
    (h : (compile text env).1 = .error e) : (env.respond (.compile text)).1.Failed :=
  Answer.failed_code.mpr ⟨e, h⟩

/-- A rule that generates a connection before it compares what has no order. -/
def unorderedRule : String := "at('Lake', True) and (True < False)"

theorem compile_unorderedRule : (compile unorderedRule (ofConfig .standard)).1 =
    .error (.optimization (.ordering .booleans)) := by
  decide +kernel

/-- Compiling that rule fails, and a new environment answers afterwards as it did before. -/
theorem unorderedRule_leaves_no_trace :
    ((ofConfig .standard).respond (.compile unorderedRule)).1.Failed ∧
    (∃ pipeline, ((ofConfig .standard).respond (.compile unorderedRule)).2 =
        { ofConfig .standard with pipeline } ∧
      (pipeline = (ofConfig .standard).pipeline ∨
        (ofConfig .standard).pipeline = none ∧
          pipeline = some (ofConfig .standard).newPipeline) ∧
      ∀ later, ((ofConfig .standard).respond (.compile unorderedRule)).2.answers later =
        (ofConfig .standard).answers later) ∧
    ((ofConfig .standard).respond (.compile unorderedRule)).2.world.context.region =
      (ofConfig .standard).world.context.region ∧
    ∀ pipeline, ((ofConfig .standard).respond (.compile unorderedRule)).2.pipeline = some pipeline →
      ∀ pass ∈ pipeline.passes, pass.depth = 0 := by
  have hfailed := failed_of_compile_error _ _ compile_unorderedRule
  have htrace := failure_leaves_no_trace (.start .standard)
    (show (Request.compile unorderedRule).IsUndone from trivial)
  exact ⟨hfailed, htrace.1 hfailed, htrace.2⟩

end Environment

end Passage

import Passage.Proofs.Generation
import Passage.Proofs.Stages

/-!
# What conversations preserve

Connections are taken and compiled in batches, and each one that is taken is
delivered by the sources that come of it. With that, an assertion that is `Sustained` is
left true by all answers but those to requests that give pointers, for the destinations
that are delivered (`Sustained.respond`). An assertion that is `Maintained` does not care
about pointers, and holds in every environment that a conversation reaches
(`Maintained.reached`).
-/

namespace Passage

/-- The destinations of compiled sources. -/
def targets (sources : List CompiledSource) : List String :=
  sources.filterMap (·.source.destination)

/-- The destinations of the connections that an answer hands out. -/
def Answer.delivered : Answer → List String
  | .connections taken => destinations taken
  | .batch (.ok sources) => targets sources
  | _ => []

theorem targets_append (sources more : List CompiledSource) :
    targets (sources ++ more) = targets sources ++ targets more :=
  List.filterMap_append

variable {may : String → Symbol.Kind → Prop} {allowed : CompilerFunctions → Prop}
  {P : List String → World → Prop} {delivered : List String}

namespace Environment

theorem compileBatch_cons (done : List CompiledSource) (connection : Connection)
    (rest : List Connection) (env : Environment) :
    compileBatch done (connection :: rest) env =
      (compileStages (connection.source env.world.symbols) >>= fun compiled =>
        compileBatch (compiled :: done) rest) env := by
  rw [compileBatch, bind_apply, get_apply]

theorem compileBatches_succ (done : List CompiledSource) (left : Nat) (env : Environment) :
    compileBatches done (left + 1) env =
      (if (takeConnections env).1.isEmpty then
        (pure done.reverse : Compiling StageError (List CompiledSource))
      else compileBatch done (takeConnections env).1.toList >>= fun done =>
        compileBatches done left) (takeConnections env).2 := by
  rw [compileBatches]
  rfl

/-- What the loop answers is answered, and the environment that it leaves is kept unless it
fails. -/
theorem compileConnections_eq (env : Environment) :
    (compileConnections env).1 = (compileBatches [] env.batchLimit env).1 ∧
      ∀ compiled, (compileBatches [] env.batchLimit env).1 = .ok compiled →
        (compileConnections env).2 = (compileBatches [] env.batchLimit env).2 := by
  unfold compileConnections atomically
  rcases compileBatches [] env.batchLimit env with ⟨e | compiled, env'⟩
  · exact ⟨rfl, nofun⟩
  · exact ⟨rfl, fun _ _ => rfl⟩

/-- What is compiled is the source that was given. -/
theorem compileStages_source {source : Source} {env : Environment} {compiled : CompiledSource}
    (h : (compileStages source env).1 = .ok compiled) : compiled.source = source := by
  have hrest : ∀ (node : Node) (s s' : Environment), ((do
      let optimized ← optimizeIn source.origin node
      let code ← codegen optimized
      pure ⟨source, node, optimized, code⟩ : Compiling StageError CompiledSource)) s =
        (.ok compiled, s') → compiled.source = source := by
    intro node s s' hnode
    obtain ⟨optimized, s₁, -, hcode⟩ := bind_eq_ok hnode
    obtain ⟨code, s₂, -, hpure⟩ := bind_eq_ok hcode
    rw [pure_apply] at hpure
    have hcompiled := Except.ok.inj (congrArg Prod.fst hpure)
    rw [← hcompiled]
  have hfull : compileStages source env = (.ok compiled, (compileStages source env).2) :=
    Prod.ext h rfl
  generalize (compileStages source env).2 = env' at hfull
  unfold compileStages at hfull
  rcases hnode : source.node with _ | node <;> rw [hnode] at hfull
  · obtain ⟨node, s, -, hnode⟩ := bind_eq_ok hfull
    exact hrest node s env' hnode
  · exact hrest node env env' hfull

end Environment

namespace Sustained

open Environment (Follows Holds Ready)

theorem compileBatch (h : Sustained may allowed P) (connections : List Connection)
    (done : List CompiledSource) {env : Environment} (henv : Holds allowed (P delivered) env) :
    Follows World.Grows env (Environment.compileBatch done connections env).2 ∧
      ∀ done', (Environment.compileBatch done connections env).1 = .ok done' →
        Holds allowed (P delivered) (Environment.compileBatch done connections env).2 ∧
        ∃ more, done' = more.reverse ++ done ∧
          targets more = connections.map (·.destination) := by
  have hR := Environment.follows_advances World.grows_advances
  induction connections generalizing done env with
  | nil =>
    refine ⟨hR.refl env, fun done' hd => ⟨henv, [], ?_, rfl⟩⟩
    exact (Except.ok.inj hd).symm
  | cons connection rest ih =>
    obtain ⟨hfollows, hok⟩ := h.compileStages (connection.source env.world.symbols) env henv
    rw [Environment.compileBatch_cons, bind_apply]
    rcases hres : Environment.compileStages (connection.source env.world.symbols) env
      with ⟨e | compiled, env'⟩ <;> rw [hres] at hfollows hok
    · exact ⟨hfollows, fun _ hd => absurd hd (by simp)⟩
    · obtain ⟨hfollows', hok'⟩ := ih (compiled :: done) (hok compiled rfl)
      refine ⟨hR.trans hfollows hfollows', fun done' hd => ?_⟩
      obtain ⟨hholds, more, hmore, htargets⟩ := hok' done' hd
      refine ⟨hholds, compiled :: more, ?_, ?_⟩
      · rw [hmore, List.reverse_cons, List.append_assoc]
        rfl
      · have hsource := Environment.compileStages_source (congrArg Prod.fst hres)
        rw [targets, List.filterMap_cons, hsource]
        exact congrArg (connection.destination :: ·) htargets

/-- Taking the connections that wait hands them over. -/
theorem takeConnections (h : Sustained may allowed P) {env : Environment}
    (henv : Holds allowed (P delivered) env) :
    Follows World.Extends env (Environment.takeConnections env).2 ∧
      Holds allowed (P (delivered ++ destinations (Environment.takeConnections env).1))
        (Environment.takeConnections env).2 := by
  have hfollows : Follows World.Extends env (Environment.takeConnections env).2 :=
    ⟨⟨.refl _, .refl _, rfl⟩, rfl, .inl rfl⟩
  exact ⟨hfollows, h.take henv.world, hfollows.ready henv.ready⟩

/-- What batches compile, they have taken. -/
theorem compileBatches (h : Sustained may allowed P) (left : Nat) (done : List CompiledSource)
    {env : Environment} (henv : Holds allowed (P delivered) env) :
    Follows World.Extends env (Environment.compileBatches done left env).2 ∧
      ∀ compiled, (Environment.compileBatches done left env).1 = .ok compiled →
        ∃ more, compiled = done.reverse ++ more ∧
          Holds allowed (P (delivered ++ targets more))
            (Environment.compileBatches done left env).2 := by
  have hR := Environment.follows_advances World.extends_advances
  induction left generalizing done delivered env with
  | zero =>
    refine ⟨hR.refl env, fun compiled hc => ⟨[], ?_, ?_⟩⟩
    · rw [List.append_nil]
      exact (Except.ok.inj hc).symm
    · rw [targets, List.filterMap_nil, List.append_nil]
      exact henv
  | succ left ih =>
    obtain ⟨hfollows, htaken⟩ := h.takeConnections henv
    let batch := (Environment.takeConnections env).1
    let after := (Environment.takeConnections env).2
    rw [Environment.compileBatches_succ]
    by_cases hempty : batch.isEmpty
    · rw [if_pos hempty]
      refine ⟨hfollows, fun compiled hc => ⟨[], ?_, ?_⟩⟩
      · rw [List.append_nil]
        exact (Except.ok.inj hc).symm
      · have hnil : destinations batch = [] := by
          rw [destinations, Array.isEmpty_iff.mp hempty]
          rfl
        rw [hnil] at htaken
        exact htaken
    · rw [if_neg hempty, bind_apply]
      obtain ⟨hgrows, hok⟩ := h.compileBatch batch.toList done htaken
      rcases hres : Environment.compileBatch done batch.toList after
        with ⟨e | done', env'⟩ <;> rw [hres] at hgrows hok
      · exact ⟨hR.trans hfollows (hgrows.mono World.Grows.extends), fun _ hc => absurd hc (by simp)⟩
      · obtain ⟨hholds, more, hmore, htargets⟩ := hok done' rfl
        obtain ⟨hextends, hok'⟩ := ih done' hholds
        refine ⟨hR.trans hfollows (hR.trans (hgrows.mono World.Grows.extends) hextends),
          fun compiled hc => ?_⟩
        obtain ⟨rest, hrest, hfinal⟩ := hok' compiled hc
        refine ⟨more ++ rest, ?_, ?_⟩
        · rw [hrest, hmore, List.reverse_append, List.reverse_reverse, List.append_assoc]
        · rw [targets_append, ← List.append_assoc, htargets]
          exact hfinal

/-- Compiling what waits delivers what it compiles. If it fails, the world is as it was. -/
theorem compileConnections (h : Sustained may allowed P) {env : Environment}
    (henv : Holds allowed (P delivered) env) :
    Follows World.Extends env (Environment.compileConnections env).2 ∧
      (∀ compiled, (Environment.compileConnections env).1 = .ok compiled →
        Holds allowed (P (delivered ++ targets compiled))
          (Environment.compileConnections env).2) ∧
      ∀ e, (Environment.compileConnections env).1 = .error e →
        (Environment.compileConnections env).2.world = env.world := by
  obtain ⟨hfollows, hok⟩ := h.compileBatches env.batchLimit [] henv
  unfold Environment.compileConnections
  dsimp only
  rcases hres : Environment.atomically (Environment.compileBatches [] env.batchLimit) env
    with ⟨e | compiled, env'⟩
  · obtain ⟨-, hback⟩ := Environment.atomically_error (congrArg Prod.fst hres)
    rw [hres] at hback
    have hworld := hfollows.world.rollback_eq (h.sound henv.world)
    rw [hworld] at hback
    dsimp only at hback
    have hregion : env'.world.context.region = env.world.context.region := by
      rw [hback]
      exact (Context.rollback_region _ _).trans hfollows.world.region
    -- Symbols and objects are rolled back, the connections that waited wait again, and
    -- the region was set back by every source.
    have hsame : ({ env'.world with context := { env.world.context with
        region := env'.world.context.region } } : World) = env.world := by
      rw [hregion, hback]
    dsimp only
    rw [hsame]
    refine ⟨⟨World.extends_advances.refl _, ?_, ?_⟩, fun _ hc => absurd hc (by simp),
      fun _ _ => rfl⟩
    · rw [hback]
      exact congrArg (fun e : Environment => { e with world := env.world }) hfollows.same
    · rw [hback]
      exact hfollows.pipeline
  · have heq := Environment.atomically_ok (congrArg Prod.fst hres)
    rw [hres] at heq
    rw [← heq] at hfollows hok
    refine ⟨hfollows, fun compiled' hc => ?_, fun e he => absurd he (by simp)⟩
    obtain ⟨more, hmore, hholds⟩ := hok compiled rfl
    cases hc
    rw [hmore]
    exact hholds

end Sustained

/-! ## Filling an environment -/

namespace Sustained

open Environment (Holds Ready)

variable {ε : Type}

/-- An operation on the world that keeps an assertion, as an action. -/
theorem onWorld_keeps {δ α : Type} {Q : World → Prop} {fault : δ → ε}
    {op : World → Except δ α × World} (h : ∀ w, Q w → Q (op w).2) :
    Keeps (Holds allowed Q) (Environment.onWorld fault op) :=
  fun env henv => ⟨h env.world henv.world, henv.ready.functions, henv.ready.pipeline,
    henv.ready.fastOps⟩

theorem declare_keeps (h : Sustained may allowed P) {name : String} {kind : Symbol.Kind}
    (hd : may name kind) :
    Keeps (Holds allowed (P delivered)) (Environment.onSymbols (·.declare name kind)) :=
  onWorld_keeps fun _ hw => h.declare hw hd

theorem aliasTokens_keeps (h : Sustained may allowed P) :
    Keeps (Holds allowed (P delivered)) Environment.aliasTokens := by
  refine .bind .get fun env => .bind (.forM_of_mem fun rename hrename => ?_) fun _ =>
    .bind .get fun _ => .pure _
  obtain ⟨token, -, htoken⟩ := List.mem_filterMap.mp hrename
  obtain ⟨name, escaped⟩ := rename
  have hescaped : escaped = Environment.escapeName name := by
    dsimp only at htoken
    split at htoken
    · exact absurd htoken (by simp)
    · cases htoken
      rfl
  subst hescaped
  exact .bind (onWorld_keeps fun _ hw => h.byname hw) fun _ => .pure _

theorem withFunctions_keeps (h : Sustained may allowed P) {functions : CompilerFunctions}
    (hnames : ∀ name ∈ functions.names, may name .compilerFunction) (hallowed : allowed functions) :
    Keeps (Holds allowed (P delivered)) (Environment.withFunctions functions) := by
  refine .bind (.forM_of_mem fun name hname =>
    .bind (h.declare_keeps (hnames name hname)) fun _ => .pure _) fun _ =>
    .modify fun env henv => ⟨henv.world, ?_, ?_, henv.ready.fastOps⟩
  · intro fs hfs
    cases hfs
    exact hallowed
  · intro p hp
    exact absurd hp (by simp)

/-! ### Scripts -/

/-- An operation on the symbols, as a step of building scripts. -/
theorem build_onSymbols_keeps {δ α : Type} {Q : SymbolTable → Prop} {fault : δ → StageError}
    {op : SymbolTable → Except δ α × SymbolTable} (h : ∀ t, Q t → Q (op t).2) :
    Keeps Q (Scripts.onSymbols fault op) :=
  fun t ht => h t ht

theorem parsed_keeps {Q : SymbolTable → Prop} (text : String) : Keeps Q (Scripts.parsed text) := by
  unfold Scripts.parsed
  split
  · exact .pure _
  · exact .throw _

theorem declareMany_keeps (h : Sustained may allowed P) (w : World) (names : List String) :
    ∀ t, w.At (P delivered) t → w.At (P delivered) (t.declareMany names .parameter).2 := by
  induction names with
  | nil => exact fun _ ht => ht
  | cons name rest ih =>
    intro t ht
    have hstep : w.At (P delivered) (t.declare name .parameter).2 :=
      h.declare ht (h.ordinary (.inr (.inr rfl)))
    rw [SymbolTable.declareMany]
    rcases hdec : t.declare name .parameter with ⟨e | id, t'⟩ <;> rw [hdec] at hstep
    · exact hstep
    · exact ih t' hstep

/-- Declaring a header keeps the assertion if its name may be that of a script. -/
theorem declareHeader_keeps (h : Sustained may allowed P) (w : World) {header : String}
    (body : String)
    (hmay : ∀ tree head, Rule.parse header = .ok tree →
      Scripts.Header.ofTree? tree = some head → may head.name .scriptedFunction) :
    Keeps (w.At (P delivered)) (Scripts.declareHeader header body) := by
  unfold Scripts.declareHeader Scripts.parsed
  rcases htree : Rule.parse header with e | tree
  · exact .throw _
  · rw [pure_bind]
    rcases hhead : Scripts.Header.ofTree? tree with _ | head
    · exact .throw _
    · refine .bind .get fun symbols => ?_
      dsimp only
      split
      · exact .pure _
      · exact .bind (build_onSymbols_keeps fun _ ht =>
            h.declare ht (hmay tree head htree hhead)) fun _ =>
          .bind (build_onSymbols_keeps (h.declareMany_keeps w head.params)) fun _ => .pure _

theorem declareHeaders_keeps (h : Sustained may allowed P) (w : World)
    {declarations : List (String × String)} (done : List Scripts.Declared)
    (hmay : ∀ declaration ∈ declarations, ∀ tree head, Rule.parse declaration.1 = .ok tree →
      Scripts.Header.ofTree? tree = some head → may head.name .scriptedFunction) :
    Keeps (w.At (P delivered)) (Scripts.declareHeaders done declarations) := by
  induction declarations generalizing done with
  | nil => exact .pure _
  | cons declaration rest ih =>
    have hrest := fun done => ih done fun d hd => hmay d (List.mem_cons_of_mem _ hd)
    refine .bind (h.declareHeader_keeps w declaration.2 (hmay _ List.mem_cons_self))
      fun declared => ?_
    cases declared with
    | some declared => exact hrest _
    | none => exact hrest _

theorem tree_keeps (h : Sustained may allowed P) (w : World) (tree : Rule.Tree) :
    Keeps (w.At (P delivered)) tree.lower :=
  have hdeclare : ∀ {name kind}, may name kind →
      Keeps (w.At (P delivered)) (Lowering.declare name kind) := by
    intro name kind hd t ht
    rw [Lowering.declare_snd]
    exact h.declare ht hd
  Conducts.keeps (tree.lower_conducts (keeping_advances _)
    (fun _ => .of_keeps (hdeclare (h.ordinary (.inl rfl))))
    (fun _ => .of_keeps (hdeclare (h.ordinary (.inr (.inl rfl))))))

theorem lowerBodies_keeps (h : Sustained may allowed P) (w : World) (scripts : Scripts)
    (declared : List Scripts.Declared) :
    Keeps (w.At (P delivered)) (Scripts.lowerBodies scripts declared) := by
  induction declared generalizing scripts with
  | nil => exact .pure _
  | cons declared rest ih =>
    rw [Scripts.lowerBodies]
    split
    · exact ih _
    · exact .bind (parsed_keeps _) fun tree =>
        .bind (build_onSymbols_keeps (h.tree_keeps w tree)) fun _ => ih _

theorem withScripts_keeps (h : Sustained may allowed P) {declarations : List (String × String)}
    (hmay : ∀ declaration ∈ declarations, ∀ tree head, Rule.parse declaration.1 = .ok tree →
      Scripts.Header.ofTree? tree = some head → may head.name .scriptedFunction) :
    Keeps (Holds allowed (P delivered)) (Environment.withScripts declarations) := by
  have hbuild : ∀ w : World, Keeps (w.At (P delivered)) (Scripts.build declarations) := fun w =>
    .bind (h.declareHeaders_keeps w [] hmay) fun _ => h.lowerBodies_keeps w _ _
  exact .bind (onWorld_keeps fun w hw => hbuild w w.symbols hw) fun _ =>
    .modify fun _ henv => ⟨henv.world, henv.ready.functions, henv.ready.pipeline,
      henv.ready.fastOps⟩

theorem lower_keeps (h : Sustained may allowed P) (text : String) :
    Keeps (Holds allowed (P delivered)) (Environment.lower text) := by
  unfold Environment.lower
  split
  · exact .throw _
  · exact onWorld_keeps fun w hw => h.tree_keeps w _ w.symbols hw

/-! ## Conversations -/

theorem told_holds {α : Type} {action : Compiling StageError α} {Q : World → Prop}
    (hk : Keeps (Holds allowed Q) action) (answer : Except StageError α → Answer)
    {env : Environment} (henv : Holds allowed Q env) :
    Holds allowed Q (Environment.told answer action env).2 :=
  hk env henv

end Sustained

/-- A request that declares what may be declared, brings compiler functions that are allowed,
and gives no pointers. -/
def Request.Ordinary (may : String → Symbol.Kind → Prop) (allowed : CompilerFunctions → Prop) :
    Request → Prop
  | .builtIns _ | .tokens _ | .settings _ => False
  | .scripts declarations => ∀ declaration ∈ declarations, ∀ tree head,
      Rule.parse declaration.1 = .ok tree → Scripts.Header.ofTree? tree = some head →
        may head.name .scriptedFunction
  | .functions table => (∀ name ∈ table.names, may name .compilerFunction) ∧ allowed table
  | _ => True

namespace Sustained

open Environment (Holds Ready)

/-- The answers to ordinary requests leave an assertion true, for the destinations they
deliver. -/
theorem respond (h : Sustained may allowed P) {env : Environment}
    (henv : Holds allowed (P delivered) env) {request : Request}
    (hordinary : request.Ordinary may allowed) :
    Holds allowed (P (delivered ++ (env.respond request).1.delivered)) (env.respond request).2 := by
  have hnothing : ∀ {env' : Environment}, Holds allowed (P delivered) env' →
      Holds allowed (P (delivered ++ [])) env' := by
    intro env' henv'
    rw [List.append_nil]
    exact henv'
  cases request with
  | builtIns _ | tokens _ | settings _ => exact hordinary.elim
  | aliases => exact hnothing (told_holds h.aliasTokens_keeps .count henv)
  | scripts declarations => exact hnothing (told_holds (h.withScripts_keeps hordinary) .done henv)
  | functions functions =>
    exact hnothing (told_holds (h.withFunctions_keeps hordinary.1 hordinary.2) .done henv)
  | settingValues values =>
    exact hnothing ⟨henv.world, henv.ready.functions, nofun, henv.ready.fastOps⟩
  | region region =>
    exact hnothing ⟨h.region region henv.world, henv.ready.functions, henv.ready.pipeline,
      henv.ready.fastOps⟩
  | passNames =>
    have huse : (Environment.passNames env).2 = { env with pipeline := some env.kept } :=
      congrArg Prod.snd (Environment.usePipeline_eq env)
    refine hnothing ?_
    show Holds allowed (P delivered) (Environment.passNames env).2
    rw [huse, henv.ready.kept]
    exact ⟨henv.world, henv.ready.functions, fun p hp => (Option.some.inj hp).symm,
      henv.ready.fastOps⟩
  | lower text => exact hnothing (told_holds (h.lower_keeps text) .node henv)
  | optimize node => exact hnothing (h.optimizeTraced henv node).2
  | codegen node => exact hnothing (h.codegen_holds henv node).2
  | compile text => exact hnothing (h.atomically (h.stages text) henv).2.1
  | source source => exact hnothing (h.atomically (h.compileStages source) henv).2.1
  | generated =>
    obtain ⟨hfollows, hok, herror⟩ := h.compileConnections henv
    show Holds allowed
      (P (delivered ++ (Answer.batch (Environment.compileConnections env).1).delivered))
      (Environment.compileConnections env).2
    rcases hres : (Environment.compileConnections env).1 with e | compiled
    · refine hnothing ⟨?_, hfollows.ready henv.ready⟩
      rw [herror e hres]
      exact henv.world
    · exact hok compiled hres
  | take => exact (h.takeConnections henv).2
  | freeze => exact hnothing henv

end Sustained

/-- A new environment is ready. -/
theorem Environment.ofConfig_ready (config : Config) : (ofConfig config).Ready allowed where
  functions _ hfs := absurd hfs (by simp [ofConfig])
  pipeline _ hp := absurd hp (by simp [ofConfig])
  fastOps := FastOps.enabled_grow config.fastOps

/-! ## Declared names -/

theorem SymbolTable.Declared.declaredAs {plain : String → Prop} {t t' : SymbolTable}
    (h : t.Declared plain t') : t.DeclaredAs (fun name _ => plain name) t' := by
  induction h with
  | nothing => exact .nothing
  | declare name kind _ hplain ih => exact .declare name kind ih hplain

/-! ## Maintained assertions -/

/-- Whether a name may be declared with a kind: plain names with every kind, and
all names with the kinds that rules give to what they do not know. -/
def Declarable (plain : String → Prop) (name : String) (kind : Symbol.Kind) : Prop :=
  plain name ∨ kind = .unknown ∨ kind = .function ∨ kind = .parameter

/-- An assertion about the world that holds throughout a conversation, whatever objects are
entered and whatever plain names are declared. -/
structure Maintained (plain : String → Prop) (P : List String → World → Prop) : Prop where
  sound : ∀ {delivered w}, P delivered w → w.Sound
  start : ∀ config, P [] (Environment.ofConfig config).world
  declare : ∀ {delivered w name kind}, P delivered w → Declarable plain name kind →
    P delivered { w with symbols := (w.symbols.declare name kind).2 }
  byname : ∀ {delivered w name}, P delivered w →
    P delivered { w with symbols := (w.symbols.bindAlias name (Environment.escapeName name)).2 }
  objects : ∀ {delivered w pool}, P delivered w → w.pool.Retains pool → P delivered { w with pool }
  region : ∀ {delivered w} region, P delivered w →
    P delivered { w with context := { w.context with region } }
  take : ∀ {delivered w}, P delivered w →
    P (delivered ++ destinations w.context.pending) { w with context := w.context.take.2 }
  generate : ∀ {delivered} origin rule,
    Conducts (P delivered) World.Grows (Elsewhere.generate origin rule)

namespace Maintained

open Environment (Holds)

variable {plain : String → Prop} {ε : Type}

theorem sustained (h : Maintained plain P) :
    Sustained (Declarable plain) (CompilerFunctions.DeclareOnly plain) P where
  sound := h.sound
  ordinary := .inr
  declare := h.declare
  byname := h.byname
  literals hw hinterns := h.objects hw (hinterns.toGrows.retains (h.sound hw).pool)
  functions := by
    intro delivered functions hf name function hfind args w hw
    obtain ⟨symbols, pool, hd, hpool, heq⟩ := hf name function hfind args w
    obtain ⟨hgrows, hkept⟩ := hd.declaredAs.conducted h.sound
      (fun hw hplain => h.declare hw (.inl hplain)) hw
    rw [heq]
    exact ⟨⟨hgrows, hpool, .refl _⟩,
      fun _ _ => h.objects hkept (hpool.retains (h.sound hw).pool)⟩
  region := h.region
  take := h.take
  generate := h.generate

theorem associate_keeps (h : Maintained plain P) (symbol : SymbolId) (pointer : Object) :
    Keeps (Holds allowed (P delivered)) (Environment.onPool (·.associate symbol pointer)) :=
  Sustained.onWorld_keeps fun _ hw =>
    have hp := (h.sound hw).pool
    h.objects hw ((ObjectPool.associate_step hp symbol pointer).grows.retains hp)

theorem define_keeps (h : Maintained plain P) (symbol : SymbolId) (pointer : Object)
    (signature : Signature) :
    Keeps (Holds allowed (P delivered)) (Environment.onPool (·.define symbol pointer signature)) :=
  Sustained.onWorld_keeps fun _ hw =>
    h.objects hw (ObjectPool.define_retains (h.sound hw).pool symbol pointer signature)

theorem addBuiltIn_keeps (h : Maintained plain P) {signature : Signature}
    (hplain : plain signature.name) :
    Keeps (Holds (CompilerFunctions.DeclareOnly plain) (P delivered))
      (Environment.addBuiltIn signature) :=
  .bind (h.sustained.declare_keeps (.inl hplain)) fun symbol => .bind .get fun _ =>
    .bind (h.define_keeps symbol _ signature) fun _ =>
      .modify fun _ henv => ⟨henv.world, henv.ready.functions, henv.ready.pipeline,
        henv.ready.fastOps⟩

theorem addToken_keeps (h : Maintained plain P) {name : String} (hplain : plain name) :
    Keeps (Holds (CompilerFunctions.DeclareOnly plain) (P delivered))
      (Environment.addToken name) :=
  .bind (h.sustained.declare_keeps (.inl hplain)) fun symbol =>
    .bind (h.associate_keeps symbol _) fun _ => .pure _

theorem addSetting_keeps (h : Maintained plain P) {name : String} (hplain : plain name) :
    Keeps (Holds (CompilerFunctions.DeclareOnly plain) (P delivered))
      (Environment.addSetting name) :=
  .bind (h.sustained.declare_keeps (.inl hplain)) fun symbol => .bind .get fun _ =>
    .bind (h.associate_keeps symbol _) fun _ =>
      .modify fun _ henv => ⟨henv.world, henv.ready.functions, henv.ready.pipeline,
        henv.ready.fastOps⟩

/-- Every answer leaves an assertion true, for the destinations it delivers. -/
theorem respond (h : Maintained plain P) {env : Environment}
    (henv : Holds (CompilerFunctions.DeclareOnly plain) (P delivered) env) {request : Request}
    (hplain : request.Plain plain) :
    Holds (CompilerFunctions.DeclareOnly plain) (P (delivered ++ (env.respond request).1.delivered))
      (env.respond request).2 := by
  have hnothing : ∀ {env' : Environment},
      Holds (CompilerFunctions.DeclareOnly plain) (P delivered) env' →
      Holds (CompilerFunctions.DeclareOnly plain) (P (delivered ++ [])) env' := by
    intro env' henv'
    rw [List.append_nil]
    exact henv'
  cases request with
  | builtIns signatures =>
    exact hnothing (Sustained.told_holds
      (.forM_of_mem fun s hs => h.addBuiltIn_keeps (hplain s hs)) .done henv)
  | tokens names =>
    exact hnothing (Sustained.told_holds
      (.forM_of_mem fun name hn => h.addToken_keeps (hplain name hn)) .done henv)
  | settings names =>
    exact hnothing (Sustained.told_holds
      (.forM_of_mem fun name hn => h.addSetting_keeps (hplain name hn)) .done henv)
  | scripts declarations =>
    exact h.sustained.respond henv fun declaration hmem tree head htree hhead =>
      .inl (hplain declaration hmem tree head htree hhead)
  | functions functions =>
    exact h.sustained.respond henv ⟨fun name hmem => .inl (hplain.1 name hmem), hplain.2⟩
  | _ => exact h.sustained.respond henv trivial

/-- What is maintained holds in every environment that a conversation reaches. -/
theorem reached (h : Maintained plain P) {answers : List Answer} {env : Environment}
    (hr : Environment.Reached (Request.Plain plain) answers env) :
    Holds (CompilerFunctions.DeclareOnly plain) (P (answers.reverse.flatMap Answer.delivered))
      env := by
  induction hr with
  | start config => exact ⟨h.start config, Environment.ofConfig_ready config⟩
  | step request _ hplain ih =>
    rw [List.reverse_cons, List.flatMap_append, List.flatMap_singleton]
    exact h.respond ih hplain

end Maintained

end Passage

import Passage.Proofs.Coherence

/-!
# No null is dereferenced

Code generation asks for the pointers of names that stand for values, and of functions that
are called. `ObjectPool.Backs` says that they are there; then code generation can fail in
many ways, but not for want of a pointer (`Drafting.visit_spares`). Environments in which
nothing was refused are coherent, so that none of their answers tells of such a failure.
-/

namespace Passage

open SymbolTable (IsGiven)

/-- A pointer was looked for and not found. -/
inductive CompileError.DereferencesNull : CompileError → Prop
  | pool (id : SymbolId) : DereferencesNull (.pool (.nullDereference id))

/-- The pool has the pointers that code over the symbols may ask for. -/
structure ObjectPool.Backs (p : ObjectPool) (symbols : SymbolTable) : Prop where
  pushable : ∀ {id s}, symbols.get? id = some s → Drafting.isPushable s.kind = true →
    p.hasPointer id = true
  defined : ∀ {id signature}, p.definitions.lookup id = some signature → p.hasPointer id = true

namespace ObjectPool

theorem push_ne_null (p : ObjectPool) (o : Object) (id : SymbolId) :
    (p.push o).1 ≠ .error (.nullDereference id) := by
  unfold push
  split <;> nofun

theorem internNumber_ne_null (p : ObjectPool) (x : Number) (id : SymbolId) :
    (p.internNumber x).1 ≠ .error (.nullDereference id) := by
  unfold internNumber
  split
  · nofun
  · next o _ =>
    split
    · nofun
    · have hpush := p.push_ne_null o id
      rcases hres : p.push o with ⟨e | index, p'⟩ <;> rw [hres] at hpush
      · exact fun h => hpush (congrArg Except.error (Except.error.inj h))
      · nofun

theorem internString_ne_null (p : ObjectPool) (s : String) (id : SymbolId) :
    (p.internString s).1 ≠ .error (.nullDereference id) := by
  unfold internString
  split
  · nofun
  · dsimp only
    split
    · nofun
    · split
      · nofun
      · have hpush := p.push_ne_null
          (.ofString ⟨UInt32.ofNat p.strings.size, UInt16.ofNat s.utf8ByteSize⟩) id
        rcases hres : p.push (.ofString ⟨UInt32.ofNat p.strings.size,
          UInt16.ofNat s.utf8ByteSize⟩) with ⟨e | index, p'⟩ <;> rw [hres] at hpush
        · exact fun h => hpush (congrArg Except.error (Except.error.inj h))
        · nofun

end ObjectPool

/-- A draft whose pool has the pointers and definitions of another one. -/
def Draft.Over (p : ObjectPool) (d : Draft) : Prop :=
  d.pool.pointers = p.pointers ∧ d.pool.definitions = p.definitions

/-- A step of code generation over a pool that fails for no want of a pointer. -/
abbrev Drafting.SparesNull {α : Type} (p : ObjectPool) (m : Drafting α) : Prop :=
  Spares (Draft.Over p) CompileError.DereferencesNull m

namespace Drafting

variable {symbols : SymbolTable} {p : ObjectPool}

theorem emit_spares (op : Opcode) (operands : Operands) : (emit op operands).SparesNull p :=
  fun _ h => ⟨nofun, fun _ _ => h⟩

theorem symbol_spares (id : SymbolId) : (symbol symbols id).SparesNull p := by
  unfold symbol
  split
  · exact .pure _
  · exact .throw nofun

theorem operandCount_spares (nodes : List Node) : (operandCount nodes).SparesNull p := by
  unfold operandCount
  dsimp only
  split
  · exact .pure _
  · exact .throw nofun

/-- Literals are refused for other reasons. -/
theorem pushConstant_spares {op : ObjectPool → Except PoolError ObjectIndex × ObjectPool}
    (hop : ∀ p : ObjectPool, p.Interns (op p).2)
    (herror : ∀ p : ObjectPool, ∀ id, (op p).1 ≠ .error (.nullDereference id)) :
    (pushConstant op).SparesNull p := by
  refine .bind (fun d hd => ?_) fun _ => .bind (fun _ h => ⟨nofun, fun _ _ => h⟩) fun _ =>
    emit_spares _ _
  obtain ⟨pool, assembler, consts, names⟩ := d
  have hinterns := hop pool
  have herror := herror pool
  rw [intern]
  rcases hres : op pool with ⟨e | index, pool'⟩ <;> rw [hres] at hinterns herror
  · refine ⟨fun e' he hnull => ?_, by simp⟩
    obtain rfl := Except.error.inj he
    cases hnull with
    | pool id => exact herror id rfl
  · exact ⟨by simp, fun _ _ =>
      ⟨hinterns.pointers_eq.trans hd.1, hinterns.definitions.trans hd.2⟩⟩

theorem pointerOf_spares {id : SymbolId} (h : p.hasPointer id = true) :
    (pointerOf symbols id).SparesNull p := by
  refine .bind (symbol_spares id) fun known d hd => ?_
  rw [bind_ok (get_apply d), ObjectPool.pointerFor, hd.1]
  obtain ⟨index, hindex⟩ := Option.isSome_iff_exists.mp h
  rw [hindex]
  exact ⟨by rintro _ ⟨⟩, fun _ _ => hd⟩

theorem pushIdentifier_spares (hp : p.Backs symbols) (id : SymbolId) :
    (pushIdentifier symbols id).SparesNull p := by
  refine .bind_of (Q := fun known => symbols.get? id = some known) (symbol_spares id) ?_ ?_
  · intro d _ known hknown
    exact (symbol_eq_ok (Prod.ext hknown rfl)).1
  · intro known hknown
    split
    · next hkind =>
      exact .bind (pointerOf_spares (hp.pushable hknown hkind)) fun _ =>
        .bind (emit_spares _ _) fun _ => .pure _
    · exact .throw nofun

theorem calleeName_spares (target : Node) (count : Nat) :
    (calleeName symbols target count).SparesNull p := by
  unfold calleeName
  split
  · exact .throw nofun
  · refine .bind (symbol_spares _) fun known => .bind .get fun d => ?_
    split
    · exact .throw nofun
    · split
      · exact .pure _
      · exact .throw nofun

/-- What is called has a pointer. -/
theorem calleeName_hasPointer (hp : p.Backs symbols) {target : Node} {count : Nat} {d : Draft}
    (hd : d.Over p) {callee : SymbolId × String}
    (h : (calleeName symbols target count d).1 = .ok callee) : p.hasPointer callee.1 = true := by
  obtain ⟨-, -, ⟨signature, hlookup, -⟩, -⟩ := calleeName_eq_ok (Prod.ext h rfl)
  rw [hd.2] at hlookup
  exact hp.defined hlookup

/-- Writing code does not fail for want of a pointer. -/
theorem upkeep_spares (hp : p.Backs symbols) :
    Upkeep (SparesNull p) symbols (fun _ => True) (p.hasPointer · = true) where
  pure := .pure
  bind := .bind
  emit := emit_spares
  count := operandCount_spares
  number value :=
    pushConstant_spares (ObjectPool.internNumber_interns · value) fun p id =>
      p.internNumber_ne_null value id
  text value :=
    pushConstant_spares (ObjectPool.internString_interns · value) fun p id =>
      p.internString_ne_null value id
  identifier _ := pushIdentifier_spares hp _
  pointer := pointerOf_spares
  callee _ hf := .bind_of (calleeName_spares _ _)
    (fun _ hd _ => calleeName_hasPointer hp hd) hf

end Drafting

/-- Compiling a node does not fail for want of a pointer. -/
theorem Node.compile_spares {p : ObjectPool} {symbols : SymbolTable} (hp : p.Backs symbols)
    (node : Node) (fast : Bool) {e : CompileError}
    (h : (node.compile symbols (.enabled fast) p).1 = .error e) : ¬ e.DereferencesNull := by
  have hupkeep := Drafting.upkeep_spares hp
  have hspares := (hupkeep.visit (hupkeep.enabled fast) node
    (node.mentions_of_forall fun _ => trivial) (.start p) ⟨rfl, rfl⟩).1
  unfold Node.compile at h
  rcases hres : (Drafting.visit symbols (.enabled fast) node).run.run (.start p) with
    ⟨e' | ⟨⟩, draft⟩ <;> rw [hres] at h
  · obtain rfl := Except.error.inj h
    exact hspares e' (congrArg Prod.fst hres)
  · exact absurd h nofun

/-! ## Answers of environments -/

/-- A stage failed for want of a pointer. -/
inductive StageError.DereferencesNull : StageError → Prop
  | compilation {e : CompileError} : e.DereferencesNull → DereferencesNull (.compilation e)

/-- The answer tells that code generation failed for want of a pointer. -/
inductive Answer.DereferencesNull : Answer → Prop
  | code {e : StageError} : e.DereferencesNull → DereferencesNull (.code (.error e))
  | compiled {e : StageError} : e.DereferencesNull → DereferencesNull (.compiled (.error e))
  | batch {e : StageError} : e.DereferencesNull → DereferencesNull (.batch (.error e))

theorem Drafting.isGiven_of_isPushable {kind : Symbol.Kind} (h : isPushable kind = true) :
    IsGiven kind := by
  unfold isPushable at h
  unfold IsGiven
  split at h <;> simp_all

/-- Coherent worlds have the pointers that code may ask for. -/
theorem World.Coherent.backs {b s : Nat} {w : World} (h : w.Coherent b s) :
    w.pool.Backs w.symbols where
  pushable hget hkind := by
    obtain ⟨o, ho⟩ := (h.provided hget (Drafting.isGiven_of_isPushable hkind)).pointer?
    obtain ⟨index, hindex, -⟩ := Option.bind_eq_some_iff.mp ho
    exact Option.isSome_iff_exists.mpr ⟨index, hindex⟩
  defined {id signature} hlookup := by
    obtain ⟨before, after, hsplit, -⟩ := List.lookup_eq_some_iff.mp hlookup
    exact h.pool.definitions (id, signature) (by rw [hsplit]; simp)

namespace Environment

/-- From a coherent environment, the action does not fail for want of a pointer, and leaves a
coherent one unless it fails. -/
abbrev SparesNull {α : Type} (action : Compiling StageError α) : Prop :=
  Spares Coherent StageError.DereferencesNull action

/-- An action that fails for other reasons, if it does what rules may do. -/
theorem spares_of_conducts {α : Type} {action : Compiling StageError α}
    (herror : ∀ env : Environment, env.Coherent →
      ∀ e, (action env).1 = .error e → ¬ e.DereferencesNull)
    (hstands : ∀ frame, Keeps (Stands frame) action)
    (hconducts : ∀ b s, Conducts (Holds CompilerFunctions.Equip
      (World.Coherent b s)) (Follows World.Grows) action) : SparesNull action :=
  fun env h => ⟨herror env h, fun a ha => h.of_standing (hstands env.standing env rfl)
    ((hconducts env.builtInCount env.settingCount env h.holds).2 a ha)⟩

/-- An operation on the world fails with a fault of its own. -/
theorem onWorld_error {ε δ α : Type} {fault : δ → ε} {op : World → Except δ α × World}
    {env : Environment} {e : ε} (h : (onWorld fault op env).1 = .error e) :
    ∃ d, (op env.world).1 = .error d ∧ e = fault d := by
  have hvalue : (op env.world).1.mapError fault = .error e := h
  rcases hop : (op env.world).1 with d | a <;> rw [hop] at hvalue
  · exact ⟨d, rfl, (Except.error.inj hvalue).symm⟩
  · exact absurd hvalue nofun

theorem lower_spares (text : String) : SparesNull (lower text) := by
  unfold lower
  split
  · exact .throw nofun
  · next tree _ =>
    refine spares_of_conducts (fun env _ e he => ?_) (fun _ => onWorld_stands _ _) fun b s =>
      onSymbols_conducts _ fun w => @Sustained.tree _ _ _ [] (World.Coherent.sustained b s) w tree
    obtain ⟨d, -, rfl⟩ := onWorld_error he
    nofun

theorem optimizeStage_error {env : Environment} {node : Node} {e : StageError}
    (h : (optimizeStage node env).1 = .error e) : ∃ d, e = .optimization d := by
  have hvalue : (optimize node env).1.mapError StageError.optimization = .error e := h
  rcases hop : (optimize node env).1 with d | a <;> rw [hop] at hvalue
  · exact ⟨d, (Except.error.inj hvalue).symm⟩
  · exact absurd hvalue nofun

theorem optimizeStage_spares (node : Node) : SparesNull (optimizeStage node) := by
  refine spares_of_conducts (fun env _ e he => ?_) (fun _ => optimizeStage_stands node)
    fun b s => @Sustained.optimizeStage _ _ _ [] (World.Coherent.sustained b s) node
  obtain ⟨d, rfl⟩ := optimizeStage_error he
  nofun

theorem optimizeIn_spares (region : Option String) (node : Node) :
    SparesNull (optimizeIn region node) := by
  refine spares_of_conducts (fun env _ e he => ?_) (fun _ => optimizeIn_stands region node)
    fun b s => @Sustained.optimizeIn _ _ _ [] (World.Coherent.sustained b s) region node
  obtain ⟨d, rfl⟩ := optimizeStage_error he
  nofun

theorem codegen_spares (node : Node) : SparesNull (codegen node) := by
  refine spares_of_conducts (fun env h e he => ?_) (fun _ => codegen_stands node)
    fun b s => @Sustained.codegen _ _ _ [] (World.Coherent.sustained b s) node
  have hcodegen : codegen node env = onWorld .compilation
    (World.onPool (node.compile env.world.symbols env.fastOps)) env := rfl
  rw [hcodegen] at he
  obtain ⟨d, hcompile, rfl⟩ := onWorld_error he
  rintro ⟨hnull⟩
  have hconfigured : env.fastOps = .enabled env.config.fastOps := h.configured
  have hfails : (node.compile env.world.symbols (.enabled env.config.fastOps)
      env.world.pool).1 = .error d := hconfigured ▸ hcompile
  exact node.compile_spares h.holds.world.backs _ hfails hnull

theorem compileStages_spares (source : Source) : SparesNull (compileStages source) := by
  have hrest : ∀ node, SparesNull (do
      let optimized ← optimizeIn source.origin node
      let code ← codegen optimized
      pure (⟨source, node, optimized, code⟩ : CompiledSource)) := fun node =>
    .bind (optimizeIn_spares _ node) fun _ => .bind (codegen_spares _) fun _ => .pure _
  unfold compileStages
  dsimp only
  split
  · exact hrest _
  · exact .bind (lower_spares _) hrest

theorem compileBatch_spares (done : List CompiledSource) (connections : List Connection) :
    SparesNull (compileBatch done connections) := by
  induction connections generalizing done with
  | nil => exact .pure _
  | cons connection rest ih =>
    exact .bind .get fun _ => .bind (compileStages_spares _) fun _ => ih _

theorem compileBatches_spares (done : List CompiledSource) (left : Nat) :
    SparesNull (compileBatches done left) := by
  induction left generalizing done with
  | zero => exact .pure _
  | succ left ih =>
    intro env h
    have htaken : (takeConnections env).2.Coherent := by
      obtain ⟨-, hholds⟩ := @Sustained.takeConnections _ _ _ []
        (World.Coherent.sustained env.builtInCount env.settingCount) _ h.holds
      exact h.of_standing rfl hholds
    rw [compileBatches_succ]
    split
    · exact ⟨nofun, fun _ _ => htaken⟩
    · exact (compileBatch_spares done _).bind ih _ htaken

/-- What is undone fails as it would fail otherwise. -/
theorem atomically_fst {ε α : Type} (action : Compiling ε α) (env : Environment) :
    (atomically action env).1 = (action env).1 := by
  unfold atomically
  rcases action env with ⟨e | a, env'⟩ <;> rfl

/-- Answers of coherent environments do not tell of null. -/
theorem Coherent.answers {env : Environment} (h : env.Coherent) (request : Request) :
    ¬ (env.respond request).1.DereferencesNull := by
  have hatomic : ∀ {α : Type} {action : Compiling StageError α}, SparesNull action →
      ∀ e, (atomically action env).1 = .error e → ¬ e.DereferencesNull := by
    intro α action haction e he
    rw [atomically_fst] at he
    exact (haction env h).1 e he
  cases request with
  | codegen node =>
    have htold : (env.respond (.codegen node)).1 = .code (codegen node env).1 := rfl
    rw [htold]
    rcases hres : (codegen node env).1 with e | code
    · intro hanswer
      cases hanswer with
      | code hnull => exact (codegen_spares node env h).1 e hres hnull
    · nofun
  | compile text =>
    have htold : (env.respond (.compile text)).1 = .code (compile text env).1 := rfl
    have hspares : SparesNull (do
        let node ← lower text
        let optimized ← optimizeStage node
        codegen optimized) :=
      .bind (lower_spares text) fun node => .bind (optimizeStage_spares node) codegen_spares
    rw [htold]
    rcases hres : (compile text env).1 with e | code
    · intro hanswer
      cases hanswer with
      | code hnull => exact hatomic hspares e hres hnull
    · nofun
  | source source =>
    have htold : (env.respond (.source source)).1 = .compiled (compileSource source env).1 := rfl
    rw [htold]
    rcases hres : (compileSource source env).1 with e | compiled
    · intro hanswer
      cases hanswer with
      | compiled hnull => exact hatomic (compileStages_spares source) e hres hnull
    · nofun
  | generated =>
    have htold : (env.respond .generated).1 = .batch (compileConnections env).1 := rfl
    rw [htold, (compileConnections_eq env).1]
    rcases hres : (compileBatches [] env.batchLimit env).1 with e | compiled
    · intro hanswer
      cases hanswer with
      | batch hnull => exact (compileBatches_spares [] env.batchLimit env h).1 e hres hnull
    · nofun
  | _ => nofun

end Environment

end Passage

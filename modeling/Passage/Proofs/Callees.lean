import Passage.Proofs.Correctness
import Passage.Proofs.Names
import Passage.Proofs.Pointers

/-!
# Functions go by their own names

Code that calls a function knows the symbol of the function, and the host knows its name. Both
are the same name. A function is defined for the symbol that its name is bound to, and what
is bound to a symbol is its own name or a by-name of it. By-names are written forms of token
names, so a name that is its own written form has none (`SymbolTable.Proper`). No rule and
no compiler function changes this, because neither binds by-names or defines functions
(`World.Named.sustained`).
-/

namespace Passage

/-! ## By-names -/

/-- A symbol whose name is its own written form goes by no other name. -/
structure SymbolTable.Proper (t : SymbolTable) : Prop extends t.Sound where
  proper : ∀ {name : String} {id : SymbolId} {s : Symbol}, t.names[name]? = some id →
    t.get? id = some s → Environment.escapeName s.name = s.name → name = s.name

namespace SymbolTable.Proper

variable {t : SymbolTable}

theorem empty : SymbolTable.empty.Proper where
  toSound := empty_sound
  proper _ h := absurd (get?_eq_some_lt h) (Nat.not_lt_zero _)

theorem declare (h : t.Proper) (name : String) (kind : Symbol.Kind) :
    (t.declare name kind).2.Proper where
  toSound := (declare_grows h.toSound name kind).sound h.toSound
  proper := by
    intro name' id s hname hget hwritten
    obtain ⟨e, hd⟩ | ⟨known, -, -, hd⟩ | ⟨known, refined, hl, -, -, hd⟩ | ⟨-, -, hd⟩ :=
      declare_cases h.toSound name kind <;> rw [hd] at hname hget
    · exact h.proper hname hget hwritten
    · exact h.proper hname hget hwritten
    · obtain ⟨-, hknown⟩ := names_of_lookup? h.toSound hl
      rw [get?_refined _ hknown] at hget
      by_cases hid : id = known.id
      · rw [if_pos hid] at hget
        rw [hid] at hname
        obtain rfl := Option.some.inj hget
        exact h.proper (s := known) hname hknown hwritten
      · rw [if_neg hid] at hget
        exact h.proper hname hget hwritten
    · simp only [appended, Std.ExtTreeMap.getElem?_insert, Std.LawfulEqCmp.compare_eq_iff_eq]
        at hname
      simp only [get?, appended, Array.getElem?_push] at hget
      by_cases hnew : name = name'
      · rw [if_pos hnew] at hname
        rw [if_pos (Option.some.inj hname).symm] at hget
        rw [← Option.some.inj hget, hnew]
      · rw [if_neg hnew] at hname
        have hold : id < t.symbols.size := h.bound hname
        rw [if_neg (Nat.ne_of_lt hold)] at hget
        exact h.proper hname hget hwritten

theorem declareMany (h : t.Proper) (names : List String) (kind : Symbol.Kind) :
    (t.declareMany names kind).2.Proper := by
  induction names generalizing t with
  | nil => exact h
  | cons name rest ih =>
    have hstep := h.declare name kind
    rw [SymbolTable.declareMany]
    rcases hd : t.declare name kind with ⟨e | id, t'⟩ <;> rw [hd] at hstep
    · exact hstep
    · exact ih hstep

/-- A written form is bound to the symbol of the name that it is written for. -/
theorem byname (h : t.Proper) (name : String) :
    (t.bindAlias name (Environment.escapeName name)).2.Proper where
  toSound := (bindAlias_grows t name _).sound h.toSound
  proper := by
    intro name' id s hname hget hwritten
    unfold bindAlias at hname hget
    rcases hid : t.names[name]? with _ | target <;> rw [hid] at hname hget
    · exact h.proper hname hget hwritten
    rcases hbound : t.names[Environment.escapeName name]? with _ | existing <;>
      rw [hbound] at hname hget <;> dsimp only at hname hget
    · rw [Std.ExtTreeMap.getElem?_insert] at hname
      simp only [Std.LawfulEqCmp.compare_eq_iff_eq] at hname
      by_cases hnew : Environment.escapeName name = name'
      · rw [if_pos hnew] at hname
        obtain rfl := Option.some.inj hname
        -- The name that the written form is made of is the symbol's own, and so is the form.
        have hown : name = s.name := h.proper hid hget hwritten
        rw [← hnew, hown, hwritten]
      · rw [if_neg hnew] at hname
        exact h.proper hname hget hwritten
    · split at hname <;> split at hget <;> exact h.proper hname hget hwritten

theorem initial : Environment.initialSymbols.Proper :=
  (empty.declareMany Environment.globalNames .global).declareMany _ _

end SymbolTable.Proper

/-! ## Definitions -/

/-- Functions are defined for the symbols that their names are bound to. -/
structure World.Named (w : World) : Prop where
  symbols : w.symbols.Proper
  pool : w.pool.Sound
  named : ∀ entry ∈ w.pool.definitions, w.symbols.names[entry.2.name]? = some entry.1

namespace World.Named

variable {w : World}

theorem sound (h : w.Named) : w.Sound := ⟨h.symbols.toSound, h.pool⟩

theorem start (config : Config) : (Environment.ofConfig config).world.Named where
  symbols := .initial
  pool := ObjectPool.empty_sound
  named _ h := absurd h List.not_mem_nil

/-- Names that are bound stay bound. -/
theorem declared (h : w.Named) {symbols : SymbolTable} (hproper : symbols.Proper)
    (hg : w.symbols.Grows symbols) : World.Named { w with symbols } :=
  ⟨hproper, h.pool, fun entry hentry => hg.names (h.named entry hentry)⟩

theorem declare (h : w.Named) (name : String) (kind : Symbol.Kind) :
    World.Named { w with symbols := (w.symbols.declare name kind).2 } :=
  h.declared (h.symbols.declare name kind)
    (SymbolTable.declare_grows h.symbols.toSound name kind)

theorem declare_ok (h : w.Named) {name : String} {kind : Symbol.Kind} {id : SymbolId}
    {symbols : SymbolTable} (hd : w.symbols.declare name kind = (.ok id, symbols)) :
    World.Named { w with symbols } := by
  have hnext := h.declare name kind
  rwa [hd] at hnext

theorem entered (h : w.Named) {pool : ObjectPool} (hg : w.pool.Grows pool) :
    World.Named { w with pool } :=
  ⟨h.symbols, hg.sound h.pool, fun entry hentry => h.named entry (hg.definitions ▸ hentry)⟩

theorem associate (h : w.Named) {symbol : SymbolId} {pointer : Object} {index : ObjectIndex}
    {pool : ObjectPool} (ha : w.pool.associate symbol pointer = (.ok index, pool)) :
    World.Named { w with pool } := by
  have hstep := ObjectPool.associate_step h.pool symbol pointer
  rw [ha] at hstep
  exact h.entered hstep.grows

theorem context (h : w.Named) (context : Context) : World.Named { w with context } :=
  ⟨h.symbols, h.pool, h.named⟩

/-- A function is defined for the symbol that was declared under its name. -/
theorem function (h : w.Named) {signature : Signature} {pointer : Object} {id : SymbolId}
    {symbols : SymbolTable} {index : ObjectIndex} {pool : ObjectPool}
    (hd : w.symbols.declare signature.name .builtInFunction = (.ok id, symbols))
    (hp : w.pool.define id pointer signature = (.ok index, pool)) :
    World.Named { w with symbols, pool } := by
  have hdeclared := h.declare_ok hd
  have hretains := ObjectPool.define_retains h.pool id pointer signature
  rw [hp] at hretains
  obtain ⟨p₁, hassociate, rfl⟩ := ObjectPool.define_eq_ok hp
  obtain ⟨sym, hname, -, rfl⟩ := SymbolTable.declare_knows h.symbols.toSound (.inl rfl) hd
  exact ⟨hdeclared.symbols, hretains.sound,
    ObjectPool.forall_putDefinition (hdeclared.associate hassociate).named
      (SymbolTable.names_of_lookup? hdeclared.symbols.toSound hname).1⟩

theorem generate (h : w.Named) {origin : String} {rule node : Node} {w' : World}
    (hok : Elsewhere.generate origin rule w = (.ok node, w')) : w'.Named := by
  obtain ⟨symbols, hdeclared, hrest⟩ := Elsewhere.generate_eq_ok h.sound hok
  obtain ⟨-, hnext⟩ := hdeclared.conducted (fun h => h.sound) (fun h _ => h.declare _ _) h
  obtain rfl | ⟨token, symbols', index, pool, -, htoken, hindex, rfl⟩ := hrest
  · exact hnext
  · exact ((hnext.declare_ok htoken).associate hindex).context _

/-- Rules and compiler functions bind no by-names and define no functions. -/
theorem sustained (l : Latitude) (hl : l.Ample) :
    Sustained (fun _ kind => l.declares kind) (CompilerFunctions.Within l) fun _ w => w.Named where
  sound h := h.sound
  ordinary _ := hl.declares _
  declare h _ := h.declare _ _
  byname h := h.declared (h.symbols.byname _) (SymbolTable.bindAlias_grows _ _ _)
  literals h hi := h.entered hi.toGrows
  functions := by
    intro _ functions hwithin name function hfind args w h
    obtain ⟨symbols, pool, hdeclared, hpool, -, heq⟩ :=
      hwithin name function hfind args w h.sound
    obtain ⟨hgrows, hnext⟩ := hdeclared.conducted (fun h => h.sound) (fun h _ => h.declare _ _) h
    rw [heq]
    exact ⟨⟨hgrows, hpool, .refl _⟩, fun _ _ => hnext.entered hpool⟩
  region _ h := h.context _
  take h := h.context _
  generate origin rule w h :=
    ⟨(Elsewhere.generate_conducts origin rule w h.sound).1, fun _ hok =>
      h.generate (Prod.ext hok rfl)⟩

end World.Named

/-! ## Environments -/

namespace Environment

variable {l : Latitude}

/-- Functions stay named when names with pointers come in. -/
theorem addBuiltIn_named (signature : Signature) :
    Keeps (Holds (CompilerFunctions.Within l) World.Named) (addBuiltIn signature) := by
  intro env h
  obtain ⟨e, hadd⟩ | ⟨id, symbols, index, pool, hd, hp, hadd⟩ :=
    addBuiltIn_cases h.world.pool signature <;> rw [hadd]
  · exact ⟨h.world.declare _ _, h.ready.functions, h.ready.pipeline, h.ready.fastOps⟩
  · exact ⟨h.world.function hd hp, h.ready.functions, h.ready.pipeline, h.ready.fastOps⟩

theorem addToken_named (name : String) :
    Keeps (Holds (CompilerFunctions.Within l) World.Named) (addToken name) := by
  intro env h
  obtain ⟨e, hadd⟩ | ⟨id, symbols, index, pool, hd, hp, hadd⟩ :=
    addToken_cases h.world.pool name <;> rw [hadd]
  · exact ⟨h.world.declare _ _, h.ready.functions, h.ready.pipeline, h.ready.fastOps⟩
  · exact ⟨(h.world.declare_ok hd).associate hp, h.ready.functions, h.ready.pipeline,
      h.ready.fastOps⟩

theorem addSetting_named (name : String) :
    Keeps (Holds (CompilerFunctions.Within l) World.Named) (addSetting name) := by
  intro env h
  obtain ⟨e, hadd⟩ | ⟨id, symbols, index, pool, hd, hp, hadd⟩ :=
    addSetting_cases h.world.pool name <;> rw [hadd]
  · exact ⟨h.world.declare _ _, h.ready.functions, h.ready.pipeline, h.ready.fastOps⟩
  · exact ⟨(h.world.declare_ok hd).associate hp, h.ready.functions, h.ready.pipeline,
      h.ready.fastOps⟩

/-- Every answer leaves the functions named. -/
theorem named_respond (hl : l.Ample) {env : Environment}
    (h : Holds (CompilerFunctions.Within l) World.Named env) {request : Request}
    (hwithin : request.Within l) :
    Holds (CompilerFunctions.Within l) World.Named (env.respond request).2 := by
  have hrules : request.Ordinary (fun _ kind => l.declares kind) (CompilerFunctions.Within l) →
      Holds (CompilerFunctions.Within l) World.Named (env.respond request).2 :=
    @Sustained.respond _ _ _ [] (World.Named.sustained l hl) env h request
  cases request with
  | builtIns signatures => exact Keeps.forM_of_mem (fun _ _ => addBuiltIn_named _) env h
  | tokens names => exact Keeps.forM_of_mem (fun _ _ => addToken_named _) env h
  | settings names => exact Keeps.forM_of_mem (fun _ _ => addSetting_named _) env h
  | scripts declarations => exact hrules fun _ _ _ _ _ _ => hl.declares _
  | functions functions => exact hrules ⟨fun _ _ => hl.declares _, hwithin⟩
  | _ => exact hrules trivial

theorem named_of_reached (hl : l.Ample) {answers : List Answer} {env : Environment}
    (hr : Reached (Request.Within l) answers env) :
    Holds (CompilerFunctions.Within l) World.Named env := by
  induction hr with
  | start config => exact ⟨World.Named.start config, ofConfig_ready config⟩
  | step request _ hwithin ih => exact named_respond hl ih hwithin

end Environment

/-- The signature of a symbol that is named in its written form goes by that name. -/
theorem World.Named.signature_name {w : World} (h : w.Named) {symbol : SymbolId} {name : String}
    (hname : w.symbols.nameOf? symbol = some name) (hwritten : Environment.escapeName name = name)
    {signature : Signature} (hd : w.pool.definitions.lookup symbol = some signature) :
    signature.name = name := by
  obtain ⟨s, hget, rfl⟩ := Option.map_eq_some_iff.mp hname
  exact h.symbols.proper (h.named (symbol, signature) (ObjectPool.mem_of_lookup hd)) hget hwritten

end Passage

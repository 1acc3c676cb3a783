import Passage.Proofs.Atomicity
import Passage.Proofs.Framing
import Passage.Proofs.Scoping
import Passage.Proofs.Scripting

/-!
# Conversations about trees

A host is handed trees, and may ask about them later. Between, other rules are compiled, some
of them in vain, and what they declared is undone, so that the numbers of their symbols are
given again to other names. `Environment.Hosted` is a conversation in which the host passes on
trees that it was handed, with all environments on the way. Throughout such a conversation
the trees that an environment holds or has handed out are made of its symbols
(`Environment.Scoped`), which are still called what they were called then.
-/

namespace Passage

/-! ## Trees -/

/-- All symbols in the node are symbols of both tables, under the same names. -/
def Node.NamedAlike (before now : SymbolTable) (node : Node) : Prop :=
  node.Each fun part => ∀ id, part = .identifier id →
    ∃ s s', before.get? id = some s ∧ now.get? id = some s' ∧ s'.name = s.name

/-- Symbols that persist name what they named. -/
theorem Node.Below.namedAlike {before now : SymbolTable} {node : Node}
    (h : node.Below before.size) (hp : before.Persists now) : node.NamedAlike before now := by
  refine h.imp fun hpart id hid => ?_
  obtain ⟨s, hs⟩ := SymbolTable.get?_of_lt (hpart id hid)
  obtain ⟨s', hs', hname⟩ := hp id s hs
  exact ⟨s, s', hs, hs', hname⟩

theorem SymbolTable.Persists.size {before now : SymbolTable} (h : before.Persists now) :
    before.size ≤ now.size := by
  by_contra hlt
  obtain ⟨s, hs⟩ := get?_of_lt (Nat.lt_of_not_le hlt)
  obtain ⟨s', hs', -⟩ := h now.size s hs
  exact Nat.lt_irrefl _ (get?_eq_some_lt hs')

/-- The trees of a scripted function: its body, and its names. -/
def Script.trees (script : Script) : List Node :=
  script.body :: (script.symbol :: script.params).map .identifier

/-- The trees that an environment holds. -/
def Environment.trees (env : Environment) : List Node :=
  env.scripts.entries.flatMap (fun entry => entry.2.trees) ++
    env.world.context.pending.toList.map (·.rule)

/-- The trees of a run that has not failed. -/
def PipelineRun.trees (r : PipelineRun) : List Node :=
  match r.result with
  | .ok node => node :: r.done.map (·.node)
  | .error _ => []

/-- The trees of a compiled rule. -/
def CompiledSource.trees (compiled : CompiledSource) : List Node :=
  compiled.node :: compiled.optimized :: compiled.source.node.toList

/-- The trees that an answer hands out. -/
def Answer.trees : Answer → List Node
  | .node (.ok tree) => [tree]
  | .run outcome => outcome.trees
  | .compiled (.ok rule) => rule.trees
  | .batch (.ok sources) => sources.flatMap CompiledSource.trees
  | .connections taken => taken.toList.map (·.rule)
  | _ => []

/-! ## Hosts -/

/-- A request about trees that are known, by a host that knows the first symbols of the table:
its compiler functions build nodes of these, of the arguments and of what they declare. -/
def Request.Given (known : List Node) (n : Nat) : Request → Prop
  | .optimize tree | .codegen tree => tree ∈ known
  | .source origin => ∀ tree, origin.node = some tree → tree ∈ known
  | .functions table => table.DeclareOnly (fun _ => True) ∧ table.Scoped n
  | _ => True

namespace Environment

/-- The trees that a host has met with. -/
def handed (history : List (Answer × Environment)) : List Node :=
  history.flatMap fun past => past.1.trees ++ past.2.trees

theorem mem_handed {history : List (Answer × Environment)} {past : Answer × Environment}
    (hpast : past ∈ history) {tree : Node} (h : tree ∈ past.1.trees ++ past.2.trees) :
    tree ∈ handed history :=
  List.mem_flatMap.mpr ⟨past, hpast, h⟩

/-- The environments that a host reaches who passes on the trees it has met with. The history
has all answers on the way, each with the environment that it left, the last one first. -/
inductive Hosted : List (Answer × Environment) → Environment → Prop
  | start (config : Config) : Hosted [] (ofConfig config)
  | step {history : List (Answer × Environment)} {env : Environment} (request : Request) :
      Hosted history env → request.Given (handed history) env.world.symbols.size →
      Hosted (env.respond request :: history) (env.respond request).2

end Environment

/-! ## Actions on an environment -/

/-- A stage has stopped at an unknown symbol. -/
def StageError.IsUnknown : StageError → Prop
  | .optimization (.unknownSymbol _) | .compilation (.unknownSymbol _) => True
  | _ => False

/-! ## Declaring scripts -/

/-- Several names that are declared get declared symbols. -/
theorem SymbolTable.declareMany_lt {t : SymbolTable} (ht : t.Sound) {names : List String}
    {kind : Symbol.Kind} {ids : List SymbolId} (h : (t.declareMany names kind).1 = .ok ids) :
    ∀ id ∈ ids, id < (t.declareMany names kind).2.size := by
  induction names generalizing t ids with
  | nil =>
    obtain rfl := Except.ok.inj h
    exact List.forall_mem_nil _
  | cons name rest ih =>
    have hgrows := declare_grows ht name kind
    rw [SymbolTable.declareMany] at h ⊢
    rcases hd : t.declare name kind with ⟨e | id, t'⟩ <;> rw [hd] at h hgrows
    · simp at h
    · have hsound := hgrows.sound ht
      have hmore := (declareMany_grows hsound rest kind).symbols
      rcases hids : (t'.declareMany rest kind).1 with e | ids' <;>
        dsimp only at h hsound hmore ⊢ <;>
        rw [hids] at h
      · cases h
      · obtain rfl := Except.ok.inj h
        exact List.forall_mem_cons.mpr
          ⟨Nat.lt_of_lt_of_le (lt_of_declare ht hd) hmore, ih hsound hids⟩

/-- An operation that lets the table grow. -/
theorem SymbolTable.grows_leads {ε α : Type} {op : SymbolTable → Except ε α × SymbolTable}
    (h : ∀ t : SymbolTable, t.Sound → t.Grows (op t).2) {n : Nat} {first : SymbolTable}
    {Q : SymbolTable → α → Prop}
    (hanswer : ∀ (t : SymbolTable) a, t.Sound → (op t).1 = .ok a → Q (op t).2 a) :
    (SymbolTable.scope (fun _ => True) n).Leads first Q op := by
  intro t ht _
  have hgrows := h t ht.1
  refine ⟨fun e t' he => ?_, fun a t' hok => ?_⟩
  · obtain rfl := congrArg Prod.snd he
    exact ⟨trivial, hgrows.sound ht.1, Nat.le_trans ht.2 hgrows.symbols⟩
  · have hq := hanswer t a ht.1 (congrArg Prod.fst hok)
    obtain rfl := congrArg Prod.snd hok
    exact ⟨⟨hgrows.sound ht.1, Nat.le_trans ht.2 hgrows.symbols⟩, hgrows.symbols, hq⟩

namespace Scripts

variable {n : Nat} {first : SymbolTable}

/-- Scripts are built without optimizing or compiling, so that no symbol is missed. -/
abbrev scope (n : Nat) : Regime SymbolTable StageError :=
  SymbolTable.scope (fun e => ¬ e.IsUnknown) n

theorem Below.insert {scripts : Scripts} (h : scripts.Below n) (name : String) {script : Script}
    (hscript : script.Below n) : (scripts.insert name script).Below n := by
  unfold Scripts.insert
  split
  · exact h
  · exact List.forall_mem_append.mpr ⟨h, List.forall_mem_singleton.mpr hscript⟩

theorem Below.insertAll {scripts other : Scripts} (h : scripts.Below n) (h' : other.Below n) :
    (scripts.insertAll other).Below n := by
  unfold Scripts.insertAll
  obtain ⟨entries⟩ := other
  induction entries generalizing scripts with
  | nil => exact h
  | cons entry rest ih =>
    obtain ⟨hentry, hrest⟩ := List.forall_mem_cons.mp h'
    exact ih (h.insert entry.1 hentry) hrest

theorem onSymbols_leads {ε α : Type} {Q : SymbolTable → α → Prop} {fault : ε → StageError}
    {op : SymbolTable → Except ε α × SymbolTable}
    (hop : (SymbolTable.scope (fun _ => True) n).Leads first Q op)
    (hfault : ∀ e, ¬ (fault e).IsUnknown) :
    (scope n).Leads first Q (Scripts.onSymbols fault op) := by
  intro t ht hon
  obtain ⟨herror, hok⟩ := hop t ht hon
  refine ⟨fun e t' he => ?_, fun a t' hok' => hok a t' (onSymbols_eq_ok hok')⟩
  have hafter : (op t).2 = t' := congrArg Prod.snd he
  obtain ⟨d, hd, rfl⟩ := error_of_mapError (congrArg Prod.fst he)
  exact ⟨hfault d, (herror d t' (Prod.ext hd hafter)).2⟩

theorem parsed_leads (text : String) : (scope n).Leads first (fun _ _ => True) (parsed text) := by
  unfold parsed
  split
  · exact .pure fun _ _ _ => trivial
  · exact .throw fun _ ht _ => ⟨id, ht⟩

/-- The header is declared with symbols of the table. -/
structure Declared.Below (n : Nat) (declared : Declared) : Prop where
  symbol : declared.symbol < n
  params : ∀ id ∈ declared.params, id < n

theorem Declared.Below.mono {m : Nat} {declared : Declared} (h : declared.Below n) (hle : n ≤ m) :
    declared.Below m :=
  ⟨Nat.lt_of_lt_of_le h.symbol hle, fun id hid => Nat.lt_of_lt_of_le (h.params id hid) hle⟩

theorem declareHeader_leads (header body : String) : (scope n).Leads first
    (fun t declared => ∀ d, declared = some d → d.Below t.size) (declareHeader header body) := by
  refine .bind (parsed_leads header) fun t tree _ _ _ => ?_
  split
  · exact .throw fun _ ht _ => ⟨id, ht⟩
  · next head _ =>
    refine .bind .get fun _ _ _ _ _ => ?_
    dsimp only
    split
    · exact .pure fun _ _ _ _ => nofun
    · have hsymbol : ∀ {first : SymbolTable}, (scope n).Leads first (fun t id => id < t.size)
          (Scripts.onSymbols .symbols (·.declare head.name .scriptedFunction)) :=
        onSymbols_leads (SymbolTable.grows_leads (fun t ht => SymbolTable.declare_grows ht _ _)
          fun t id ht hok => SymbolTable.lt_of_declare ht (Prod.ext hok rfl)) fun _ => id
      have hparams : ∀ {first : SymbolTable}, (scope n).Leads first
          (fun t ids => ∀ id ∈ ids, id < t.size)
          (Scripts.onSymbols .symbols (·.declareMany head.params .parameter)) :=
        onSymbols_leads (SymbolTable.grows_leads (fun t ht => SymbolTable.declareMany_grows ht _ _)
          fun t ids ht hok => SymbolTable.declareMany_lt ht hok) fun _ => id
      refine .bind hsymbol fun t₁ symbol _ _ hs => .bind hparams fun t₂ params _ hon hp =>
        .pure fun t₃ _ hon' d hd => ?_
      obtain rfl := Option.some.inj hd
      exact ⟨Nat.lt_of_lt_of_le hs (Nat.le_trans hon hon'),
        fun id hid => Nat.lt_of_lt_of_le (hp id hid) hon'⟩

theorem declareHeaders_leads (declarations : List (String × String)) {done : List Declared}
    (hdone : ∀ d ∈ done, d.Below first.size) :
    (scope n).Leads first (fun t headers => ∀ d ∈ headers, d.Below t.size)
      (declareHeaders done declarations) := by
  induction declarations generalizing first done with
  | nil => exact .pure fun _ _ hon d hd => (hdone d (List.mem_reverse.mp hd)).mono hon
  | cons declaration rest ih =>
    refine .bind (declareHeader_leads declaration.1 declaration.2) fun t declared _ hon hd => ?_
    have hkept := fun d hmem => (hdone d hmem).mono hon
    cases declared with
    | some declared => exact ih (List.forall_mem_cons.mpr ⟨hd declared rfl, hkept⟩)
    | none => exact ih hkept

theorem lowerBodies_leads (headers : List Declared) {scripts : Scripts}
    (hscripts : scripts.Below first.size) (hheaders : ∀ d ∈ headers, d.Below first.size) :
    (scope n).Leads first (fun t scripts => scripts.Below t.size)
      (lowerBodies scripts headers) := by
  induction headers generalizing first scripts with
  | nil => exact .pure fun _ _ hon => hscripts.mono hon
  | cons declared rest ih =>
    obtain ⟨hdeclared, hrest⟩ := List.forall_mem_cons.mp hheaders
    rw [lowerBodies]
    split
    · exact ih hscripts hrest
    · refine .bind (parsed_leads declared.body) fun t₁ tree _ hon₁ _ =>
        .bind (onSymbols_leads tree.lower_leads fun _ => id) fun t₂ body _ hon₂ hbody => ?_
      have hon : first.size ≤ t₂.size := Nat.le_trans hon₁ hon₂
      refine ih ?_ fun d hd => (hrest d hd).mono hon
      have hscript := hdeclared.mono hon
      exact (hscripts.mono hon).insert declared.name ⟨hscript.symbol, hscript.params, hbody⟩

/-- Scripts are built of declared symbols. -/
theorem build_leads (declarations : List (String × String)) :
    (scope n).Leads first (fun t scripts => scripts.Below t.size) (build declarations) :=
  .bind (declareHeaders_leads declarations nofun) fun _ headers _ _ hheaders =>
    lowerBodies_leads headers nofun hheaders

end Scripts

namespace Environment

/-- An environment that holds no trees but of its own symbols. -/
structure Scoped (env : Environment) : Prop where
  world : env.world.Scoped
  scripts : env.scripts.Below env.world.symbols.size
  functions : ∀ fs, env.functions = some fs →
    fs.DeclareOnly (fun _ => True) ∧ fs.Scoped env.world.symbols.size
  pipeline : ∀ p, env.pipeline = some p → p = env.newPipeline
  configured : env.Configured

/-- Such environments, with symbols that may become more. No action stops at an unknown symbol,
and a failing one leaves no other tree. -/
def scope : Regime Environment StageError where
  holds := Scoped
  onward env env' := env.world.symbols.size ≤ env'.world.symbols.size
  fails e env := ¬ e.IsUnknown ∧ env.Scoped
  advances := ⟨fun _ => Nat.le_refl _, Nat.le_trans⟩

/-- The symbols in the node are symbols of the environment. -/
abbrev Covers (env : Environment) (node : Node) : Prop := env.world.Covers node

namespace Scoped

variable {env : Environment}

theorem start (config : Config) : (ofConfig config).Scoped where
  world := ⟨⟨SymbolTable.initial_sound, ObjectPool.empty_sound⟩, fun _ hc =>
    absurd hc (Array.not_mem_empty _)⟩
  scripts := fun _ hmem => absurd hmem List.not_mem_nil
  functions := nofun
  pipeline := nofun
  configured := rfl

theorem onward (h : env.Scoped) {world : World} (hw : world.Scoped)
    (hsize : env.world.symbols.size ≤ world.symbols.size) : Scoped { env with world } where
  world := hw
  scripts := h.scripts.mono hsize
  functions fs hfs := (h.functions fs hfs).imp id (·.mono hsize)
  pipeline := h.pipeline
  configured := h.configured

theorem holds (h : env.Scoped) :
    Holds (CompilerFunctions.DeclareOnly fun _ => True) (World.SoundAt []) env where
  world := h.world.toSound
  ready := by
    refine ⟨fun fs hfs => (h.functions fs hfs).1, h.pipeline, ?_⟩
    rw [h.configured]
    exact FastOps.enabled_grow env.config.fastOps

theorem withRegion (h : env.Scoped) (region : Option String) : (env.withRegion region).Scoped :=
  h.onward ⟨⟨h.world.symbols, h.world.pool⟩, h.world.pending⟩ (Nat.le_refl _)

/-- The passes keep trees within the symbols of the environment. -/
theorem passes (h : env.Scoped) : ∀ pass ∈ env.newPipeline.passes,
    (pass.rules env.scripts).Scoped env.world.symbols.size := by
  intro pass hpass
  obtain ⟨kind, -, hkind⟩ := List.mem_filterMap.mp hpass
  exact Pass.scoped_of_ofKind? h.scripts h.functions hkind

/-- What follows from an environment is as well scoped as its world. -/
theorem follows (h : env.Scoped) {R : World → World → Prop} {env' : Environment}
    (hf : Follows R env env') (hw : env'.world.Scoped)
    (hsize : env.world.symbols.size ≤ env'.world.symbols.size) : env'.Scoped := by
  have hready := hf.ready h.holds.ready
  have hnext := h.onward hw hsize
  have hsame := hf.same
  exact ⟨hw, by rw [hsame]; exact hnext.scripts, by rw [hsame]; exact hnext.functions,
    hready.pipeline, by rw [hsame]; exact hnext.configured⟩

end Scoped

section Operations

variable {first : Environment} {α ε : Type}

/-- An operation on the symbols leads in the environment where it leads in the table. -/
theorem onSymbols_leads {may : ε → Prop} {Q : SymbolTable → α → Prop} {fault : ε → StageError}
    {op : SymbolTable → Except ε α × SymbolTable}
    (hop : ∀ n first, (SymbolTable.scope may n).Leads first Q op)
    (hfault : ∀ e, may e → ¬ (fault e).IsUnknown) :
    scope.Leads first (fun env a => Q env.world.symbols a)
      (onWorld fault (World.onSymbols op)) := by
  intro env henv _
  obtain ⟨herror, hok⟩ := hop env.world.symbols.size env.world.symbols env.world.symbols
    ⟨henv.world.symbols, Nat.le_refl _⟩ (Nat.le_refl _)
  have hnext : ∀ {symbols : SymbolTable}, symbols.Sound →
      env.world.symbols.size ≤ symbols.size → Scoped { env with
        world := { env.world with symbols } } :=
    fun hs hsize => henv.onward (henv.world.grown hs hsize henv.world.pool) hsize
  refine ⟨fun e env' he => ?_, fun a env' hok' => ?_⟩
  · obtain ⟨d, hd, rfl⟩ := error_of_mapError (congrArg Prod.fst he)
    obtain rfl := congrArg Prod.snd he
    obtain ⟨hmay, hs, hsize⟩ := herror d (op env.world.symbols).2 (Prod.ext hd rfl)
    exact ⟨hfault d hmay, hnext hs hsize⟩
  · have ha := ok_of_mapError (congrArg Prod.fst hok')
    obtain rfl := congrArg Prod.snd hok'
    obtain ⟨⟨hs, hsize⟩, -, hq⟩ := hok a (op env.world.symbols).2 (Prod.ext ha rfl)
    exact ⟨hnext hs hsize, hsize, hq⟩

/-- Lowering builds trees of declared symbols. -/
theorem lower_leads (text : String) : scope.Leads first Covers (lower text) := by
  unfold lower
  split
  · exact .throw fun _ h _ => ⟨id, h⟩
  · exact onSymbols_leads (fun _ _ => Rule.Tree.lower_leads _) fun _ _ => id

/-- A pool that stays sound, with no fault about symbols. -/
theorem codegen_leads {node : Node} (hnode : first.Covers node) :
    scope.Leads first (fun _ _ => True) (codegen node) := by
  intro env henv hon
  have hinterns := (node.compile_interns env.world.symbols
    (FastOps.enabled_grow env.config.fastOps) henv.world.pool).1
  have hknows := (hnode.mono hon).compile env.config.fastOps env.world.pool
  rw [← henv.configured] at hinterns hknows
  have hnext : Scoped (codegen node env).2 :=
    henv.onward (henv.world.grown henv.world.symbols (Nat.le_refl _)
      (hinterns.sound henv.world.pool)) (Nat.le_refl _)
  refine ⟨fun e env' he => ?_, fun _ env' hok => ?_⟩
  · obtain ⟨d, hd, rfl⟩ := error_of_mapError (congrArg Prod.fst he)
    rw [he] at hnext
    refine ⟨fun hunknown => ?_, hnext⟩
    cases d with
    | unknownSymbol id => exact hknows id hd
    | _ => exact hunknown
  · obtain rfl := congrArg Prod.snd hok
    exact ⟨hnext, Nat.le_refl _, trivial⟩

theorem optimized_ok (env : Environment) {node node' : Node}
    (h : (env.optimized node).1.result = .ok node') :
    env.optimized node = env.kept.run env.scripts node env.world := by
  unfold optimized at h ⊢
  dsimp only at h ⊢
  split at h
  · rfl
  · next herror => exact absurd (herror.symm.trans h) nofun

theorem optimized_fst (env : Environment) (node : Node) :
    (env.optimized node).1 = (env.kept.run env.scripts node env.world).1 := by
  unfold optimized
  dsimp only
  split <;> rfl

/-- What optimizing leaves: a well-scoped environment, and a run that has failed for another
reason than an unknown symbol, or whose trees are made of the symbols there. -/
theorem Scoped.optimizeTraced {env : Environment} (h : env.Scoped) {node : Node}
    (hnode : env.Covers node) :
    (optimizeTraced node env).2.Scoped ∧
      env.world.symbols.size ≤ (optimizeTraced node env).2.world.symbols.size ∧
      (∀ id, (optimizeTraced node env).1.result ≠ .error (.unknownSymbol id)) ∧
      ∀ tree ∈ (optimizeTraced node env).1.trees, (optimizeTraced node env).2.Covers tree := by
  have hsustained := World.sound_maintained.sustained
  obtain ⟨hfollows, -⟩ := hsustained.optimizeTraced h.holds node
  have hled := Pipeline.run_led (G := World.scope env.world.symbols.size) env.newPipeline
    World.numbers_keeps h.passes ⟨h.world, Nat.le_refl _⟩ hnode
  rw [← h.holds.ready.kept] at hled
  have hback := (hsustained.optimized h.holds node).2.2
  rw [optimizeTraced_eq] at hfollows ⊢
  dsimp only at hfollows ⊢
  rcases hres : (env.optimized node).1.result with e | node'
  · have hrun := env.optimized_fst node
    have hworld := hback e hres
    rw [hrun] at hres
    have hsame := h.follows hfollows (hworld.symm ▸ h.world) (Nat.le_of_eq (hworld ▸ rfl))
    refine ⟨hsame, Nat.le_of_eq (hworld ▸ rfl), fun id hid => ?_, ?_⟩
    · obtain rfl := Except.error.inj hid
      exact hled.fails _ hres id rfl
    · rw [hrun, PipelineRun.trees, hres]
      exact nofun
  · have hrun := env.optimized_ok hres
    rw [hrun] at hres hfollows ⊢
    obtain ⟨hscoped, hsize⟩ := hled.holds node' hres
    obtain ⟨hnode', hdone⟩ := hled.trees node' hres
    refine ⟨h.follows hfollows hscoped hsize, hsize, fun _ => nofun, ?_⟩
    rw [PipelineRun.trees, hres]
    refine List.forall_mem_cons.mpr ⟨hnode', fun tree htree => ?_⟩
    obtain ⟨step, hstep, rfl⟩ := List.mem_map.mp htree
    exact hdone step hstep

theorem optimizeStage_leads {node : Node} (hnode : first.Covers node) :
    scope.Leads first Covers (optimizeStage node) := by
  intro env henv hon
  obtain ⟨hnext, hsize, herror, htrees⟩ := henv.optimizeTraced (hnode.mono hon)
  refine ⟨fun e env' he => ?_, fun node' env' hok => ?_⟩
  · obtain ⟨d, hd, rfl⟩ := error_of_mapError (congrArg Prod.fst he)
    obtain rfl := congrArg Prod.snd he
    refine ⟨fun hunknown => ?_, hnext⟩
    cases d with
    | unknownSymbol id => exact herror id hd
    | _ => exact hunknown
  · have hres := ok_of_mapError (congrArg Prod.fst hok)
    obtain rfl := congrArg Prod.snd hok
    have hfirst : (Environment.optimizeTraced node env).1.result = .ok node' := hres
    refine ⟨hnext, hsize, htrees node' ?_⟩
    rw [PipelineRun.trees, hfirst]
    exact List.mem_cons_self

theorem optimizeIn_leads (region : Option String) {node : Node} (hnode : first.Covers node) :
    scope.Leads first Covers (optimizeIn region node) := by
  intro env henv hon
  let inside := if region.isSome then env.withRegion region else env
  have hinside : ∃ r, inside = env.withRegion r := by
    by_cases hr : region.isSome
    · exact ⟨region, if_pos hr⟩
    · exact ⟨env.world.context.region, if_neg hr⟩
  obtain ⟨r, hr⟩ := hinside
  have hcovers : (env.withRegion r).Covers node := hnode.mono hon
  obtain ⟨herror, hok⟩ := optimizeStage_leads hcovers inside (hr ▸ henv.withRegion r)
    (Nat.le_of_eq (hr ▸ rfl))
  have hout : optimizeIn region node env = ((optimizeStage node inside).1,
      (optimizeStage node inside).2.withRegion env.world.context.region) := rfl
  rw [hout]
  refine ⟨fun e env' he => ?_, fun node' env' hok' => ?_⟩
  · have hfault : (optimizeStage node inside).1 = .error e := congrArg Prod.fst he
    obtain rfl := congrArg Prod.snd he
    obtain ⟨hknown, hnext⟩ := herror e _ (Prod.ext hfault rfl)
    exact ⟨hknown, hnext.withRegion _⟩
  · have hvalue : (optimizeStage node inside).1 = .ok node' := congrArg Prod.fst hok'
    obtain rfl := congrArg Prod.snd hok'
    obtain ⟨hnext, hsize, hnode'⟩ := hok node' _ (Prod.ext hvalue rfl)
    have hsymbols : inside.world.symbols = env.world.symbols := hr ▸ rfl
    exact ⟨hnext.withRegion _, Nat.le_trans (Nat.le_of_eq (congrArg (·.size) hsymbols.symm)) hsize,
      hnode'⟩

/-- The trees of compiled sources are made of symbols of the environment. -/
def CoversAll (env : Environment) (sources : List CompiledSource) : Prop :=
  ∀ compiled ∈ sources, ∀ tree ∈ compiled.trees, env.Covers tree

theorem CoversAll.mono {env env' : Environment} {sources : List CompiledSource}
    (h : env.CoversAll sources) (hon : scope.onward env env') : env'.CoversAll sources :=
  fun compiled hc tree htree => (h compiled hc tree htree).mono hon

theorem compileStages_leads {source : Source}
    (hsource : ∀ node, source.node = some node → first.Covers node) :
    scope.Leads first (fun env compiled => ∀ tree ∈ compiled.trees, env.Covers tree)
      (compileStages source) := by
  -- The given tree, if there is one, is a tree of the result.
  have hrest : ∀ {env : Environment} {node : Node}, scope.onward first env → env.Covers node →
      scope.Leads env (fun env compiled => ∀ tree ∈ compiled.trees, env.Covers tree) (do
        let optimized ← optimizeIn source.origin node
        let code ← codegen optimized
        pure (⟨source, node, optimized, code⟩ : CompiledSource)) := by
    intro env node hon hnode
    refine .bind (optimizeIn_leads source.origin hnode) fun env₁ optimized _ hon₁ hoptimized =>
      .bind (codegen_leads hoptimized) fun env₂ code _ hon₂ _ => .pure fun env₃ _ hon₃ => ?_
    have hlater : scope.onward env env₃ := Nat.le_trans hon₁ (Nat.le_trans hon₂ hon₃)
    refine List.forall_mem_cons.mpr ⟨hnode.mono hlater,
      List.forall_mem_cons.mpr ⟨hoptimized.mono (Nat.le_trans hon₂ hon₃), fun tree htree => ?_⟩⟩
    exact (hsource tree (Option.mem_toList.mp htree)).mono (Nat.le_trans hon hlater)
  unfold compileStages
  dsimp only
  split
  · next node hnode => exact hrest (Nat.le_refl _) (hsource node hnode)
  · exact .bind (lower_leads source.text) fun env node _ hon hnode => hrest hon hnode

theorem compileBatch_leads (connections : List Connection) {done : List CompiledSource}
    (hc : ∀ c ∈ connections, first.Covers c.rule) (hdone : first.CoversAll done) :
    scope.Leads first CoversAll (compileBatch done connections) := by
  induction connections generalizing first done with
  | nil => exact .pure fun env _ hon => hdone.mono hon
  | cons connection rest ih =>
    obtain ⟨hfirst, hrest⟩ := List.forall_mem_cons.mp hc
    refine .bind .get fun env env' _ hon _ => ?_
    have hsource : ∀ node, (connection.source env'.world.symbols).node = some node →
        env.Covers node :=
      fun node hnode => Option.some.inj hnode ▸ hfirst.mono hon
    refine .bind (compileStages_leads hsource) fun env₁ compiled _ hon₁ hcompiled => ?_
    exact ih (fun c hmem => (hrest c hmem).mono (Nat.le_trans hon hon₁))
      (List.forall_mem_cons.mpr ⟨hcompiled, hdone.mono (Nat.le_trans hon hon₁)⟩)

/-- Connections that are taken lead to rules of declared symbols. -/
theorem takeConnections_leads : scope.Leads first
    (fun env taken => ∀ c ∈ taken, env.Covers c.rule)
    (monadLift takeConnections : Compiling StageError (Array Connection)) := by
  intro env henv _
  refine ⟨fun e env' he => absurd (congrArg Prod.fst he) nofun, fun taken env' hok => ?_⟩
  obtain rfl : env.world.context.pending = taken := Except.ok.inj (congrArg Prod.fst hok)
  obtain rfl := congrArg Prod.snd hok
  exact ⟨henv.onward ⟨⟨henv.world.symbols, henv.world.pool⟩, fun _ hc =>
    absurd hc (Array.not_mem_empty _)⟩ (Nat.le_refl _), Nat.le_refl _, henv.world.pending⟩

theorem compileBatches_leads (left : Nat) {done : List CompiledSource}
    (hdone : first.CoversAll done) : scope.Leads first CoversAll (compileBatches done left) := by
  have hreverse : ∀ {env : Environment} {done : List CompiledSource}, env.CoversAll done →
      scope.Leads env CoversAll (pure done.reverse) :=
    fun h => .pure fun _ _ hon compiled hmem =>
      (h.mono hon) compiled (List.mem_reverse.mp hmem)
  induction left generalizing first done with
  | zero => exact hreverse hdone
  | succ left ih =>
    rw [compileBatches]
    refine .bind takeConnections_leads fun env batch _ hon hbatch => ?_
    split
    · exact hreverse (hdone.mono hon)
    · refine .bind
        (compileBatch_leads batch.toList (fun c hc => hbatch c (Array.mem_toList_iff.mp hc))
        (hdone.mono hon)) fun env₁ done' _ _ hdone' => ih hdone'

/-- An action that is undone if it fails leaves no more trees than it did. -/
theorem atomically_leads {Q : Environment → α → Prop} {action : Compiling StageError α}
    (h : scope.Leads first Q action)
    (hgrows : Conducts (Holds (CompilerFunctions.DeclareOnly fun _ => True) (World.SoundAt []))
      (Follows World.Grows) action) : scope.Leads first Q (atomically action) := by
  intro env henv hon
  obtain ⟨hfollows, -, hback⟩ := World.sound_maintained.sustained.atomically hgrows henv.holds
  obtain ⟨herror, hok⟩ := h env henv hon
  refine ⟨fun e env' he => ?_, fun a env' hok' => ?_⟩
  · have hworld := hback e (congrArg Prod.fst he)
    have hfault := (atomically_error (congrArg Prod.fst he)).1
    rw [he] at hfollows hworld
    refine ⟨(herror e _ (Prod.ext hfault rfl)).1, ?_⟩
    exact henv.follows hfollows (hworld ▸ henv.world) (Nat.le_of_eq (hworld ▸ rfl))
  · exact hok a env' ((atomically_ok (congrArg Prod.fst hok')).symm.trans hok')

end Operations

/-! ## Answers -/

namespace Scoped

variable {env : Environment}

/-- The answer leaves a well-scoped environment, and hands out trees of its symbols. -/
def After (outcome : Answer × Environment) : Prop :=
  outcome.2.Scoped ∧ ∀ tree ∈ outcome.1.trees, outcome.2.Covers tree

theorem told (h : env.Scoped) {α : Type} {Q : Environment → α → Prop}
    {action : Compiling StageError α} (haction : scope.Leads env Q action)
    {answer : Except StageError α → Answer} (herror : ∀ e, (answer (.error e)).trees = [])
    (hok : ∀ {env a}, Q env a → ∀ tree ∈ (answer (.ok a)).trees, env.Covers tree) :
    After (Environment.told answer action env) := by
  obtain ⟨hfails, hleads⟩ := haction env h (Nat.le_refl _)
  unfold Environment.told
  rcases hres : action.run.run env with ⟨e | a, env'⟩
  · refine ⟨(hfails e env' hres).2, ?_⟩
    rw [show (answer (.error e, env').1).trees = [] from herror e]
    exact List.forall_mem_nil _
  · obtain ⟨hnext, -, hq⟩ := hleads a env' hres
    exact ⟨hnext, hok hq⟩

/-- A name was declared, and given a pointer. -/
theorem supplies {name : String} {kind : Symbol.Kind} {env' : Environment} (h : env.Scoped)
    (hs : env.Supplies name kind env') : env'.Scoped := by
  obtain ⟨pool, functions, settings, hpool, rfl⟩ := hs
  have hgrows := SymbolTable.declare_grows h.world.symbols name kind
  have hnext := h.onward (h.world.grown (hgrows.sound h.world.symbols) hgrows.symbols hpool)
    hgrows.symbols
  exact ⟨hnext.world, hnext.scripts, hnext.functions, hnext.pipeline, hnext.configured⟩

/-- Names are given pointers one by one. -/
theorem supplied (h : env.Scoped) {α : Type} {add : α → Compiling StageError Unit}
    (hadd : ∀ a {env : Environment}, env.Scoped → (add a env).2.Scoped) (as : List α) :
    After (Environment.told .done (as.forM add) env) := by
  have hkeeps : (as.forM add env).2.Scoped :=
    Keeps.forM_of_mem (P := Scoped) (fun a _ _ henv => hadd a henv) env h
  exact ⟨hkeeps, fun _ htree => absurd htree List.not_mem_nil⟩

/-- Written forms are bound to the symbols of their names. -/
theorem aliasTokens_leads {first : Environment} :
    scope.Leads first (fun _ _ => True) aliasTokens := by
  refine .bind .get fun _ _ _ _ _ => .bind (.forM_of_mem fun rename _ first => ?_) fun _ _ _ _ _ =>
    .bind .get fun _ _ _ _ _ => .pure fun _ _ _ => trivial
  have hbind : ∀ {n : Nat} {first : SymbolTable}, (SymbolTable.scope (fun _ => True) n).Leads first
      (fun _ _ => True) (·.bindAlias rename.1 rename.2) :=
    SymbolTable.grows_leads (fun _ _ => SymbolTable.bindAlias_grows _ _ _) fun _ _ _ _ => trivial
  exact .bind (onSymbols_leads (fun _ _ => hbind) fun _ _ => id) fun _ _ _ _ _ =>
    .pure fun _ _ _ => trivial

/-- Scripts are declared with bodies of declared symbols. -/
theorem withScripts_leads {first : Environment} (declarations : List (String × String)) :
    scope.Leads first (fun _ _ => True) (withScripts declarations) := by
  refine .bind (onSymbols_leads (fun _ _ => Scripts.build_leads declarations) fun _ => id)
    fun env built henv _ hbuilt env' henv' hon => ?_
  refine ⟨fun _ _ he => absurd (congrArg Prod.fst he) nofun, fun _ env'' hok => ?_⟩
  obtain rfl := congrArg Prod.snd hok
  have hscripts := henv'.scripts.insertAll (hbuilt.mono hon)
  exact ⟨⟨henv'.world, hscripts, henv'.functions, henv'.pipeline, henv'.configured⟩,
    Nat.le_refl _, trivial⟩

/-- Compiler functions are taken that know what the host knew. -/
theorem withFunctions_leads {first : Environment} {functions : CompilerFunctions}
    (honly : functions.DeclareOnly fun _ => True)
    (hscoped : functions.Scoped first.world.symbols.size) :
    scope.Leads first (fun _ _ => True) (withFunctions functions) := by
  have hdeclare : ∀ (name : String) (first : Environment), scope.Leads first (fun _ _ => True) (do
      let _ ← onSymbols (·.declare name .compilerFunction)
      pure ()) := by
    intro name first
    have hdeclared : ∀ {n : Nat} {first : SymbolTable},
        (SymbolTable.scope (fun _ => True) n).Leads first (fun _ _ => True)
          (·.declare name .compilerFunction) :=
      SymbolTable.grows_leads (fun _ ht => SymbolTable.declare_grows ht _ _) fun _ _ _ _ => trivial
    exact .bind (onSymbols_leads (fun _ _ => hdeclared) fun _ _ => id) fun _ _ _ _ _ =>
      .pure fun _ _ _ => trivial
  refine .bind (.forM_of_mem fun name _ first => hdeclare name first)
    fun env _ henv hon _ env' henv' hon' => ?_
  refine ⟨fun _ _ he => absurd (congrArg Prod.fst he) nofun, fun _ env'' hok => ?_⟩
  obtain rfl := congrArg Prod.snd hok
  refine ⟨⟨henv'.world, henv'.scripts, fun fs hfs => ?_, nofun, henv'.configured⟩,
    Nat.le_refl _, trivial⟩
  obtain rfl := Option.some.inj hfs
  exact ⟨honly, hscoped.mono (Nat.le_trans hon hon')⟩

theorem compileConnections_after (h : env.Scoped) :
    After (Environment.told .batch compileConnections env) := by
  obtain ⟨hfollows, -, hback⟩ :=
    World.sound_maintained.sustained.compileConnections h.holds
  obtain ⟨hresult, hkept⟩ := compileConnections_eq env
  have hnone : env.CoversAll [] := nofun
  obtain ⟨-, hok⟩ := compileBatches_leads env.batchLimit hnone env h (Nat.le_refl _)
  have htold : Environment.told .batch compileConnections env =
    (.batch (compileConnections env).1, (compileConnections env).2) := rfl
  rw [htold]
  rcases hres : (compileConnections env).1 with e | compiled
  · have hworld := hback e hres
    refine ⟨h.follows hfollows (hworld ▸ h.world) (Nat.le_of_eq (hworld ▸ rfl)), ?_⟩
    exact fun _ htree => absurd htree List.not_mem_nil
  · have hbatches := hresult.symm.trans hres
    rw [hkept compiled hbatches]
    obtain ⟨hnext, -, hcovers⟩ := hok compiled _ (Prod.ext hbatches rfl)
    refine ⟨hnext, fun tree htree => ?_⟩
    obtain ⟨source, hsource, hmem⟩ := List.mem_flatMap.mp htree
    exact hcovers source hsource tree hmem

/-- Every answer to a host that passes on trees of the environment leaves the environment well
scoped, and hands out trees of its symbols. -/
theorem respond (h : env.Scoped) {known : List Node} (hknown : ∀ tree ∈ known, env.Covers tree)
    {request : Request} (hgiven : request.Given known env.world.symbols.size) :
    After (env.respond request) := by
  have hsustained := World.sound_maintained.sustained
  cases request with
  | builtIns signatures =>
    exact h.supplied
      (fun signature _ h => h.supplies (addBuiltIn_supplies h.world.toSound signature))
      signatures
  | tokens names =>
    exact h.supplied (fun name _ h => h.supplies (addToken_supplies h.world.toSound name)) names
  | settings names =>
    exact h.supplied (fun name _ h => h.supplies (addSetting_supplies h.world.toSound name)) names
  | aliases => exact h.told aliasTokens_leads (fun _ => rfl) fun _ => List.forall_mem_nil _
  | scripts declarations =>
    exact h.told (withScripts_leads declarations) (fun _ => rfl) fun _ => List.forall_mem_nil _
  | functions table =>
    exact h.told (withFunctions_leads hgiven.1 hgiven.2) (fun _ => rfl) fun _ =>
      List.forall_mem_nil _
  | settingValues values =>
    exact ⟨⟨h.world, h.scripts, h.functions, fun p hp => (by cases hp), h.configured⟩,
      List.forall_mem_nil _⟩
  | region region => exact ⟨h.withRegion region, List.forall_mem_nil _⟩
  | passNames =>
    have huse : env.respond .passNames =
        (.names env.kept.names, { env with pipeline := some env.kept }) := by
      show (Answer.names (usePipeline env).1.names, (usePipeline env).2) = _
      rw [usePipeline_eq]
    rw [huse, h.holds.ready.kept]
    exact ⟨⟨h.world, h.scripts, h.functions, fun p hp => (Option.some.inj hp).symm, h.configured⟩,
      List.forall_mem_nil _⟩
  | lower text =>
    exact h.told (lower_leads text) (fun _ => rfl) fun hnode => List.forall_mem_singleton.mpr hnode
  | optimize node =>
    obtain ⟨hnext, -, -, htrees⟩ := h.optimizeTraced (hknown node hgiven)
    exact ⟨hnext, htrees⟩
  | codegen node =>
    exact h.told (codegen_leads (hknown node hgiven)) (fun _ => rfl) fun _ => List.forall_mem_nil _
  | compile text =>
    exact h.told (atomically_leads (.bind (lower_leads text) fun _ _ _ _ hnode =>
      .bind (optimizeStage_leads hnode) fun _ _ _ _ hoptimized => codegen_leads hoptimized)
      (hsustained.stages text)) (fun _ => rfl) fun _ => List.forall_mem_nil _
  | source source =>
    have hsource := fun node hnode => hknown node (hgiven node hnode)
    exact h.told (atomically_leads (compileStages_leads hsource) (hsustained.compileStages source))
      (fun _ => rfl) fun htrees => htrees
  | generated => exact h.compileConnections_after
  | take =>
    refine ⟨h.onward ⟨⟨h.world.symbols, h.world.pool⟩, fun _ hc =>
      absurd hc (Array.not_mem_empty _)⟩ (Nat.le_refl _), fun tree htree => ?_⟩
    obtain ⟨c, hc, rfl⟩ := List.mem_map.mp htree
    exact h.world.pending c (Array.mem_toList_iff.mp hc)
  | freeze => exact ⟨h, List.forall_mem_nil _⟩

/-- The trees that a well-scoped environment holds are made of its symbols. -/
theorem trees (h : env.Scoped) : ∀ tree ∈ env.trees, env.Covers tree := by
  refine List.forall_mem_append.mpr ⟨fun tree htree => ?_, fun tree htree => ?_⟩
  · obtain ⟨entry, hentry, hmem⟩ := List.mem_flatMap.mp htree
    have hscript := h.scripts entry hentry
    obtain rfl | hmem := List.mem_cons.mp hmem
    · exact hscript.body
    · obtain ⟨id, hid, rfl⟩ := List.mem_map.mp hmem
      refine Node.below_identifier ?_
      obtain rfl | hid := List.mem_cons.mp hid
      · exact hscript.symbol
      · exact hscript.params id hid
  · obtain ⟨c, hc, rfl⟩ := List.mem_map.mp htree
    exact h.world.pending c (Array.mem_toList_iff.mp hc)

end Scoped

/-! ## Conversations -/

/-- Environments that a host reaches are well scoped, and trees that it met with are made of
symbols that were there, and still are there under the same names. -/
structure Remembers (history : List (Answer × Environment)) (env : Environment) : Prop where
  keeps : env.Scoped
  trees : ∀ past ∈ history, ∀ tree ∈ past.1.trees ++ past.2.trees, past.2.Covers tree
  names : ∀ past ∈ history, past.2.world.symbols.Persists env.world.symbols

namespace Remembers

variable {history : List (Answer × Environment)} {env : Environment}

/-- The trees that a host has met with are made of symbols of the environment. -/
theorem handed (h : Remembers history env) : ∀ tree ∈ Environment.handed history,
    env.Covers tree := by
  intro tree htree
  obtain ⟨past, hpast, hmem⟩ := List.mem_flatMap.mp htree
  exact (h.trees past hpast tree hmem).mono (h.names past hpast).size

/-- Whatever is asked, symbols keep their names. -/
theorem persists (h : env.Scoped) {known : List Node} {n : Nat} {request : Request}
    (hgiven : request.Given known n) :
    env.world.symbols.Persists (env.respond request).2.world.symbols := by
  have hlasting := SymbolTable.persists_lasting env.world.symbols
  have hready := h.holds.ready
  have hdeclare : request.Declare fun _ => True := by
    cases request with
    | functions table => exact hgiven.1.declare
    | _ => trivial
  have hholds : Holds (CompilerFunctions.Declare fun _ => True)
      (World.Lasts env.world.symbols.Persists) env :=
    ⟨⟨h.world.toSound, .refl _⟩, fun fs hfs => (hready.functions fs hfs).declare,
      hready.pipeline, hready.fastOps⟩
  exact (hlasting.respond (fun _ _ => trivial) hholds hdeclare fun _ _ => trivial).world.table

theorem respond (h : Remembers history env) {request : Request}
    (hgiven : request.Given (Environment.handed history) env.world.symbols.size) :
    Remembers (env.respond request :: history) (env.respond request).2 := by
  obtain ⟨hscoped, hanswer⟩ := h.keeps.respond h.handed hgiven
  have hpersists := persists h.keeps hgiven
  refine ⟨hscoped, List.forall_mem_cons.mpr ⟨?_, h.trees⟩, List.forall_mem_cons.mpr ⟨.refl _, ?_⟩⟩
  · exact List.forall_mem_append.mpr ⟨hanswer, hscoped.trees⟩
  · exact fun past hpast => (h.names past hpast).trans hpersists

end Remembers

theorem remembers_of_hosted {history : List (Answer × Environment)} {env : Environment}
    (h : Hosted history env) : Remembers history env := by
  induction h with
  | start config =>
    exact ⟨.start config, fun _ hpast => absurd hpast List.not_mem_nil,
      fun _ hpast => absurd hpast List.not_mem_nil⟩
  | step request _ hgiven ih => exact ih.respond hgiven

/-- Throughout a conversation, the trees that were handed out or held at some time are made of
symbols that are declared now and have kept their names, and so are the trees that are held
now; none of them stops a pass or the generation of code at an unknown symbol. -/
theorem trees_scoped {history : List (Answer × Environment)} {env : Environment}
    (h : Hosted history env) :
    (∀ past ∈ history, ∀ tree ∈ past.1.trees ++ past.2.trees,
      tree.NamedAlike past.2.world.symbols env.world.symbols) ∧
    (∀ tree ∈ env.trees, tree.NamedAlike env.world.symbols env.world.symbols) ∧
    ∀ tree ∈ handed history ++ env.trees, ∀ id,
      (optimize tree env).1 ≠ .error (.unknownSymbol id) ∧
        (codegen tree env).1 ≠ .error (.compilation (.unknownSymbol id)) := by
  have hremembers := remembers_of_hosted h
  have hscoped := hremembers.keeps
  refine ⟨fun past hpast tree htree => ?_, fun tree htree => ?_, fun tree htree id => ?_⟩
  · exact (hremembers.trees past hpast tree htree).namedAlike (hremembers.names past hpast)
  · exact (hscoped.trees tree htree).namedAlike (.refl _)
  · have hcovers : env.Covers tree :=
      (List.mem_append.mp htree).elim (hremembers.handed tree) (hscoped.trees tree)
    obtain ⟨-, -, hoptimize, -⟩ := hscoped.optimizeTraced hcovers
    obtain ⟨hcodegen, -⟩ := codegen_leads hcovers env hscoped (Nat.le_refl _)
    exact ⟨hoptimize id, fun he => (hcodegen _ _ (Prod.ext he rfl)).1 trivial⟩

/-- What can be asked without any tree leads on. -/
theorem Hosted.after {history : List (Answer × Environment)} {env : Environment}
    (h : Hosted history env) {requests : List Request}
    (hgiven : ∀ request ∈ requests, ∀ known n, request.Given known n) :
    ∃ later, Hosted (later ++ history) (env.after requests) := by
  induction requests generalizing history env with
  | nil => exact ⟨[], h⟩
  | cons request rest ih =>
    obtain ⟨hfirst, hrest⟩ := List.forall_mem_cons.mp hgiven
    obtain ⟨later, hlater⟩ := ih (h.step request (hfirst _ _)) hrest
    refine ⟨later ++ [env.respond request], ?_⟩
    rw [List.append_assoc]
    exact hlater

/-- The answer to a text that can be lowered hands out the tree. -/
theorem mem_trees_of_lower {env : Environment} {text : String} {node : Node}
    (h : (lower text env).1 = .ok node) : node ∈ (env.respond (.lower text)).1.trees := by
  show node ∈ (Answer.node (lower text env).1).trees
  rw [h]
  exact List.mem_singleton_self node

/-- A rule that was lowered may be optimized, whatever is asked afterwards. -/
theorem Hosted.optimized {history : List (Answer × Environment)} {env : Environment}
    (h : Hosted history env) {text : String} {node : Node} (hnode : (lower text env).1 = .ok node)
    {requests : List Request} (hgiven : ∀ request ∈ requests, ∀ known n, request.Given known n) :
    ∃ later, Hosted (later ++ env.respond (.lower text) :: history)
      (((env.respond (.lower text)).2.respond (.optimize node)).2.after requests) := by
  have hhanded : node ∈ handed (env.respond (.lower text) :: history) :=
    mem_handed List.mem_cons_self (List.mem_append_left _ (mem_trees_of_lower hnode))
  obtain ⟨later, hlater⟩ :=
    ((h.step (.lower text) trivial).step (.optimize node) hhanded).after hgiven
  refine ⟨later ++ [(env.respond (.lower text)).2.respond (.optimize node)], ?_⟩
  rw [List.append_assoc]
  exact hlater

/-! ### A number that is given twice -/

/-- A conversation about a scripted function and compiler functions. -/
def bayRequests : List Request :=
  [.builtIns [⟨"has", 2⟩], .functions (.standard [] true), .scripts [("armed", "has(Sword, 1)")]]

def bay : Environment := (ofConfig .standard).after bayRequests

def lakeText : String := "at('Lake', armed)"

/-- The rule, as it is lowered there. -/
def lakeRule : Node := .call 11 [.string "Lake", .identifier 22]

/-- What is asked once the rule is optimized: to compile a rule that fails when it has declared
a boat, and to lower one about a bow. -/
def laterRequests : List Request :=
  [.compile "at('Shore', Boat) and (True < False)", .lower "Bow"]

def laterBay : Environment :=
  ((bay.respond (.lower lakeText)).2.respond (.optimize lakeRule)).2.after laterRequests

theorem hosted_bay : ∃ history, Hosted history bay := by
  have hgiven : ∀ request ∈ bayRequests, ∀ known n, request.Given known n := by
    intro request hmem known n
    simp only [bayRequests, List.mem_cons, List.not_mem_nil, or_false] at hmem
    obtain rfl | rfl | rfl := hmem
    · trivial
    · exact ⟨CompilerFunctions.standard_declareOnly _ _, CompilerFunctions.standard_scoped _ _ _⟩
    · trivial
  obtain ⟨later, hlater⟩ := (Hosted.start .standard).after hgiven
  exact ⟨_, hlater⟩

/-- The bow has the number that the boat had, and is not taken for it: the rule about the lake is
made of the symbols it was made of. -/
theorem bay_trees_scoped :
    laterBay.world.symbols.nameOf? 26 = some "Bow" ∧
      ∃ history, Hosted history laterBay ∧ bay.respond (.lower lakeText) ∈ history ∧
        lakeRule.NamedAlike (bay.respond (.lower lakeText)).2.world.symbols
          laterBay.world.symbols ∧
        ∀ id, (optimize lakeRule laterBay).1 ≠ .error (.unknownSymbol id) ∧
          (codegen lakeRule laterBay).1 ≠ .error (.compilation (.unknownSymbol id)) := by
  have hall : ((lower lakeText bay).1, laterBay.world.symbols.nameOf? 26) =
      (.ok lakeRule, some "Bow") := by decide +kernel
  obtain ⟨hlowered, hbow⟩ := Prod.mk.inj hall
  have hgiven : ∀ request ∈ laterRequests, ∀ known n, request.Given known n := by
    refine List.forall_mem_cons.mpr ⟨fun _ _ => trivial, ?_⟩
    exact List.forall_mem_singleton.mpr fun _ _ => trivial
  obtain ⟨history, hhosted⟩ := hosted_bay
  obtain ⟨later, hafter⟩ := hhosted.optimized hlowered hgiven
  have hlater : Hosted (later ++ bay.respond (.lower lakeText) :: history) laterBay := hafter
  have hmem : bay.respond (.lower lakeText) ∈ later ++ bay.respond (.lower lakeText) :: history :=
    List.mem_append_right _ List.mem_cons_self
  have htrees := List.mem_append_left (bay.respond (.lower lakeText)).2.trees
    (mem_trees_of_lower hlowered)
  obtain ⟨hpast, -, hstops⟩ := trees_scoped hlater
  have hhanded := List.mem_append_left laterBay.trees (mem_handed hmem htrees)
  exact ⟨hbow, _, hlater, hmem, hpast _ hmem lakeRule htrees, hstops lakeRule hhanded⟩

end Environment

end Passage

import Passage.Proofs.Gathering
import Passage.Proofs.Repeating
import Passage.Proofs.Serving

/-!
# How much deeper joined questions go

For the same rule, in the same environment, the pass that joins questions is switched on or off.
If there is code without it, there is code with it, and it needs one more operand on the stack at
most (`Environment.Serves.deepens`): joined or not, the room is kept within that is reserved for the
rule as it was lowered. One more is what some rules take, so a rule that just ran may not run any
more (`Environment.swords_overflow`).
-/

namespace Passage

/-! ## The standard passes -/

section

variable {q : Askers} {IsItem : SymbolId → Prop} {still : Prop} {w : World} {inlineDepth : Nat}
  {settings : Option Settings} {functions : Option CompilerFunctions} {kind : PassKind}
  {pass : Pass}

/-- A standard pass eases nodes that ask. Items must not go by names of settings where these are
replaced. -/
theorem Pass.ease_of_ofKind? (hq : q.Of IsItem w.symbols)
    (hfree : ∀ fs, functions = some fs →
      ∀ name ∈ [Lowering.hasName, Item.everyName, Item.anyName], fs.find? name = none)
    (hkind : Pass.ofKind? inlineDepth settings functions kind = some pass)
    (hstill : kind = .collapseHas → ¬ still)
    (hunlisted : kind = .settings → ∀ {id}, IsItem id → w.symbols.Unlisted id) (scripts : Scripts) :
    (pass.rules scripts).Ease q IsItem (w.symbols.quantityAsked? true) still w := by
  cases kind with
  | connections =>
    obtain rfl := Option.some.inj hkind
    exact connections_ease hq scripts
  | inlineCalls =>
    obtain rfl := Option.some.inj hkind
    exact inlineCalls_ease hq scripts _
  | fold =>
    obtain rfl := Option.some.inj hkind
    exact fold_ease hq scripts
  | bareCalls =>
    obtain rfl := Option.some.inj hkind
    exact bareCalls_ease hq scripts
  | collapseHas =>
    obtain rfl := Option.some.inj hkind
    exact collapseHas_ease (hstill rfl) hq hq.checked scripts
  | promoteTokens =>
    obtain rfl := Option.some.inj hkind
    exact promoteTokens_ease hq scripts hq.checked
  | settings =>
    obtain ⟨values, -, rfl⟩ := Option.map_eq_some_iff.mp hkind
    exact settings_ease hq scripts values (hunlisted rfl)
  | compilerCalls =>
    obtain ⟨fs, hfs, rfl⟩ := Option.map_eq_some_iff.mp hkind
    exact compilerCalls_ease hq scripts fs (hfree fs hfs)

end

/-! ## Runs in one world -/

namespace Pipeline

variable {scripts : Scripts} {passes : List Pass} {P : Node → Prop} {w : World}

/-- Passes that go through with what is true of a node, keep it through a round. -/
theorem runPasses_keeps
    (h : ∀ pass ∈ passes, ∀ node, P node →
      ∃ node', (pass.rules scripts).transform node w = (.ok node', w) ∧ P node')
    (round : Nat) {r : PipelineRun} {node : Node} (hr : r.result = .ok node) (hnode : P node) :
    ∃ r' node', runPasses scripts round r w passes = (r', w) ∧ r'.result = .ok node' ∧ P node' := by
  induction passes generalizing r node with
  | nil => exact ⟨r, node, rfl, hr, hnode⟩
  | cons pass rest ih =>
    obtain ⟨hfirst, hrest⟩ := List.forall_mem_cons.mp h
    obtain ⟨node₁, hstep, hnode₁⟩ := hfirst node hnode
    rw [runPasses, hr]
    dsimp only
    rw [hstep]
    exact ih hrest rfl hnode₁

theorem runRounds_keeps
    (h : ∀ pass ∈ passes, ∀ node, P node →
      ∃ node', (pass.rules scripts).transform node w = (.ok node', w) ∧ P node')
    (left round : Nat) {r : PipelineRun} {node : Node} (hr : r.result = .ok node) (hnode : P node) :
    ∃ r' node', runRounds scripts passes round r w left = (r', w) ∧ r'.result = .ok node' ∧
      P node' := by
  induction left generalizing round r node with
  | zero => exact ⟨r, node, rfl, hr, hnode⟩
  | succ left ih =>
    obtain ⟨r₁, node₁, hround, hr₁, hnode₁⟩ := runPasses_keeps h round hr hnode
    rw [runRounds, hr]
    dsimp only
    rw [hround]
    exact ih (round + 1) hr₁ hnode₁

/-- Where all passes leave the world and keep what is true of a node, so does a run. -/
theorem run_keeps {p : Pipeline}
    (h : 0 < p.rounds → ∀ pass ∈ p.passes, ∀ node, P node →
      ∃ node', (pass.rules scripts).transform node w = (.ok node', w) ∧ P node') {node : Node}
        (hnode : P node) :
    ∃ r node', p.run scripts node w = (r, w) ∧ r.result = .ok node' ∧ P node' := by
  rw [run_eq]
  by_cases hrounds : 0 < p.rounds
  · exact runRounds_keeps (h hrounds) p.rounds 1 rfl hnode
  · refine ⟨.start node, node, ?_, rfl, hnode⟩
    rw [Nat.eq_zero_of_not_pos hrounds]
    rfl

/-- In a round that goes through, every pass went through with a node. -/
theorem runPasses_applied
    (h : ∀ pass ∈ passes, ∀ node, P node →
      ∀ node' w', (pass.rules scripts).transform node w = (.ok node', w') → w' = w ∧ P node')
    (round : Nat) {r : PipelineRun} {node last : Node} (hr : r.result = .ok node) (hnode : P node)
    (hlast : (runPasses scripts round r w passes).1.result = .ok last) {pass : Pass}
    (hpass : pass ∈ passes) :
    ∃ node node' w', P node ∧ (pass.rules scripts).transform node w = (.ok node', w') := by
  induction passes generalizing r node with
  | nil => exact absurd hpass List.not_mem_nil
  | cons first rest ih =>
    obtain ⟨hfirst, hrest⟩ := List.forall_mem_cons.mp h
    rw [runPasses, hr] at hlast
    dsimp only at hlast
    rcases hstep : (first.rules scripts).transform node w with ⟨e | node₁, w₁⟩ <;>
      rw [hstep] at hlast
    · cases hlast
    · obtain ⟨rfl, hnode₁⟩ := hfirst node hnode node₁ w₁ hstep
      obtain rfl | hpass := List.mem_cons.mp hpass
      · exact ⟨node, node₁, _, hnode, hstep⟩
      · exact ih hrest rfl hnode₁ hlast hpass

/-- In a run that goes through, if there is a round, every pass went through with a node. -/
theorem run_applied {p : Pipeline} (hrounds : 0 < p.rounds)
    (h : ∀ pass ∈ p.passes, ∀ node, P node →
      ∀ node' w', (pass.rules scripts).transform node w = (.ok node', w') → w' = w ∧ P node')
    {node last : Node} (hnode : P node) (hlast : (p.run scripts node w).1.result = .ok last)
    {pass : Pass} (hpass : pass ∈ p.passes) :
    ∃ node node' w', P node ∧ (pass.rules scripts).transform node w = (.ok node', w') := by
  obtain ⟨left, hleft⟩ := Nat.exists_eq_succ_of_ne_zero (Nat.ne_of_gt hrounds)
  rw [run_eq, hleft, runRounds] at hlast
  rcases hround : (runPasses scripts 1 (.start node) w p.passes).1.result with e | node₁
  · dsimp only [PipelineRun.start] at hlast hround
    rw [runRounds_error hround] at hlast
    cases hround.symm.trans hlast
  · exact runPasses_applied h 1 rfl hnode hround hpass

end Pipeline

/-! ## Compilation -/

namespace Environment

variable {env env' : Environment} {text : String} {node : Node} {code : Code}

/-- What becomes of a rule behind its lowering. -/
theorem compile_of_lower (hlower : lower text env = (.ok node, env)) :
    compile text env = atomically (fun env => (do
      let optimized ← optimizeStage node
      codegen optimized : Compiling StageError Code) env) env := by
  have hstages : (do
      let node ← lower text
      let optimized ← optimizeStage node
      codegen optimized : Compiling StageError Code) env = (do
        let optimized ← optimizeStage node
        codegen optimized : Compiling StageError Code) env := bind_ok hlower
  unfold compile atomically
  rw [hstages]

/-- The run of the passes and the code of the node that they lead to, of a rule that was
compiled. -/
theorem compile_eq_ok (hlower : lower text env = (.ok node, env))
    (h : compile text env = (.ok code, env')) :
    ∃ r w node' pool, env.kept.run env.scripts node env.world = (r, w) ∧ r.result = .ok node' ∧
      node'.compile w.symbols env.fastOps w.pool = (.ok code, pool) := by
  rw [compile_of_lower hlower] at h
  rw [atomically_ok (congrArg Prod.fst h)] at h
  obtain ⟨optimized, env₁, hstage, hcodegen⟩ := bind_eq_ok h
  rw [optimizeStage, optimize, optimizeTraced_eq] at hstage
  have hresult : (env.optimized node).1.result = .ok optimized :=
    ok_of_mapError (congrArg Prod.fst hstage)
  have henv₁ := congrArg Prod.snd hstage
  dsimp only at henv₁
  have hrun := env.optimized_ok hresult
  rw [hrun] at hresult henv₁
  obtain ⟨pool, hcompile, -⟩ := codegen_eq_ok hcodegen
  subst henv₁
  exact ⟨_, _, optimized, pool, rfl, hresult, hcompile⟩

/-- A rule is compiled if the passes go through and there is code for the node that they
lead to. -/
theorem compile_ok (hlower : lower text env = (.ok node, env)) {r : PipelineRun} {w : World}
    {node' : Node} {pool : ObjectPool} (hrun : env.kept.run env.scripts node env.world = (r, w))
    (hresult : r.result = .ok node')
    (hcode : node'.compile w.symbols env.fastOps w.pool = (.ok code, pool)) :
    ∃ env', compile text env = (.ok code, env') := by
  have hoptimized : env.optimized node = (r, w) := by
    rw [optimized, hrun]
    dsimp only
    rw [hresult]
  have hstage : optimizeStage node env =
      (.ok node', { env with world := w, pipeline := some env.kept }) := by
    rw [optimizeStage, optimize, optimizeTraced_eq, hoptimized]
    dsimp only
    rw [hresult]
    rfl
  have hcodegen : ∃ env', codegen node' { env with world := w, pipeline := some env.kept } =
      (.ok code, env') := by
    refine ⟨_, Prod.ext ?_ rfl⟩
    show (node'.compile w.symbols env.fastOps w.pool).1.mapError _ = _
    rw [hcode]
    rfl
  obtain ⟨env', hcodegen⟩ := hcodegen
  refine ⟨env', ?_⟩
  rw [compile_of_lower hlower, atomically, bind_ok hstage, hcodegen]

/-- The environment with the pass that joins questions switched on or off, and all else equal. -/
def collapsing (on : Bool) (env : Environment) : Environment :=
  { env with
    config := { env.config with passes := env.config.passes.set .collapseHas on }
    pipeline := none }

/-- Settings are replaced in the rules of the environment. -/
structure Replaces (env : Environment) (values : Settings) : Prop where
  rounds : 0 < env.config.rounds
  runs : PassKind.settings ∈ env.config.passes.enabled
  values : env.settings = some values

/-- Rules may name the symbol: it is one of a token, and not replaced by the value of a setting. -/
def Takes (env : Environment) (id : SymbolId) : Prop :=
  env.world.symbols.IsItem id ∧ ∀ values, env.Replaces values → env.world.symbols.Unlisted id

/-- Rules may name the symbol, and there is a pointer for it. -/
def Provides (env : Environment) (id : SymbolId) : Prop :=
  env.Takes id ∧ ∃ index, env.world.pool.pointers[id]? = some index

/-- Whether questions are joined, changes nothing about the other passes. -/
theorem mem_collapsing {on : Bool} {kind : PassKind} (hne : kind ≠ .collapseHas) :
    kind ∈ (env.collapsing on).config.passes.enabled ↔ kind ∈ env.config.passes.enabled := by
  unfold PassSwitches.enabled
  rw [List.mem_filter, List.mem_filter,
    show (env.collapsing on).config.passes.isOn kind = env.config.passes.isOn kind from if_neg hne]

theorem not_mem_collapsing : PassKind.collapseHas ∉ (env.collapsing false).config.passes.enabled :=
  fun h => absurd (List.mem_filter.mp h).2 nofun

namespace Serves

variable {q : Askers}

/-- Where rules may name the items, the functions that ask are known together with them. -/
theorem of (h : env.Serves q) {IsItem : SymbolId → Prop}
    (hitem : ∀ {id}, IsItem id → env.Takes id) :
    q.Of IsItem env.world.symbols :=
  have hq := h.offers.of h.world
  ⟨hq.sound, hq.has, hq.joining, fun hid => (hitem hid).1⟩

/-- A rule whose items may be named runs through all passes. -/
theorem run_eases (h : env.Serves q) {IsItem : SymbolId → Prop}
    (hitem : ∀ {id}, IsItem id → env.Takes id) (on : Bool) (hnode : node.Asking q IsItem True) :
    ∃ r node', (env.collapsing on).kept.run env.scripts node env.world = (r, env.world) ∧
      r.result = .ok node' ∧ node'.Asking q IsItem True ∧
      Node.Eases q (env.world.symbols.quantityAsked? true) (on = false) node node' := by
  have hq := h.of hitem
  refine Pipeline.run_keeps (fun hrounds pass hpass inner hinner => ?_) ⟨hnode, .refl node⟩
  obtain ⟨hasking, heases⟩ := hinner
  obtain ⟨kind, hkind, hofKind⟩ := List.mem_filterMap.mp hpass
  have hease : (pass.rules env.scripts).Ease q IsItem (env.world.symbols.quantityAsked? true)
      (on = false) env.world := by
    refine Pass.ease_of_ofKind? hq h.functions hofKind ?_ ?_ env.scripts
    · rintro rfl rfl
      exact not_mem_collapsing hkind
    · rintro rfl
      obtain ⟨values, hvalues, -⟩ := Option.map_eq_some_iff.mp hofKind
      exact fun hid =>
        (hitem hid).2 values ⟨hrounds, (mem_collapsing (by decide)).mp hkind, hvalues⟩
  obtain ⟨node', hstep, hasking', heases'⟩ := hease.transform hasking
  exact ⟨node', hstep, hasking', heases.trans heases'⟩

/-- No rule runs through all passes if items of it go by names of settings that are replaced. -/
theorem unlisted_of_run (h : env.Serves q) (hnode : node.Asking q env.world.symbols.IsItem True)
    {last : Node}
    (hrun : ((env.collapsing false).kept.run env.scripts node env.world).1.result = .ok last)
    {values : Settings} (hreplaces : env.Replaces values) :
    node.Asking q (fun id => env.world.symbols.IsItem id ∧ env.world.symbols.Unlisted id) True := by
  have hq := h.offers.of h.world
  let P (inner : Node) : Prop := inner.Asking q env.world.symbols.IsItem True ∧
    Node.Eases q (env.world.symbols.quantityAsked? true) True node inner
  have hpasses : ∀ pass ∈ (env.collapsing false).kept.passes, ∀ inner, P inner → ∀ node' w',
      (pass.rules env.scripts).transform inner env.world = (.ok node', w') → w' = env.world ∧
        P node' := by
    rintro pass hpass inner ⟨hasking, heases⟩ node' w' hok
    obtain ⟨kind, hkind, hofKind⟩ := List.mem_filterMap.mp hpass
    have hstill : kind = .collapseHas → ¬ True := by
      rintro rfl
      exact absurd hkind not_mem_collapsing
    have heasing : Easing q env.world.symbols.IsItem (env.world.symbols.quantityAsked? true) True
        env.world inner ((pass.rules env.scripts).transform inner) := by
      by_cases hsettings : kind = .settings
      · subst hsettings
        obtain ⟨values, -, rfl⟩ := Option.map_eq_some_iff.mp hofKind
        obtain ⟨-, hunlisted⟩ := settings_unlisted hq env.scripts values hasking hok
        have hfree : q.Of (fun id => env.world.symbols.IsItem id ∧ env.world.symbols.Unlisted id)
            env.world.symbols := ⟨hq.sound, hq.has, hq.joining, And.left⟩
        obtain ⟨node', hstep, hasking', heases'⟩ :=
          (settings_ease hfree env.scripts values And.right).transform hunlisted
        exact ⟨node', hstep, hasking'.imp And.left id, heases'⟩
      · exact (Pass.ease_of_ofKind? hq h.functions hofKind hstill (fun heq => absurd heq hsettings)
          env.scripts).transform hasking
    obtain ⟨_, hstep, hasking', heases'⟩ := heasing
    rw [hstep] at hok
    obtain ⟨hnode', rfl⟩ := Prod.mk.inj hok
    obtain rfl := Except.ok.inj hnode'
    exact ⟨rfl, hasking', heases.trans heases'⟩
  have hsettings : Pass.settings values ∈ (env.collapsing false).kept.passes := by
    refine List.mem_filterMap.mpr ⟨.settings, (mem_collapsing (by decide)).mpr hreplaces.runs, ?_⟩
    show env.settings.map Pass.settings = _
    rw [hreplaces.values]
    rfl
  obtain ⟨inner, node', w', ⟨hasking, heases⟩, happlied⟩ :=
    Pipeline.run_applied hreplaces.rounds hpasses ⟨hnode, .refl node⟩ hrun hsettings
  obtain ⟨-, hunlisted⟩ := settings_unlisted hq env.scripts values hasking happlied
  exact heases.items trivial _ hunlisted

theorem takes_of_run (h : env.Serves q) (hnode : node.Asking q env.world.symbols.IsItem True)
    {last : Node}
    (hrun : ((env.collapsing false).kept.run env.scripts node env.world).1.result = .ok last) :
    node.Asking q env.Takes True := by
  by_cases hreplaces : ∃ values, env.Replaces values
  · obtain ⟨values, hreplaces⟩ := hreplaces
    exact (h.unlisted_of_run hnode hrun hreplaces).imp (fun hid => ⟨hid.1, fun _ _ => hid.2⟩) id
  · exact hnode.imp (fun hid => ⟨hid, fun values hr => absurd ⟨values, hr⟩ hreplaces⟩) id

/-- What code is generated for if no questions are joined: a rule of the same need and the same
numbers, whose items have pointers. -/
theorem apart_of_compile (h : env.Serves q) (hnode : node.Asking q env.world.symbols.IsItem True)
    (hlower : lower text (env.collapsing false) = (.ok node, env.collapsing false))
    (hcompile : compile text (env.collapsing false) = (.ok code, env')) :
    ∃ apart pool, apart.compile env.world.symbols (.enabled true) env.world.pool =
      (.ok code, pool) ∧
      apart.Asking q env.Provides True ∧
      Node.Eases q (env.world.symbols.quantityAsked? true) True node apart := by
  obtain ⟨r, w, apart, pool, hrun, hresult, hcode⟩ := compile_eq_ok hlower hcompile
  have htakes := h.takes_of_run hnode ((congrArg (·.1.result) hrun).trans hresult)
  obtain ⟨r', apart', hrun', hresult', hasking, heases⟩ := h.run_eases id false htakes
  obtain ⟨rfl, rfl⟩ := Prod.mk.inj (hrun.symm.trans hrun')
  obtain rfl := Except.ok.inj (hresult.symm.trans hresult')
  change apart.compile env.world.symbols env.fastOps env.world.pool = _ at hcode
  rw [h.fastOps] at hcode
  obtain ⟨-, instructions, hcodes, -⟩ := Node.compile_eq_ok h.world.pool hcode
  have hpointers := (apart.compile_interns env.world.symbols (FastOps.enabled_grow true)
    h.world.pool).1.pointers_eq
  rw [hcode] at hpointers
  have hprovided := hasking.of_codes (h.of id) hcodes
  rw [hpointers] at hprovided
  rw [eq_self] at heases
  exact ⟨apart, pool, hcode, hprovided, heases⟩

/-- If a rule that asks has code that fits the stack while questions are not joined, then it has
code where they are, and that takes room for one more operand at most. -/
theorem deepens (h : env.Serves q) {tree : Rule.Tree} (hparse : Rule.parse text = .ok tree)
    (htree : tree.Asks env.world.symbols) {env₁ : Environment}
    (hcompile : compile text (env.collapsing false) = (.ok code, env₁))
    (hstack : code.maxStack.toNat ≤ stackLimit) :
    ∃ code' env₂, compile text (env.collapsing true) = (.ok code', env₂) ∧
      code'.maxStack.toNat ≤ code.maxStack.toNat + 1 := by
  have hq : q.Of env.Provides env.world.symbols := h.of And.left
  have hequipped : q.Equipped env.Provides env.world.pool := h.offers.equipped h.world And.right
  have hpool := h.world.pool
  obtain ⟨node, hlower, hasking⟩ := htree.lower (h.offers.of h.world) id
  have hlowered : ∀ on, lower text (env.collapsing on) = (.ok node, env.collapsing on) :=
    fun on => lower_eq hparse hlower
  obtain ⟨apart, pool, hcode, hapart, heases⟩ :=
    h.apart_of_compile (hasking.imp id False.elim) (hlowered false) hcompile
  obtain ⟨r, joined, hrun, hresult, hjoined, heases'⟩ :=
    h.run_eases And.left true (heases.items trivial _ hapart)
  have hneed : code.maxStack.toNat = apart.need (env.world.symbols.quantityAsked? true) :=
    Node.maxStack_eq_need hpool hcode (.inl hstack)
  have hroom : joined.need (env.world.symbols.quantityAsked? true) ≤ code.maxStack.toNat + 1 :=
    calc joined.need (env.world.symbols.quantityAsked? true)
      _ ≤ joined.reserve q (env.world.symbols.quantityAsked? true) := hjoined.need_le_reserve
      _ ≤ node.reserve q (env.world.symbols.quantityAsked? true) := heases'.reserve
      _ ≤ node.need (env.world.symbols.quantityAsked? true) + 1 := hasking.reserve_le_need hq.apart
      _ = code.maxStack.toNat + 1 := by rw [hneed, heases.need trivial]
  have hlimits : stackLimit + 1 ≤ Assembler.largestCount ∧ stackLimit + 1 < 65536 := by decide
  -- The same numbers are entered for both codes.
  have hentered := (hapart.compiles_iff hq hequipped (by omega)).mp ⟨code, pool, hcode⟩
  rw [heases.numerals, ← heases'.numerals] at hentered
  obtain ⟨code', pool', hgenerated⟩ := (hjoined.compiles_iff hq hequipped (by omega)).mpr hentered
  have hneed' : code'.maxStack.toNat = joined.need (env.world.symbols.quantityAsked? true) :=
    Node.maxStack_eq_need hpool hgenerated (.inr (by omega))
  rw [← h.fastOps] at hgenerated
  obtain ⟨env₂, hcompiled⟩ := compile_ok (hlowered true) hrun hresult hgenerated
  exact ⟨code', env₂, hcompiled, hneed' ▸ hroom⟩

end Serves

/-! ### A rule that just runs -/

/-- The rule asks for the sword, and the given number of times more. -/
def swords : Nat → String
  | 0 => "has(Sword, 1)"
  | n + 1 => swords n ++ " and has(Sword, 1)"

def swordLexemes : List Lexeme :=
  [.word "has", .openParen, .word "Sword", .comma, .numeral "1", .closeParen]

def swordsLexemes : Nat → List Lexeme
  | 0 => swordLexemes
  | n + 1 => swordsLexemes n ++ .word "and" :: swordLexemes

def swordsFormula : Nat → Formula
  | 0 => .quantity "Sword" 1
  | n + 1 => .and (swordsFormula n) (.quantity "Sword" 1)

/-- One question, spelled behind blanks and before other lexemes. -/
theorem spelled_sword {blanks cs : List Char} {ls : List Lexeme}
    (hblanks : ∀ c ∈ blanks, Rule.isBlank c = true) (h : Spelled ls cs) :
    Spelled (swordLexemes ++ ls) (blanks ++ "has(Sword, 1)".toList ++ cs) := by
  have hnone : ∀ c ∈ ([] : List Char), Rule.isBlank c = true := List.forall_mem_nil _
  have hend : ∀ {l : Lexeme} {c : Char} {rest : List Char}, Rule.isSeparator c = true →
      l.IsRun → ∀ d ∈ (c :: rest).head?, Rule.isSeparator d = true :=
    fun h _ _ hd => Option.some.inj hd ▸ h
  have hchars : "has(Sword, 1)".toList =
      "has".toList ++ '(' :: ("Sword".toList ++ ',' :: ' ' :: '1' :: [')']) := by decide
  have hclose : Spelled (.closeParen :: ls) (')' :: cs) := .lexeme hnone trivial nofun h
  have hone : Spelled (.numeral "1" :: .closeParen :: ls) (' ' :: '1' :: ')' :: cs) :=
    .lexeme (List.forall_mem_singleton.mpr rfl) ⟨by decide, List.all_eq_true.mp (by decide)⟩
      (hend (by decide)) hclose
  have hcomma : Spelled (.comma :: .numeral "1" :: .closeParen :: ls)
      (',' :: ' ' :: '1' :: ')' :: cs) := .lexeme hnone trivial nofun hone
  have hname : Spelled (.word "Sword" :: .comma :: .numeral "1" :: .closeParen :: ls)
      ("Sword".toList ++ ',' :: ' ' :: '1' :: ')' :: cs) :=
    .lexeme hnone (Lexeme.wellFormed_word rfl (by decide) (by decide)) (hend (by decide)) hcomma
  have hopen : Spelled (.openParen :: .word "Sword" :: .comma :: .numeral "1" :: .closeParen :: ls)
      ('(' :: ("Sword".toList ++ ',' :: ' ' :: '1' :: ')' :: cs)) :=
        .lexeme hnone trivial nofun hname
  have hall := Spelled.lexeme hblanks
    (Lexeme.wellFormed_word (show "has".toList = 'h' :: ['a', 's'] by decide) (by decide)
      (by decide))
    (hend (by decide)) hopen
  rw [hchars]
  simpa [swordLexemes, Lexeme.text] using hall

theorem spelled_swords (n : Nat) {cs : List Char} {ls : List Lexeme} (h : Spelled ls cs) :
    Spelled (swordsLexemes n ++ ls) ((swords n).toList ++ cs) := by
  induction n generalizing cs ls with
  | zero => exact spelled_sword (List.forall_mem_nil _) h
  | succ n ih =>
    have hblank : ∀ c ∈ [' '], Rule.isBlank c = true := List.forall_mem_singleton.mpr (by decide)
    have hand : Spelled (.word "and" :: (swordLexemes ++ ls)) (" and has(Sword, 1)".toList ++ cs) :=
      .lexeme hblank (Lexeme.wellFormed_word rfl (by decide) (by decide))
        (fun _ c hc => Option.some.inj hc ▸ by decide) (spelled_sword hblank h)
    rw [swords, swordsLexemes, String.toList_append, List.append_assoc, List.append_assoc]
    exact ih hand

theorem parse_swords (n : Nat) : Rule.parse (swords n) = .ok (swordsFormula n).tree := by
  have hreads : Reads (· = "Sword") (fun _ => False) .conjunction (swordsLexemes n)
      (swordsFormula n) := by
    induction n with
    | zero => exact .conjunction (.literal (.quantity "1" rfl))
    | succ n ih => exact .and ih (.literal (.quantity "1" rfl))
  have hspelled : Spelled (swordsLexemes n) (swords n).toList := by
    have h := spelled_swords n (.done (List.forall_mem_nil _))
    rwa [List.append_nil, List.append_nil] at h
  have hword : ∀ {name}, name = "Sword" → Rule.TokenKind.ofWord name = .identifier := by
    rintro _ rfl
    decide
  exact parse_of_reads hword False.elim hspelled (.disjunction hreads)

section

variable {q : Askers} {t : SymbolTable} {sword : SymbolId}

theorem swords_asks (hsword : t.Knows "Sword" .token sword) (n : Nat) :
    (swordsFormula n).tree.Asks t := by
  have hone : (swordsFormula 0).tree.Asks t := .has (.ofNat 1) (by decide) hsword
  induction n with
  | zero => exact hone
  | succ n ih => exact .connect .and ih hone

/-- The items of the conjunction that the rule is lowered to. -/
def questions (q : Askers) (sword : SymbolId) (n : Nat) : List Node :=
  (List.replicate n sword).map fun id => .has q.has id Item.one

theorem questions_succ (q : Askers) (sword : SymbolId) (n : Nat) :
    questions q sword (n + 1) = questions q sword n ++ [.has q.has sword Item.one] := by
  rw [questions, List.replicate_succ', List.map_append]
  rfl

/-- The rule is lowered to a conjunction of its questions. -/
theorem lower_swords (hq : q.Of t.IsItem t) (hsword : t.Knows "Sword" .token sword) (n : Nat) :
    (swordsFormula (n + 1)).tree.lower t = (.ok (.every (questions q sword (n + 2))), t) := by
  have hone : (Node.has q.has sword Item.one).Asking q t.IsItem False :=
    .has Item.one (hsword.kindOf? hq.sound)
  have hlower := Rule.Tree.lower_has hq (by decide) hsword Item.one
  have hnext : ∀ {n node}, (swordsFormula n).tree.lower t = (.ok node, t) →
      (swordsFormula (n + 1)).tree.lower t =
        (.ok (Junction.every.reduce [node, .has q.has sword Item.one]), t) := by
    intro n node hnode
    rw [swordsFormula, Formula.tree, Rule.Tree.lower, bind_ok hnode]
    exact bind_ok hlower
  have hall : ∃ node, (swordsFormula n).tree.lower t = (.ok node, t) ∧
      node.Asking q t.IsItem False ∧ Junction.every.itemsOf node = questions q sword (n + 1) := by
    induction n with
    | zero => exact ⟨_, hlower, hone, rfl⟩
    | succ n ih =>
      obtain ⟨node, hnode, hasking, hitems⟩ := ih
      obtain ⟨hreduce, hasking'⟩ := hasking.reduce_eq hone .every
      refine ⟨_, hnext hnode, hasking', ?_⟩
      rw [hreduce, Junction.itemsOf_node, hitems, questions_succ q sword (n + 1)]
      rfl
  obtain ⟨node, hnode, hasking, hitems⟩ := hall
  rw [hnext hnode, (hasking.reduce_eq hone .every).1, hitems, questions_succ q sword (n + 1)]
  rfl

end

section

variable {env : Environment} {q : Askers} {sword : SymbolId}

/-- The code of a conjunction of questions, and that of the joined question. -/
theorem Serves.questions_code (h : env.Serves q)
    (hsword : env.world.symbols.Knows "Sword" .token sword)
    (hpointer : ∃ index, env.world.pool.pointers[sword]? = some index) {n : Nat}
    (hn : n + 3 ≤ Assembler.largestCount) :
    ∃ code code' pool pool',
      (Node.every (questions q sword (n + 2))).compile env.world.symbols env.fastOps
        env.world.pool =
        (.ok code, pool) ∧ code.maxStack.toNat = n + 2 ∧
      (Node.call q.every ((List.replicate (n + 2) sword).map .identifier)).compile env.world.symbols
        env.fastOps env.world.pool = (.ok code', pool') ∧ code'.maxStack.toNat = n + 3 := by
  have hof := h.offers.of h.world
  let IsItem (id : SymbolId) : Prop := id = sword
  have hq : q.Of IsItem env.world.symbols :=
    ⟨hof.sound, hof.has, hof.joining, fun hid => hid ▸ hsword.kindOf? hof.sound⟩
  have hequipped : q.Equipped IsItem env.world.pool :=
    h.offers.equipped h.world fun hid => hid ▸ hpointer
  have hitems : ∀ id ∈ List.replicate (n + 2) sword, IsItem id := fun id => List.eq_of_mem_replicate
  have hcompiles : ∀ {node : Node} {room : Nat}, node.Asking q IsItem True →
      node.need (env.world.symbols.quantityAsked? true) = room → room ≤ n + 3 →
      node.numerals (env.world.symbols.quantityAsked? true) = [] →
      ∃ code pool, node.compile env.world.symbols env.fastOps env.world.pool = (.ok code, pool) ∧
        code.maxStack.toNat = room := by
    intro node room hasking hneed hroom hnumerals
    have hlimit : Assembler.largestCount < 65536 := by decide
    rw [h.fastOps]
    obtain ⟨code, pool, hcode⟩ := (hasking.compiles_iff hq hequipped (by omega)).mpr
      (by rw [hnumerals]; rfl)
    exact ⟨code, pool, hcode,
      (Node.maxStack_eq_need h.world.pool hcode (.inr (by omega))).trans hneed⟩
  have hlength : (List.replicate (n + 2) sword).length = n + 2 := List.length_replicate
  have htwo : 2 ≤ (List.replicate (n + 2) sword).length := by
    rw [hlength]
    exact Nat.le_add_left 2 n
  have hquestions : ∀ node ∈ questions q sword (n + 2),
      ∃ id, IsItem id ∧ node = .has q.has id Item.one := by
    refine List.forall_mem_map.mpr fun id hid => ⟨id, hitems id hid, rfl⟩
  have hreduced : Junction.every.Reduced (questions q sword (n + 2)) := by
    refine ⟨by rwa [questions, List.length_map], fun node hnode => ?_, fun node hnode => ?_⟩ <;>
      obtain ⟨id, -, rfl⟩ := hquestions node hnode <;> nofun
  have hall : Node.needAll (env.world.symbols.quantityAsked? true) (questions q sword (n + 2)) =
      n + 2 := by
    rw [Node.needAll_eq_length, questions, List.length_map, hlength]
    intro node hnode
    obtain ⟨id, hid, rfl⟩ := hquestions node hnode
    exact Node.need_one hq.checked hid
  have hnumerals : Node.numeralsAll (env.world.symbols.quantityAsked? true)
      (questions q sword (n + 2)) = [] := by
    refine Node.numeralsAll_eq_nil fun node hnode => ?_
    obtain ⟨id, hid, rfl⟩ := hquestions node hnode
    exact Node.numerals_one hq.checked hid
  obtain ⟨code, pool, hcode, hroom⟩ := hcompiles
    (.every hreduced fun node hnode => by
      obtain ⟨id, hid, rfl⟩ := hquestions node hnode
      exact .has Item.one hid)
    (show max 1 _ = n + 2 by omega) (Nat.le_succ _) hnumerals
  obtain ⟨code', pool', hcode', hroom'⟩ := hcompiles (.joined .every trivial htwo hitems)
    (by rw [Node.need_joined hq.checked, hlength]) (Nat.le_refl _)
    (Node.numerals_joined hq.checked .every _)
  exact ⟨code, code', pool, pool', hcode, hroom, hcode', hroom'⟩

/-- Where no other pass runs, joining the questions of the rule takes one operand more. -/
theorem Serves.swords_deepen (h : env.Serves q) (hpasses : env.config.passes = .none)
    (hrounds : env.config.rounds = 1) (hsword : env.world.symbols.Knows "Sword" .token sword)
    (hpointer : ∃ index, env.world.pool.pointers[sword]? = some index) {n : Nat}
    (hn : n + 3 ≤ Assembler.largestCount) :
    ∃ code env₁ code' env₂, compile (swords (n + 1)) (env.collapsing false) = (.ok code, env₁) ∧
      code.maxStack.toNat = n + 2 ∧
      compile (swords (n + 1)) (env.collapsing true) = (.ok code', env₂) ∧
      code'.maxStack.toNat = n + 3 := by
  have hq := h.offers.of h.world
  have hlowered : ∀ on, lower (swords (n + 1)) (env.collapsing on) =
      (.ok (.every (questions q sword (n + 2))), env.collapsing on) :=
    fun on => lower_eq (parse_swords _) (lower_swords hq hsword n)
  have hkept : ∀ on, (env.collapsing on).kept = ⟨if on then [.collapseHas] else [], 1⟩ := by
    intro on
    show (⟨(env.config.passes.set .collapseHas on).enabled.filterMap _, env.config.rounds⟩ :
      Pipeline) = _
    rw [hpasses, hrounds]
    cases on <;> rfl
  have hjoined :
      (Pass.collapseHas.rules env.scripts).transform (.every (questions q sword (n + 2)))
          env.world =
        (.ok (.call q.every ((List.replicate (n + 2) sword).map .identifier)), env.world) := by
    refine collapseHas_questions hq env.scripts .every ?_ fun id hid => ?_
    · rw [List.length_replicate]
      exact Nat.le_add_left 2 n
    · exact List.eq_of_mem_replicate hid ▸ hsword.kindOf? hq.sound
  obtain ⟨code, code', pool, pool', hcode, hroom, hcode', hroom'⟩ :=
    h.questions_code hsword hpointer hn
  have hrun : (env.collapsing false).kept.run env.scripts (.every (questions q sword (n + 2)))
      env.world = (.start (.every (questions q sword (n + 2))), env.world) := by
    rw [hkept]
    rfl
  have hrun' : ∃ r, (env.collapsing true).kept.run env.scripts (.every (questions q sword (n + 2)))
      env.world = (r, env.world) ∧
        r.result = .ok (.call q.every ((List.replicate (n + 2) sword).map .identifier)) := by
    rw [hkept, Pipeline.run_eq, Pipeline.runRounds]
    dsimp only [PipelineRun.start]
    rw [if_pos rfl, Pipeline.runPasses]
    dsimp only
    rw [hjoined]
    exact ⟨_, rfl, rfl⟩
  obtain ⟨r, hrun', hresult⟩ := hrun'
  obtain ⟨env₁, hcompile⟩ := compile_ok (hlowered false) hrun rfl hcode
  obtain ⟨env₂, hcompile'⟩ := compile_ok (hlowered true) hrun' hresult hcode'
  exact ⟨code, env₁, code', env₂, hcompile, hroom, hcompile', hroom'⟩

end

/-! ### A rule that just fits -/

/-- An environment with the standard functions and a token, in which one round of no passes runs. -/
def smithy : Environment :=
  (ofConfig ⟨1, .none, true, 16⟩).after [.builtIns Signature.standard, .tokens ["Sword"]]

theorem reached_smithy : ∃ answers, Reached (Request.Declare fun _ => True) answers smithy :=
  ⟨_, (Reached.start _).after (List.forall_mem_cons.mpr
    ⟨trivial, List.forall_mem_singleton.mpr trivial⟩)⟩

/-- Functions and tokens leave the configuration as it was. -/
theorem config_declared (env : Environment) (signatures : List Signature) (names : List String) :
    (env.after [.builtIns signatures, .tokens names]).config = env.config := by
  have hfirst : Resembles env (withBuiltIns signatures env).2 :=
    Keeps.forM_of_mem (fun signature _ => addBuiltIn_resembles signature) _ rfl
  have hboth : Resembles env (withTokens names (withBuiltIns signatures env).2).2 :=
    Keeps.forM_of_mem (fun name _ => addToken_resembles name) _ hfirst
  exact congrArg (·.1) hboth

theorem config_smithy : smithy.config = ⟨1, .none, true, 16⟩ :=
  config_declared (ofConfig ⟨1, .none, true, 16⟩) Signature.standard ["Sword"]

/-- The functions of the smithy. -/
def smiths : Askers := ⟨13, 15, 14⟩

theorem smithy_names :
    (smithy.world.symbols.get? 13, smithy.world.symbols.get? 14, smithy.world.symbols.get? 15,
        smithy.world.symbols.lookup? "Sword") =
      (some ⟨Lowering.hasName, 13, .builtInFunction⟩, some ⟨Item.anyName, 14, .builtInFunction⟩,
        some ⟨Item.everyName, 15, .builtInFunction⟩, some ⟨"Sword", 24, .token⟩) := by
  decide +kernel

theorem smithy_objects :
    (smithy.world.pool.definitions.lookup 13, smithy.world.pool.definitions.lookup 14,
        smithy.world.pool.definitions.lookup 15, smithy.world.pool.pointers[24]?.isSome) =
      (some ⟨Lowering.hasName, 2⟩, some ⟨Item.anyName, Signature.anyCount⟩,
        some ⟨Item.everyName, Signature.anyCount⟩, true) := by
  decide +kernel

/-- The smithy has the functions and the sword. -/
theorem smithy_offers :
    smithy.world.Offers smiths ∧ smithy.world.symbols.Knows "Sword" .token 24 ∧
      ∃ index, smithy.world.pool.pointers[24]? = some index := by
  have hnames := smithy_names
  have hobjects := smithy_objects
  -- The environment is not to be evaluated again.
  generalize smithy = env at hnames hobjects ⊢
  simp only [Prod.mk.injEq] at hnames hobjects
  obtain ⟨hhas, hany, hevery, hsword⟩ := hnames
  obtain ⟨hhas', hany', hevery', hpointer⟩ := hobjects
  refine ⟨⟨⟨hhas, hhas'⟩, fun j => ?_⟩, ⟨_, hsword, rfl, rfl⟩, Option.isSome_iff_exists.mp hpointer⟩
  cases j
  · exact ⟨hevery, hevery'⟩
  · exact ⟨hany, hany'⟩

/-- What becomes of the rule in the smithy. -/
theorem smithy_swords {n : Nat} (hn : n + 3 ≤ Assembler.largestCount) :
    ∃ code env₁ code' env₂, compile (swords (n + 1)) (smithy.collapsing false) = (.ok code, env₁) ∧
      code.maxStack.toNat = n + 2 ∧
      compile (swords (n + 1)) (smithy.collapsing true) = (.ok code', env₂) ∧
      code'.maxStack.toNat = n + 3 := by
  obtain ⟨_, hr⟩ := reached_smithy
  obtain ⟨hoffers, hsword, hpointer⟩ := smithy_offers
  have hfast : smithy.config.fastOps = true := congrArg Config.fastOps config_smithy
  exact (serves_of_reached hr hfast hoffers).swords_deepen (congrArg Config.passes config_smithy)
    (congrArg Config.rounds config_smithy) hsword hpointer hn

/-- In an environment with the functions that ask, and with fast operations, whatever else it was
filled with and asked before: if a rule about items has code that fits the stack while questions
are not joined, then it has code where they are, and that takes room for one more operand at
most. -/
theorem joining_deepens {answers : List Answer} {env : Environment}
    (hr : Reached (Request.Declare fun _ => True) answers env) (hfast : env.config.fastOps = true)
    {q : Askers} (hq : env.world.Offers q) {text : String} {tree : Rule.Tree}
    (hparse : Rule.parse text = .ok tree) (htree : tree.Asks env.world.symbols) {code : Code}
    {env₁ : Environment} (hcompile : compile text (env.collapsing false) = (.ok code, env₁))
    (hstack : code.maxStack.toNat ≤ stackLimit) :
    ∃ code' env₂, compile text (env.collapsing true) = (.ok code', env₂) ∧
      code'.maxStack.toNat ≤ code.maxStack.toNat + 1 :=
  (serves_of_reached hr hfast hq).deepens hparse htree hcompile hstack

/-- Two questions fit the stack, joined or not. -/
theorem joining_deepens_two_swords :
    ∃ code env₁ code' env₂, compile (swords 1) (smithy.collapsing false) = (.ok code, env₁) ∧
      code.maxStack.toNat = 2 ∧ compile (swords 1) (smithy.collapsing true) = (.ok code', env₂) ∧
      code'.maxStack.toNat ≤ 3 := by
  obtain ⟨_, hr⟩ := reached_smithy
  obtain ⟨hoffers, hsword, -⟩ := smithy_offers
  obtain ⟨code, env₁, -, -, hcompile, hroom, -⟩ := smithy_swords (show 0 + 3 ≤ _ by decide)
  have hstack : code.maxStack.toNat ≤ stackLimit := by
    rw [hroom]
    decide
  obtain ⟨code', env₂, hcompile', hroom'⟩ := joining_deepens hr
    (congrArg Config.fastOps config_smithy) hoffers (parse_swords 1) (swords_asks hsword 1) hcompile
    hstack
  rw [hroom] at hroom'
  exact ⟨code, env₁, code', env₂, hcompile, hroom, hcompile', hroom'⟩

/-- As many questions as the stack has room for just fit it, but do not where they are joined. -/
theorem swords_overflow :
    (∃ answers, Reached (Request.Declare fun _ => True) answers smithy) ∧
      smithy.config.fastOps = true ∧ smithy.world.Offers smiths ∧
      (∃ tree, Rule.parse (swords 255) = .ok tree ∧ tree.Asks smithy.world.symbols) ∧
      ∃ code env₁ code' env₂, compile (swords 255) (smithy.collapsing false) = (.ok code, env₁) ∧
        code.maxStack.toNat ≤ stackLimit ∧
        compile (swords 255) (smithy.collapsing true) = (.ok code', env₂) ∧
        ¬ code'.maxStack.toNat ≤ stackLimit := by
  obtain ⟨hoffers, hsword, -⟩ := smithy_offers
  obtain ⟨code, env₁, code', env₂, hcompile, hroom, hcompile', hroom'⟩ :=
    smithy_swords (show 254 + 3 ≤ _ by decide)
  refine ⟨reached_smithy, congrArg Config.fastOps config_smithy, hoffers,
    ⟨_, parse_swords 255, swords_asks hsword 255⟩, code, env₁, code', env₂, hcompile, ?_, hcompile',
    ?_⟩
  · rw [hroom]
    decide
  · rw [hroom']
    decide

end Environment

end Passage

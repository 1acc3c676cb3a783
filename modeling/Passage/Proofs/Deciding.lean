import Passage.Proofs.Comparing
import Passage.Proofs.Hosting

/-!
# Settings that decide rules

A comparison of a setting with a literal is lowered to a call if the setting is known by then,
and to a comparison otherwise (`Rule.Tree.lower_comparison`). Both are decided by the optimizer
where the setting has a value, and both in the same way (`Environment.comparison_decided`), unless
tokens go by the name of the setting or by the text of the literal. Of those, the comparison asks
before it knows the setting, and the call does not (`Environment.open_forest_undecided`).
-/

namespace Passage

/-! ## Lowering -/

/-- Symbols of the name and the kind. -/
def SymbolTable.Owns (t : SymbolTable) (name : String) (kind : Symbol.Kind) : Prop :=
  ∃ id, t.get? id = some ⟨name, id, kind⟩

/-- The names of tricks are told apart by their bytes. -/
theorem Lowering.trick?_eq_none_of_bytes {name : String}
    (h : ¬"logic_".toByteArray.data.toList <+: name.toByteArray.data.toList) :
    trick? name = none := by
  refine trick?_eq_none fun ⟨rest, hrest⟩ => h ⟨(String.ofList rest).toByteArray.data.toList, ?_⟩
  have hname : name = "logic_" ++ String.ofList rest := by
    rw [← String.toList_inj, String.toList_append, @String.toList_ofList rest, hrest]
  rw [hname, String.toByteArray_append, ByteArray.data_append, Array.toList_append]

/-- The settings of the schema ask for no tricks. -/
theorem SettingType.trick?_of_ofName? {s : String} {type : SettingType}
    (h : SettingType.ofName? s = some type) : Lowering.trick? s = none := by
  have hall : ∀ entry ∈ SettingType.schema, entry.1 = "logic_rules" ∨
      ¬"logic_".toByteArray.data.toList <+: entry.1.toByteArray.data.toList := by
    decide +kernel
  obtain ⟨before, behind, hschema, -⟩ := List.lookup_eq_some_iff.mp h
  have hmem : (s, type) ∈ SettingType.schema := by
    rw [hschema]
    exact List.mem_append_right _ List.mem_cons_self
  rcases hall _ hmem with hrules | hbytes
  · rw [Lowering.trick?, if_pos hrules]
  · exact Lowering.trick?_eq_none_of_bytes hbytes

namespace SymbolTable

variable {t : SymbolTable} {name : String} {kind : Symbol.Kind}

theorem Owns.knows (h : t.Owns name kind) (ht : t.Sound) : ∃ id, t.Knows name kind id :=
  let ⟨id, hget⟩ := h
  ⟨id, .of_get? ht hget⟩

/-- The number that the name is bound to is that of the symbol. -/
theorem Owns.get? (h : t.Owns name kind) (ht : t.Sound) {id : SymbolId}
    (hname : t.names[name]? = some id) : t.get? id = some ⟨name, id, kind⟩ := by
  obtain ⟨id', hget⟩ := h
  obtain rfl := Option.some.inj ((ht.canonical hget).symm.trans hname)
  exact hget

/-- A name may be used if it is bound or a number is left for it. -/
theorem declare_unknown_ok (hroom : (t.lookup? name).isSome ∨ t.size < capacity) :
    ∃ id, (t.declare name .unknown).1 = .ok id := by
  rcases hlookup : t.lookup? name with _ | s
  · have hlt : t.symbols.size < capacity := hroom.resolve_left (by simp [hlookup])
    refine ⟨t.size, ?_⟩
    rw [declare, hlookup]
    dsimp only
    rw [append, if_pos hlt]
    rfl
  · refine ⟨s.id, ?_⟩
    rw [Knows.declare_unknown ⟨s, hlookup, rfl, rfl⟩]

/-- Using a name changes nothing about the others. -/
theorem Knows.after_unknown {id : SymbolId} (h : t.Knows name kind id) (ht : t.Sound)
    (name' : String) : (t.declare name' .unknown).2.Knows name kind id := by
  have hgrows := declare_grows ht name' .unknown
  obtain ⟨s, hlookup, rfl, rfl⟩ := h
  obtain ⟨hbound, hget⟩ := names_of_lookup? ht hlookup
  obtain ⟨s', hget', -, hkind⟩ := get?_declare_of_get? ht name' .unknown hget
  have hsame : s'.kind = s.kind := by
    obtain hsame | hrefine := hkind
    · exact hsame
    · have hrefine' : s.kind.refine .unknown = some s.kind := by cases s.kind <;> rfl
      exact Option.some.inj (hrefine.symm.trans hrefine')
  exact ⟨s', lookup?_of_names (hgrows.names hbound) hget', hsame, (hgrows.sound ht).ids hget'⟩

end SymbolTable

namespace Literal

theorem isSetting_node (t : SymbolTable) (x : Literal) : Lowering.isSetting t x.node = false := by
  cases x <;> rfl

end Literal

/-- What a comparison of a setting with a literal is lowered to: the call of the function that
compares settings if the name is that of a setting, and the comparison if it is not. -/
theorem Rule.Tree.lower_comparison {t : SymbolTable} (ht : t.Sound) {s : String}
    (hs : Lowering.trick? s = none) (hroom : (t.lookup? s).isSome ∨ t.size < SymbolTable.capacity)
    (hcompare : t.Owns Lowering.settingName .compilerFunction) (op : Comparison) (x : Literal) :
    ∃ id c t' node, (Rule.Tree.compare op (.identifier s) x.tree).lower t = (.ok node, t') ∧
      t'.names[s]? = some id ∧ t'.names[Lowering.settingName]? = some c ∧
      (node = .call c [.number (Number.ofNat op.code), .identifier id, x.node] ∨
        ¬ t.Owns s .setting ∧ node = .compare op (.identifier id) x.node) := by
  obtain ⟨id, hid⟩ := SymbolTable.declare_unknown_ok hroom
  have hsound := (SymbolTable.declare_grows ht s .unknown).sound ht
  obtain ⟨c, hknown⟩ := hcompare.knows ht
  have hknown' := hknown.after_unknown ht s
  have hsettings : t.Owns s .setting →
      (t.declare s .unknown).2.kindOf? id = some .setting := by
    intro howns
    obtain ⟨id', hsetting⟩ := howns.knows ht
    obtain rfl : id' = id := by
      rw [hsetting.declare_unknown] at hid
      exact Except.ok.inj hid
    exact (hsetting.after_unknown ht s).kindOf? hsound
  have hdeclare : t.declare s .unknown = (.ok id, (t.declare s .unknown).2) := Prod.ext hid rfl
  generalize (t.declare s .unknown).2 = t' at hsound hknown' hsettings hdeclare
  have hname : t'.names[s]? = some id := SymbolTable.names_of_declare ht hdeclare
  have hfunction : t'.names[Lowering.settingName]? = some c := by
    obtain ⟨symbol, hlookup, -, rfl⟩ := hknown'
    exact (SymbolTable.names_of_lookup? hsound hlookup).1
  have hlhs : (Rule.Tree.identifier s).lower t = (.ok (.identifier id), t') := by
    rw [Rule.Tree.lower, hs]
    have hstep : Lowering.declare s .unknown t = (.ok id, t') := by
      rw [Lowering.declare, hdeclare]
    dsimp only
    rw [bind_ok hstep]
    rfl
  have hrhs : x.tree.lower t' = (.ok x.node, t') := by
    rw [x.lower_tree]
    rfl
  have hget : (get : Lowering SymbolTable) t' = (.ok t', t') := rfl
  rw [Rule.Tree.lower, bind_ok hlhs, bind_ok hrhs, bind_ok hget, x.isSetting_node, Bool.or_false]
  by_cases hsetting : Lowering.isSetting t' (.identifier id) = true
  · have hcallee : Lowering.declare Lowering.settingName .function t' = (.ok c, t') := by
      rw [Lowering.declare, hknown'.declare_same rfl]
    refine ⟨id, c, t', _, ?_, hname, hfunction, .inl rfl⟩
    rw [if_pos hsetting, Lowering.callNamed, bind_ok hcallee]
    rfl
  · refine ⟨id, c, t', _, ?_, hname, hfunction, .inr ⟨fun howns => hsetting ?_, rfl⟩⟩
    · rw [if_neg hsetting]
      rfl
    · show ((some id).bind t'.kindOf? == some .setting) = true
      rw [Option.bind_some, hsettings howns]
      rfl

/-! ## Names that stay bound -/

namespace SymbolTable.Lasting

open Environment (Holds)

/-- A bound name stays bound to its symbol. -/
theorem bound (name : String) (id : SymbolId) :
    Lasting (fun _ => True) fun t => t.names[name]? = some id :=
  ⟨fun _ _ hs h _ => (declare_grows hs _ _).names h, fun _ h => (bindAlias_grows _ _ _).names h⟩

/-- What lasts in the table of an environment that is reached lasts whatever is asked then. -/
theorem after {T : SymbolTable → Prop} (h : Lasting (fun _ => True) T) {env : Environment}
    (henv : Holds (CompilerFunctions.Declare fun _ => True) (World.Lasts T) env)
    {requests : List Request} (hrequests : ∀ request ∈ requests, request.Declare fun _ => True) :
    Holds (CompilerFunctions.Declare fun _ => True) (World.Lasts T) (env.after requests) := by
  induction requests generalizing env with
  | nil => exact henv
  | cons request rest ih =>
    obtain ⟨hfirst, hrest⟩ := List.forall_mem_cons.mp hrequests
    exact ih (h.respond (fun _ _ => trivial) henv hfirst fun _ _ => trivial) hrest

end SymbolTable.Lasting

/-! ## Environments that decide -/

namespace Environment

/-- The environment runs the standard passes, with the values of settings and with the standard
compiler functions, and the setting is declared and has a value of its type. -/
structure Weighs (env : Environment) (values : Settings) (tricks : List String) (night : Bool)
    (s : String) (v : Literal) : Prop where
  config : env.config = .standard
  settings : env.settings = some values
  functions : env.functions = some (.standard tricks night)
  comparison : env.world.symbols.Owns Lowering.settingName .compilerFunction
  setting : env.world.symbols.Owns s .setting
  type : SettingType.ofName? s = some v.type
  value : SettingValue.literal values v.type s = .ok v.node

namespace Weighs

variable {env : Environment} {values : Settings} {tricks : List String} {night : Bool}
  {s : String} {v x : Literal}

theorem newPipeline_eq (h : env.Weighs values tricks night s v) :
    env.newPipeline = ⟨Pass.standard 16 values (.standard tricks night), 10⟩ := by
  rw [newPipeline, h.config, h.settings, h.functions]
  rfl

theorem reads (h : env.Weighs values tricks night s v) (hw : env.world.Sound) {id : SymbolId}
    (hname : env.world.symbols.names[s]? = some id) : env.world.Reads values s id v :=
  ⟨h.setting.get? hw.symbols hname, h.type, h.value⟩

theorem knows (h : env.Weighs values tricks night s v) (hw : env.world.Sound) {c : SymbolId}
    (hname : env.world.symbols.names[Lowering.settingName]? = some c) :
    env.world.KnowsComparison c :=
  h.comparison.get? hw.symbols hname

/-- What two rounds of the standard passes decide, the environment decides. -/
theorem optimize_of_through {allowed : CompilerFunctions → Prop}
    (h : env.Weighs values tricks night s v) (hready : env.Ready allowed) {op : Comparison}
    (htype : x.type = v.type) (hfits : op.Fits v.type) {node : Node}
    (hfirst : Pass.Through env.scripts env.world (Pass.standard 16 values (.standard tricks night))
      node (.compare op v.node x.node)) :
    (optimize node env).1 = .ok (.boolean (v.compare op x)) := by
  have hsecond : Pass.Through env.scripts env.world
      (Pass.standard 16 values (.standard tricks night)) (.compare op v.node x.node)
      (.boolean (v.compare op x)) :=
    Pass.through_literals env.scripts 16 (.standard tricks night) htype hfits
  have hrun : (env.kept.run env.scripts node env.world).1.result =
      .ok (.boolean (v.compare op x)) := by
    rw [hready.kept, h.newPipeline_eq]
    exact Pipeline.run_of_through (Nat.le_add_left 2 8) hfirst hsecond
  rw [optimize, optimizeTraced_eq]
  dsimp only
  rw [optimized_fst, hrun]

end Weighs

/-- A comparison of a setting with a literal of its type can be lowered, and is decided by the
value of the setting wherever it is optimized then: if the setting was known when it was lowered,
and else if no token goes by the name of the setting or by the text of the literal. -/
theorem comparison_decided {answers : List Answer} {env : Environment}
    (hr : Reached (Request.Declare fun _ => True) answers env) {text s : String} {op : Comparison}
    {x v : Literal} (hparse : Rule.parse text = .ok (.compare op (.identifier s) x.tree))
    (hcompare : env.world.symbols.Owns Lowering.settingName .compilerFunction)
    (hroom : (env.world.symbols.lookup? s).isSome ∨
      env.world.symbols.size < SymbolTable.capacity)
    {requests : List Request} (hrequests : ∀ request ∈ requests, request.Declare fun _ => True)
    {values : Settings} {tricks : List String} {night : Bool}
    (hweighs : ((lower text env).2.after requests).Weighs values tricks night s v)
    (htype : x.type = v.type) (hfits : op.Fits v.type)
    (hfree : env.world.symbols.Owns s .setting ∨
      ((lower text env).2.after requests).world.Unclaimed s x) :
    ∃ node, (lower text env).1 = .ok node ∧
      (optimize node ((lower text env).2.after requests)).1 =
        .ok (.boolean (v.compare op x)) := by
  have hanything : SymbolTable.Lasting (fun _ => True) fun _ => True :=
    ⟨fun _ _ _ _ _ => trivial, fun _ _ => trivial⟩
  obtain ⟨id, c, t, node, hlower, hid, hc, hnode⟩ := Rule.Tree.lower_comparison
    (hanything.reached trivial hr).world.symbols (SettingType.trick?_of_ofName? hweighs.type)
    hroom hcompare op x
  have hlowered := lower_eq hparse hlower
  -- The two names stay bound to what they were bound to when the rule was lowered.
  have hreached := hanything.reached trivial (hr.step (.lower text) trivial)
  have hlasts : ∀ {name : String} {n : SymbolId}, t.names[name]? = some n →
      Holds (CompilerFunctions.Declare fun _ => True)
        (World.Lasts fun t => t.names[name]? = some n) ((lower text env).2.after requests) := by
    intro name n hname
    refine (SymbolTable.Lasting.bound name n).after ?_ hrequests
    have hnow : (lower text env).2.world.symbols.names[name]? = some n := by
      rw [hlowered]
      exact hname
    exact ⟨⟨hreached.world.toSound, hnow⟩, hreached.ready⟩
  have hs := hlasts hid
  have hc := hlasts hc
  refine ⟨node, congrArg Prod.fst hlowered, hweighs.optimize_of_through hs.ready htype hfits ?_⟩
  have hreads := hweighs.reads hs.world.toSound hs.world.table
  obtain rfl | ⟨hunknown, rfl⟩ := hnode
  · exact Pass.through_call _ hreads (hweighs.knows hc.world.toSound hc.world.table) 16 tricks night
  · exact Pass.through_comparison _ hreads (hfree.resolve_left hunknown) 16 _

/-! ### An open forest -/

def forestValues : Settings := Settings.empty.insert "open_forest" (.string (some "open"))

def forestText : String := "open_forest == 'open'"

/-- An environment with a token and the value of a setting that is not declared. -/
def forestRequests (token : String) : List Request :=
  [.builtIns [⟨"has", 2⟩], .tokens [token], .functions (.standard [] true),
    .settingValues forestValues]

def forest (token : String) : Environment := (ofConfig .standard).after (forestRequests token)

/-- The setting is declared when the rule was lowered. -/
def laterForest (token : String) : Environment :=
  (lower forestText (forest token)).2.after [.settings ["open_forest"]]

/-- The setting is declared before the rule is lowered. -/
def earlierForest (token : String) : Environment :=
  (lower forestText ((forest token).after [.settings ["open_forest"]])).2

theorem reached_forest (token : String) : ∃ answers,
    Reached (Request.Declare fun _ => True) answers (forest token) := by
  refine ⟨_, (Reached.start .standard).after fun request hmem => ?_⟩
  simp only [forestRequests, List.mem_cons, List.not_mem_nil, or_false] at hmem
  obtain rfl | rfl | rfl | rfl := hmem
  · trivial
  · trivial
  · exact (CompilerFunctions.standard_declareOnly _ _).declare
  · trivial

/-- The names are found there, and no token goes by those that matter. -/
theorem laterForest_names :
    ((laterForest "Bow").world.symbols.get? 16, (laterForest "Bow").world.symbols.get? 23,
        Item.tokenNamed? (laterForest "Bow").world.symbols (Item.spaced "open_forest"),
        Item.tokenNamed? (laterForest "Bow").world.symbols "open") =
      (some ⟨Lowering.settingName, 16, .compilerFunction⟩, some ⟨"open_forest", 23, .setting⟩,
        none, none) := by
  decide +kernel

theorem laterForest_unclaimed :
    (laterForest "Bow").world.Unclaimed "open_forest" (.string "open") := by
  obtain ⟨-, hrest⟩ := Prod.mk.inj laterForest_names
  obtain ⟨-, hrest⟩ := Prod.mk.inj hrest
  obtain ⟨hname, htext⟩ := Prod.mk.inj hrest
  refine ⟨hname, fun text heq => ?_⟩
  obtain rfl := Literal.string.inj heq
  exact htext

/-- The setting has a value there. -/
theorem laterForest_weighs : (laterForest "Bow").Weighs forestValues [] true "open_forest"
    (.string "open") := by
  have hstanding : ((laterForest "Bow").config, (laterForest "Bow").settings,
      (laterForest "Bow").functions) =
        (.standard, some forestValues, some (.standard [] true)) := by cbv
  obtain ⟨hconfig, hrest⟩ := Prod.mk.inj hstanding
  obtain ⟨hsettings, hfunctions⟩ := Prod.mk.inj hrest
  obtain ⟨hcomparison, hrest⟩ := Prod.mk.inj laterForest_names
  obtain ⟨hsetting, -⟩ := Prod.mk.inj hrest
  exact ⟨hconfig, hsettings, hfunctions, ⟨16, hcomparison⟩, ⟨23, hsetting⟩, by decide, rfl⟩

/-- The rule is lowered to a comparison, and decided. -/
theorem open_forest_decided :
    (lower forestText (forest "Bow")).1 =
        .ok (.compare .equal (.identifier 23) (.string "open")) ∧
      ∃ node, (lower forestText (forest "Bow")).1 = .ok node ∧
        (optimize node (laterForest "Bow")).1 = .ok (.boolean true) := by
  have hparse : Rule.parse forestText =
      .ok (.compare .equal (.identifier "open_forest") (Literal.string "open").tree) := by cbv
  have hall : ((lower forestText (forest "Bow")).1, (forest "Bow").world.symbols.get? 16,
      (forest "Bow").world.symbols.size) =
      (.ok (.compare .equal (.identifier 23) (.string "open")),
        some ⟨Lowering.settingName, 16, .compilerFunction⟩, 23) := by decide +kernel
  obtain ⟨hlowered, hrest⟩ := Prod.mk.inj hall
  obtain ⟨hcompare, hsize⟩ := Prod.mk.inj hrest
  have hroom : (forest "Bow").world.symbols.size < SymbolTable.capacity := by
    rw [hsize]
    decide
  have hrequests : ∀ request ∈ [Request.settings ["open_forest"]],
      request.Declare fun _ => True := List.forall_mem_singleton.mpr trivial
  have hfits : Comparison.equal.Fits .string := by rintro ⟨⟩
  obtain ⟨answers, hreached⟩ := reached_forest "Bow"
  exact ⟨hlowered, comparison_decided hreached hparse ⟨16, hcompare⟩ (.inr hroom) hrequests
    laterForest_weighs rfl hfits (.inr laterForest_unclaimed)⟩

set_option maxRecDepth 4000 in
/-- A token goes by the text of the literal. The comparison of a setting that was not known is
left open, and that of a setting that was known is decided. -/
theorem open_forest_undecided :
    (lower forestText (forest "open")).1 =
        .ok (.compare .equal (.identifier 23) (.string "open")) ∧
      (optimize (.compare .equal (.identifier 23) (.string "open")) (laterForest "open")).1 =
        .ok (.compare .equal (.has 13 14 Item.one) (.has 13 14 Item.one)) ∧
      (optimize (.call 16 [.number (Number.ofNat 1), .identifier 23, .string "open"])
        (earlierForest "open")).1 = .ok (.boolean true) := by
  have hall : ((lower forestText (forest "open")).1,
      (optimize (.compare .equal (.identifier 23) (.string "open")) (laterForest "open")).1,
      (optimize (.call 16 [.number (Number.ofNat 1), .identifier 23, .string "open"])
        (earlierForest "open")).1) =
      (.ok (.compare .equal (.identifier 23) (.string "open")),
        .ok (.compare .equal (.has 13 14 Item.one) (.has 13 14 Item.one)),
        .ok (.boolean true)) := by cbv
  obtain ⟨hlowered, hrest⟩ := Prod.mk.inj hall
  obtain ⟨hlater, hearlier⟩ := Prod.mk.inj hrest
  exact ⟨hlowered, hlater, hearlier⟩

end Environment

end Passage

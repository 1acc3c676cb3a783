import Passage.Pass.Standard
import Passage.Proofs.Rewriting

/-!
# Comparisons of settings with literals

A rule that compares a setting with a literal is lowered in one of two ways: as a call of
`compare_setting` where the setting is known, and as a plain comparison where it is declared
later on. Passes meet the two in different orders. They leave the parts of the call alone until
the setting has been replaced by its value and the call by a comparison; of the plain
comparison, the setting is replaced at once, unless a token goes by its name or by the text of
the literal. In the next round both are comparisons of two literals, which are decided
(`Pipeline.run_of_through`).
-/

namespace Passage

/-! ## Literals -/

/-- A literal of a rule, or the value of a setting. -/
inductive Literal where
  | string (value : String)
  | number (value : Number)
  | boolean (value : Bool)

/-- Whether values of a type are compared in this way: booleans have no order. -/
def Comparison.Fits (op : Comparison) (type : SettingType) : Prop :=
  op = .less → type ≠ .boolean

namespace Literal

def type : Literal → SettingType
  | .string _ => .string
  | .number _ => .number
  | .boolean _ => .boolean

def node : Literal → Node
  | .string value => .string value
  | .number value => .number value
  | .boolean value => .boolean value

/-- The literal as it is written in a rule. -/
def tree : Literal → Rule.Tree
  | .string value => .string value
  | .number value => .number value
  | .boolean value => .bool value

/-- What a comparison says of two literals of one type. -/
def compare (op : Comparison) : Literal → Literal → Bool
  | .string v, .string x => op.decide (v == x) (v < x)
  | .number v, .number x => op.decide (v.same x) (v.less x)
  | .boolean v, .boolean x => op.decide (v == x) (!v && x)
  | _, _ => false

theorem isLiteral_node (x : Literal) : x.node.isLiteral = true := by
  cases x <;> rfl

/-- Folding decides what may be compared. -/
theorem outcome?_node {op : Comparison} {v x : Literal} (htype : x.type = v.type)
    (hfits : op.Fits v.type) : Fold.outcome? op v.node x.node = .ok (some (v.compare op x)) := by
  cases v with
  | string v =>
    cases x with
    | string x => rfl
    | _ => simp [type] at htype
  | number v =>
    cases x with
    | number x => rfl
    | _ => simp [type] at htype
  | boolean v =>
    cases x with
    | boolean x =>
      cases op with
      | equal => rfl
      | unequal => rfl
      | less => exact absurd rfl (hfits rfl)
    | _ => simp [type] at htype

theorem lower_tree (x : Literal) : x.tree.lower = pure x.node := by
  cases x <;> rfl

end Literal

/-! ## Transformations that leave the world alone -/

namespace Rules

variable {r : Rules Transforming} {w : World}

theorem transform_literal (x : Literal)
    (hstring : ∀ s, x = .string s → r.string s w = (.ok (.string s), w)) :
    r.transform x.node w = (.ok x.node, w) := by
  cases x with
  | string s =>
    rw [Literal.node, transform]
    exact hstring s rfl
  | number value =>
    rw [Literal.node, transform]
    rfl
  | boolean value =>
    rw [Literal.node, transform]
    rfl

theorem transform_number (value : Number) :
    r.transform (.number value) w = (.ok (.number value), w) := by
  rw [transform]
  rfl

theorem transform_compare {op : Comparison} {lhs rhs lhs' rhs' : Node}
    (hlhs : r.transform lhs w = (.ok lhs', w)) (hrhs : r.transform rhs w = (.ok rhs', w)) :
    r.transform (.compare op lhs rhs) w = r.compare op lhs' rhs' w := by
  rw [transform, bind_ok hlhs, bind_ok hrhs]

/-- A call of three arguments that the rules do not take whole. -/
theorem transform_call {c : SymbolId} {target a b x a' b' x' : Node}
    (hintercept : r.intercept (.identifier c) [a, b, x] w = (.ok none, w))
    (htarget : r.identifier c w = (.ok target, w)) (ha : r.transform a w = (.ok a', w))
    (hb : r.transform b w = (.ok b', w)) (hx : r.transform x w = (.ok x', w)) :
    r.transform (.call c [a, b, x]) w = r.invoke target [a', b', x'] w := by
  have htarget' : r.transform (.identifier c) w = (.ok target, w) := by
    rw [transform]
    exact htarget
  have hargs : r.transformAll [] [a, b, x] w = (.ok [a', b', x'], w) := by
    rw [transformAll, bind_ok ha, transformAll, bind_ok hb, transformAll, bind_ok hx, transformAll]
    rfl
  rw [Node.call, transform, bind_ok hintercept]
  dsimp only
  rw [bind_ok htarget', bind_ok hargs]

end Rules

/-! ## Passes on comparisons of literals -/

/-- The pass makes one node of another, and leaves the world alone. -/
def Pass.Makes (pass : Pass) (scripts : Scripts) (w : World) (node node' : Node) : Prop :=
  (pass.rules scripts).transform node w = (.ok node', w)

/-- The passes, in order, make one node of another. -/
inductive Pass.Through (scripts : Scripts) (w : World) : List Pass → Node → Node → Prop
  | nil (node : Node) : Through scripts w [] node node
  | cons {pass : Pass} {passes : List Pass} {node node' node'' : Node} :
      pass.Makes scripts w node node' → Through scripts w passes node' node'' →
        Through scripts w (pass :: passes) node node''

/-- Booleans rest. -/
theorem Pass.makes_boolean (pass : Pass) (scripts : Scripts) (w : World) (value : Bool) :
    pass.Makes scripts w (.boolean value) (.boolean value) := by
  rw [Makes, Rules.transform]
  rfl

theorem Pass.through_boolean (scripts : Scripts) (w : World) (value : Bool) :
    (passes : List Pass) → Through scripts w passes (.boolean value) (.boolean value)
  | [] => .nil _
  | pass :: passes => .cons (pass.makes_boolean scripts w value)
      (through_boolean scripts w value passes)

namespace Pipeline

/-- Passes that make a node of another in one round, run so. -/
theorem runPasses_of_through {scripts : Scripts} {w : World} {passes : List Pass}
    {node node' : Node} (h : Pass.Through scripts w passes node node') (round : Nat)
    (done : List PipelineStep) :
    ∃ done', runPasses scripts round ⟨done, .ok node⟩ w passes = (⟨done', .ok node'⟩, w) := by
  induction h generalizing done with
  | nil node => exact ⟨done, rfl⟩
  | @cons pass passes node node' node'' hmakes _ ih =>
    obtain ⟨done', hrest⟩ := ih (⟨round, pass.name, node'⟩ :: done)
    refine ⟨done', ?_⟩
    rw [runPasses]
    dsimp only
    rw [show (pass.rules scripts).transform node w = (.ok node', w) from hmakes]
    exact hrest

/-- Rounds leave a boolean as it is. -/
theorem runRounds_boolean (scripts : Scripts) (w : World) (passes : List Pass) (value : Bool)
    (left : Nat) : ∀ (round : Nat) (done : List PipelineStep), ∃ done',
      runRounds scripts passes round ⟨done, .ok (.boolean value)⟩ w left =
        (⟨done', .ok (.boolean value)⟩, w) := by
  induction left with
  | zero => exact fun _ done => ⟨done, rfl⟩
  | succ left ih =>
    intro round done
    obtain ⟨done', hround⟩ := runPasses_of_through
      (Pass.through_boolean scripts w value passes) round done
    rw [runRounds]
    dsimp only
    rw [hround]
    exact ih (round + 1) done'

/-- What two rounds decide, the run decides. -/
theorem run_of_through {p : Pipeline} {scripts : Scripts} {w : World} {node node' : Node}
    {value : Bool} (hrounds : 2 ≤ p.rounds) (hfirst : Pass.Through scripts w p.passes node node')
    (hsecond : Pass.Through scripts w p.passes node' (.boolean value)) :
    (p.run scripts node w).1.result = .ok (.boolean value) := by
  obtain ⟨left, hleft⟩ := Nat.exists_eq_add_of_le' hrounds
  obtain ⟨done₁, hround₁⟩ := runPasses_of_through hfirst 1 []
  obtain ⟨done₂, hround₂⟩ := runPasses_of_through hsecond 2 done₁
  obtain ⟨done₃, hrest⟩ := runRounds_boolean scripts w p.passes value left 3 done₂
  rw [run_eq, hleft, PipelineRun.start, runRounds]
  dsimp only
  rw [hround₁, runRounds]
  dsimp only
  rw [hround₂, hrest]

end Pipeline

/-! ## The standard passes -/

/-- The standard passes where settings are read and compiler functions are answered. -/
def Pass.standard (limit : Nat) (values : Settings) (functions : CompilerFunctions) : List Pass :=
  [.connections, .inlineCalls limit, .fold, .bareCalls, .collapseHas, .promoteTokens,
    .settings values, .compilerCalls functions]

/-- Rules that leave names and texts as they are, and rebuild calls. -/
structure Rules.Rebuild (r : Rules Transforming) : Prop where
  identifier : ∀ id, r.identifier id = pure (.identifier id)
  string : ∀ s, r.string s = pure (.string s)
  invoke : ∀ target args, r.invoke target args = pure (.invoke target args)

namespace Rules.Rebuild

variable {r : Rules Transforming} {w : World} (h : r.Rebuild)

include h

theorem name (id : SymbolId) : r.transform (.identifier id) w = (.ok (.identifier id), w) := by
  rw [transform, h.identifier]
  rfl

theorem literal (x : Literal) : r.transform x.node w = (.ok x.node, w) :=
  transform_literal x fun s _ => by rw [h.string]; rfl

/-- A call that the rules do not take whole is rebuilt. -/
theorem call {c id : SymbolId} {code : Number} {x : Literal}
    (hintercept : r.intercept (.identifier c) [.number code, .identifier id, x.node] w =
      (.ok none, w)) :
    r.transform (.call c [.number code, .identifier id, x.node]) w =
      (.ok (.call c [.number code, .identifier id, x.node]), w) := by
  rw [transform_call hintercept (by rw [h.identifier]; rfl) (transform_number code) (h.name id)
    (h.literal x), h.invoke]
  rfl

end Rules.Rebuild

namespace Pass

variable (scripts : Scripts) {w : World}

theorem rebuild_connections : (Pass.connections.rules scripts).Rebuild :=
  ⟨fun _ => rfl, fun _ => rfl, fun _ _ => rfl⟩

theorem rebuild_inlineCalls (limit : Nat) : ((Pass.inlineCalls limit).rules scripts).Rebuild := by
  show (Inline.rules scripts limit limit).Rebuild
  cases limit <;> exact ⟨fun _ => rfl, fun _ => rfl, fun _ _ => rfl⟩

theorem rebuild_fold : (Pass.fold.rules scripts).Rebuild :=
  ⟨fun _ => rfl, fun _ => rfl, fun _ _ => rfl⟩

theorem rebuild_collapseHas : (Pass.collapseHas.rules scripts).Rebuild :=
  ⟨fun _ => rfl, fun _ => rfl, fun _ _ => rfl⟩

theorem compare_inlineCalls (limit : Nat) (op : Comparison) (lhs rhs : Node) :
    ((Pass.inlineCalls limit).rules scripts).compare op lhs rhs = pure (.compare op lhs rhs) := by
  show (Inline.rules scripts limit limit).compare op lhs rhs = _
  cases limit <;> rfl

/-- A call is taken as a rule about regions by the name of what is called. -/
theorem connections_intercept {c : SymbolId} {known : Symbol} (hget : w.symbols.get? c = some known)
    (hat : known.name ≠ Elsewhere.atName) (hhere : known.name ≠ Elsewhere.hereName)
    (args : List Node) : Elsewhere.intercept (.identifier c) args w = (.ok none, w) := by
  have hname : (Node.identifier c).identifier?.bind w.symbols.nameOf? = some known.name := by
    show (w.symbols.get? c).map (·.name) = some known.name
    rw [hget]
    rfl
  rw [Elsewhere.intercept, bind_ok (Transforming.symbols_apply w), hname,
    if_neg fun heq => hat (Option.some.inj heq), if_neg fun heq => hhere (Option.some.inj heq)]
  rfl

/-- A call is expanded if what is called is a scripted function. -/
theorem inlineCalls_intercept {target : Node}
    (hscript : Inline.scriptOf? scripts w.symbols target = none) (limit : Nat)
    (args : List Node) :
    ((Pass.inlineCalls limit).rules scripts).intercept target args w = (.ok none, w) := by
  have hleft : ∀ expand : String → Node → Transforming Node,
      Inline.intercept scripts expand target args w = (.ok none, w) :=
    fun _ => Inline.intercept_of_none hscript
  show (Inline.rules scripts limit limit).intercept _ _ w = _
  cases limit with
  | zero => exact hleft fun name _ => throw (.inlineDepth name 0)
  | succ left => exact hleft _

end Pass

/-! ## Comparisons with settings -/

/-- The setting and the function that compares it are known by their names, and the setting has
a value of the type that the schema gives it. -/
structure World.Reads (w : World) (values : Settings) (s : String) (id : SymbolId) (v : Literal) :
    Prop where
  setting : w.symbols.get? id = some ⟨s, id, .setting⟩
  type : SettingType.ofName? s = some v.type
  value : SettingValue.literal values v.type s = .ok v.node

namespace World.Reads

variable {w : World} {values : Settings} {s : String} {id : SymbolId} {v x : Literal}
  (h : w.Reads values s id v)

include h

/-- The name of a setting is no bare call. -/
theorem bareCalls (scripts : Scripts) :
    BareCall.identifier scripts id w = (.ok (.identifier id), w) := by
  rw [BareCall.identifier, bind_ok (Transforming.symbols_apply w), h.setting]
  rfl

/-- The name of a setting is replaced by the value. -/
theorem settings : SettingValue.identifier values id w = (.ok v.node, w) := by
  rw [SettingValue.identifier, bind_ok (Transforming.symbols_apply w), h.setting]
  dsimp only
  rw [h.type]
  dsimp only
  rw [if_pos rfl, h.value]
  rfl

end World.Reads

/-- The function that compares settings is known by its name. -/
def World.KnowsComparison (w : World) (c : SymbolId) : Prop :=
  w.symbols.get? c = some ⟨Lowering.settingName, c, .compilerFunction⟩

namespace World.KnowsComparison

variable {w : World} {c : SymbolId}

/-- The function has not the name of a setting. -/
theorem settings (hc : w.KnowsComparison c) (values : Settings) :
    SettingValue.identifier values c w = (.ok (.identifier c), w) := by
  have hunlisted : SettingType.ofName? Lowering.settingName = none := by decide
  rw [SettingValue.identifier, bind_ok (Transforming.symbols_apply w), hc]
  dsimp only
  rw [hunlisted]
  rfl

/-- The standard table answers for it. -/
theorem answer (hc : w.KnowsComparison c) (tricks : List String) (night : Bool)
    (args : List Node) : (CompilerFunctions.standard tricks night).answer (.identifier c) args w =
      CompilerFunctions.compareSetting args w := by
  have hfunction : (CompilerFunctions.standard tricks night).functionOf? w.symbols
      (.identifier c) = some CompilerFunctions.compareSetting := by
    show ((w.symbols.get? c).map (·.name)).bind _ = _
    rw [hc]
    rfl
  rw [CompilerFunctions.answer, bind_ok (Transforming.symbols_apply w), hfunction]

end World.KnowsComparison

/-- No token goes by the name of a setting, with blanks for its underscores, or by the text of
a literal. -/
structure World.Unclaimed (w : World) (s : String) (x : Literal) : Prop where
  name : Item.tokenNamed? w.symbols (Item.spaced s) = none
  text : ∀ text, x = .string text → Item.tokenNamed? w.symbols text = none

namespace Pass

variable (scripts : Scripts) {w : World} {values : Settings} {s : String} {id c : SymbolId}
  {v x : Literal} {op : Comparison}

/-- In the second round the comparison of two literals is decided. -/
theorem through_literals (limit : Nat) (functions : CompilerFunctions) (htype : x.type = v.type)
    (hfits : op.Fits v.type) :
    Through scripts w (Pass.standard limit values functions) (.compare op v.node x.node)
      (.boolean (v.compare op x)) := by
  have hconnections : Pass.connections.Makes scripts w (.compare op v.node x.node)
      (.compare op v.node x.node) := by
    have hrules := rebuild_connections scripts
    rw [Makes, Rules.transform_compare (hrules.literal v) (hrules.literal x)]
    rfl
  have hinline : (Pass.inlineCalls limit).Makes scripts w (.compare op v.node x.node)
      (.compare op v.node x.node) := by
    have hrules := rebuild_inlineCalls scripts limit
    rw [Makes, Rules.transform_compare (hrules.literal v) (hrules.literal x),
      compare_inlineCalls]
    rfl
  have hfold : Pass.fold.Makes scripts w (.compare op v.node x.node)
      (.boolean (v.compare op x)) := by
    have hrules := rebuild_fold scripts
    rw [Makes, Rules.transform_compare (hrules.literal v) (hrules.literal x)]
    show Fold.compare op v.node x.node w = _
    rw [Fold.compare, Literal.outcome?_node htype hfits]
    rfl
  exact .cons hconnections (.cons hinline (.cons hfold (through_boolean scripts w _ _)))

/-- The settings pass puts the value in its place, in calls and comparisons. -/
theorem settings_call (hs : w.Reads values s id v) (hc : w.KnowsComparison c) (code : Number) :
    (Pass.settings values).Makes scripts w (.call c [.number code, .identifier id, x.node])
      (.call c [.number code, v.node, x.node]) := by
  have hname : ((Pass.settings values).rules scripts).transform (.identifier id) w =
      (.ok v.node, w) := by
    rw [Rules.transform]
    exact hs.settings
  rw [Makes, Rules.transform_call rfl (hc.settings values)
    (Rules.transform_number code) hname
    (Rules.transform_literal x fun _ _ => rfl)]
  rfl

/-- The call for two literals is answered with a comparison. -/
theorem compilerCalls_call (hc : w.KnowsComparison c) (tricks : List String) (night : Bool) :
    (Pass.compilerCalls (.standard tricks night)).Makes scripts w
      (.call c [.number (Number.ofNat op.code), v.node, x.node]) (.compare op v.node x.node) := by
  have hop : Comparison.ofCode? (Number.ofNat op.code).clampToByte = some op := by
    cases op <;> decide +kernel
  rw [Makes, Rules.transform_call rfl rfl
    (Rules.transform_number _)
    (Rules.transform_literal v fun _ _ => rfl) (Rules.transform_literal x fun _ _ => rfl)]
  show CompilerFunctions.answer _ (.identifier c) _ w = _
  rw [hc.answer, CompilerFunctions.compareSetting, hop]
  dsimp only
  rw [v.isLiteral_node, x.isLiteral_node]
  rfl

/-- The first round makes a comparison of two literals of the call. -/
theorem through_call (hs : w.Reads values s id v) (hc : w.KnowsComparison c) (limit : Nat)
    (tricks : List String) (night : Bool) :
    Through scripts w (Pass.standard limit values (.standard tricks night))
      (.call c [.number (Number.ofNat op.code), .identifier id, x.node])
      (.compare op v.node x.node) := by
  have hat : Lowering.settingName ≠ Elsewhere.atName := by decide
  have hhere : Lowering.settingName ≠ Elsewhere.hereName := by decide
  have hinline := inlineCalls_intercept scripts (Inline.scriptOf?_of_kind_ne hc nofun) limit
  exact .cons ((rebuild_connections scripts).call (connections_intercept hc hat hhere _))
    (.cons ((rebuild_inlineCalls scripts limit).call (hinline _))
      (.cons ((rebuild_fold scripts).call rfl)
        (.cons (Rules.transform_keepCalls rfl _ _)
          (.cons ((rebuild_collapseHas scripts).call rfl)
            (.cons (Rules.transform_keepCalls rfl _ _)
              (.cons (settings_call scripts hs hc _)
                (.cons (compilerCalls_call scripts hc tricks night) (.nil _))))))))

/-- The first round makes a comparison of two literals of the comparison, unless tokens are
asked for in it. -/
theorem through_comparison (hs : w.Reads values s id v) (hx : w.Unclaimed s x) (limit : Nat)
    (functions : CompilerFunctions) :
    Through scripts w (Pass.standard limit values functions)
      (.compare op (.identifier id) x.node) (.compare op v.node x.node) := by
  have hconnections : Pass.connections.Makes scripts w (.compare op (.identifier id) x.node)
      (.compare op (.identifier id) x.node) := by
    have hrules := rebuild_connections scripts
    rw [Makes, Rules.transform_compare (hrules.name id) (hrules.literal x)]
    rfl
  have hinline : (Pass.inlineCalls limit).Makes scripts w (.compare op (.identifier id) x.node)
      (.compare op (.identifier id) x.node) := by
    have hrules := rebuild_inlineCalls scripts limit
    rw [Makes, Rules.transform_compare (hrules.name id) (hrules.literal x),
      compare_inlineCalls]
    rfl
  have hfold : Pass.fold.Makes scripts w (.compare op (.identifier id) x.node)
      (.compare op (.identifier id) x.node) := by
    have hrules := rebuild_fold scripts
    rw [Makes, Rules.transform_compare (hrules.name id) (hrules.literal x)]
    cases x <;> rfl
  have hbare : Pass.bareCalls.Makes scripts w (.compare op (.identifier id) x.node)
      (.compare op (.identifier id) x.node) := by
    have hname : (Pass.bareCalls.rules scripts).transform (.identifier id) w =
        (.ok (.identifier id), w) := by
      rw [Rules.transform]
      exact hs.bareCalls scripts
    rw [Makes, Rules.transform_compare hname (Rules.transform_literal x fun _ _ => rfl)]
    rfl
  have hcollapse : Pass.collapseHas.Makes scripts w (.compare op (.identifier id) x.node)
      (.compare op (.identifier id) x.node) := by
    have hrules := rebuild_collapseHas scripts
    rw [Makes, Rules.transform_compare (hrules.name id) (hrules.literal x)]
    rfl
  have hpromote : Pass.promoteTokens.Makes scripts w (.compare op (.identifier id) x.node)
      (.compare op (.identifier id) x.node) := by
    have hname : (Pass.promoteTokens.rules scripts).transform (.identifier id) w =
        (.ok (.identifier id), w) := by
      rw [Rules.transform]
      show Item.promoteIdentifier id w = _
      rw [Item.promoteIdentifier, bind_ok (Transforming.symbols_apply w), hs.setting]
      have hnone : Item.tokenOf? w.symbols ⟨s, id, .setting⟩ = none := by
        rw [Item.tokenOf?, if_neg (by rintro ⟨⟩), hx.name, ite_self]
      dsimp only
      rw [hnone]
      rfl
    have htext : (Pass.promoteTokens.rules scripts).transform x.node w = (.ok x.node, w) := by
      refine Rules.transform_literal x fun text htext => ?_
      show Item.promoteString text w = _
      rw [Item.promoteString, bind_ok (Transforming.symbols_apply w), hx.text text htext]
      rfl
    rw [Makes, Rules.transform_compare hname htext]
    rfl
  have hsettings : (Pass.settings values).Makes scripts w (.compare op (.identifier id) x.node)
      (.compare op v.node x.node) := by
    have hname : ((Pass.settings values).rules scripts).transform (.identifier id) w =
        (.ok v.node, w) := by
      rw [Rules.transform]
      exact hs.settings
    rw [Makes, Rules.transform_compare hname (Rules.transform_literal x fun _ _ => rfl)]
    rfl
  have hcompiler : (Pass.compilerCalls functions).Makes scripts w (.compare op v.node x.node)
      (.compare op v.node x.node) := by
    rw [Makes, Rules.transform_compare (Rules.transform_literal v fun _ _ => rfl)
      (Rules.transform_literal x fun _ _ => rfl)]
    rfl
  exact .cons hconnections (.cons hinline (.cons hfold (.cons hbare (.cons hcollapse
    (.cons hpromote (.cons hsettings (.cons hcompiler (.nil _))))))))

end Pass

end Passage

import Passage.Proofs.Deciding
import Passage.Proofs.Uncovering

/-!
# Comparisons that are decided one a round

A comparison with a setting is answered when both sides are literals. A side that is an
expression may become a literal when the expression is folded; but then another comparison that
stands in an expression with this one waits for the next round. So comparisons with settings
within one another are decided one a round, from the inside (`Pass.through_weighed`), and no
number of rounds is enough for all of them (`Environment.comparisons_run_out`).
-/

namespace Passage

/-! ## Comparisons within one another -/

namespace Node

/-- Calls of a function, within one another, that compare an operand with the conjunction of one
and of the next call. -/
def weighed (c : SymbolId) (operand core : Node) : Nat → Node
  | 0 => core
  | depth + 1 =>
    .call c [.number Item.one, operand, .every [.number Item.one, weighed c operand core depth]]

/-- What stays in a conjunction as it is. -/
structure Stays (node : Node) : Prop where
  isJunction : node.isJunction = false
  ne_boolean : ∀ value, node ≠ .boolean value

variable {c : SymbolId} {operand core : Node}

theorem stays_call (callee : SymbolId) (args : List Node) : (call callee args).Stays :=
  ⟨rfl, nofun⟩

theorem stays_compare (op : Comparison) (lhs rhs : Node) : (compare op lhs rhs).Stays :=
  ⟨rfl, nofun⟩

theorem Stays.weighed (h : core.Stays) (depth : Nat) : (weighed c operand core depth).Stays := by
  cases depth with
  | zero => exact h
  | succ depth => exact stays_call _ _

theorem Stays.conjoin {node : Node} (h : node.Stays) :
    conjoin [.number Item.one, node] = .every [.number Item.one, node] := by
  obtain ⟨hjunction, hboolean⟩ := h
  cases node <;> first | rfl | exact absurd rfl (hboolean _) | cases hjunction

/-- The innermost call may be taken for the core. -/
theorem weighed_succ (c : SymbolId) (operand core : Node) (depth : Nat) :
    weighed c operand core (depth + 1) = weighed c operand (weighed c operand core 1) depth := by
  induction depth with
  | zero => rfl
  | succ depth ih =>
    rw [weighed, ih]
    rfl

/-- Around a call, all are calls. -/
theorem weighed_call (c : SymbolId) (operand : Node) (args : List Node) (depth : Nat) :
    ∃ args', weighed c operand (call c args) depth = call c args' := by
  cases depth <;> exact ⟨_, rfl⟩

end Node

/-! ## Passes on them -/

section

variable {w : World} {c : SymbolId} {operand operand' core core' : Node}

/-- Rules that rebuild such calls do what they do to the operands and to the core. -/
theorem Rules.transform_weighed {r : Rules Transforming} (hcore' : core'.Stays)
    (hintercept : ∀ args, r.intercept (.identifier c) args w = (.ok none, w))
    (hcallee : r.identifier c w = (.ok (.identifier c), w))
    (hevery : ∀ {node : Node}, node.Stays → (∃ args, node = .call c args) ∨ node = core' →
      r.every [.number Item.one, node] w = (.ok (.every [.number Item.one, node]), w))
    (hinvoke : ∀ {items : List Node}, r.invoke (.identifier c)
      [.number Item.one, operand', .every items] w =
        (.ok (.call c [.number Item.one, operand', .every items]), w))
    (hoperand : r.transform operand w = (.ok operand', w))
    (hcore : r.transform core w = (.ok core', w)) (depth : Nat) :
    r.transform (.weighed c operand core depth) w = (.ok (.weighed c operand' core' depth), w) := by
  induction depth with
  | zero => exact hcore
  | succ depth ih =>
    have hitems : r.transformAll [] [.number Item.one, .weighed c operand core depth] w =
        (.ok [.number Item.one, .weighed c operand' core' depth], w) := by
      rw [transformAll, bind_ok (transform_number Item.one), transformAll, bind_ok ih]
      rfl
    have hkind : (∃ args, Node.weighed c operand' core' depth = .call c args) ∨
        Node.weighed c operand' core' depth = core' := by
      cases depth with
      | zero => exact .inr rfl
      | succ depth => exact .inl ⟨_, rfl⟩
    have hall : r.transform (.every [.number Item.one, .weighed c operand core depth]) w =
        (.ok (.every [.number Item.one, .weighed c operand' core' depth]), w) := by
      rw [transform, bind_ok hitems]
      exact hevery (hcore'.weighed depth) hkind
    rw [Node.weighed, transform_call (hintercept _) hcallee (transform_number Item.one) hoperand
      hall]
    exact hinvoke

/-- Rules for conjunctions that only put them together. -/
theorem Rules.every_stays {r : Rules Transforming}
    (h : ∀ items, r.every items = pure (.conjoin items)) {node : Node} (hnode : node.Stays) :
    r.every [.number Item.one, node] w = (.ok (.every [.number Item.one, node]), w) := by
  rw [h, hnode.conjoin]
  rfl

end

/-- What is left alone by all rules that rebuild the nodes and do not take calls of the function
whole. -/
structure Node.Kept (w : World) (c : SymbolId) (node : Node) : Prop where
  transform : ∀ {r : Rules Transforming}, r.Rebuild → r.Rebuilds →
    (∀ args, r.intercept (.identifier c) args w = (.ok none, w)) →
    r.transform node w = (.ok node, w)

namespace Node.Kept

variable {w : World} {c : SymbolId} {operand core : Node}

theorem number (value : Number) : (Node.number value).Kept w c :=
  ⟨fun _ _ _ => Rules.transform_number value⟩

theorem identifier (id : SymbolId) : (Node.identifier id).Kept w c :=
  ⟨fun hrebuild _ _ => hrebuild.name id⟩

theorem compare {op : Comparison} {lhs rhs : Node} (hl : lhs.Kept w c) (hr : rhs.Kept w c) :
    (Node.compare op lhs rhs).Kept w c := by
  refine ⟨fun hrebuild hrebuilds hintercept => ?_⟩
  rw [Rules.transform_compare (hl.transform hrebuild hrebuilds hintercept)
    (hr.transform hrebuild hrebuilds hintercept), hrebuilds.compare]
  rfl

theorem call {a b x : Node} (ha : a.Kept w c) (hb : b.Kept w c) (hx : x.Kept w c) :
    (Node.call c [a, b, x]).Kept w c := by
  refine ⟨fun {r} hrebuild hrebuilds hintercept => ?_⟩
  have hcallee : r.identifier c w = (.ok (.identifier c), w) := by
    rw [hrebuild.identifier]
    rfl
  rw [Rules.transform_call (hintercept _) hcallee (ha.transform hrebuild hrebuilds hintercept)
    (hb.transform hrebuild hrebuilds hintercept) (hx.transform hrebuild hrebuilds hintercept),
    hrebuild.invoke]
  rfl

theorem weighed (hoperand : operand.Kept w c) (hcore : core.Kept w c) (hstays : core.Stays)
    (depth : Nat) : (Node.weighed c operand core depth).Kept w c := by
  refine ⟨fun hrebuild hrebuilds hintercept => ?_⟩
  refine Rules.transform_weighed hstays hintercept ?_
    (fun hnode _ => Rules.every_stays hrebuilds.every hnode) ?_
    (hoperand.transform hrebuild hrebuilds hintercept)
    (hcore.transform hrebuild hrebuilds hintercept) depth
  · rw [hrebuild.identifier]
    rfl
  · intro items
    rw [hrebuild.invoke]
    rfl

end Node.Kept

/-! ## A setting that is one -/

/-- The world knows a setting of the value one, and the functions that compare and ask. -/
structure World.Weighs (w : World) (values : Settings) (q : Askers) (c : SymbolId) (name : String)
    (id : SymbolId) : Prop where
  reads : w.Reads values name id (.number Item.one)
  compares : w.KnowsComparison c
  asks : q.Of (fun _ => False) w.symbols

namespace Node

/-- The comparisons as they are lowered: the operand is the setting. -/
def compared (c id : SymbolId) : Nat → Node :=
  weighed c (.identifier id) (.call c [.number Item.one, .identifier id, .number Item.one])

/-- The comparisons when the value of the setting is put in. -/
def valued (c : SymbolId) : Nat → Node :=
  weighed c (.number Item.one) (.call c [.number Item.one, .number Item.one, .number Item.one])

/-- The comparisons when the innermost one is answered. -/
def answered (c : SymbolId) : Nat → Node :=
  weighed c (.number Item.one) (.compare .equal (.number Item.one) (.number Item.one))

end Node

namespace Pass

variable {w : World} {values : Settings} {q : Askers} {c id : SymbolId} {name : String}
  (scripts : Scripts) (h : w.Weighs values q c name id)

include h

/-- Nothing is asked for by a comparison. -/
theorem asked_compared (args : List Node) :
    Item.asked w.symbols Item.everyName (.call c args) = none := by
  have hother : ∀ {name id}, w.symbols.Knows name .builtInFunction id →
      (w.symbols.lookup? name).map (·.id) ≠ some c := by
    rintro name id ⟨s, hlookup, hkind, -⟩ heq
    rw [hlookup] at heq
    obtain rfl : s.id = c := Option.some.inj heq
    have hget := (SymbolTable.names_of_lookup? h.asks.sound hlookup).2
    rw [Option.some.inj (hget.symm.trans h.compares)] at hkind
    cases hkind
  exact Item.subjects?_eq_none.mpr ⟨hother (h.asks.knows_joining .every), fun _ heq =>
    absurd heq (hother h.asks.knows_has)⟩

/-- No rule about a region is called, and no scripted function. -/
theorem makes_kept (limit : Nat) {node : Node} (hnode : node.Kept w c) :
    Pass.connections.Makes scripts w node node ∧
      (Pass.inlineCalls limit).Makes scripts w node node := by
  have hat : Lowering.settingName ≠ Elsewhere.atName := by decide
  have hhere : Lowering.settingName ≠ Elsewhere.hereName := by decide
  constructor
  · exact hnode.transform (rebuild_connections scripts) Rules.rebuilds_default
      (connections_intercept h.compares hat hhere)
  · refine hnode.transform (rebuild_inlineCalls scripts limit) ?_
      (inlineCalls_intercept scripts (Inline.scriptOf?_of_kind_ne h.compares nofun) limit)
    show (Inline.rules scripts limit limit).Rebuilds
    cases limit <;> exact Rules.rebuilds_default

/-- Joining leaves the comparisons alone. -/
theorem collapse_weighed {operand : Node} {args : List Node}
    (hoperand : Pass.collapseHas.Makes scripts w operand operand)
    (hcore : Pass.collapseHas.Makes scripts w (.call c args) (.call c args)) (depth : Nat) :
    Pass.collapseHas.Makes scripts w (.weighed c operand (.call c args) depth)
      (.weighed c operand (.call c args) depth) := by
  refine Rules.transform_weighed (Node.stays_call c args) (fun _ => rfl) rfl
    (fun {node} hnode hkind => ?_) rfl hoperand hcore depth
  have hnumber : Item.asked w.symbols Item.everyName (.number Item.one) = none :=
    Item.asked_of_ne nofun
  have hnone : Item.asked w.symbols Item.everyName node = none := by
    obtain ⟨args', rfl⟩ | rfl := hkind <;> exact asked_compared h _
  have hjoin : Item.join Item.everyName [.number Item.one, node] w =
      (.ok [.number Item.one, node], w) :=
    Item.join_of_unasked (List.forall_mem_cons.mpr ⟨hnumber, List.forall_mem_singleton.mpr hnone⟩)
  show Item.every _ w = _
  rw [Item.every, bind_ok hjoin, hnode.conjoin]
  rfl

omit h in
/-- Folding decides the innermost comparison, when it is one of literals. -/
theorem fold_answered (depth : Nat) :
    Pass.fold.Makes scripts w (.answered c (depth + 1)) (.valued c depth) := by
  have hcore : Pass.fold.Makes scripts w (.answered c 1)
      (.call c [.number Item.one, .number Item.one, .number Item.one]) := by
    rw [Makes, ← Pass.apply_eq, Fold.fold_apply]
    rfl
  rw [Node.answered, Node.weighed_succ]
  exact Rules.transform_weighed (Node.stays_call _ _) (fun _ => rfl) rfl
    (fun hnode _ => Rules.every_stays (fun _ => rfl) hnode) rfl
    (Rules.transform_number Item.one) hcore depth

omit h in
/-- Folding leaves the comparisons as they were lowered. -/
theorem fold_compared (depth : Nat) :
    Pass.fold.Makes scripts w (.compared c id depth) (.compared c id depth) :=
  Rules.transform_weighed (Node.stays_call _ _) (fun _ => rfl) rfl
    (fun hnode _ => Rules.every_stays (fun _ => rfl) hnode) rfl ((rebuild_fold scripts).name id)
    (Rules.transform_call rfl rfl (Rules.transform_number _) ((rebuild_fold scripts).name id)
      (Rules.transform_number _)) depth

/-- The value of the setting is put in. -/
theorem settings_compared (depth : Nat) :
    (Pass.settings values).Makes scripts w (.compared c id depth) (.valued c depth) := by
  have hoperand : ((Pass.settings values).rules scripts).transform (.identifier id) w =
      (.ok (.number Item.one), w) := by
    rw [Rules.transform]
    exact h.reads.settings
  exact Rules.transform_weighed (Node.stays_call _ _) (fun _ => rfl) (h.compares.settings values)
    (fun hnode _ => Rules.every_stays (fun _ => rfl) hnode) rfl hoperand
    (settings_call scripts (x := .number Item.one) h.reads h.compares Item.one) depth

theorem settings_valued (depth : Nat) :
    (Pass.settings values).Makes scripts w (.valued c depth) (.valued c depth) := by
  have hone := Rules.transform_number (r := (Pass.settings values).rules scripts) (w := w) Item.one
  have hcore : (Pass.settings values).Makes scripts w
      (.call c [.number Item.one, .number Item.one, .number Item.one])
      (.call c [.number Item.one, .number Item.one, .number Item.one]) :=
    Rules.transform_call rfl (h.compares.settings values) hone hone hone
  exact Rules.transform_weighed (Node.stays_call _ _) (fun _ => rfl) (h.compares.settings values)
    (fun hnode _ => Rules.every_stays (fun _ => rfl) hnode) rfl hone hcore depth

/-- The innermost comparison is answered, and the others are left. -/
theorem compilerCalls_valued (tricks : List String) (night : Bool) (depth : Nat) :
    (Pass.compilerCalls (.standard tricks night)).Makes scripts w (.valued c depth)
      (.answered c depth) := by
  have hleft : ∀ {items : List Node}, CompilerFunctions.compareSetting
      [.number Item.one, .number Item.one, .every items] w =
        (.ok (.call c [.number Item.one, .number Item.one, .every items]), w) := by
    intro items
    have hop : Comparison.ofCode? Item.one.clampToByte = some .equal := by decide +kernel
    have hdeclare := CompilerFunctions.declare_callee h.asks.sound h.compares rfl
    rw [CompilerFunctions.compareSetting, hop]
    exact bind_ok hdeclare
  have hinner : (Pass.compilerCalls (.standard tricks night)).Makes scripts w
      (.call c [.number (.ofNat Comparison.equal.code), .number Item.one, .number Item.one])
      (.compare .equal (.number Item.one) (.number Item.one)) :=
    compilerCalls_call scripts (v := .number Item.one) (x := .number Item.one) h.compares tricks
      night
  refine Rules.transform_weighed (Node.stays_compare _ _ _) (fun _ => rfl) rfl
    (fun hnode _ => Rules.every_stays (fun _ => rfl) hnode) ?_ (Rules.transform_number Item.one)
    hinner depth
  exact (h.compares.answer tricks night _).trans hleft

/-! ## Rounds -/

/-- Behind the folding, a round puts in the value and answers the innermost comparison. -/
theorem through_rest {operand : Node} {args : List Node} (tricks : List String) (night : Bool)
    {depth : Nat}
    (hcollapse : Pass.collapseHas.Makes scripts w (.weighed c operand (.call c args) depth)
      (.weighed c operand (.call c args) depth))
    (hsettings : (Pass.settings values).Makes scripts w (.weighed c operand (.call c args) depth)
      (.valued c depth)) :
    Through scripts w [.bareCalls, .collapseHas, .promoteTokens, .settings values,
        .compilerCalls (.standard tricks night)]
      (.weighed c operand (.call c args) depth) (.answered c depth) := by
  obtain ⟨args', hcall⟩ := Node.weighed_call c operand args depth
  rw [hcall] at hcollapse hsettings ⊢
  exact .cons (Rules.transform_keepCalls rfl _ _) (.cons hcollapse
    (.cons (Rules.transform_keepCalls rfl _ _) (.cons hsettings
      (.cons (compilerCalls_valued scripts h tricks night depth) (.nil _)))))

/-- The first round puts in the value and answers the innermost comparison. -/
theorem through_compared (limit : Nat) (tricks : List String) (night : Bool) (depth : Nat) :
    Through scripts w (Pass.standard limit values (.standard tricks night)) (.compared c id depth)
      (.answered c depth) := by
  have hkept : (Node.compared c id depth).Kept w c :=
    Node.Kept.weighed (.identifier id) (.call (.number _) (.identifier id) (.number _))
      (Node.stays_call _ _) depth
  obtain ⟨hconnections, hinline⟩ := makes_kept scripts h limit hkept
  have hr := rebuild_collapseHas scripts
  have hcollapse := collapse_weighed scripts h (hr.name id)
    (Rules.transform_call (a := .number Item.one) (x := .number Item.one) rfl rfl
      (Rules.transform_number _) (hr.name id) (Rules.transform_number _)) depth
  exact .cons hconnections (.cons hinline (.cons (fold_compared scripts depth)
    (through_rest scripts h tricks night hcollapse (settings_compared scripts h depth))))

/-- Every later round answers one more. -/
theorem through_answered (limit : Nat) (tricks : List String) (night : Bool) (depth : Nat) :
    Through scripts w (Pass.standard limit values (.standard tricks night))
      (.answered c (depth + 1)) (.answered c depth) := by
  have hkept : (Node.answered c (depth + 1)).Kept w c :=
    Node.Kept.weighed (.number _) (.compare (.number _) (.number _)) (Node.stays_compare _ _ _)
      (depth + 1)
  obtain ⟨hconnections, hinline⟩ := makes_kept scripts h limit hkept
  have hone := Rules.transform_number (r := Pass.collapseHas.rules scripts) (w := w) Item.one
  have hcollapse := collapse_weighed scripts h hone
    (Rules.transform_call rfl rfl hone hone hone) depth
  exact .cons hconnections (.cons hinline (.cons (fold_answered scripts depth)
    (through_rest scripts h tricks night hcollapse (settings_valued scripts h depth))))

end Pass

/-- What passes make of a rule in their order, a round makes of it. -/
theorem Pipeline.behind_of_through {scripts : Scripts} {passes : List Pass} {w : World}
    {node node' : Node} (h : Pass.Through scripts w passes node node') :
    behind scripts passes (.ok node, w) 1 = (.ok node', w) := by
  induction h with
  | nil node => exact behind_nil _
  | cons hmakes _ ih =>
    rw [behind_cons, show _ = _ from hmakes]
    exact ih

/-! ## The rules -/

namespace Rule.Tree

/-- `s == 1` within `s == (1 and ..)`. -/
def compared (s : String) : Nat → Tree
  | 0 => .compare .equal (.identifier s) (.number Item.one)
  | depth + 1 =>
      .compare .equal (.identifier s) (.connect .and (.number Item.one) (compared s depth))

variable {s : String}

theorem compared_printable (h : Printable (.identifier s)) (depth : Nat) :
    (compared s depth).Printable := by
  induction depth with
  | zero => exact .compare h one_printable
  | succ depth ih => exact .compare h (.connect one_printable ih)

/-- They are lowered to calls without a trace. -/
theorem lower_compared {t : SymbolTable} (ht : t.Sound) {c id : SymbolId}
    (hname : Lowering.trick? s = none) (hs : t.Knows s .setting id)
    (hc : t.Knows Lowering.settingName .compilerFunction c) (depth : Nat) :
    (compared s depth).lower t = (.ok (.compared c id depth), t) := by
  have hone : lower (.number Item.one) t = (.ok (.number Item.one), t) := rfl
  have hcall : ∀ {rhs : Tree} {node : Node}, rhs.lower t = (.ok node, t) →
      (Tree.compare .equal (.identifier s) rhs).lower t =
        (.ok (.call c [.number Item.one, .identifier id, node]), t) := by
    intro rhs node hrhs
    have hsetting : Lowering.isSetting t (.identifier id) = true := by
      show (t.kindOf? id == some .setting) = true
      rw [hs.kindOf? ht]
      rfl
    have hdeclare : Lowering.declare Lowering.settingName .function t = (.ok c, t) := by
      rw [Lowering.declare, hc.declare_same rfl]
    rw [lower, bind_ok (lower_identifier hname hs), bind_ok hrhs, bind_ok (get_apply t), hsetting,
      Bool.true_or, if_pos rfl, Lowering.callNamed, bind_ok hdeclare]
    rfl
  induction depth with
  | zero => exact hcall hone
  | succ depth ih =>
    obtain ⟨args, hargs⟩ := Node.weighed_call c (.identifier id)
      [.number Item.one, .identifier id, .number Item.one] depth
    have hitems : (Tree.connect .and (.number Item.one) (compared s depth)).lower t =
        (.ok (.every [.number Item.one, .compared c id depth]), t) := by
      rw [lower, bind_ok hone, bind_ok ih, Node.compared, hargs]
      rfl
    exact hcall hitems

end Rule.Tree

namespace Environment

variable {env : Environment}

/-- However many rounds there are, comparisons with a setting are left within one another by the
last one, and decided when the rule is optimized again. -/
theorem comparisons_run_out {history : List (Answer × Environment)} (hhosted : Hosted history env)
    (hon : ∀ kind, env.config.passes.isOn kind = true) (hrounds : 0 < env.config.rounds)
    {values : Settings} {tricks : List String} {night : Bool}
    (hsettings : env.settings = some values)
    (hfunctions : env.functions = some (.standard tricks night))
    (hvalue : values.number "lacs_medallions" = .ok Item.one)
    (hsetting : env.world.symbols.Owns "lacs_medallions" .setting)
    (hcompare : env.world.symbols.Owns Lowering.settingName .compilerFunction)
    (hasks : ∀ name ∈ [Lowering.hasName, Item.everyName, Item.anyName],
      ∃ id, env.world.symbols.get? id = some ⟨name, id, .builtInFunction⟩) :
    ∃ text node, lower text env = (.ok node, env) ∧
      (optimize node env).1 =
        .ok (.compare .equal (.number Item.one) (.number Item.one)) ∧
      (optimize (.compare .equal (.number Item.one) (.number Item.one))
        (optimize node env).2).1 = .ok (.boolean true) := by
  have henv := (remembers_of_hosted hhosted).keeps
  obtain ⟨more, hmore⟩ := Nat.exists_eq_add_of_le' hrounds
  obtain ⟨q, hq⟩ := Askers.exists_of henv.world.symbols hasks
  obtain ⟨id, hid⟩ := hsetting
  obtain ⟨c, hc⟩ := hcompare
  have htype : SettingType.ofName? "lacs_medallions" = some .number := by decide
  have hweighs : env.world.Weighs values q c "lacs_medallions" id := by
    refine ⟨⟨hid, htype, ?_⟩, hc, hq⟩
    show (values.number "lacs_medallions").map Node.number = _
    rw [hvalue]
    rfl
  have hprintable : Rule.Tree.Printable (.identifier "lacs_medallions") :=
    .identifier (Lexeme.wellFormed_word rfl (by decide) (by decide)) (by decide)
  obtain ⟨⟨text, htext⟩, hparsed⟩ :=
    Rule.printable_parsed (Rule.Tree.compared_printable hprintable more)
  have htree := Rule.Tree.lower_compared henv.world.symbols
    (SettingType.trick?_of_ofName? htype) (.of_get? henv.world.symbols hid)
    (.of_get? henv.world.symbols hc) more
  have hpasses : env.newPipeline.passes =
      Pass.standard env.config.inlineDepth values (.standard tricks night) := by
    rw [newPipeline_passes hon, hsettings, hfunctions]
    rfl
  have hfits : Comparison.equal.Fits .number := by
    intro hless
    cases hless
  have hround : ∀ {node node' : Node}, Pass.Through env.scripts env.world
      (Pass.standard env.config.inlineDepth values (.standard tricks night)) node node' →
      env.inRounds 1 node = (.ok node', env.world) := by
    intro node node' hthrough
    rw [inRounds, hpasses]
    exact Pipeline.behind_of_through hthrough
  exact ⟨text, _, lower_eq (hparsed text htext) htree,
    optimize_of_steps henv.holds.ready hmore
      (hround (Pass.through_compared env.scripts hweighs _ tricks night more))
      (fun n => hround (Pass.through_answered env.scripts hweighs _ tricks night n))
      (hround (Pass.through_literals env.scripts (v := .number Item.one) (x := .number Item.one)
        _ _ rfl hfits))
      (hround (Pass.through_boolean env.scripts env.world true _))⟩

end Environment

end Passage

import Passage.Proofs.Lowering
import Passage.Proofs.Printing
import Passage.Proofs.Subsiding

/-!
# Rules that come up layer by layer

No number of rounds is enough for all rules, whatever the scripted functions are. A call of
`has_every` without arguments asks for nothing: it falls away when the questions of a conjunction
are joined, and a comparison of the conjunction is decided in the next round only. Of such
comparisons within one another each round decides one, from the inside
(`Environment.round_layered`). So there is always a rule that has changed in the last round and
changes when it is optimized again (`Environment.rounds_run_out`).
-/

namespace Passage

/-! ## Layers -/

namespace Node

/-- A comparison with one that waits for the node: the disjunction asks for nothing when the node
is false. -/
def layer (every : SymbolId) (inner : Node) : Node :=
  .compare .unequal (.every [.number Item.one, .anyOf [inner, .call every []]]) (.number Item.one)

/-- The comparison of a node with one, in layers. -/
def layered (every : SymbolId) (core : Node) : Nat → Node
  | 0 => .compare .unequal core (.number Item.one)
  | depth + 1 => layer every (layered every core depth)

variable {every : SymbolId} {core : Node}

theorem layered_eq (every : SymbolId) (core : Node) (depth : Nat) :
    ∃ lhs, layered every core depth = .compare .unequal lhs (.number Item.one) := by
  cases depth <;> exact ⟨_, rfl⟩

end Node

namespace Rule.Tree

/-- `1 != 1` in layers of `(1 and (.. or has_every())) != 1`. -/
def layered : Nat → Tree
  | 0 => .compare .unequal (.number Item.one) (.number Item.one)
  | depth + 1 =>
    .compare .unequal
      (.connect .and (.number Item.one)
        (.connect .or (layered depth) (.call (.identifier Item.everyName) [])))
      (.number Item.one)

theorem one_printable : Printable (.number Item.one) := by
  have hnumeral : Parser.numeral "1" = Item.one := Parser.numeral_eq "1"
  rw [← hnumeral]
  exact .number ⟨by decide, List.all_eq_true.mp (by decide)⟩

theorem layered_printable (depth : Nat) : (layered depth).Printable := by
  have hevery : Printable (.identifier Item.everyName) :=
    .identifier (Lexeme.wellFormed_word rfl (by decide) (by decide)) (by decide)
  induction depth with
  | zero => exact .compare one_printable one_printable
  | succ depth ih =>
    exact .compare (.connect one_printable (.connect ih (.call hevery nofun))) one_printable

/-- The layers are lowered without a trace. -/
theorem lower_layered {t : SymbolTable} (ht : t.Sound) {every : SymbolId}
    (h : t.Knows Item.everyName .builtInFunction every) (depth : Nat) :
    (layered depth).lower t = (.ok (.layered every (.number Item.one) depth), t) := by
  have hone : lower (.number Item.one) t = (.ok (.number Item.one), t) := rfl
  induction depth with
  | zero => rfl
  | succ depth ih =>
    obtain ⟨lhs, hlhs⟩ := Node.layered_eq every (.number Item.one) depth
    have hcall : lower (.call (.identifier Item.everyName) []) t = (.ok (.call every []), t) :=
      lower_call ht (by decide) h rfl
    have hitem : lower (.connect .or (layered depth) (.call (.identifier Item.everyName) [])) t =
        (.ok (.anyOf [.layered every (.number Item.one) depth, .call every []]), t) := by
      rw [lower, bind_ok ih, bind_ok hcall, hlhs]
      rfl
    have hitems : lower (.connect .and (.number Item.one)
          (.connect .or (layered depth) (.call (.identifier Item.everyName) []))) t =
        (.ok (.every [.number Item.one,
          .anyOf [.layered every (.number Item.one) depth, .call every []]]), t) := by
      rw [lower, bind_ok hone, bind_ok hitem]
      rfl
    rw [layered, lower, bind_ok hitems, bind_ok hone]
    rfl

end Rule.Tree

/-! ## What folding makes of them -/

namespace Fold

theorem folded_layer (every : SymbolId) {inner lhs : Node} {op : Comparison}
    (h : folded inner = .ok (.compare op lhs (.number Item.one))) :
    folded (.layer every inner) = .ok (.layer every (.compare op lhs (.number Item.one))) := by
  have hitem : folded (.anyOf [inner, .call every []]) =
      .ok (.anyOf [.compare op lhs (.number Item.one), .call every []]) := by
    rw [folded, foldedAll, h]
    rfl
  have hitems : folded (.every [.number Item.one, .anyOf [inner, .call every []]]) =
      .ok (.every [.number Item.one, .anyOf [.compare op lhs (.number Item.one),
        .call every []]]) := by
    rw [folded, foldedAll, foldedAll, hitem]
    rfl
  rw [Node.layer, folded, hitems]
  rfl

/-- The comparison inside is decided, so that the call is left of the innermost disjunction. -/
theorem folded_layered (every : SymbolId) (depth : Nat) :
    folded (.layered every (.number Item.one) (depth + 1)) =
      .ok (.layered every (.every [.number Item.one, .call every []]) depth) := by
  induction depth with
  | zero => rfl
  | succ depth ih =>
    obtain ⟨lhs, hlhs⟩ := Node.layered_eq every (.every [.number Item.one, .call every []]) depth
    rw [hlhs] at ih
    rw [Node.layered, folded_layer every ih, Node.layered, hlhs]

end Fold

/-! ## What joining makes of them -/

namespace Item

variable {q : Askers} {w : World}

/-- Where nothing is asked for, questions for nothing fall away. -/
theorem join_of_asks_nothing {name : String} {items : List Node}
    (h : (items.filterMap (asked w.symbols name)).flatten = []) :
    join name items w =
      (.ok (items.filter fun item => (asked w.symbols name item).isNone), w) := by
  rw [join_eq, h]
  rfl

/-- Where no item asks, all stay. -/
theorem join_of_unasked {name : String} {items : List Node}
    (h : ∀ item ∈ items, asked w.symbols name item = none) :
    join name items w = (.ok items, w) := by
  rw [join_of_asks_nothing]
  · rw [List.filter_eq_self.mpr fun item hitem => by rw [h item hitem]; rfl]
  · rw [List.filterMap_eq_nil_iff.mpr h]
    rfl

section

variable (hq : q.Of (fun _ => False) w.symbols)

include hq

theorem lookup?_joining (j : Junction) :
    (w.symbols.lookup? j.joining).map (·.id) = some (q.joining j) := by
  obtain ⟨s, hlookup, -, hid⟩ := hq.knows_joining j
  rw [hlookup, ← hid]
  rfl

theorem asked_every : asked w.symbols everyName (.call q.every []) = some [] := by
  have hevery : (w.symbols.lookup? everyName).map (·.id) = some q.every :=
    lookup?_joining hq .every
  rw [asked, hevery]
  exact subjects?_joined fun _ _ => (List.cons_ne_nil _ _).symm

theorem asked_any : asked w.symbols anyName (.call q.every []) = none := by
  have hany : (w.symbols.lookup? anyName).map (·.id) = some q.any := lookup?_joining hq .anyOf
  rw [asked, hany]
  refine subjects?_eq_none.mpr ⟨fun heq => ?_, fun _ _ => (List.cons_ne_nil _ _).symm⟩
  have hsame : q.joining .anyOf = q.joining .every := Option.some.inj heq
  cases hq.apart.joining hsame

/-- A conjunction with the call is left with its other item. -/
theorem transform_core :
    rules.transform (.layered q.every (.every [.number one, .call q.every []]) 0) w =
      (.ok (.layered q.every (.number one) 0), w) := by
  have hitems : rules.transformAll [] [.number one, .call q.every []] w =
      (.ok [.number one, .call q.every []], w) := rfl
  have hnumber : asked w.symbols everyName (.number one) = none := asked_of_ne nofun
  have hjoin : join everyName [.number one, .call q.every []] w = (.ok [.number one], w) := by
    rw [join_of_asks_nothing]
    · simp only [List.filter_cons, List.filter_nil, hnumber, asked_every hq]
      rfl
    · simp only [List.filterMap_cons, List.filterMap_nil, hnumber, asked_every hq]
      rfl
  have hevery : rules.transform (.every [.number one, .call q.every []]) w =
      (.ok (.number one), w) := by
    show rules.transform (Junction.every.node _) w = _
    rw [transform_junction, bind_ok hitems]
    exact bind_ok hjoin
  rw [Node.layered, Rules.transform, bind_ok hevery]
  rfl

/-- In a layer nothing is asked for, whatever becomes of the comparison inside. -/
theorem transform_layer {inner lhs : Node}
    (h : rules.transform inner w = (.ok (.compare .unequal lhs (.number one)), w)) :
    rules.transform (.layer q.every inner) w =
      (.ok (.layer q.every (.compare .unequal lhs (.number one))), w) := by
  have hany : rules.transform (.anyOf [inner, .call q.every []]) w =
      (.ok (.anyOf [.compare .unequal lhs (.number one), .call q.every []]), w) := by
    have hitems : rules.transformAll [] [inner, .call q.every []] w =
        (.ok [.compare .unequal lhs (.number one), .call q.every []], w) := by
      rw [Rules.transformAll, bind_ok h]
      rfl
    show rules.transform (Junction.anyOf.node _) w = _
    rw [transform_junction, bind_ok hitems]
    have hcompare : asked w.symbols anyName (.compare .unequal lhs (.number one)) = none :=
      asked_of_ne nofun
    exact bind_ok (join_of_unasked (List.forall_mem_cons.mpr
      ⟨hcompare, List.forall_mem_singleton.mpr (asked_any hq)⟩))
  have hevery : rules.transform (.every [.number one, .anyOf [inner, .call q.every []]]) w =
      (.ok (.every [.number one,
        .anyOf [.compare .unequal lhs (.number one), .call q.every []]]), w) := by
    have hitems : rules.transformAll [] [.number one, .anyOf [inner, .call q.every []]] w =
        (.ok [.number one, .anyOf [.compare .unequal lhs (.number one), .call q.every []]], w) := by
      rw [Rules.transformAll, bind_ok (show rules.transform (.number one) w = _ from rfl),
        Rules.transformAll, bind_ok hany]
      rfl
    show rules.transform (Junction.every.node _) w = _
    rw [transform_junction, bind_ok hitems]
    have hnumber : asked w.symbols everyName (.number one) = none := asked_of_ne nofun
    have hanyOf : asked w.symbols everyName
        (.anyOf [.compare .unequal lhs (.number one), .call q.every []]) = none :=
      asked_of_ne nofun
    exact bind_ok (join_of_unasked (List.forall_mem_cons.mpr
      ⟨hnumber, List.forall_mem_singleton.mpr hanyOf⟩))
  rw [Node.layer, Rules.transform, bind_ok hevery]
  rfl

/-- The innermost conjunction loses the call, and all others stay. -/
theorem transform_layered (depth : Nat) :
    rules.transform (.layered q.every (.every [.number one, .call q.every []]) depth) w =
      (.ok (.layered q.every (.number one) depth), w) := by
  induction depth with
  | zero => exact transform_core hq
  | succ depth ih =>
    obtain ⟨lhs, hlhs⟩ := Node.layered_eq q.every (.number one) depth
    rw [hlhs] at ih
    rw [Node.layered, transform_layer hq ih, Node.layered, hlhs]

end

end Item

/-! ## Rounds -/

/-- Nothing stands anywhere but calls of the function that asks for all items, and numbers. -/
def Askers.idle (q : Askers) : Scheme where
  bare _ := False
  name _ := False
  text _ := False
  call callee _ := callee = q.every
  script _ := False
  weigh _ _ _ _ := False

/-- A normal tree in which nothing else is called, and nothing is named. -/
structure Node.Idle (q : Askers) (node : Node) : Prop where
  normal : node.Normal
  fits : node.Fits q.idle true

namespace Node.Idle

variable {q : Askers} {core : Node}

theorem number (value : Number) : (Node.number value).Idle q :=
  ⟨normal_number value, .number value⟩

theorem boolean (value : Bool) : (Node.boolean value).Idle q :=
  ⟨normal_boolean value, .boolean value⟩

theorem layered (h : core.Idle q) (depth : Nat) : (Node.layered q.every core depth).Idle q := by
  induction depth with
  | zero => exact ⟨normal_compare .unequal h.normal (normal_number Item.one),
      .compare .unequal h.fits (.number Item.one)⟩
  | succ depth ih =>
    obtain ⟨lhs, hlhs⟩ := layered_eq q.every core depth
    rw [hlhs] at ih
    rw [Node.layered, hlhs]
    have hcall : (Node.call q.every []).Normal := normal_call q.every (List.forall_mem_nil _)
    have hany : (Node.disjoin [.compare .unequal lhs (.number Item.one),
        .call q.every []]).Normal :=
      normal_disjoin (List.forall_mem_cons.mpr ⟨ih.normal, List.forall_mem_singleton.mpr hcall⟩)
    have hevery : (Node.conjoin [.number Item.one, .disjoin [.compare .unequal lhs
        (.number Item.one), .call q.every []]]).Normal :=
      normal_conjoin (List.forall_mem_cons.mpr
        ⟨normal_number Item.one, List.forall_mem_singleton.mpr hany⟩)
    refine ⟨normal_compare .unequal hevery (normal_number Item.one), ?_⟩
    refine .compare .unequal (.every (List.forall_mem_cons.mpr ⟨.number Item.one, ?_⟩))
      (.number Item.one)
    refine List.forall_mem_singleton.mpr (.anyOf (List.forall_mem_cons.mpr ⟨ih.fits, ?_⟩))
    exact List.forall_mem_singleton.mpr (.call rfl (List.forall_mem_nil _))

/-- The innermost conjunction, when the comparison in it is decided. -/
theorem decided : (Node.every [.number Item.one, .call q.every []]).Idle q := by
  have hnormal : (Node.conjoin [.number Item.one, .call q.every []]).Normal :=
    normal_conjoin (List.forall_mem_cons.mpr
      ⟨normal_number Item.one,
        List.forall_mem_singleton.mpr (normal_call q.every (List.forall_mem_nil _))⟩)
  exact ⟨hnormal, .every (List.forall_mem_cons.mpr
    ⟨.number Item.one, List.forall_mem_singleton.mpr (.call rfl (List.forall_mem_nil _))⟩)⟩

end Node.Idle

theorem Node.Fits.callee_idle {q : Askers} {bare : Bool} {callee : SymbolId} {args : List Node}
    (h : (Node.call callee args).Fits q.idle bare) : callee = q.every := by
  cases h with
  | call hcall _ => exact hcall
  | script hscript _ => exact hscript.elim
  | weigh hweigh _ _ _ _ => exact hweigh.elim
  | idle htarget _ => cases htarget

namespace Environment

variable {env : Environment} {q : Askers} {w : World} {node : Node}

section

variable (hstandard : env.UsesStandard) (hq : q.Of (fun _ => False) w.symbols)

include hstandard hq

/-- All passes but those that fold and join leave such a tree alone. -/
theorem others_same (h : node.Idle q) :
    (Pass.connections.rules env.scripts).transform node w = (.ok node, w) ∧
      ((Pass.inlineCalls env.config.inlineDepth).rules env.scripts).transform node w =
        (.ok node, w) ∧
      (Pass.bareCalls.rules env.scripts).transform node w = (.ok node, w) ∧
      ∀ pass ∈ Pass.promoteTokens ::
        ((env.settings.map .settings).toList ++ (env.functions.map .compilerCalls).toList),
        (pass.rules env.scripts).transform node w = (.ok node, w) := by
  have hscript : ∀ callee, ¬ q.idle.script callee := fun _ => id
  have hevery : w.symbols.get? q.every = some ⟨Item.everyName, q.every, .builtInFunction⟩ :=
    hq.joining .every
  have hfree : SettingType.ofName? Item.everyName = none ∧ Item.everyName ≠ Elsewhere.atName ∧
      Item.everyName ≠ Elsewhere.hereName := by decide
  obtain ⟨hsetting, hat, hhere⟩ := hfree
  refine ⟨?_, ?_, ?_, ?_⟩
  · refine Pass.connections_same hscript h.normal env.scripts h.fits fun hcall => ?_
    obtain rfl := hcall.callee_idle
    exact ⟨_, hevery, hat, hhere⟩
  · refine Pass.inlineCalls_same hscript h.normal env.scripts h.fits (fun hcall => ?_) _
    obtain rfl := hcall.callee_idle
    exact Inline.scriptOf?_of_kind_ne hevery nofun
  · exact Pass.bareCalls_same hscript h.normal env.scripts h.fits False.elim
  · intro pass hpass
    simp only [List.mem_cons, List.mem_append, Option.mem_toList, Option.map_eq_some_iff] at hpass
    obtain rfl | ⟨values, -, rfl⟩ | ⟨functions, hfunctions, rfl⟩ := hpass
    · exact Pass.promoteTokens_same hscript h.normal env.scripts h.fits False.elim False.elim
    · refine Pass.settings_same hscript h.normal env.scripts h.fits values False.elim
        fun hcall => ?_
      obtain rfl := hcall.callee_idle
      intro s hs
      obtain rfl := Option.some.inj (hevery.symm.trans hs)
      exact hsetting
    · obtain ⟨tricks, night, rfl⟩ := hstandard functions hfunctions
      refine Pass.compilerCalls_same hscript h.normal env.scripts h.fits hq.sound ?_ False.elim
      rintro callee count rfl
      exact ⟨_, hevery, rfl⟩

variable (hon : ∀ kind, env.config.passes.isOn kind = true)

include hon

/-- What a round does to such a tree is to fold and to join. -/
theorem round_of_idle {folded node' : Node} (hnode : node.Idle q)
    (hfold : Fold.folded node = .ok folded) (hfolded : folded.Idle q)
    (hjoin : Item.rules.transform folded w = (.ok node', w)) (hnode' : node'.Idle q) :
    Pipeline.behind env.scripts env.newPipeline.passes (.ok node, w) 1 = (.ok node', w) := by
  obtain ⟨hconnections, hinline, -, -⟩ := others_same hstandard hq hnode
  obtain ⟨-, -, hbare, -⟩ := others_same hstandard hq hfolded
  obtain ⟨-, -, -, hlast⟩ := others_same hstandard hq hnode'
  have hdecide : (Pass.fold.rules env.scripts).transform node w = (.ok folded, w) := by
    rw [← Pass.apply_eq, Fold.fold_apply, hfold]
  have hcollapse : (Pass.collapseHas.rules env.scripts).transform folded w = (.ok node', w) := hjoin
  rw [newPipeline_passes hon, Pipeline.behind_cons, hconnections, Pipeline.behind_cons, hinline,
    Pipeline.behind_cons, hdecide, Pipeline.behind_cons, hbare, Pipeline.behind_cons, hcollapse]
  exact Pipeline.behind_same hlast

/-- A round takes off one layer. -/
theorem round_layered (depth : Nat) :
    Pipeline.behind env.scripts env.newPipeline.passes
        (.ok (.layered q.every (.number Item.one) (depth + 1)), w) 1 =
      (.ok (.layered q.every (.number Item.one) depth), w) :=
  round_of_idle hstandard hq hon ((Node.Idle.number Item.one).layered (depth + 1))
    (Fold.folded_layered q.every depth) (Node.Idle.decided.layered depth)
    (Item.transform_layered hq depth) ((Node.Idle.number Item.one).layered depth)

/-- When there is none left, it decides the comparison. -/
theorem round_core :
    Pipeline.behind env.scripts env.newPipeline.passes
      (.ok (.layered q.every (.number Item.one) 0), w) 1 = (.ok (.boolean false), w) :=
  round_of_idle hstandard hq hon ((Node.Idle.number Item.one).layered 0) rfl
    (Node.Idle.boolean Bool.false) rfl (Node.Idle.boolean Bool.false)

/-- Nothing is left to be done then. -/
theorem round_false :
    Pipeline.behind env.scripts env.newPipeline.passes (.ok (.boolean false), w) 1 =
      (.ok (.boolean false), w) :=
  round_of_idle hstandard hq hon (Node.Idle.boolean Bool.false) rfl
    (Node.Idle.boolean Bool.false) rfl (Node.Idle.boolean Bool.false)

end

/-- However many rounds there are, some rule has changed in the last one and changes when it is
optimized again. -/
theorem rounds_run_out {history : List (Answer × Environment)} (hhosted : Hosted history env)
    (hstandard : env.UsesStandard) (hon : ∀ kind, env.config.passes.isOn kind = true)
    (hrounds : 0 < env.config.rounds)
    (hasks : ∀ name ∈ [Lowering.hasName, Item.everyName, Item.anyName],
      ∃ id, env.world.symbols.get? id = some ⟨name, id, .builtInFunction⟩) :
    ∃ text node, lower text env = (.ok node, env) ∧
      (optimize node env).1 =
        .ok (.compare .unequal (.number Item.one) (.number Item.one)) ∧
      (optimize (.compare .unequal (.number Item.one) (.number Item.one))
        (optimize node env).2).1 = .ok (.boolean false) := by
  have henv := (remembers_of_hosted hhosted).keeps
  obtain ⟨more, hmore⟩ := Nat.exists_eq_add_of_le' hrounds
  obtain ⟨q, hq⟩ := Askers.exists_of henv.world.symbols hasks
  obtain ⟨⟨text, htext⟩, hparsed⟩ :=
    Rule.printable_parsed (Rule.Tree.layered_printable (more + 1))
  have htree := Rule.Tree.lower_layered hq.sound (hq.knows_joining .every) (more + 1)
  exact ⟨text, _, lower_eq (hparsed text htext) htree,
    optimize_of_steps henv.holds.ready hmore (round_layered hstandard hq hon more)
      (round_layered hstandard hq hon) (round_core hstandard hq hon)
      (round_false hstandard hq hon)⟩

end Environment

end Passage

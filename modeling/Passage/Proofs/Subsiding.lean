import Passage.Proofs.Comparing
import Passage.Proofs.Folding
import Passage.Proofs.Strata

/-!
# Rounds that come to rest

Where nothing is left to be expanded, one more round leaves no rule about a region and no name
of an item or a setting, and the next one decides and joins all that this has brought up. Behind
it every pass leaves the rule alone. So ranks below a bound are dealt with in three rounds more
than that bound (`Environment.optimize_settles`); what stands higher may have to wait until the
rule is optimized again (`Environment.chain_goes_on`). Without scripted functions, two kinds of
rules are out of reach of any number of rounds, and are therefore left out: calls of the functions
that join without arguments (`Environment.rounds_run_out`), and comparisons of expressions with
settings (`Environment.comparisons_run_out`).
-/

namespace Passage

/-! ## Passes with nothing to do -/

namespace Pass

variable {S : Scheme} {w : World} {node : Node}

section

variable (hscript : ∀ callee, ¬ S.script callee) (hnormal : node.Normal) (scripts : Scripts)

include hscript hnormal

theorem connections_same (hfits : node.Fits S true)
    (hcallee : ∀ {bare callee args}, (Node.call callee args).Fits S bare → ∃ s,
      w.symbols.get? callee = some s ∧ s.name ≠ Elsewhere.atName ∧ s.name ≠ Elsewhere.hereName) :
    (Pass.connections.rules scripts).transform node w = (.ok node, w) := by
  refine Rules.Rebuilds.transform_same ?_ (fun _ => True) hscript (fun _ _ _ => rfl)
    (fun _ _ => rfl) (fun _ hcall hargs => ?_) (fun htarget hargs => ?_) hfits hnormal trivial
  · exact Rules.rebuilds_default
  · obtain ⟨s, hget, hat, hhere⟩ := hcallee hcall
    exact Rules.transform_call_same (connections_intercept hget hat hhere _) rfl (hargs trivial) rfl
  · exact Rules.transform_idle_same htarget (Elsewhere.intercept_literal htarget _ w)
      (fun _ => rfl) (hargs trivial) rfl

theorem inlineCalls_same (hfits : node.Fits S true)
    (hcallee : ∀ {bare callee args}, (Node.call callee args).Fits S bare →
      Inline.scriptOf? scripts w.symbols (.identifier callee) = none) (limit : Nat) :
    ((Pass.inlineCalls limit).rules scripts).transform node w = (.ok node, w) := by
  show (Inline.rules scripts limit limit).transform node w = _
  refine Rules.Rebuilds.transform_same ?_ (fun _ => True) hscript (fun _ _ _ => ?_)
    (fun _ _ => ?_) (fun _ hcall hargs => ?_) (fun htarget hargs => ?_) hfits hnormal trivial
  · cases limit <;> exact Rules.rebuilds_default
  · cases limit <;> rfl
  · cases limit <;> rfl
  · refine Rules.transform_call_same (inlineCalls_intercept scripts (hcallee hcall) limit _) ?_
      (hargs trivial) ?_
    · cases limit <;> rfl
    · cases limit <;> rfl
  · refine Rules.transform_idle_same htarget
      (inlineCalls_intercept scripts (Inline.scriptOf?_literal htarget) limit _) (fun _ => ?_)
      (hargs trivial) ?_
    · cases limit <;> rfl
    · cases limit <;> rfl

theorem bareCalls_same (hfits : node.Fits S true)
    (hbare : ∀ {id}, S.bare id → ∃ s, w.symbols.get? id = some s ∧ s.kind.isFunction = false) :
    (Pass.bareCalls.rules scripts).transform node w = (.ok node, w) := by
  refine Rules.Rebuilds.transform_same ?_ (· = true) hscript (fun hcomes _ hid => ?_)
    (fun _ _ => rfl) (fun _ _ _ => Rules.transform_keepCalls rfl _ _)
    (fun _ _ => Rules.transform_keepCalls rfl _ _) hfits hnormal rfl
  · exact Rules.rebuilds_default
  · obtain ⟨s, hget, hkind⟩ := hbare (hid hcomes)
    show BareCall.identifier scripts _ w = _
    rw [BareCall.identifier, bind_ok (Transforming.symbols_apply w), hget]
    revert hkind
    dsimp only
    cases s.kind <;> intro hkind <;> first | rfl | cases hkind

theorem promoteTokens_same (hfits : node.Fits S true)
    (hbare : ∀ {id}, S.bare id →
      ∃ s, w.symbols.get? id = some s ∧ Item.tokenOf? w.symbols s = none)
    (htext : ∀ {value}, S.text value → Item.tokenNamed? w.symbols value = none) :
    (Pass.promoteTokens.rules scripts).transform node w = (.ok node, w) := by
  refine Rules.Rebuilds.transform_same ?_ (· = true) hscript (fun hcomes _ hid => ?_)
    (fun hcomes hvalue => ?_) (fun _ _ _ => Rules.transform_keepCalls rfl _ _)
    (fun _ _ => Rules.transform_keepCalls rfl _ _) hfits hnormal rfl
  · exact Rules.rebuilds_default
  · obtain ⟨s, hget, hnone⟩ := hbare (hid hcomes)
    show Item.promoteIdentifier _ w = _
    rw [Item.promoteIdentifier, bind_ok (Transforming.symbols_apply w), hget]
    dsimp only
    rw [hnone]
    rfl
  · show Item.promoteString _ w = _
    rw [Item.promoteString, bind_ok (Transforming.symbols_apply w), htext (hvalue hcomes)]
    rfl

theorem settings_same (hfits : node.Fits S true) (values : Settings)
    (hname : ∀ {id}, S.name id → w.symbols.Unlisted id)
    (hcallee : ∀ {bare callee args}, (Node.call callee args).Fits S bare →
      w.symbols.Unlisted callee) :
    ((Pass.settings values).rules scripts).transform node w = (.ok node, w) := by
  have hkept : ∀ {id}, w.symbols.Unlisted id →
      SettingValue.identifier values id w = (.ok (.identifier id), w) := by
    intro id hunlisted
    rcases hget : w.symbols.get? id with _ | s
    · rw [SettingValue.identifier, bind_ok (Transforming.symbols_apply w), hget]
      rfl
    · exact settings_identifier values hunlisted hget
  refine Rules.Rebuilds.transform_same ?_ (fun _ => True) hscript
    (fun _ hid _ => hkept (hname hid)) (fun _ _ => rfl) (fun _ hcall hargs => ?_)
    (fun htarget hargs => ?_) hfits hnormal trivial
  · exact Rules.rebuilds_default
  · exact Rules.transform_call_same rfl (hkept (hcallee hcall)) (hargs trivial) rfl
  · exact Rules.transform_idle_same htarget rfl (fun _ => rfl) (hargs trivial) rfl

/-- Calls of no compiler function stay, and so do comparisons of what is not known. -/
theorem compilerCalls_same (hfits : node.Fits S true) (hs : w.symbols.Sound)
    {tricks : List String} {night : Bool}
    (hcall : ∀ {callee count}, S.call callee count → ∃ s, w.symbols.get? callee = some s ∧
      (CompilerFunctions.standard tricks night).find? s.name = none)
    (hweigh : ∀ {callee code lhs rhs}, S.weigh callee code lhs rhs →
      (∃ s, w.symbols.get? callee = some s ∧ s.kind.isFunction = true ∧
        s.name = Lowering.settingName) ∧
      (Comparison.ofCode? code.clampToByte).isSome = true ∧
        (lhs.isLiteral && rhs.isLiteral) = false) :
    ((Pass.compilerCalls (.standard tricks night)).rules scripts).transform node w =
      (.ok node, w) := by
  have hanswer : ∀ {bare callee args}, (Node.call callee args).Fits S bare →
      (CompilerFunctions.standard tricks night).answer (.identifier callee) args w =
        (.ok (.call callee args), w) := by
    intro bare callee args h
    have hfound : ∀ {s : Symbol}, w.symbols.get? callee = some s →
        (CompilerFunctions.standard tricks night).functionOf? w.symbols (.identifier callee) =
          (CompilerFunctions.standard tricks night).find? s.name := by
      intro s hget
      show ((w.symbols.get? callee).map (·.name)).bind _ = _
      rw [hget]
      rfl
    rw [CompilerFunctions.answer, bind_ok (Transforming.symbols_apply w)]
    cases h with
    | call hc _ =>
      obtain ⟨s, hget, hnone⟩ := hcall hc
      rw [hfound hget, hnone]
      rfl
    | script hs _ => exact absurd hs (hscript _)
    | idle htarget _ => cases htarget
    | @weigh _ _ code lhs rhs hw _ _ _ _ =>
      obtain ⟨⟨s, hget, hkind, hname⟩, hcode, hliteral⟩ := hweigh hw
      obtain ⟨op, hop⟩ := Option.isSome_iff_exists.mp hcode
      rw [hfound hget, hname]
      show CompilerFunctions.compareSetting [.number code, lhs, rhs] w = _
      rw [CompilerFunctions.compareSetting, hop]
      dsimp only
      rw [hliteral, if_neg Bool.false_ne_true, ← hname,
        bind_ok (CompilerFunctions.declare_callee hs hget hkind)]
      rfl
  refine Rules.Rebuilds.transform_same ?_ (fun _ => True) hscript (fun _ _ _ => rfl)
    (fun _ _ => rfl) (fun _ hcall hargs => ?_) (fun htarget hargs => ?_) hfits hnormal trivial
  · exact Rules.rebuilds_default
  · exact Rules.transform_call_same rfl rfl (hargs trivial) (hanswer hcall)
  · exact Rules.transform_idle_same htarget rfl (fun _ => rfl) (hargs trivial)
      (CompilerFunctions.answer_literal htarget _ w)

end

end Pass

/-! ## Joining what is decided -/

namespace Item

variable {t : SymbolTable} {w w' : World} {node node' : Node}

/-- What stands in a junction when its questions are joined is made of parts of its items. -/
theorem join_each {P : Node → Prop} (hs : w.symbols.Sound)
    (hcall : ∀ callee args, P (.call callee args)) (hidentifier : ∀ id, P (.identifier id))
    (hone : P (.number one)) {name : String} {items joined : List Node}
    (h : ∀ item ∈ items, item.Each P) (hok : join name items w = (.ok joined, w')) :
    ∀ item ∈ joined, item.Each P := by
  have hquestion : ∀ {callee args}, (∀ arg ∈ args, arg.Each P) → (Node.call callee args).Each P :=
    fun hargs => .invoke (hcall _ _) (.identifier (hidentifier _)) hargs
  have hsubjects : ∀ subject ∈ (items.filterMap (asked w.symbols name)).flatten, subject.Each P :=
    flatten_subjects?_each h
  rw [join_eq] at hok
  obtain ⟨-, tail, rfl, htail⟩ := question_ok hs hok
  refine List.forall_mem_append.mpr ⟨fun item hitem => h item (List.mem_of_mem_filter hitem), ?_⟩
  generalize (items.filterMap (asked w.symbols name)).flatten = subjects at hsubjects htail
  cases htail with
  | none => exact List.forall_mem_nil _
  | single _ =>
    refine List.forall_mem_singleton.mpr (hquestion (List.forall_mem_cons.mpr
      ⟨hsubjects _ List.mem_cons_self, List.forall_mem_singleton.mpr (.number hone)⟩))
  | joined _ _ => exact List.forall_mem_singleton.mpr (hquestion hsubjects)

/-- Sides that do not decide a comparison do not when questions in them are joined. -/
theorem Shape.not_alike {lhs rhs lhs' rhs' : Node} (hl : Shape lhs lhs') (hr : Shape rhs rhs')
    (h : ¬ Fold.Alike lhs rhs) : ¬ Fold.Alike lhs' rhs' := by
  intro halike
  have hoperands : lhs'.isOperand = true ∧ rhs'.isOperand = true := by
    cases halike <;> exact ⟨rfl, rfl⟩
  rw [hl.operand hoperands.1, hr.operand hoperands.2] at h
  exact h halike

/-- Joining questions leaves nothing to decide where nothing was left. -/
theorem transform_settled (hs : t.Sound)
    (hnode : node.Each fun part => part.Ready t ∧ Fold.Settled part) :
    Upholds (fun w => t.Engages w.symbols) (Node.Each Fold.Settled) (rules.transform node) := by
  have hsound : ∀ {w : World}, t.Engages w.symbols → w.symbols.Sound := fun h =>
    (h.grows hs).sound hs
  have hready : ∀ {node : Node}, (node.Each fun part => part.Ready t ∧ Fold.Settled part) →
      node.Each (Node.Ready t) := fun h => h.imp And.left
  have hleaf : ∀ {node : Node}, (∀ inner, node ≠ .invert inner) →
      (∀ op lhs rhs, node ≠ .compare op lhs rhs) → Fold.Settled node := Fold.settled_of_ne
  have hjunction : ∀ (j : Junction) {items : List Node},
      (∀ item ∈ items, Upholds (fun w => t.Engages w.symbols) (Node.Each Fold.Settled)
        (rules.transform item)) →
      Upholds (fun w => t.Engages w.symbols) (Node.Each Fold.Settled)
        (rules.transform (j.node items)) := by
    intro j items ih
    rw [transform_junction]
    refine .bind (Rules.transformAll_upholds ih (List.forall_mem_nil _)) fun items' hitems => ?_
    refine .bind (Q := fun joined => ∀ item ∈ joined, item.Each Fold.Settled) ?_ fun joined h =>
      .pure ?_
    · intro w joined w' hw hok
      refine ⟨?_, join_each (hsound hw) (fun _ _ => hleaf nofun nofun) (fun _ => hleaf nofun nofun)
        (hleaf nofun nofun) hitems.2 hok⟩
      rw [join_eq] at hok
      exact hw.trans (question_ok (hsound hw) hok).1
    · cases j with
      | every => exact .conjoin (fun _ => hleaf nofun nofun) (fun _ => hleaf nofun nofun) h
      | anyOf => exact .disjoin (fun _ => hleaf nofun nofun) (fun _ => hleaf nofun nofun) h
  induction hnode with
  | anyOf _ _ ih => exact hjunction .anyOf ih
  | every _ _ ih => exact hjunction .every ih
  | @compare op lhs rhs hp hlhs hrhs ihl ihr =>
    intro w node' w' hw hok
    rw [Rules.transform] at hok
    obtain ⟨lhs', w₁, hl, hok⟩ := bind_eq_ok hok
    obtain ⟨rhs', w₂, hr, hpure⟩ := bind_eq_ok hok
    obtain ⟨rfl, rfl⟩ := pure_eq_ok hpure
    obtain ⟨hw₁, hl'⟩ := ihl w lhs' w₁ hw hl
    obtain ⟨hw₂, hr'⟩ := ihr w₁ rhs' w₂ hw₁ hr
    have hshape := (transform_settles hs (hready hlhs) hw hl).shape.not_alike
      (transform_settles hs (hready hrhs) hw₁ hr).shape (hp.2.compare op lhs rhs rfl)
    refine ⟨hw₂, .compare ⟨nofun, ?_⟩ hl' hr'⟩
    rintro op lhs rhs ⟨⟩
    exact hshape
  | @invert inner hp hinner ih =>
    intro w node' w' hw hok
    rw [Rules.transform] at hok
    obtain ⟨inner', w₁, hi, hpure⟩ := bind_eq_ok hok
    obtain ⟨rfl, rfl⟩ := pure_eq_ok hpure
    obtain ⟨hw₁, hi'⟩ := ih w inner' w₁ hw hi
    refine ⟨hw₁, .invert ⟨?_, nofun⟩ hi'⟩
    rintro value ⟨⟩
    exact hp.2.invert value
      (congrArg _ ((transform_settles hs (hready hinner) hw hi).shape.operand rfl))
  | @invoke target args _ _ _ iht iha =>
    rw [Rules.transform]
    refine .bind (.pure (Q := (· = none)) rfl) fun taken htaken => ?_
    subst htaken
    exact .bind iht fun _ ht => .bind (Rules.transformAll_upholds iha (List.forall_mem_nil _))
      fun _ ha => .pure (.invoke (hleaf nofun nofun) ht ha.2)
  | boolean hp =>
    rw [Rules.transform]
    exact .pure (.boolean hp.2)
  | identifier hp =>
    rw [Rules.transform]
    exact .pure (.identifier hp.2)
  | number hp =>
    rw [Rules.transform]
    exact .pure (.number hp.2)
  | string hp =>
    rw [Rules.transform]
    exact .pure (.string hp.2)

end Item

/-! ## What is left alone -/

/-- The items of a junction are as the junction is. -/
theorem Node.Fits.of_junction {S : Scheme} {bare : Bool} {j : Junction} {items : List Node}
    (h : (j.node items).Fits S bare) : ∀ item ∈ items, item.Fits S bare := by
  cases j with
  | every => cases h; assumption
  | anyOf => cases h; assumption

namespace Environment

variable {env : Environment} {rank : String → Nat} {node node' : Node} {w w' : World}

/-- The lowest stratum, without rules about regions: nothing is left to be expanded. -/
def bottom (env : Environment) (rank : String → Nat) : Stratum :=
  (Stratum.behind env.settings env.functions rank 0).withoutRegions

/-- What stands bare at rest is no item, and no name of a setting is left anywhere. -/
def rest (env : Environment) (rank : String → Nat) (t : SymbolTable) : Scheme :=
  { (env.bottom rank).scheme env.scripts t with
    bare := fun id => ∃ s, t.get? id = some s ∧ s.kind.isFunction = false ∧
      Stratum.Quiet env.settings s.name ∧ Item.tokenOf? t s = none
    name := fun id => env.settings.isSome = true → t.Unlisted id
    text := fun value => Item.tokenNamed? t value = none }

/-- Before settings are put in, their names may stand in the arguments of calls. -/
def promoted (env : Environment) (rank : String → Nat) (t : SymbolTable) : Scheme :=
  let S := env.rest rank t
  { S with name := fun _ => True }

variable {t : SymbolTable} {bare : Bool} {callee : SymbolId} {args : List Node}

theorem bottom_script : ¬ ((env.bottom rank).scheme env.scripts t).script callee := by
  rintro ⟨s, script, -, -, hrank⟩
  exact Nat.not_lt_zero _ hrank

/-- What is called in the lowest stratum has no body, and a name that no pass takes up. -/
theorem bottom_callee
    (h : (Node.call callee args).Fits ((env.bottom rank).scheme env.scripts t) bare) :
    ∃ s, Stratum.Called env.scripts t callee s ∧ s.name ≠ Elsewhere.atName ∧
      s.name ≠ Elsewhere.hereName ∧ Stratum.Quiet env.settings s.name := by
  cases h with
  | call hcall _ =>
    obtain ⟨s, hcalled, -, -, ⟨hquiet, -⟩, hat, hhere⟩ := hcall
    exact ⟨s, hcalled, hat, hhere, hquiet⟩
  | script hscript _ => exact absurd hscript bottom_script
  | weigh hweigh _ _ _ _ =>
    obtain ⟨⟨s, hcalled, -, hname⟩, -⟩ := hweigh
    refine ⟨s, hcalled, ?_⟩
    rw [hname]
    exact ⟨by decide, by decide, fun _ => by decide⟩
  | idle htarget _ => cases htarget

theorem rest_script : ¬ (env.rest rank t).script callee := bottom_script

theorem rest_within_bottom :
    (env.rest rank t).Within ((env.bottom rank).scheme env.scripts t) where
  bare := by
    rintro id ⟨s, hs, hkind, hquiet, -⟩
    exact ⟨s, hs, fun hfunction => absurd (hfunction.symm.trans hkind) nofun, fun _ => hquiet⟩
  name _ := trivial
  text _ := trivial
  call := id
  script := id
  weigh := id

namespace Poised

/-- A rule at rest is in the lowest stratum. -/
theorem at_bottom (h : env.Poised rank (env.rest rank) node w) :
    env.Poised rank ((env.bottom rank).scheme env.scripts) node w :=
  { h with fits := h.fits.mono rest_within_bottom }

section

variable (h : env.Poised rank ((env.bottom rank).scheme env.scripts) node w)

include h

theorem connections_same : (Pass.connections.rules env.scripts).transform node w = (.ok node, w) :=
  Pass.connections_same (fun _ => bottom_script) h.normal env.scripts h.fits fun hcall =>
    let ⟨s, hcalled, hat, hhere, _⟩ := bottom_callee hcall
    ⟨s, hcalled.get, hat, hhere⟩

theorem inlineCalls_same (limit : Nat) :
    ((Pass.inlineCalls limit).rules env.scripts).transform node w = (.ok node, w) :=
  Pass.inlineCalls_same (fun _ => bottom_script) h.normal env.scripts h.fits (fun hcall =>
    let ⟨_, hcalled, _⟩ := bottom_callee hcall
    hcalled.plain) limit

theorem bareCalls_same : (Pass.bareCalls.rules env.scripts).transform node w = (.ok node, w) := by
  refine Pass.bareCalls_same (fun _ => bottom_script) h.normal env.scripts h.fits ?_
  rintro id ⟨s, hs, hfunction, -⟩
  exact ⟨s, hs, Bool.eq_false_iff.mpr hfunction⟩

theorem compilerCalls_same (hstandard : env.UsesStandard) {functions : CompilerFunctions}
    (hfunctions : env.functions = some functions) :
    ((Pass.compilerCalls functions).rules env.scripts).transform node w = (.ok node, w) := by
  obtain ⟨tricks, night, rfl⟩ := hstandard functions hfunctions
  refine Pass.compilerCalls_same (fun _ => bottom_script) h.normal env.scripts h.fits
    h.world.symbols ?_ ?_
  · rintro callee count ⟨s, hcalled, -, -, ⟨-, hunanswered⟩, -⟩
    exact ⟨s, hcalled.get, hunanswered _ hfunctions⟩
  · rintro callee code lhs rhs ⟨⟨s, hcalled, hkind, hname⟩, -, hweigh⟩
    exact ⟨⟨s, hcalled.get, hkind, hname⟩, hweigh (by rw [hfunctions]; rfl)⟩

end

section

variable (h : env.Poised rank (env.rest rank) node w)

include h

theorem promoteTokens_same :
    (Pass.promoteTokens.rules env.scripts).transform node w = (.ok node, w) := by
  refine Pass.promoteTokens_same (fun _ => rest_script) h.normal env.scripts h.fits ?_ id
  rintro id ⟨s, hs, -, -, hnone⟩
  exact ⟨s, hs, hnone⟩

theorem settings_same {values : Settings} (hvalues : env.settings = some values) :
    ((Pass.settings values).rules env.scripts).transform node w = (.ok node, w) := by
  have hsome : env.settings.isSome = true := Option.isSome_of_eq_some hvalues
  refine Pass.settings_same (fun _ => rest_script) h.normal env.scripts h.fits values
    (fun hname => hname hsome) fun hcall => ?_
  obtain ⟨s, hcalled, -, -, hquiet⟩ := bottom_callee (hcall.mono_of rest_within_bottom.toInside
    fun _ => rest_within_bottom)
  exact hquiet.unlisted hcalled.get hsome

end

/-! ### The last two rounds -/

section

variable (hstandard : env.UsesStandard)

include hstandard

/-- The functions that ask for items may be called in the lowest stratum. -/
theorem bottom_call :
    ∀ name ∈ [Lowering.hasName, Item.everyName, Item.anyName], (env.bottom rank).call name := by
  have hfree : ∀ name ∈ [Lowering.hasName, Item.everyName, Item.anyName],
      SettingType.ofName? name = none ∧ name ≠ Elsewhere.atName ∧ name ≠ Elsewhere.hereName ∧
        name ∉ (CompilerFunctions.standard [] false).names := by decide
  intro name hname
  obtain ⟨hquiet, hat, hhere, hunanswered⟩ := hfree name hname
  refine ⟨⟨fun _ => hquiet, fun fs hfs => ?_⟩, hat, hhere⟩
  obtain ⟨tricks, night, rfl⟩ := hstandard fs hfs
  refine List.lookup_eq_none_iff.mpr fun entry hentry => ?_
  have hmem : entry.1 ∈ (CompilerFunctions.standard tricks night).names :=
    List.mem_map_of_mem hentry
  exact bne_iff_ne.mpr fun heq => hunanswered (heq ▸ hmem)

theorem bottom_call_joining (j : Junction) : (env.bottom rank).call j.joining := by
  cases j with
  | every => exact bottom_call hstandard _ (by simp [Junction.joining])
  | anyOf => exact bottom_call hstandard _ (by simp [Junction.joining])

theorem bottom_asks {q : Askers} (hq : q.Of (fun _ => False) w.symbols) :
    ((env.bottom rank).scheme env.scripts w.symbols).Asks q :=
  Stratum.asks hq (bottom_call hstandard _ List.mem_cons_self) (bottom_call_joining hstandard)

variable (henv : env.Scoped)

include henv

/-- Names of items are taken out of what stands bare. -/
theorem promote_bottom (h : env.Poised rank ((env.bottom rank).scheme env.scripts) node w)
    (hok : (Pass.promoteTokens.rules env.scripts).transform node w = (.ok node', w')) :
    env.Poised rank (env.promoted rank) node' w' := by
  obtain ⟨q, hq⟩ := h.asks
  have hrefits : (Pass.promoteTokens.rules env.scripts).Refits (· = w) (· = true)
      ((env.bottom rank).scheme env.scripts w.symbols)
      (env.promoted rank w.symbols) := by
    refine Item.promote_refits hq ?_ ?_ ?_ ?_ ?_ ?_ env.scripts
    · exact (bottom_asks hstandard hq).has
    · exact id
    · exact fun _ => trivial
    · rintro id s ⟨s', hs', hfunction, hplain⟩ hs hnone
      obtain rfl := Option.some.inj (hs.symm.trans hs')
      have hkind : s.kind.isFunction = false := Bool.eq_false_iff.mpr hfunction
      exact ⟨s, hs, hkind, hplain hkind, hnone⟩
    · exact fun _ h => h
    · intro target args hcall
      have hinside : ((env.bottom rank).scheme env.scripts w.symbols).Inside
          (env.promoted rank w.symbols) := ⟨id, id, id, id⟩
      exact hcall.call_mono hinside fun _ => bottom_script
  obtain ⟨rfl, hfits⟩ := hrefits.transform h.fits rfl w node' w' rfl hok
  exact h.step henv hstandard .promoteTokens rfl hok (.refl h.world.symbols) hfits

/-- Names of settings are taken out of the arguments of calls. -/
theorem settings_rest {values : Settings} (hvalues : env.settings = some values)
    (h : env.Poised rank (env.promoted rank) node w)
    (hok : ((Pass.settings values).rules env.scripts).transform node w = (.ok node', w')) :
    env.Poised rank (env.rest rank) node' w' := by
  have hsome : env.settings.isSome = true := Option.isSome_of_eq_some hvalues
  have hrefits : ((Pass.settings values).rules env.scripts).Refits (· = w) (fun _ => True)
      (env.promoted rank w.symbols) (env.rest rank w.symbols) := by
    refine SettingValue.refits ?_ ?_ ?_ ?_ ?_ ?_ ?_ env.scripts
    · exact fun _ hunlisted _ => hunlisted
    · exact fun h _ => h
    · exact id
    · rintro id ⟨s, hs, -, hquiet, -⟩ hlisted
      exact (hlisted (hquiet.unlisted hs hsome)).elim
    · exact fun h _ => h
    · exact fun h _ => h
    · rintro callee code lhs rhs lhs' rhs' ⟨hcallee, hoperands, hweigh⟩ - hlhs hrhs
      -- No operand is the name of a setting any more.
      have hkept : ∀ {operand operand' : Node}, (∀ id, operand = .identifier id →
          ∃ s, w.symbols.get? id = some s ∧ Stratum.Quiet env.settings s.name) →
          SettingValue.Turns w.symbols operand operand' → operand' = operand := by
        rintro operand operand' hoperand (⟨rfl, -⟩ | ⟨-, id, rfl, hlisted⟩)
        · rfl
        · obtain ⟨s, hs, hquiet⟩ := hoperand id rfl
          exact (hlisted (hquiet.unlisted hs hsome)).elim
      rw [hkept (fun id hid => hoperands id (.inl hid)) hlhs,
        hkept (fun id hid => hoperands id (.inr hid)) hrhs]
      exact ⟨hcallee, hoperands, hweigh⟩
  have hpass : Pass.ofKind? env.config.inlineDepth env.settings env.functions .settings =
      some (.settings values) := congrArg (Option.map Pass.settings) hvalues
  obtain ⟨rfl, hfits⟩ := hrefits.transform h.fits trivial w node' w' rfl hok
  exact h.step henv hstandard .settings hpass hok (.refl h.world.symbols) hfits

/-- When nothing is left to be expanded, a round leaves no rule about a region and no name of an
item or a setting. -/
theorem settle (hon : ∀ kind, env.config.passes.isOn kind = true) :
    Pipeline.Carries env.scripts
      (env.Poised rank ((Stratum.behind env.settings env.functions rank 0).scheme env.scripts))
      env.newPipeline.passes (env.Poised rank (env.rest rank)) := by
  have hsettings : Pipeline.Carries env.scripts (env.Poised rank (env.promoted rank))
      (env.settings.map .settings).toList (env.Poised rank (env.rest rank)) := by
    refine .option
      (fun values hvalues => .single fun _ _ _ _ => settings_rest hstandard henv hvalues)
      fun hnone node w h => ?_
    have hwithin : (env.promoted rank w.symbols).Within (env.rest rank w.symbols) := by
      refine ⟨⟨fun _ hsome => ?_, id, id, id⟩, id, id⟩
      rw [hnone] at hsome
      cases hsome
    exact { h with fits := h.fits.mono hwithin }
  have hcompilers : Pipeline.Carries env.scripts (env.Poised rank (env.rest rank))
      (env.functions.map .compilerCalls).toList (env.Poised rank (env.rest rank)) :=
    .option (fun functions hfunctions => .skip (fun _ _ h =>
      h.at_bottom.compilerCalls_same hstandard hfunctions) (.nil fun _ _ => id)) fun _ _ _ => id
  rw [newPipeline_passes hon]
  refine .cons (fun _ _ _ _ => connections henv hstandard
    (bottom_call hstandard _ List.mem_cons_self).1 fun j => (bottom_call_joining hstandard j).1) ?_
  refine .skip (fun _ _ h => h.inlineCalls_same _) ?_
  refine .cons (fun _ _ _ _ => fold henv hstandard) ?_
  refine .skip (fun _ _ h => h.bareCalls_same) ?_
  refine .cons (fun _ _ _ _ => collapse henv hstandard fun _ hq => bottom_asks hstandard hq) ?_
  exact .cons (fun _ _ _ _ => promote_bottom hstandard henv) (hsettings.append hcompilers)

end

end Poised

/-- A rule that is left alone: nothing in it is left to decide, and its questions are joined. -/
structure AtRest (env : Environment) (rank : String → Nat) (node : Node) (w : World) : Prop extends
    env.Poised rank (env.rest rank) node w where
  settled : node.Each Fold.Settled
  joined : node.Each (Node.Rests w.symbols)

/-- Every function that joins has arguments in the lowest stratum, so that junctions are joined for
good. -/
theorem Poised.ready (h : env.Poised rank ((env.bottom rank).scheme env.scripts) node w) :
    node.Each (Node.Ready w.symbols) := by
  obtain ⟨q, hq⟩ := h.asks
  have hasks : ∀ {bare : Bool} {item : Node},
      item.Fits ((env.bottom rank).scheme env.scripts w.symbols) bare → ∀ j : Junction,
      Item.asksNothing w.symbols j.joining item = false := by
    intro bare item hitem j
    refine Bool.eq_false_iff.mpr fun hnothing => ?_
    unfold Item.asksNothing at hnothing
    split at hnothing
    · next callee =>
      obtain ⟨s, hlookup, -, hid⟩ := hq.knows_joining j
      have hname := (SymbolTable.names_of_lookup? hq.sound hlookup).1
      obtain rfl : q.joining j = callee := by
        rw [← hid]
        exact Option.some.inj (hname.symm.trans (beq_iff_eq.mp hnothing))
      cases hitem with
      | call hcall _ =>
        obtain ⟨s', hcalled, -, hcount, -⟩ := hcall
        obtain rfl := Option.some.inj ((hq.joining j).symm.trans hcalled.get)
        obtain ⟨hevery, hany⟩ := hcount rfl
        cases j with
        | every => exact hevery rfl
        | anyOf => exact hany rfl
      | script hscript _ => exact bottom_script hscript
      | idle htarget _ => cases htarget
    · cases hnothing
  have hbusy : node.Each fun part => ∀ (j : Junction) items, part = j.node items →
      ∀ item ∈ items, Item.asksNothing w.symbols j.joining item = false := by
    refine h.fits.each (fun {bare part} hpart j items heq item hitem => ?_) fun id j items heq =>
      absurd heq (Node.ne_junction rfl j items)
    subst heq
    exact hasks (hpart.of_junction item hitem) j
  refine ((h.below.and h.normal).and hbusy).imp fun {part} hpart => ⟨hpart.1.1, hpart.1.2, ?_⟩
  intro j items heq
  have hcount : (items.countP fun item => !Item.asksNothing w.symbols j.joining item) =
      items.length := by
    refine List.countP_eq_length.mpr fun item hitem => ?_
    rw [hpart.2 j items heq item hitem]
    rfl
  rw [hcount]
  exact (hpart.1.2 j items heq).two

/-- A round decides and joins what has come up. -/
theorem Poised.finish (hstandard : env.UsesStandard) (henv : env.Scoped)
    (hon : ∀ kind, env.config.passes.isOn kind = true) :
    Pipeline.Carries env.scripts (env.Poised rank (env.rest rank)) env.newPipeline.passes
      (env.AtRest rank) := by
  have hlast : Pipeline.Carries env.scripts (env.AtRest rank)
      ((env.settings.map .settings).toList ++ (env.functions.map .compilerCalls).toList)
      (env.AtRest rank) := by
    refine .append (.option (fun values hvalues => ?_) fun _ _ _ => id)
      (.option (fun functions hfunctions => ?_) fun _ _ _ => id)
    · exact .skip (fun _ _ h => h.settings_same hvalues) (.nil fun _ _ => id)
    · exact .skip (fun _ _ h => h.at_bottom.compilerCalls_same hstandard hfunctions)
        (.nil fun _ _ => id)
  rw [newPipeline_passes hon]
  refine .skip (fun _ _ h => h.at_bottom.connections_same) ?_
  refine .skip (fun _ _ h => h.at_bottom.inlineCalls_same _) ?_
  refine .cons (Q := fun node w => env.Poised rank (env.rest rank) node w ∧ Fold.Done node) ?_ ?_
  · intro node w node' w' h hok
    refine ⟨h.fold henv hstandard hok, ?_⟩
    rw [← Pass.apply_eq, Fold.fold_apply] at hok
    exact Fold.done_of_folded.of_folded node (congrArg Prod.fst hok)
  refine .skip (fun _ _ h => h.1.at_bottom.bareCalls_same) ?_
  refine .cons (fun node w node' w' h hok => ?_) (.skip (fun _ _ h => h.promoteTokens_same) hlast)
  have hs := h.1.world.symbols
  have hready := h.1.at_bottom.ready
  have hrest : env.Poised rank (env.rest rank) node' w' := h.1.collapse henv hstandard
    (fun _ hq => let h := bottom_asks hstandard hq; ⟨h.has, h.joining, h.plain⟩) hok
  have hjoined := (Item.transform_settles hs hready .nothing hok).rests
  exact ⟨hrest, (Item.transform_settled hs (hready.and h.2.2) w node' w' .nothing hok).2, hjoined⟩

/-- A round leaves it alone. -/
theorem AtRest.still (h : env.AtRest rank node w) (hstandard : env.UsesStandard)
    (hon : ∀ kind, env.config.passes.isOn kind = true) :
    Pipeline.behind env.scripts env.newPipeline.passes (.ok node, w) 1 = (.ok node, w) := by
  have hbottom := h.at_bottom
  refine Pipeline.behind_same fun pass hpass => ?_
  rw [newPipeline_passes hon] at hpass
  simp only [List.mem_cons, List.mem_append, Option.mem_toList, Option.map_eq_some_iff] at hpass
  obtain rfl | rfl | rfl | rfl | rfl | rfl | ⟨values, hvalues, rfl⟩
    | ⟨functions, hfunctions, rfl⟩ :=
    hpass
  · exact hbottom.connections_same
  · exact hbottom.inlineCalls_same _
  · rw [← Pass.apply_eq, Fold.fold_apply, Fold.Done.folded ⟨h.normal, h.settled⟩]
  · exact hbottom.bareCalls_same
  · exact Item.transform_rests h.world.symbols h.joined
  · exact h.promoteTokens_same
  · exact h.settings_same hvalues
  · exact hbottom.compilerCalls_same hstandard hfunctions

/-- Rounds take off one rank after another, until nothing is left to be expanded. -/
theorem Poised.expand (hstandard : env.UsesStandard) (henv : env.Scoped)
    (hon : ∀ kind, env.config.passes.isOn kind = true) (bound : Nat)
    (h : env.Poised rank ((Stratum.before rank bound).scheme env.scripts) node w)
    (hok : Pipeline.behind env.scripts env.newPipeline.passes (.ok node, w) (bound + 1) =
      (.ok node', w')) :
    env.Poised rank ((Stratum.behind env.settings env.functions rank 0).scheme env.scripts)
      node' w' := by
  induction bound generalizing node w with
  | zero => exact round henv hstandard hon 0 node w node' w' h hok
  | succ bound ih =>
    rw [Nat.add_comm] at hok
    obtain ⟨node₁, w₁, hfirst, hrest⟩ := Pipeline.behind_add_ok hok
    exact ih ((round henv hstandard hon (bound + 1) node w node₁ w₁ h hfirst).mono
      (Stratum.behind_le_before bound)) hrest

/-! ## Optimizing again -/

/-- The functions that ask for items are built in, every scripted function has a rank, and of those
that the rule calls by bare name the rank is below the bound. -/
structure Layered (env : Environment) (rank : String → Nat) (bound : Nat) (node : Node) : Prop where
  asks : ∀ name ∈ [Lowering.hasName, Item.everyName, Item.anyName],
    ∃ id, env.world.symbols.get? id = some ⟨name, id, .builtInFunction⟩
  scripts : env.scripts.Ranked rank env.world.symbols
  rule : node.Fits ((Stratum.before rank bound).scheme env.scripts env.world.symbols) true

/-- What a text is lowered to is normal. -/
theorem lower_normal {text : String} {before : Environment}
    (h : lower text before = (.ok node, env)) :
    node.Normal := by
  unfold lower at h
  rcases hparse : Rule.parse text with e | tree
  · rw [hparse] at h
    cases h
  · rw [hparse] at h
    have hresult : (tree.lower before.world.symbols).1.mapError StageError.lowering = .ok node :=
      congrArg Prod.fst h
    rcases htree : tree.lower before.world.symbols with ⟨e | lowered, symbols⟩
    · rw [htree] at hresult
      cases hresult
    · rw [htree] at hresult
      obtain rfl := Except.ok.inj hresult
      exact tree.lower_normal _ _ _ htree

/-- Optimizing a rule again changes nothing, if there are three rounds more than ranks. -/
theorem optimize_settles {history : List (Answer × Environment)} {before : Environment}
    {text : String} {once : Node} {bound : Nat} (hhosted : Hosted history before)
    (hlower : lower text before = (.ok node, env)) (hstandard : env.UsesStandard)
    (hon : ∀ kind, env.config.passes.isOn kind = true) (hrounds : bound + 3 ≤ env.config.rounds)
    (hlayered : env.Layered rank bound node) (honce : (optimize node env).1 = .ok once) :
    optimize once (optimize node env).2 = (.ok once, (optimize node env).2) := by
  obtain ⟨henv, -, hbelow⟩ := (lower_leads text before
    (remembers_of_hosted hhosted).keeps (Nat.le_refl _)).2 node env hlower
  have hready := henv.holds.ready
  have hpoised :
      env.Poised rank ((Stratum.before rank bound).scheme env.scripts) node env.world :=
    ⟨henv.world, Nat.le_refl _, hbelow, lower_normal hlower,
      Askers.exists_of henv.world.symbols hlayered.asks, hlayered.scripts, hlayered.rule⟩
  -- What all rounds have come to is left alone by one more.
  obtain ⟨more, hmore⟩ : ∃ more, env.config.rounds = bound + 1 + 1 + 1 + more :=
    Nat.exists_eq_add_of_le hrounds
  have hall : env.inRounds env.config.rounds node =
      (.ok once, (env.inRounds env.config.rounds node).2) :=
    Prod.ext ((optimize_fst hready).symm.trans honce) rfl
  have hleft := optimize_snd hready honce
  generalize (env.inRounds env.config.rounds node).2 = w at hall hleft
  rw [hmore, inRounds] at hall
  obtain ⟨node₃, w₃, hthree, hlast⟩ := Pipeline.behind_add_ok hall
  obtain ⟨node₂, w₂, htwo, hthird⟩ := Pipeline.behind_add_ok hthree
  obtain ⟨node₁, w₁, hone, hsecond⟩ := Pipeline.behind_add_ok htwo
  have hexpanded := hpoised.expand hstandard henv hon bound hone
  have hsettled := Poised.settle hstandard henv hon node₁ w₁ node₂ w₂ hexpanded hsecond
  have hrest := Poised.finish hstandard henv hon node₂ w₂ node₃ w₃ hsettled hthird
  have hstill := hrest.still hstandard hon
  obtain ⟨hnode, rfl⟩ := Prod.mk.inj ((Pipeline.behind_of_still hstill more).symm.trans hlast)
  obtain rfl := Except.ok.inj hnode
  rw [hleft]
  exact optimize_of_still (hready.renewed w₃) rfl hstill

/-! ### Seven ranks and eight -/

/-- Each function names the one below it, and the lowest one a setting. -/
def ladderScripts : List (String × String) :=
  ("f0", "bridge and Bow") ::
    (List.range 7).map fun i => ("f" ++ toString (i + 1), "f" ++ toString i)

def ladderRequests : List Request :=
  [.builtIns [⟨"has", 2⟩, ⟨"has_every", 2⟩, ⟨"has_anyof", 2⟩], .tokens ["Bow", "Boots"],
    .settings ["bridge"], .settingValues ⟨[("bridge", .string (some "Boots"))]⟩,
    .scripts ladderScripts]

/-- An environment with these functions, in which the value of the setting is the name of an
item. -/
def ladder : Environment := (ofConfig .standard).after ladderRequests

/-- The functions are ranked in their order. -/
def ladderRank (name : String) : Nat := (ladderScripts.map (·.1)).idxOf name

theorem hosted_ladder : ∃ history, Hosted history ladder := by
  have hgiven : ∀ request ∈ ladderRequests, ∀ known n, request.Given known n := by
    intro request hmem known n
    simp only [ladderRequests, List.mem_cons, List.not_mem_nil, or_false] at hmem
    obtain rfl | rfl | rfl | rfl | rfl := hmem <;> trivial
  obtain ⟨later, hlater⟩ := (Hosted.start .standard).after hgiven
  exact ⟨_, hlater⟩

/-- Where the name of one of the upper two functions is lowered, all functions have their ranks. -/
theorem layered_ladder {text : String} (htext : text = "f6" ∨ text = "f7") :
    let env := (lower text ladder).2
    env.UsesStandard ∧ (∀ kind, env.config.passes.isOn kind = true) ∧ env.config.rounds = 10 ∧
      ∀ {i bound}, i < 8 → i < bound → env.Layered ladderRank bound (.identifier (19 + i)) := by
  have hmem : text ∈ ["f6", "f7"] := by
    obtain rfl | rfl := htext <;> simp
  have hconfig : ∀ text ∈ ["f6", "f7"], (lower text ladder).2.functions.isNone = true ∧
      (∀ kind ∈ PassKind.all, (lower text ladder).2.config.passes.isOn kind = true) ∧
      (lower text ladder).2.config.rounds = 10 := by decide +kernel
  have hscripts : ∀ text ∈ ["f6", "f7"],
      ((lower text ladder).2.scripts.entries.map fun e => (e.1, e.2.params, e.2.body)) =
        ("f0", [], .every [.identifier 18, .identifier 16]) ::
          (List.range 7).map fun i => ("f" ++ toString (i + 1), [], .identifier (19 + i)) := by
    decide +kernel
  have hsymbols : ∀ text ∈ ["f6", "f7"],
      ([13, 14, 15, 16, 18].map (lower text ladder).2.world.symbols.get?) =
        [some ⟨"has", 13, .builtInFunction⟩, some ⟨"has_every", 14, .builtInFunction⟩,
          some ⟨"has_anyof", 15, .builtInFunction⟩, some ⟨"Bow", 16, .token⟩,
          some ⟨"bridge", 18, .setting⟩] ∧
      ∀ i < 8, (lower text ladder).2.world.symbols.get? (19 + i) =
        some ⟨"f" ++ toString i, 19 + i, .scriptedFunction⟩ := by
    decide +kernel
  have hranks : ∀ i < 8, ladderRank ("f" ++ toString i) = i ∧
      ∀ name ∈ [Lowering.settingName, Item.everyName, Item.anyName], "f" ++ toString i ≠ name := by
    decide +kernel
  replace hconfig := hconfig text hmem
  replace hscripts := hscripts text hmem
  obtain ⟨hknown, hfunctions⟩ := hsymbols text hmem
  generalize (lower text ladder).2 = env at hconfig hscripts hknown hfunctions ⊢
  obtain ⟨hnone, hon, hrounds⟩ := hconfig
  simp only [List.map_cons, List.map_nil, List.cons.injEq, and_true] at hknown
  obtain ⟨hhas, hevery, hany, hbow, hbridge⟩ := hknown
  have hbare : ∀ {i bound}, i < 8 → i < bound →
      ((Stratum.before ladderRank bound).scheme env.scripts env.world.symbols).bare (19 + i) := by
    intro i bound hi hlt
    obtain ⟨hrank, hne⟩ := hranks i hi
    refine ⟨_, hfunctions i hi, fun _ => ⟨hne _ (by simp), hne _ (by simp), hne _ (by simp),
      fun _ => ?_⟩, nofun⟩
    rw [hrank]
    exact hlt
  have hranked : env.scripts.Ranked ladderRank env.world.symbols := by
    intro name script hget
    obtain ⟨before, after, hsplit, -⟩ := List.lookup_eq_some_iff.mp hget
    have hentry : (name, script.params, script.body) ∈
        env.scripts.entries.map fun e => (e.1, e.2.params, e.2.body) := by
      rw [hsplit]
      exact List.mem_map_of_mem (List.mem_append_right _ List.mem_cons_self)
    rw [hscripts] at hentry
    obtain hfirst | hmore := List.mem_cons.mp hentry
    · obtain ⟨-, hrest⟩ := Prod.mk.inj hfirst
      rw [(Prod.mk.inj hrest).2]
      exact .every (List.forall_mem_cons.mpr
        ⟨.identifier trivial fun _ => ⟨_, hbridge, nofun, fun _ => trivial⟩,
          List.forall_mem_singleton.mpr
            (.identifier trivial fun _ => ⟨_, hbow, nofun, fun _ => trivial⟩)⟩)
    · obtain ⟨i, hi, heq⟩ := List.mem_map.mp hmore
      have hlt : i < 7 := List.mem_range.mp hi
      obtain ⟨rfl, hrest⟩ := Prod.mk.inj heq
      rw [← (Prod.mk.inj hrest).2, (hranks (i + 1) (by omega)).1]
      exact .identifier trivial fun _ => hbare (by omega) (Nat.lt_succ_self i)
  refine ⟨fun fs hfs => ?_, fun kind => hon kind (by cases kind <;> decide), hrounds,
    fun hi hlt => ⟨?_, hranked, .identifier trivial fun _ => hbare hi hlt⟩⟩
  · rw [hfs] at hnone
    cases hnone
  · intro name hname
    simp only [List.mem_cons, List.not_mem_nil, or_false] at hname
    obtain rfl | rfl | rfl := hname
    · exact ⟨_, hhas⟩
    · exact ⟨_, hevery⟩
    · exact ⟨_, hany⟩

/-- What becomes of the rules when they are optimized, and when they are optimized again. -/
theorem ladder_runs :
    ((lower "f6" ladder).1, (optimize (.identifier 25) (lower "f6" ladder).2).1,
      (lower "f7" ladder).1, (optimize (.identifier 26) (lower "f7" ladder).2).1,
      (optimize (.every [.has 13 17 Item.one, .has 13 16 Item.one])
        (optimize (.identifier 26) (lower "f7" ladder).2).2).1) =
    (.ok (.identifier 25), .ok (.call 14 [.identifier 17, .identifier 16]), .ok (.identifier 26),
      .ok (.every [.has 13 17 Item.one, .has 13 16 Item.one]),
      .ok (.call 14 [.identifier 17, .identifier 16])) := by
  cbv

/-- Ten rounds are enough for seven ranks. -/
theorem seven_ranks_settle :
    (lower "f6" ladder).1 = .ok (.identifier 25) ∧
      (lower "f6" ladder).2.Layered ladderRank 7 (.identifier 25) ∧
      (optimize (.identifier 25) (lower "f6" ladder).2).1 =
        .ok (.call 14 [.identifier 17, .identifier 16]) ∧
      optimize (.call 14 [.identifier 17, .identifier 16])
          (optimize (.identifier 25) (lower "f6" ladder).2).2 =
        (.ok (.call 14 [.identifier 17, .identifier 16]),
          (optimize (.identifier 25) (lower "f6" ladder).2).2) := by
  obtain ⟨hlowered, hrest⟩ := Prod.mk.inj ladder_runs
  obtain ⟨honce, -⟩ := Prod.mk.inj hrest
  obtain ⟨hstandard, hon, hrounds, hlayered⟩ := layered_ladder (.inl rfl)
  obtain ⟨history, hhosted⟩ := hosted_ladder
  have hseven : (lower "f6" ladder).2.Layered ladderRank 7 (.identifier 25) :=
    hlayered (show 6 < 8 by decide) (by decide)
  have hagain := optimize_settles hhosted (Prod.fst_eq_iff.mp hlowered) hstandard hon
    (Nat.le_of_eq hrounds.symm) hseven honce
  exact ⟨hlowered, hseven, honce, hagain⟩

/-- For eight they are not: the tenth one asks for the item that the setting names, and joins no
questions any more. -/
theorem eight_ranks_go_on :
    (lower "f7" ladder).1 = .ok (.identifier 26) ∧
      (lower "f7" ladder).2.Layered ladderRank 8 (.identifier 26) ∧
      (optimize (.identifier 26) (lower "f7" ladder).2).1 =
        .ok (.every [.has 13 17 Item.one, .has 13 16 Item.one]) ∧
      (optimize (.every [.has 13 17 Item.one, .has 13 16 Item.one])
          (optimize (.identifier 26) (lower "f7" ladder).2).2).1 =
        .ok (.call 14 [.identifier 17, .identifier 16]) := by
  obtain ⟨-, hrest⟩ := Prod.mk.inj ladder_runs
  obtain ⟨-, hrest⟩ := Prod.mk.inj hrest
  obtain ⟨hlowered, hrest⟩ := Prod.mk.inj hrest
  obtain ⟨honce, hagain⟩ := Prod.mk.inj hrest
  obtain ⟨-, -, -, hlayered⟩ := layered_ladder (.inr rfl)
  exact ⟨hlowered, hlayered (show 7 < 8 by decide) (by decide), honce, hagain⟩

/-! ### A chain of ten -/

/-- Each function names the next. -/
def chainScripts : List (String × String) :=
  [("f0", "f1"), ("f1", "f2"), ("f2", "f3"), ("f3", "f4"), ("f4", "f5"), ("f5", "f6"),
    ("f6", "f7"), ("f7", "f8"), ("f8", "f9"), ("f9", "True")]

def chain : Environment := (ofConfig .standard).after [.scripts chainScripts]

/-- Every round calls the function that the last one has come to, so that the tenth one is
called by the last round, and expanded when the rule is optimized again. -/
theorem chain_goes_on :
    (lower "f0" chain).1 = .ok (.identifier 13) ∧
      (optimize (.identifier 13) (lower "f0" chain).2).1 = .ok (.call 22 []) ∧
      (optimize (.call 22 []) (optimize (.identifier 13) (lower "f0" chain).2).2).1 =
        .ok (.boolean true) := by
  have hall : ((lower "f0" chain).1, (optimize (.identifier 13) (lower "f0" chain).2).1,
      (optimize (.call 22 []) (optimize (.identifier 13) (lower "f0" chain).2).2).1) =
      (.ok (.identifier 13), .ok (.call 22 []), .ok (.boolean true)) := by decide +kernel
  obtain ⟨hlowered, hrest⟩ := Prod.mk.inj hall
  obtain ⟨honce, htwice⟩ := Prod.mk.inj hrest
  exact ⟨hlowered, honce, htwice⟩

end Environment

end Passage

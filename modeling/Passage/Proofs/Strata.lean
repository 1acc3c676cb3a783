import Passage.Proofs.Rearranging
import Passage.Proofs.Repeating

/-!
# One round

The body of a scripted function that stands bare is put in its place a round later: its name
becomes a call, and the next round expands the call. What a round leaves to the next one can
therefore be counted, if the functions have ranks, and the body of each calls by bare name only
functions of a lower rank (`Scripts.Ranked`). Every round takes one rank off
(`Environment.Poised.round`), and of all else that it can do by name it leaves nothing
(`Stratum.behind`).
-/

namespace Passage

/-! ## Strata -/

/-- What may stand where in a tree, by the names of its symbols. -/
structure Stratum where
  /-- Functions that stand bare. -/
  function : Symbol.Kind → String → Prop
  /-- Other names that stand bare. -/
  plain : String → Prop
  /-- Names that are called, and have no body to be put in place of a call. -/
  call : String → Prop
  /-- Names that are called, and have one. -/
  script : String → Prop
  /-- Names that are compared by a code. -/
  operand : String → Prop
  /-- Comparisons by a code. -/
  weigh : Number → Node → Node → Prop

namespace Stratum

/-- In the place of what calls the symbol no body is put. -/
structure Called (scripts : Scripts) (t : SymbolTable) (callee : SymbolId) (s : Symbol) : Prop where
  get : t.get? callee = some s
  plain : Inline.scriptOf? scripts t (.identifier callee) = none

/-- What a stratum means in a table. Only comparisons call the function for them, and the functions
that join questions have arguments. -/
def scheme (stratum : Stratum) (scripts : Scripts) (t : SymbolTable) : Scheme where
  bare id := ∃ s, t.get? id = some s ∧ (s.kind.isFunction = true → stratum.function s.kind s.name) ∧
    (s.kind.isFunction = false → stratum.plain s.name)
  name _ := True
  text _ := True
  call callee count := ∃ s, Called scripts t callee s ∧ s.name ≠ Lowering.settingName ∧
    (count = 0 → s.name ≠ Item.everyName ∧ s.name ≠ Item.anyName) ∧ stratum.call s.name
  script callee := ∃ s script, t.get? callee = some s ∧
    Inline.scriptOf? scripts t (.identifier callee) = some (s.name, script) ∧ stratum.script s.name
  weigh callee code lhs rhs := (∃ s, Called scripts t callee s ∧ s.kind.isFunction = true ∧
      s.name = Lowering.settingName) ∧
    (∀ id, lhs = .identifier id ∨ rhs = .identifier id →
      ∃ s, t.get? id = some s ∧ stratum.operand s.name) ∧ stratum.weigh code lhs rhs

/-- What the first stratum allows, the second one does. -/
structure Le (stratum stratum' : Stratum) : Prop where
  function : ∀ {kind name}, stratum.function kind name → stratum'.function kind name
  plain : ∀ {name}, stratum.plain name → stratum'.plain name
  call : ∀ {name}, stratum.call name → stratum'.call name
  script : ∀ {name}, stratum.script name → stratum'.script name
  operand : ∀ {name}, stratum.operand name → stratum'.operand name
  weigh : ∀ {code lhs rhs}, stratum.weigh code lhs rhs → stratum'.weigh code lhs rhs

variable {stratum stratum' : Stratum} {scripts : Scripts} {t t' : SymbolTable} {callee : SymbolId}
  {s : Symbol}

theorem Le.refl (stratum : Stratum) : stratum.Le stratum := ⟨id, id, id, id, id, id⟩

/-- A symbol is called as before where functions stay what they are. -/
theorem Called.steady (h : Called scripts t callee s) (hsteady : t.Steady t') :
    ∃ s', Called scripts t' callee s' ∧ s'.name = s.name ∧
      (s.kind.isFunction = true → s'.kind.isFunction = true) := by
  obtain ⟨s', hs', hname, hkind⟩ := hsteady.symbols h.get
  refine ⟨s', ⟨hs', (hsteady.scriptOf? h.get scripts).trans h.plain⟩, hname, fun hfunction => ?_⟩
  obtain hsame | ⟨hunknown, -⟩ := hkind
  · rwa [hsame]
  · rw [hunknown] at hfunction
    cases hfunction

/-- What a stratum allows in a table, a greater one does in a later table. -/
theorem Le.within (h : stratum.Le stratum') (hsteady : t.Steady t') :
    (stratum.scheme scripts t).Within (stratum'.scheme scripts t') where
  bare := by
    rintro id ⟨s, hs, hfunction, hplain⟩
    cases hkind : s.kind.isFunction with
    | true =>
      obtain ⟨s', hs', hname, hkind'⟩ := hsteady.function hs hkind
      refine ⟨s', hs', fun _ => ?_, fun hplain' => ?_⟩
      · rw [hname, hkind']
        exact h.function (hfunction hkind)
      · rw [hkind', hkind] at hplain'
        cases hplain'
    | false =>
      obtain ⟨s', hs', hname, hkind'⟩ := hsteady.plain hs hkind
      refine ⟨s', hs', fun hfunction' => ?_, fun _ => ?_⟩
      · rw [hkind'] at hfunction'
        cases hfunction'
      · rw [hname]
        exact h.plain (hplain hkind)
  name := id
  text := id
  call := by
    rintro callee count ⟨s, hcalled, hne, hcount, hcall⟩
    obtain ⟨s', hcalled', hname, -⟩ := hcalled.steady hsteady
    refine ⟨s', hcalled', ?_⟩
    rw [hname]
    exact ⟨hne, hcount, h.call hcall⟩
  script := by
    rintro callee ⟨s, script, hs, hscript, hrank⟩
    have hkept := (hsteady.scriptOf? hs scripts).trans hscript
    obtain ⟨s', hs', hname, -⟩ := hsteady.symbols hs
    refine ⟨s', script, hs', ?_, ?_⟩
    · rw [hname]
      exact hkept
    · rw [hname]
      exact h.script hrank
  weigh := by
    rintro callee code lhs rhs ⟨⟨s, hcalled, hkind, hname⟩, hoperands, hweigh⟩
    obtain ⟨s', hcalled', hname', hfunction⟩ := hcalled.steady hsteady
    refine ⟨⟨s', hcalled', hfunction hkind, hname'.trans hname⟩, fun id hid => ?_, h.weigh hweigh⟩
    obtain ⟨s, hs, hoperand⟩ := hoperands id hid
    obtain ⟨s', hs', hsame, -⟩ := hsteady.symbols hs
    exact ⟨s', hs', hsame ▸ h.operand hoperand⟩

/-- All callees of a stratum are known. -/
theorem scheme_over (stratum : Stratum) (scripts : Scripts) (t : SymbolTable) :
    (stratum.scheme scripts t).Over t where
  call := by
    rintro callee count ⟨s, hcalled, -⟩
    exact ⟨s, hcalled.get⟩
  script := by
    rintro callee ⟨s, script, hs, hscript, -⟩
    refine ⟨s, hs, ?_⟩
    rw [(Inline.of_scriptOf? hs hscript).1]
    rfl
  weigh := by
    rintro callee code lhs rhs ⟨⟨s, hcalled, hkind, -⟩, -⟩
    exact ⟨s, hcalled.get, hkind⟩

/-- The functions that ask for items have no bodies and are not for comparisons. -/
theorem asks {q : Askers} {IsItem : SymbolId → Prop} (hq : q.Of IsItem t)
    (hhas : stratum.call Lowering.hasName) (hjoining : ∀ j : Junction, stratum.call j.joining) :
    (stratum.scheme scripts t).Asks q := by
  have hcalled : ∀ {id name}, t.get? id = some ⟨name, id, .builtInFunction⟩ →
      Called scripts t id ⟨name, id, .builtInFunction⟩ :=
    fun hget => ⟨hget, Inline.scriptOf?_of_kind_ne hget nofun⟩
  have hne : ∀ j : Junction, j.joining ≠ Lowering.settingName := by
    intro j
    cases j <;> decide
  have hne' : Lowering.hasName ≠ Lowering.settingName := by decide
  refine ⟨⟨_, hcalled hq.has, hne', nofun, hhas⟩, fun j count htwo =>
    ⟨_, hcalled (hq.joining j), hne j, fun hcount => ?_, hjoining j⟩, fun {callee} hown => ?_⟩
  · subst hcount
    cases htwo
  · obtain ⟨name, hcallee, hname⟩ :
      ∃ name, Called scripts t callee ⟨name, callee, .builtInFunction⟩ ∧
        name ≠ Lowering.settingName := by
      obtain rfl | ⟨j, rfl⟩ := hown
      · exact ⟨_, hcalled hq.has, hne'⟩
      · exact ⟨_, hcalled (hq.joining j), hne j⟩
    constructor
    · rintro ⟨s, script, -, hscript, -⟩
      rw [hcallee.plain] at hscript
      cases hscript
    · rintro code lhs rhs ⟨⟨s, hs, -, hsetting⟩, -⟩
      obtain rfl := Option.some.inj (hcallee.get.symm.trans hs.get)
      exact hname hsetting

/-! ### The strata of a round -/

/-- The name is left alone by the pass for settings, if there is one. -/
def Quiet (settings : Option Settings) (name : String) : Prop :=
  settings.isSome = true → SettingType.ofName? name = none

/-- A symbol with such a name has not the name of a setting. -/
theorem Quiet.unlisted {settings : Option Settings} {t : SymbolTable} {id : SymbolId} {s : Symbol}
    (h : Quiet settings s.name) (hs : t.get? id = some s) (hsome : settings.isSome = true) :
    t.Unlisted id := by
  intro s' hs'
  obtain rfl := Option.some.inj (hs.symm.trans hs')
  exact h hsome

/-- The name is that of none of the compiler functions, if there are any. -/
def Unanswered (functions : Option CompilerFunctions) (name : String) : Prop :=
  ∀ fs, functions = some fs → fs.find? name = none

/-- Before a round, scripted functions stand bare that are of a rank below the bound, and those are
called that are no higher. -/
def before (rank : String → Nat) (bound : Nat) : Stratum where
  function kind name := name ≠ Lowering.settingName ∧ name ≠ Item.everyName ∧ name ≠ Item.anyName ∧
    (kind = .scriptedFunction → rank name < bound)
  plain _ := True
  call _ := True
  script name := rank name ≤ bound
  operand _ := True
  weigh _ _ _ := True

/-- When calls are expanded, none is left of a function with a body. -/
def expanded (rank : String → Nat) (bound : Nat) : Stratum :=
  { before rank bound with script := fun _ => False }

/-- When bare names are called, no function stands bare. -/
def called (rank : String → Nat) (bound : Nat) : Stratum :=
  { before rank bound with function := fun _ _ => False, script := fun name => rank name < bound }

/-- When settings are put in, no name of one is left where it counts. -/
def resolved (settings : Option Settings) (rank : String → Nat) (bound : Nat) : Stratum :=
  { called rank bound with
    plain := Quiet settings, call := Quiet settings, operand := Quiet settings }

/-- Behind a round, functions are called that have been in it by bare name only, and nothing is
left that could be answered. -/
def behind (settings : Option Settings) (functions : Option CompilerFunctions)
    (rank : String → Nat) (bound : Nat) : Stratum :=
  { resolved settings rank bound with
    call := fun name => Quiet settings name ∧ Unanswered functions name
    weigh := fun code lhs rhs => functions.isSome = true →
      (Comparison.ofCode? code.clampToByte).isSome = true ∧
        (lhs.isLiteral && rhs.isLiteral) = false }

/-- When rules about regions are taken out, none is left. -/
def withoutRegions (stratum : Stratum) : Stratum :=
  { stratum with call := fun name => stratum.call name ∧ name ≠ Elsewhere.atName ∧
    name ≠ Elsewhere.hereName }

variable {rank : String → Nat} {bound bound' : Nat} {settings : Option Settings}
  {functions : Option CompilerFunctions}

theorem withoutRegions_le (stratum : Stratum) : stratum.withoutRegions.Le stratum :=
  ⟨id, id, And.left, id, id, id⟩

theorem before_mono (h : bound ≤ bound') : (before rank bound).Le (before rank bound') where
  function hf := ⟨hf.1, hf.2.1, hf.2.2.1, fun hkind => Nat.lt_of_lt_of_le (hf.2.2.2 hkind) h⟩
  plain := id
  call := id
  script hrank := Nat.le_trans hrank h
  operand := id
  weigh := id

/-- What one round has left, the next one takes up, a rank lower. -/
theorem behind_le_before (bound : Nat) :
    (behind settings functions rank (bound + 1)).Le (before rank bound) where
  function := False.elim
  plain _ := trivial
  call _ := trivial
  script := Nat.le_of_lt_succ
  operand _ := trivial
  weigh _ := trivial

end Stratum

/-- The tree is made up of no callees among some names, and compares none of them. -/
def Scheme.without (S : Scheme) (ids : List SymbolId) : Scheme :=
  { S with
    call := fun callee count => S.call callee count ∧ callee ∉ ids
    script := fun callee => S.script callee ∧ callee ∉ ids
    weigh := fun callee code lhs rhs => S.weigh callee code lhs rhs ∧ callee ∉ ids ∧
      ∀ id ∈ ids, lhs ≠ .identifier id ∧ rhs ≠ .identifier id }

theorem Scheme.without_within (S : Scheme) (ids : List SymbolId) : (S.without ids).Within S :=
  ⟨⟨id, And.left, And.left, And.left⟩, id, id⟩

theorem Scheme.without_avoids (S : Scheme) (ids : List SymbolId) : (S.without ids).Avoids ids :=
  ⟨And.right, And.right, And.right⟩

theorem Scheme.Within.without {S S' : Scheme} (h : S.Within S') (ids : List SymbolId) :
    (S.without ids).Within (S'.without ids) :=
  ⟨⟨h.name, And.imp_left h.call, And.imp_left h.script, And.imp_left h.weigh⟩, h.bare, h.text⟩

/-! ## Where a rule stands -/

/-- The body of every scripted function keeps to the stratum of its rank, and calls and compares
none of the parameters. -/
def Scripts.Ranked (scripts : Scripts) (rank : String → Nat) (t : SymbolTable) : Prop :=
  ∀ name script, scripts.get? name = some script →
    script.body.Fits (((Stratum.before rank (rank name)).scheme scripts t).without script.params)
      true

/-- Functions keep their ranks where they stay what they are. -/
theorem Scripts.Ranked.steady {scripts : Scripts} {rank : String → Nat} {t t' : SymbolTable}
    (h : scripts.Ranked rank t) (hsteady : t.Steady t') : scripts.Ranked rank t' :=
  fun name script hget =>
    (h name script hget).mono (((Stratum.Le.refl _).within hsteady).without script.params)

namespace Environment

/-- A rule on its way through the passes of an environment, which keeps to a scheme: its symbols
are known, it is normal, and the functions that ask for items are built in. -/
structure Poised (env : Environment) (rank : String → Nat) (S : SymbolTable → Scheme) (node : Node)
    (w : World) : Prop where
  world : w.Scoped
  size : env.world.symbols.size ≤ w.symbols.size
  below : node.Below w.symbols.size
  normal : node.Normal
  asks : ∃ q : Askers, q.Of (fun _ => False) w.symbols
  ranked : env.scripts.Ranked rank w.symbols
  fits : node.Fits (S w.symbols) true

/-- The passes, if all of them are on. -/
theorem newPipeline_passes {env : Environment} (hon : ∀ kind, env.config.passes.isOn kind = true) :
    env.newPipeline.passes = .connections :: .inlineCalls env.config.inlineDepth :: .fold ::
      .bareCalls :: .collapseHas :: .promoteTokens ::
        ((env.settings.map .settings).toList ++ (env.functions.map .compilerCalls).toList) := by
  have hall : env.config.passes.enabled = PassKind.all :=
    List.filter_eq_self.mpr fun kind _ => hon kind
  show env.config.passes.enabled.filterMap _ = _
  rw [hall]
  cases env.settings <;> cases env.functions <;> rfl

namespace Poised

variable {env : Environment} {rank : String → Nat} {S S' : SymbolTable → Scheme} {node node' : Node}
  {w w' : World}

/-- Where a stratum allows a rule, a greater one does. -/
theorem mono {stratum stratum' : Stratum} (h : env.Poised rank (stratum.scheme env.scripts) node w)
    (hle : stratum.Le stratum') : env.Poised rank (stratum'.scheme env.scripts) node w :=
  { h with fits := h.fits.mono (hle.within (.refl h.world.symbols)) }

/-- A pass that keeps functions what they are leaves the rule where its scheme says. -/
theorem step (henv : env.Scoped) (hstandard : env.UsesStandard) (kind : PassKind) {pass : Pass}
    (hpass : Pass.ofKind? env.config.inlineDepth env.settings env.functions kind = some pass)
    (h : env.Poised rank S node w)
    (hok : (pass.rules env.scripts).transform node w = (.ok node', w'))
    (hsteady : w.symbols.Steady w'.symbols) (hfits : node'.Fits (S' w'.symbols) true) :
    env.Poised rank S' node' w' := by
  have hrules := Pass.scoped_of_ofKind? henv.scripts henv.functions hpass
  obtain ⟨⟨hscoped, hsize⟩, -, hbelow⟩ :=
    (hrules.transform h.below w ⟨h.world, h.size⟩ (Nat.le_refl _)).2 node' w' hok
  have hstock : pass.Stock := by
    rcases hfunctions : env.functions with _ | fs
    · rw [hfunctions] at hpass
      refine ⟨env.config.inlineDepth, env.settings, [], false, kind, ?_⟩
      cases kind <;> first | exact hpass | cases hpass
    · obtain ⟨tricks, night, rfl⟩ := hstandard fs hfunctions
      exact ⟨_, _, tricks, night, kind, hfunctions ▸ hpass⟩
  have hnormal := (hstock.normal env.scripts h.normal w).1 node'
  rw [Pass.apply_eq, hok] at hnormal
  obtain ⟨q, hq⟩ := h.asks
  exact ⟨hscoped, hsize, hbelow, hnormal rfl, ⟨q, hsteady.askers hq⟩,
    h.ranked.steady hsteady, hfits⟩

/-! ### Passes -/

section Passes

variable {stratum : Stratum} {bound : Nat} (henv : env.Scoped) (hstandard : env.UsesStandard)

include henv hstandard

/-- Behind the pass for rules about regions, no such rule is left. -/
theorem connections (hhas : stratum.call Lowering.hasName)
    (hjoining : ∀ j : Junction, stratum.call j.joining)
    (h : env.Poised rank (stratum.scheme env.scripts) node w)
    (hok : (Pass.connections.rules env.scripts).transform node w = (.ok node', w')) :
    env.Poised rank (stratum.withoutRegions.scheme env.scripts) node' w' := by
  obtain ⟨q, hq⟩ := h.asks
  have hlocal : (stratum.withoutRegions.scheme env.scripts w.symbols).Asks q :=
    Stratum.asks hq ⟨hhas, by decide, by decide⟩ fun j => ⟨hjoining j, by cases j <;> decide⟩
  have hrefits : (Pass.connections.rules env.scripts).Refits (Elsewhere.Kept w.symbols)
      (fun _ => True) (stratum.scheme env.scripts w.symbols)
      (stratum.withoutRegions.scheme env.scripts w.symbols) := by
    refine Elsewhere.refits hq (stratum.scheme_over env.scripts w.symbols) ?_ ?_ ?_
      hlocal.has ?_ ?_ ?_
      env.scripts
    · exact id
    · exact id
    · exact fun _ => trivial
    · rintro callee count s ⟨s', hcalled, hne, hcount, hcall⟩ hs hat hhere
      obtain rfl := Option.some.inj (hs.symm.trans hcalled.get)
      exact ⟨s, hcalled, hne, hcount, hcall, hat, hhere⟩
    · exact id
    · exact id
  obtain ⟨hsteady, hfits⟩ := hrefits.transform h.fits trivial w node' w'
    (.refl h.world.symbols) hok
  exact h.step henv hstandard .connections rfl hok hsteady
    (hfits.mono ((Stratum.Le.refl _).within hsteady))

/-- Behind the inliner no function is called that has a body, and those that stand bare are of a
lower rank than the one in whose body they were. -/
theorem inline (h : env.Poised rank ((Stratum.before rank bound).scheme env.scripts) node w)
    (hok : ((Pass.inlineCalls env.config.inlineDepth).rules env.scripts).transform node w =
      (.ok node', w')) :
    env.Poised rank ((Stratum.expanded rank bound).scheme env.scripts) node' w' := by
  have hrefits : ((Pass.inlineCalls env.config.inlineDepth).rules env.scripts).Refits (· = w)
      (fun _ => True) ((Stratum.before rank bound).scheme env.scripts w.symbols)
      ((Stratum.expanded rank bound).scheme env.scripts w.symbols) := by
    refine Inline.refits ?_ ?_ ?_ ?_ ?_ ?_ _ _
    · exact id
    · exact id
    · exact id
    · rintro callee count ⟨s, hcalled, hrest⟩
      exact ⟨hcalled.plain, s, hcalled, hrest⟩
    · rintro callee code lhs rhs ⟨⟨s, hcalled, hsetting⟩, hrest⟩
      exact ⟨hcalled.plain, ⟨s, hcalled, hsetting⟩, hrest⟩
    · rintro callee ⟨s, script, -, hscript, hrank⟩
      refine ⟨s.name, script, hscript, _, ?_, Scheme.without_avoids _ _,
        h.ranked s.name script (Inline.get?_of_scriptOf? hscript)⟩
      exact (Scheme.without_within _ _).trans
        ((Stratum.before_mono hrank).within (.refl h.world.symbols))
  obtain ⟨rfl, hfits⟩ := hrefits.transform h.fits trivial w node' w' rfl hok
  exact h.step henv hstandard .inlineCalls rfl hok (.refl h.world.symbols) hfits

/-- Folding leaves a rule in its scheme. -/
theorem fold (h : env.Poised rank S node w)
    (hok : (Pass.fold.rules env.scripts).transform node w = (.ok node', w')) :
    env.Poised rank S node' w' := by
  obtain ⟨rfl, hfits⟩ := (Fold.refits env.scripts).transform h.fits trivial w node' w' rfl hok
  exact h.step henv hstandard .fold rfl hok (.refl h.world.symbols) hfits

/-- Behind the pass that calls bare names, none of a function is left. -/
theorem bareCalls (h : env.Poised rank ((Stratum.expanded rank bound).scheme env.scripts) node w)
    (hok : (Pass.bareCalls.rules env.scripts).transform node w = (.ok node', w')) :
    env.Poised rank ((Stratum.called rank bound).scheme env.scripts) node' w' := by
  have hinside : ((Stratum.expanded rank bound).scheme env.scripts w.symbols).Inside
      ((Stratum.called rank bound).scheme env.scripts w.symbols) := by
    refine ⟨id, id, ?_, id⟩
    rintro callee ⟨_, _, -, -, ⟨⟩⟩
  have hrefits : (Pass.bareCalls.rules env.scripts).Refits (· = w) (· = true)
      ((Stratum.expanded rank bound).scheme env.scripts w.symbols)
      ((Stratum.called rank bound).scheme env.scripts w.symbols) := by
    refine BareCall.refits ?_ ?_ ?_ ?_ ?_ env.scripts
    · exact id
    · exact id
    · rintro id s ⟨s', hs', hfunction, -⟩ hs hkind
      obtain rfl := Option.some.inj (hs.symm.trans hs')
      obtain ⟨hsetting, hevery, hany, hrank⟩ := hfunction hkind
      rcases hscript :
          Inline.scriptOf? env.scripts w.symbols (.identifier id) with _ | ⟨name, script⟩
      · exact .call ⟨s, ⟨hs, hscript⟩, hsetting, fun _ => ⟨hevery, hany⟩, trivial⟩
          (List.forall_mem_nil _)
      · obtain ⟨hscripted, rfl⟩ := Inline.of_scriptOf? hs hscript
        exact .script ⟨s, script, hs, hscript, hrank hscripted⟩ (List.forall_mem_nil _)
    · rintro id s ⟨s', hs', -, hplain⟩ hs hkind
      obtain rfl := Option.some.inj (hs.symm.trans hs')
      exact ⟨s, hs, fun hfunction => absurd (hfunction.symm.trans hkind) nofun, hplain⟩
    · refine fun h => h.call_mono hinside ?_
      rintro callee ⟨_, _, -, -, ⟨⟩⟩
  obtain ⟨rfl, hfits⟩ := hrefits.transform h.fits rfl w node' w' rfl hok
  exact h.step henv hstandard .bareCalls rfl hok (.refl h.world.symbols) hfits

/-- Joining questions leaves a rule in a scheme that allows them. -/
theorem collapse (hasks : ∀ q : Askers, q.Of (fun _ => False) w.symbols → (S w.symbols).Asks q)
    (h : env.Poised rank S node w)
    (hok : (Pass.collapseHas.rules env.scripts).transform node w = (.ok node', w')) :
    env.Poised rank S node' w' := by
  obtain ⟨q, hq⟩ := h.asks
  obtain ⟨rfl, hfits⟩ :=
    (Item.refits hq (hasks q hq) env.scripts).transform h.fits trivial w node' w' rfl hok
  exact h.step henv hstandard .collapseHas rfl hok (.refl h.world.symbols) hfits

/-- Names of items become questions, and what stands bare stays in its stratum. -/
theorem promote (h : env.Poised rank ((Stratum.called rank bound).scheme env.scripts) node w)
    (hok : (Pass.promoteTokens.rules env.scripts).transform node w = (.ok node', w')) :
    env.Poised rank ((Stratum.called rank bound).scheme env.scripts) node' w' := by
  obtain ⟨q, hq⟩ := h.asks
  have hasks : ((Stratum.called rank bound).scheme env.scripts w.symbols).Asks q :=
    Stratum.asks hq trivial fun _ => trivial
  have hrefits : (Pass.promoteTokens.rules env.scripts).Refits (· = w) (· = true)
      ((Stratum.called rank bound).scheme env.scripts w.symbols)
      ((Stratum.called rank bound).scheme env.scripts w.symbols) :=
    Item.promote_refits hq hasks.has id (fun _ => trivial) (fun h _ _ => h) (fun h _ => h) id
      env.scripts
  obtain ⟨rfl, hfits⟩ := hrefits.transform h.fits rfl w node' w' rfl hok
  exact h.step henv hstandard .promoteTokens rfl hok (.refl h.world.symbols) hfits

/-- Behind the pass for settings, no name of one stands bare, is called or compared. -/
theorem settings {values : Settings} (hsettings : env.settings = some values)
    (h : env.Poised rank ((Stratum.called rank bound).scheme env.scripts) node w)
    (hok : ((Pass.settings values).rules env.scripts).transform node w = (.ok node', w')) :
    env.Poised rank ((Stratum.resolved env.settings rank bound).scheme env.scripts) node' w' := by
  have hrefits : ((Pass.settings values).rules env.scripts).Refits (· = w) (fun _ => True)
      ((Stratum.called rank bound).scheme env.scripts w.symbols)
      ((Stratum.resolved env.settings rank bound).scheme env.scripts w.symbols) := by
    refine SettingValue.refits ?_ ?_ ?_ ?_ ?_ ?_ ?_ env.scripts
    · exact fun _ _ => trivial
    · rintro id ⟨s, hs, hfunction, -⟩ hunlisted
      exact ⟨s, hs, hfunction, fun _ _ => hunlisted hs⟩
    · exact id
    · exact fun _ _ _ => trivial
    · rintro callee count ⟨s, hcalled, hne, hcount, -⟩ hunlisted
      exact ⟨s, hcalled, hne, hcount, fun _ => hunlisted hcalled.get⟩
    · exact fun h _ => h
    · rintro callee code lhs rhs lhs' rhs' ⟨hcallee, hoperands, -⟩ - hlhs hrhs
      -- An operand that is a name still is the one that it was.
      have hkept : ∀ {operand operand' : Node} {id}, SettingValue.Turns w.symbols operand operand' →
          operand' = .identifier id → operand = .identifier id ∧ w.symbols.Unlisted id := by
        rintro operand operand' id (⟨rfl, hunlisted⟩ | ⟨hliteral, -⟩) rfl
        · exact ⟨rfl, hunlisted id rfl⟩
        · cases hliteral
      refine ⟨hcallee, fun id hid => ?_, trivial⟩
      obtain ⟨hsame, hunlisted⟩ : (lhs = .identifier id ∨ rhs = .identifier id) ∧
          w.symbols.Unlisted id := by
        obtain hid | hid := hid
        · exact (hkept hlhs hid).imp_left .inl
        · exact (hkept hrhs hid).imp_left .inr
      obtain ⟨s, hs, -⟩ := hoperands id hsame
      exact ⟨s, hs, fun _ => hunlisted hs⟩
  have hpass : Pass.ofKind? env.config.inlineDepth env.settings env.functions .settings =
      some (.settings values) := congrArg (Option.map Pass.settings) hsettings
  obtain ⟨rfl, hfits⟩ := hrefits.transform h.fits trivial w node' w' rfl hok
  exact h.step henv hstandard .settings hpass hok (.refl h.world.symbols) hfits

/-- Behind the pass for compiler functions, none of them is called, and comparisons are left only
of what is not known. -/
theorem compilerCalls {functions : CompilerFunctions} (hfunctions : env.functions = some functions)
    (h : env.Poised rank ((Stratum.resolved env.settings rank bound).scheme env.scripts) node w)
    (hok : ((Pass.compilerCalls functions).rules env.scripts).transform node w = (.ok node', w')) :
    env.Poised rank ((Stratum.behind env.settings env.functions rank bound).scheme env.scripts)
      node' w' := by
  obtain ⟨tricks, night, rfl⟩ := hstandard functions hfunctions
  have hrefits : ((Pass.compilerCalls (.standard tricks night)).rules env.scripts).Refits (· = w)
      (fun _ => True) ((Stratum.resolved env.settings rank bound).scheme env.scripts w.symbols)
      ((Stratum.behind env.settings env.functions rank bound).scheme env.scripts w.symbols) := by
    refine CompilerFunctions.refits h.world.symbols (Stratum.scheme_over _ _ _) ?_ ?_ ?_ ?_ ?_ ?_
      env.scripts
    · exact id
    · exact id
    · exact id
    · rintro callee count s ⟨s', hcalled, hne, hcount, hquiet⟩ hs
      obtain rfl := Option.some.inj (hs.symm.trans hcalled.get)
      refine ⟨hne, fun hfind => ⟨s, hcalled, hne, hcount, hquiet, fun fs hfs => ?_⟩⟩
      obtain rfl := Option.some.inj (hfunctions.symm.trans hfs)
      exact hfind
    · exact id
    · rintro callee code lhs rhs ⟨⟨s, hcalled, hkind, hname⟩, hoperands, -⟩
      exact ⟨⟨s, hcalled.get, hname⟩, fun hcode =>
        ⟨fun _ _ => trivial, fun hliteral => ⟨⟨s, hcalled, hkind, hname⟩, hoperands, fun _ =>
          ⟨hcode, hliteral⟩⟩⟩⟩
  have hpass : Pass.ofKind? env.config.inlineDepth env.settings env.functions .compilerCalls =
      some (.compilerCalls (.standard tricks night)) := congrArg (Option.map _) hfunctions
  obtain ⟨rfl, hfits⟩ := hrefits.transform h.fits trivial w node' w' rfl hok
  exact h.step henv hstandard .compilerCalls hpass hok (.refl h.world.symbols) hfits

/-- A round takes a rank off what is to be expanded. -/
theorem round (hon : ∀ kind, env.config.passes.isOn kind = true) (bound : Nat) :
    Pipeline.Carries env.scripts (env.Poised rank ((Stratum.before rank bound).scheme env.scripts))
      env.newPipeline.passes
      (env.Poised rank
        ((Stratum.behind env.settings env.functions rank bound).scheme env.scripts)) := by
  let At (stratum : Stratum) := env.Poised rank (stratum.scheme env.scripts)
  have hsettings : Pipeline.Carries env.scripts (At (.called rank bound))
      (env.settings.map .settings).toList (At (.resolved env.settings rank bound)) := by
    refine .option (fun values hvalues => .single fun _ _ _ _ => settings henv hstandard hvalues)
      fun hnone _ w h => h.mono ?_
    exact ⟨id, fun _ => hnone ▸ nofun, fun _ => hnone ▸ nofun, id, fun _ => hnone ▸ nofun, id⟩
  have hcompilers : Pipeline.Carries env.scripts (At (.resolved env.settings rank bound))
      (env.functions.map .compilerCalls).toList
      (At (.behind env.settings env.functions rank bound)) := by
    refine .option
      (fun functions hfunctions => .single fun _ _ _ _ => compilerCalls henv hstandard hfunctions)
      fun hnone _ w h => h.mono ?_
    exact ⟨id, id, fun hquiet => ⟨hquiet, hnone ▸ nofun⟩, id, id, fun _ => hnone ▸ nofun⟩
  have hbehind : Pipeline.Carries env.scripts (At (.called rank bound))
      (.collapseHas :: .promoteTokens ::
        ((env.settings.map .settings).toList ++ (env.functions.map .compilerCalls).toList))
      (At (.behind env.settings env.functions rank bound)) :=
    .cons
      (fun _ _ _ _ => collapse henv hstandard fun _ hq =>
        Stratum.asks hq trivial fun _ => trivial)
      (.cons (fun _ _ _ _ => promote henv hstandard) (hsettings.append hcompilers))
  have hcalled : Pipeline.Carries env.scripts (At (.expanded rank bound)) [.fold, .bareCalls]
      (At (.called rank bound)) :=
    .cons (fun _ _ _ _ => fold henv hstandard) (.single fun _ _ _ _ => bareCalls henv hstandard)
  have hexpanded : Pipeline.Carries env.scripts (At (.before rank bound))
      [.connections, .inlineCalls env.config.inlineDepth] (At (.expanded rank bound)) :=
    .cons (fun _ _ _ _ h hok => (connections henv hstandard trivial (fun _ => trivial) h hok).mono
      (Stratum.withoutRegions_le _))
      (.single fun _ _ _ _ => inline henv hstandard)
  rw [newPipeline_passes hon]
  exact hexpanded.append (hcalled.append hbehind)

end Passes

end Poised

end Environment

end Passage

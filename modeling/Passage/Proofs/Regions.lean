import Passage.Proofs.Ledger

/-!
# Rules about regions keep to their regions

A rule about a region becomes the question for a token, and that token is found by its name
alone. The name is made of the region and the hash of the rule, so that it finds the token of
a connection that leaves from this region, behind a rule of this hash, if such names are left
to tokens (`SymbolTable.Reserved`). A further name that looks like one is a name of another
token, and takes a rule to another region (`Environment.lost_woods_shared`).

`World.AsksFor` is what a rule about a region should become, and `Elsewhere.Replaced` relates a
whole tree to what the pass makes of it. The theorem is about the pass wherever it may run:
`Pipeline.Underway` are the trees and worlds that a pipeline comes to.
-/

namespace Passage

/-! ## What rules about regions become -/

/-- Names of hidden tokens are left to tokens, and are no further names. -/
structure SymbolTable.Reserved (t : SymbolTable) : Prop where
  tokens : ∀ {id s}, t.get? id = some s → IsHidden s.name → s.kind = .token
  bynames : ∀ a ∈ t.aliases, ¬ IsHidden a.name

theorem isHidden_iff {name : String} : IsHidden name ↔ "Token#".toList <+: name.toList := by
  constructor
  · rintro ⟨rest, rfl⟩
    exact ⟨rest.toList, String.toList_append.symm⟩
  · rintro ⟨rest, hrest⟩
    have hname : name.toList = ("Token#" ++ String.ofList rest).toList := by
      simpa using hrest.symm
    exact ⟨String.ofList rest, String.toList_inj.mp hname⟩

instance : DecidablePred IsHidden := fun _ => decidable_of_iff _ isHidden_iff.symm

theorem SymbolTable.reserved_iff {t : SymbolTable} : t.Reserved ↔
    (∀ s ∈ t.symbols.toList, IsHidden s.name → s.kind = .token) ∧
      ∀ a ∈ t.aliases.toList, ¬ IsHidden a.name := by
  refine ⟨fun h => ⟨fun s hs => ?_, fun a ha => h.bynames a (Array.mem_toList_iff.mp ha)⟩,
    fun h => ⟨fun hget => ?_, fun a ha => h.2 a (Array.mem_toList_iff.mpr ha)⟩⟩
  · obtain ⟨id, hid⟩ := Array.mem_iff_getElem?.mp (Array.mem_toList_iff.mp hs)
    exact h.tokens hid
  · exact h.1 _ (Array.mem_toList_iff.mpr (Array.mem_iff_getElem?.mpr ⟨_, hget⟩))

instance (t : SymbolTable) : Decidable t.Reserved :=
  decidable_of_iff _ SymbolTable.reserved_iff.symm

/-- The node asks for one of a token, to which one connection was recorded: it leaves from the
region, and is behind a rule of the same hash. -/
def World.AsksFor (answers : List Answer) (w : World) (origin : String) (rule node : Node) : Prop :=
  ∃ has token s, node = .has has token Item.one ∧
    w.symbols.names[Lowering.hasName]? = some has ∧ w.symbols.get? token = some s ∧
    (∃ rule', w.Recorded answers origin s.name rule' ∧ rule'.hash = rule.hash) ∧
    ∀ {origin' rule'}, w.Recorded answers origin' s.name rule' →
      origin' = origin ∧ rule'.hash = rule.hash

/-- A token that is asked for has the name of a token for the rule. -/
theorem World.AsksFor.nameOf? {answers : List Answer} {w : World} {origin : String} {rule : Node}
    {has token : SymbolId} {count : Number}
    (h : w.AsksFor answers origin rule (.has has token count))
    (hnamed : ∀ {origin destination rule}, w.Recorded answers origin destination rule →
      destination = Elsewhere.tokenName origin rule.hash) :
    w.symbols.nameOf? token = some (Elsewhere.tokenName origin rule.hash) := by
  obtain ⟨has', token', s, hnode, -, hget, ⟨rule', hrecorded, hhash⟩, -⟩ := h
  obtain rfl : token = token' := by
    injection hnode with _ hargs
    injection hargs with htoken
    injection htoken
  exact Option.map_eq_some_iff.mpr ⟨s, hget, hhash ▸ hnamed hrecorded⟩

namespace Elsewhere

/-- The second tree is the first one with its rules about regions replaced. Other calls, and
junctions, are built anew of their parts. -/
inductive Replaced (answers : List Answer) (w : World) : Node → Node → Prop
  | inRegion {target : Node} {origin : String} {rule node : Node} :
      target.identifier?.bind w.symbols.nameOf? = some atName → w.AsksFor answers origin rule node →
      Replaced answers w (.invoke target [.string origin, rule]) node
  | inCurrentRegion {target : Node} {origin : String} {rule node : Node} :
      target.identifier?.bind w.symbols.nameOf? = some hereName →
      w.context.region = some origin → w.AsksFor answers origin rule node →
      Replaced answers w (.invoke target [rule]) node
  | invoke {target target' : Node} {args args' : List Node} :
      target.identifier?.bind w.symbols.nameOf? ≠ some atName →
      target.identifier?.bind w.symbols.nameOf? ≠ some hereName →
      Replaced answers w target target' → List.Forall₂ (Replaced answers w) args args' →
      Replaced answers w (.invoke target args) (.invoke target' args')
  | anyOf {items items' : List Node} : List.Forall₂ (Replaced answers w) items items' →
      Replaced answers w (.anyOf items) (.disjoin items')
  | every {items items' : List Node} : List.Forall₂ (Replaced answers w) items items' →
      Replaced answers w (.every items) (.conjoin items')
  | compare {op : Comparison} {lhs lhs' rhs rhs' : Node} : Replaced answers w lhs lhs' →
      Replaced answers w rhs rhs' → Replaced answers w (.compare op lhs rhs) (.compare op lhs' rhs')
  | invert {inner inner' : Node} : Replaced answers w inner inner' →
      Replaced answers w (.invert inner) (.invert inner')
  | boolean (value : Bool) : Replaced answers w (.boolean value) (.boolean value)
  | identifier (id : SymbolId) : Replaced answers w (.identifier id) (.identifier id)
  | number (value : Number) : Replaced answers w (.number value) (.number value)
  | string (value : String) : Replaced answers w (.string value) (.string value)

end Elsewhere

/-! ## Worlds with a ledger -/

/-- A world in which the token of every rule about a region has its connection. -/
structure World.Ledgered (answers : List Answer) (w : World) : Prop extends World.Sound w where
  listed : w.symbols.Listed
  reserved : w.symbols.Reserved
  once : ∀ {id s}, w.symbols.get? id = some s → s.kind = .token → IsHidden s.name →
    ∃ origin rule, w.Recorded answers origin s.name rule
  named : ∀ {origin destination rule}, w.Recorded answers origin destination rule →
    destination = Elsewhere.tokenName origin rule.hash

namespace World.Ledgered

variable {answers : List Answer} {w : World}

/-- What is bound to the name of a token is the token, with its connection. -/
theorem asks (h : w.Ledgered answers) {origin : String} {rule : Node} {has token : SymbolId}
    (hhas : w.symbols.names[Lowering.hasName]? = some has)
    (htoken : w.symbols.names[Elsewhere.tokenName origin rule.hash]? = some token) :
    w.AsksFor answers origin rule (.has has token Item.one) := by
  have hhidden := isHidden_tokenName origin rule.hash
  obtain ⟨s, hget, hname⟩ | ⟨a, ha, haname, -⟩ := h.listed _ _ htoken
  · rw [← hname] at hhidden
    obtain ⟨origin', rule', hrecorded⟩ := h.once hget (h.reserved.tokens hget hhidden) hhidden
    have hown : ∀ {origin' rule'}, w.Recorded answers origin' s.name rule' →
        origin' = origin ∧ rule'.hash = rule.hash := by
      intro origin' rule' hrecorded
      obtain ⟨horigin, hhash⟩ := Elsewhere.tokenName_inj (hname.symm.trans (h.named hrecorded))
      exact ⟨horigin.symm, hhash.symm⟩
    obtain ⟨rfl, hhash⟩ := hown hrecorded
    exact ⟨has, token, s, rfl, hhas, hget, ⟨rule', hrecorded, hhash⟩, hown⟩
  · rw [← haname] at hhidden
    exact absurd hhidden (h.reserved.bynames a ha)

end World.Ledgered

/-! ## The pass -/

/-- The second world has come from the first by success: it is as sound, in the same region,
and has kept symbols and bound names. -/
structure World.Proceeds (w w' : World) : Prop where
  sound : w'.Sound
  region : w'.context.region = w.context.region
  persists : w.symbols.Persists w'.symbols
  names : ∀ {name : String} {id : SymbolId}, w.symbols.names[name]? = some id →
    w'.symbols.names[name]? = some id

namespace World.Proceeds

variable {w w' w'' : World}

theorem refl (hw : w.Sound) : w.Proceeds w := ⟨hw, rfl, .refl _, id⟩

theorem trans (h : w.Proceeds w') (h' : w'.Proceeds w'') : w.Proceeds w'' where
  sound := h'.sound
  region := h'.region.trans h.region
  persists := h.persists.trans h'.persists
  names hname := h'.names (h.names hname)

/-- A name of a symbol is its name later. -/
theorem nameOf? (h : w.Proceeds w') {id : SymbolId} {name : String}
    (hname : w.symbols.nameOf? id = some name) : w'.symbols.nameOf? id = some name := by
  obtain ⟨known, hknown, rfl⟩ := Option.map_eq_some_iff.mp hname
  obtain ⟨s, hs, hsame⟩ := h.persists id known hknown
  exact Option.map_eq_some_iff.mpr ⟨s, hs, hsame⟩

theorem target (h : w.Proceeds w') {target : Node} {name : String}
    (hname : target.identifier?.bind w.symbols.nameOf? = some name) :
    target.identifier?.bind w'.symbols.nameOf? = some name := by
  obtain ⟨id, hid, hname⟩ := Option.bind_eq_some_iff.mp hname
  exact Option.bind_eq_some_iff.mpr ⟨id, hid, h.nameOf? hname⟩

/-- A name that is bound is the name of the same symbol later. -/
theorem nameOf?_iff (h : w.Proceeds w') (hw : w.Sound) {name : String} {own id : SymbolId}
    (hown : w.symbols.names[name]? = some own) :
    w'.symbols.nameOf? id = some name ↔ w.symbols.nameOf? id = some name := by
  refine ⟨fun hname => ?_, h.nameOf?⟩
  obtain ⟨s, hs, rfl⟩ := Option.map_eq_some_iff.mp hname
  -- The name is bound to one symbol only, which the first world has.
  obtain rfl := Option.some.inj ((h.sound.symbols.canonical hs).symm.trans (h.names hown))
  obtain ⟨known, hknown⟩ := SymbolTable.get?_of_lt (hw.symbols.bound hown)
  obtain ⟨s', hs', hsame⟩ := h.persists id known hknown
  obtain rfl := Option.some.inj (hs.symm.trans hs')
  exact Option.map_eq_some_iff.mpr ⟨known, hknown, hsame.symm⟩

theorem target_iff (h : w.Proceeds w') (hw : w.Sound) {name : String} {own : SymbolId}
    (hown : w.symbols.names[name]? = some own) {target : Node} :
    target.identifier?.bind w'.symbols.nameOf? = some name ↔
      target.identifier?.bind w.symbols.nameOf? = some name := by
  cases target.identifier? with
  | none => exact Iff.rfl
  | some id => exact h.nameOf?_iff hw hown

/-- What conducts all that lasts in the table proceeds, unless it fails. -/
theorem of_conducts {ε α : Type} {m : ExceptT ε (StateM World) α}
    (h : ∀ {T : SymbolTable → Prop}, SymbolTable.Lasting (fun _ => True) T →
      Conducts (World.Lasts T) World.Grows m) (hw : w.Sound) {a : α}
    (hok : m w = (.ok a, w')) : w.Proceeds w' := by
  obtain ⟨hgrows, hafter⟩ := h (SymbolTable.persists_lasting w.symbols) w ⟨hw, .refl _⟩
  rw [hok] at hgrows hafter
  exact ⟨(hafter a rfl).toSound, hgrows.context.region, (hafter a rfl).table, hgrows.symbols.names⟩

end World.Proceeds

namespace Elsewhere

/-- The rules of the pass. -/
abbrev rules : Rules Transforming := { intercept }

/-- The pass conducts what the operations on the world conduct. -/
theorem rules_conduct {P : World → Prop} {R : World → World → Prop} (h : Supports P R)
    (node : Node) : Conducts P R (rules.transform node) :=
  have hrules : rules.Conduct P R :=
    { Rules.conduct_default h.advances with intercept := h.elsewhere }
  hrules.transform h.advances node

/-- The pass proceeds, unless it fails. -/
theorem rules_proceeds {w w' : World} (hw : w.Sound) {node node' : Node}
    (hok : rules.transform node w = (.ok node', w')) : w.Proceeds w' :=
  .of_conducts (fun hT => rules_conduct
    (@Sustained.supports _ _ _ [] (hT.sustained fun _ _ => trivial)) node) hw hok

/-- What is maintained by the operations on the world holds after the pass. -/
theorem rules_keep {P : World → Prop} (h : Supports P World.Grows) {scripts : Scripts}
    {node node' : Node} {w w' : World} (hw : P w)
    (hpass : Pass.connections.apply scripts node w = (.ok node', w')) : P w' := by
  have hconducts := (rules_conduct h node w hw).2 node'
  rw [show rules.transform node w = (.ok node', w') from hpass] at hconducts
  exact hconducts rfl

/-- A rule about a region that is replaced asks for its token. -/
theorem generate_replaces {answers : List Answer} {w w' final : World} (hw : w.Sound)
    {origin : String} {rule node : Node} (hok : generate origin rule w = (.ok node, w'))
    (hlater : w'.Proceeds final) (hfinal : final.Ledgered answers) :
    final.AsksFor answers origin rule node := by
  obtain ⟨has, token, rfl, hhas, htoken⟩ := generate_asks hw hok
  exact hfinal.asks (hlater.names hhas) (hlater.names htoken)

/-- A call that is left to be rebuilt is not one of `at` or `here`. -/
theorem intercept_none {w w' : World} {target : Node} {args : List Node}
    (hok : intercept target args w = (.ok none, w')) :
    w' = w ∧ target.identifier?.bind w.symbols.nameOf? ≠ some atName ∧
      target.identifier?.bind w.symbols.nameOf? ≠ some hereName := by
  unfold intercept at hok
  rw [bind_ok (Transforming.symbols_apply w)] at hok
  split at hok
  · obtain ⟨node, w₁, -, hpure⟩ := bind_eq_ok hok
    exact absurd (Except.ok.inj (congrArg Prod.fst hpure)) nofun
  · next hat =>
    split at hok
    · obtain ⟨node, w₁, -, hpure⟩ := bind_eq_ok hok
      exact absurd (Except.ok.inj (congrArg Prod.fst hpure)) nofun
    · next hhere => exact ⟨(congrArg Prod.snd hok).symm, hat, hhere⟩

/-- A call that is taken is one of `at` or `here`, and is replaced by the question for its
token. -/
theorem intercept_some {answers : List Answer} {w w' final : World} (hw : w.Sound)
    {target node : Node} {args : List Node} (hok : intercept target args w = (.ok (some node), w'))
    (hproceeds : w.Proceeds final) (hlater : w'.Proceeds final)
    (hfinal : final.Ledgered answers) : Replaced answers final (.invoke target args) node := by
  unfold intercept at hok
  rw [bind_ok (Transforming.symbols_apply w)] at hok
  split at hok
  · next hname =>
    obtain ⟨node', w₁, hregion, hpure⟩ := bind_eq_ok hok
    obtain ⟨rfl, rfl⟩ : node' = node ∧ w₁ = w' :=
      ⟨Option.some.inj (Except.ok.inj (congrArg Prod.fst hpure)), congrArg Prod.snd hpure⟩
    unfold inRegion at hregion
    split at hregion
    · exact .inRegion (hproceeds.target hname) (generate_replaces hw hregion hlater hfinal)
    · exact absurd (congrArg Prod.fst hregion) nofun
    · exact absurd (congrArg Prod.fst hregion) nofun
  · split at hok
    · next hname =>
      obtain ⟨node', w₁, hregion, hpure⟩ := bind_eq_ok hok
      obtain ⟨rfl, rfl⟩ : node' = node ∧ w₁ = w' :=
        ⟨Option.some.inj (Except.ok.inj (congrArg Prod.fst hpure)), congrArg Prod.snd hpure⟩
      unfold inCurrentRegion at hregion
      split at hregion
      · rw [bind_ok (Transforming.region_apply w)] at hregion
        rcases hcurrent : w.context.region with _ | origin <;> rw [hcurrent] at hregion
        · exact absurd (congrArg Prod.fst hregion) nofun
        · exact .inCurrentRegion (hproceeds.target hname) (hproceeds.region.trans hcurrent)
            (generate_replaces hw hregion hlater hfinal)
      · exact absurd (congrArg Prod.fst hregion) nofun
    · exact absurd (Except.ok.inj (congrArg Prod.fst hok)) nofun

mutual

/-- The pass replaces the rules about regions of a tree. -/
theorem rules_replace {answers : List Answer} {final : World} (hfinal : final.Ledgered answers)
    {own own' : SymbolId} : (node : Node) → ∀ {node' : Node} {w w' : World}, w.Sound →
      w.symbols.names[atName]? = some own → w.symbols.names[hereName]? = some own' →
      rules.transform node w = (.ok node', w') → w'.Proceeds final →
      Replaced answers final node node'
  | .anyOf items, node', w, w', hw, hat, hhere, hok, hlater => by
    rw [Rules.transform] at hok
    obtain ⟨items', w₁, hitems, hpure⟩ := bind_eq_ok hok
    obtain ⟨rfl, rfl⟩ : .disjoin items' = node' ∧ w₁ = w' :=
      ⟨Except.ok.inj (congrArg Prod.fst hpure), congrArg Prod.snd hpure⟩
    obtain ⟨items'', rfl, hall, -⟩ := rules_replaceAll hfinal items hw hat hhere hitems hlater
    exact .anyOf hall
  | .every items, node', w, w', hw, hat, hhere, hok, hlater => by
    rw [Rules.transform] at hok
    obtain ⟨items', w₁, hitems, hpure⟩ := bind_eq_ok hok
    obtain ⟨rfl, rfl⟩ : .conjoin items' = node' ∧ w₁ = w' :=
      ⟨Except.ok.inj (congrArg Prod.fst hpure), congrArg Prod.snd hpure⟩
    obtain ⟨items'', rfl, hall, -⟩ := rules_replaceAll hfinal items hw hat hhere hitems hlater
    exact .every hall
  | .boolean value, node', w, w', hw, hat, hhere, hok, hlater => by
    rw [Rules.transform] at hok
    obtain rfl : .boolean value = node' := Except.ok.inj (congrArg Prod.fst hok)
    exact .boolean value
  | .compare op lhs rhs, node', w, w', hw, hat, hhere, hok, hlater => by
    rw [Rules.transform] at hok
    obtain ⟨lhs', w₁, hlhs, hok⟩ := bind_eq_ok hok
    obtain ⟨rhs', w₂, hrhs, hpure⟩ := bind_eq_ok hok
    obtain ⟨rfl, rfl⟩ : .compare op lhs' rhs' = node' ∧ w₂ = w' :=
      ⟨Except.ok.inj (congrArg Prod.fst hpure), congrArg Prod.snd hpure⟩
    have hfirst := rules_proceeds hw hlhs
    have hsecond := rules_proceeds hfirst.sound hrhs
    exact .compare (rules_replace hfinal lhs hw hat hhere hlhs (hsecond.trans hlater))
      (rules_replace hfinal rhs hfirst.sound (hfirst.names hat) (hfirst.names hhere) hrhs hlater)
  | .identifier id, node', w, w', hw, hat, hhere, hok, hlater => by
    rw [Rules.transform] at hok
    obtain rfl : .identifier id = node' := Except.ok.inj (congrArg Prod.fst hok)
    exact .identifier id
  | .invert inner, node', w, w', hw, hat, hhere, hok, hlater => by
    rw [Rules.transform] at hok
    obtain ⟨inner', w₁, hinner, hpure⟩ := bind_eq_ok hok
    obtain ⟨rfl, rfl⟩ : .invert inner' = node' ∧ w₁ = w' :=
      ⟨Except.ok.inj (congrArg Prod.fst hpure), congrArg Prod.snd hpure⟩
    exact .invert (rules_replace hfinal inner hw hat hhere hinner hlater)
  | .invoke target args, node', w, w', hw, hat, hhere, hok, hlater => by
    have hproceeds := (rules_proceeds hw hok).trans hlater
    rw [Rules.transform] at hok
    obtain ⟨taken, w₁, htaken, hrest⟩ := bind_eq_ok hok
    cases taken with
    | some node =>
      obtain ⟨rfl, rfl⟩ : node = node' ∧ w₁ = w' :=
        ⟨Except.ok.inj (congrArg Prod.fst hrest), congrArg Prod.snd hrest⟩
      exact intercept_some hw htaken hproceeds hlater hfinal
    | none =>
      obtain ⟨rfl, hnotAt, hnotHere⟩ := intercept_none htaken
      obtain ⟨target', w₂, htarget, hrest⟩ := bind_eq_ok hrest
      obtain ⟨args', w₃, hargs, hpure⟩ := bind_eq_ok hrest
      obtain ⟨rfl, rfl⟩ : .invoke target' args' = node' ∧ w₃ = w' :=
        ⟨Except.ok.inj (congrArg Prod.fst hpure), congrArg Prod.snd hpure⟩
      have hfirst := rules_proceeds hw htarget
      obtain ⟨args'', rfl, hall, hmore⟩ := rules_replaceAll hfinal args hfirst.sound
        (hfirst.names hat) (hfirst.names hhere) hargs hlater
      exact .invoke (fun h => hnotAt ((hproceeds.target_iff hw hat).mp h))
        (fun h => hnotHere ((hproceeds.target_iff hw hhere).mp h))
        (rules_replace hfinal target hw hat hhere htarget (hmore.trans hlater)) hall
  | .number value, node', w, w', hw, hat, hhere, hok, hlater => by
    rw [Rules.transform] at hok
    obtain rfl : .number value = node' := Except.ok.inj (congrArg Prod.fst hok)
    exact .number value
  | .string value, node', w, w', hw, hat, hhere, hok, hlater => by
    rw [Rules.transform] at hok
    obtain rfl : .string value = node' := Except.ok.inj (congrArg Prod.fst hok)
    exact .string value

theorem rules_replaceAll {answers : List Answer} {final : World} (hfinal : final.Ledgered answers)
    {own own' : SymbolId} : (nodes : List Node) → ∀ {done nodes' : List Node} {w w' : World},
      w.Sound → w.symbols.names[atName]? = some own → w.symbols.names[hereName]? = some own' →
      rules.transformAll done nodes w = (.ok nodes', w') → w'.Proceeds final →
      ∃ rest, nodes' = done.reverse ++ rest ∧ List.Forall₂ (Replaced answers final) nodes rest ∧
        w.Proceeds w'
  | [], done, nodes', w, w', hw, hat, hhere, hok, hlater => by
    rw [Rules.transformAll] at hok
    obtain ⟨rfl, rfl⟩ : done.reverse = nodes' ∧ w = w' :=
      ⟨Except.ok.inj (congrArg Prod.fst hok), congrArg Prod.snd hok⟩
    exact ⟨[], (List.append_nil _).symm, .nil, .refl hw⟩
  | node :: rest, done, nodes', w, w', hw, hat, hhere, hok, hlater => by
    rw [Rules.transformAll] at hok
    obtain ⟨node', w₁, hnode, hrest⟩ := bind_eq_ok hok
    have hfirst := rules_proceeds hw hnode
    obtain ⟨rest', rfl, hall, hmore⟩ := rules_replaceAll hfinal rest hfirst.sound
      (hfirst.names hat) (hfirst.names hhere) hrest hlater
    refine ⟨node' :: rest', by rw [List.reverse_cons, List.append_assoc]; rfl, .cons ?_ hall,
      hfirst.trans hmore⟩
    exact rules_replace hfinal node hw hat hhere hnode (hmore.trans hlater)

end

end Elsewhere

/-! ## Pipelines under way -/

/-- The trees and worlds that passes of a pipeline lead to, in whatever order they run. -/
inductive Pipeline.Underway (p : Pipeline) (scripts : Scripts) (node : Node) (w : World) :
    Node → World → Prop
  | start : Underway p scripts node w node w
  | pass {node₁ node₂ : Node} {w₁ w₂ : World} {pass : Pass} :
      Underway p scripts node w node₁ w₁ → pass ∈ p.passes →
      pass.apply scripts node₁ w₁ = (.ok node₂, w₂) → Underway p scripts node w node₂ w₂

/-- What is sustained holds wherever a pipeline comes to. -/
theorem Sustained.underway {may : String → Symbol.Kind → Prop}
    {allowed : CompilerFunctions → Prop} {P : List String → World → Prop} {delivered : List String}
    (h : Sustained may allowed P) {env : Environment}
    (henv : env.Holds allowed (P delivered)) {node node₁ : Node} {w₁ : World}
    (hway : env.kept.Underway env.scripts node env.world node₁ w₁) : P delivered w₁ := by
  induction hway with
  | start => exact henv.world
  | @pass node₁ node₂ w₁ w₂ pass _ hmem happly ih =>
    rw [henv.ready.kept] at hmem
    have hafter := ((h.passes henv.ready pass hmem env.scripts).transform World.grows_advances
      node₁ w₁ ih).2 node₂
    rw [Pass.apply_eq] at happly
    rw [happly] at hafter
    exact hafter rfl

namespace Environment

/-- What was recorded when the pass is done, leads to a token named for it. -/
theorem recorded_named {answers : List Answer} {env : Environment}
    (hr : Reached (Request.Plain fun name => ¬ IsHidden name) answers env) {node₀ node node' : Node}
    {w w' : World} (hway : env.kept.Underway env.scripts node₀ env.world node w)
    (hpass : Pass.connections.apply env.scripts node w = (.ok node', w'))
    {origin destination : String} {rule : Node}
    (hrecorded : w'.Recorded answers origin destination rule) :
    destination = Elsewhere.tokenName origin rule.hash := by
  have hnames := (wellNamed_maintained fun name => ¬ IsHidden name).sustained
  have hnamed :=
    @Sustained.underway _ _ _ [] hnames _ ((wellNamed_maintained _).reached hr) _ _ _ hway
  have hafter := Elsewhere.rules_keep (@Sustained.supports _ _ _ [] hnames) hnamed hpass
  obtain ⟨c, hc, rfl, rfl, rfl⟩ | ⟨answer, hanswer, hrecords⟩ := hrecorded
  · exact hafter.waiting c hc
  · exact (wellNamed_of_reached hr answer hanswer).named hrecords

/-- Where names of hidden tokens are left to tokens, every world that the pass comes to has a
ledger. -/
theorem ledgered_of_reached {answers : List Answer} {env : Environment}
    (hr : Reached (Request.Plain fun name => ¬ IsHidden name) answers env) {node₀ node node' : Node}
    {w w' : World} (hway : env.kept.Underway env.scripts node₀ env.world node w)
    (hpass : Pass.connections.apply env.scripts node w = (.ok node', w'))
    (hreserved : w'.symbols.Reserved) : w.Sound ∧ w'.Ledgered answers := by
  have hlasts := SymbolTable.listed_lasting.sustained fun _ _ => trivial
  have hlisted := @Sustained.underway _ _ _ [] hlasts _
    (SymbolTable.listed_lasting.reached SymbolTable.listed_initial (hr.mono Request.Plain.declare))
      _
    _ _ hway
  have hlisted' := Elsewhere.rules_keep (@Sustained.supports _ _ _ [] hlasts) hlisted hpass
  have hcounts := accounted_maintained.sustained
  have hcounted' := Elsewhere.rules_keep hcounts.supports
    (hcounts.underway (accounted_maintained.reached hr) hway) hpass
  refine ⟨hlisted.toSound, hlisted'.toSound, hlisted'.table, hreserved, ?_,
    recorded_named hr hway hpass⟩
  intro id s hget hkind hhidden
  have hmem : s.name ∈ w'.allDestinations (answers.reverse.flatMap Answer.delivered) :=
    List.count_pos_iff.mp (by rw [hcounted'.once hget hkind hhidden]; exact Nat.one_pos)
  obtain hmem | hmem := List.mem_append.mp hmem
  · obtain ⟨answer, hanswer, hdelivered⟩ := List.mem_flatMap.mp hmem
    have hanswer := List.mem_reverse.mp hanswer
    obtain ⟨origin, rule, hrecords⟩ :=
      (wellNamed_of_reached hr answer hanswer).entry s.name hdelivered
    exact ⟨origin, rule, .inr ⟨answer, hanswer, hrecords⟩⟩
  · obtain ⟨c, hc, hname⟩ := List.mem_map.mp hmem
    exact ⟨c.origin, c.rule, .inl ⟨c, Array.mem_toList_iff.mp hc, rfl, hname, rfl⟩⟩

/-- Names of the functions about regions are bound in every environment that is reached. -/
theorem elsewhere_bound {plain : String → Prop} {answers : List Answer} {env : Environment}
    (hr : Reached (Request.Plain plain) answers env) {node₀ node : Node} {w : World}
    (hway : env.kept.Underway env.scripts node₀ env.world node w) :
    w.symbols.names[Elsewhere.atName]? = some 11 ∧
      w.symbols.names[Elsewhere.hereName]? = some 12 := by
  have hlasting : SymbolTable.Lasting (fun _ => True) fun t =>
      t.names[Elsewhere.atName]? = some 11 ∧ t.names[Elsewhere.hereName]? = some 12 :=
    ⟨fun _ _ hs h _ => h.imp (SymbolTable.declare_grows hs _ _).names
        (SymbolTable.declare_grows hs _ _).names,
      fun _ h => h.imp (SymbolTable.bindAlias_grows _ _ _).names
        (SymbolTable.bindAlias_grows _ _ _).names⟩
  have hinitial : initialSymbols.names[Elsewhere.atName]? = some 11 ∧
      initialSymbols.names[Elsewhere.hereName]? = some 12 := ⟨by decide +kernel, by decide +kernel⟩
  exact (@Sustained.underway _ _ _ [] (hlasting.sustained fun _ _ => trivial) _
    (hlasting.reached hinitial (hr.mono Request.Plain.declare)) _ _ _ hway).table

/-- A rule about a region becomes the question for a token to which one connection was
recorded, from that region and behind a rule of its hash: so it is wherever the pass runs in a
conversation whose hosts declare no hidden name, unless regions or further names look like
hidden tokens. -/
theorem regions_kept {answers : List Answer} {env : Environment}
    (hr : Reached (Request.Plain fun name => ¬ IsHidden name) answers env) {node₀ node node' : Node}
    {w w' : World} (hway : env.kept.Underway env.scripts node₀ env.world node w)
    (hpass : Pass.connections.apply env.scripts node w = (.ok node', w'))
    (hreserved : w'.symbols.Reserved) : Elsewhere.Replaced answers w' node node' := by
  obtain ⟨hw, hledgered⟩ := ledgered_of_reached hr hway hpass hreserved
  obtain ⟨hat, hhere⟩ := elsewhere_bound hr hway
  exact Elsewhere.rules_replace hledgered node hw hat hhere hpass (.refl hledgered.toSound)

/-! ### Two regions with one written form -/

/-- A conversation about rules of a region, with one function. -/
def woodsRequests : List Request :=
  [.builtIns [⟨"has", 2⟩], .compile "at('Lost Woods', True)"]

/-- What it leads to. -/
def woods : Environment := (ofConfig .standard).after woodsRequests

/-- Its answers, the latest first. -/
def woodsAnswers : List Answer := ((ofConfig .standard).answers woodsRequests).reverse ++ []

/-- The same after tokens were given their written forms. -/
def writtenWoods : Environment := (woods.respond .aliases).2

def writtenAnswers : List Answer := (woods.respond .aliases).1 :: woodsAnswers

/-- A rule about a region. -/
def truthIn (region : String) : Node := .call 11 [.string region, .boolean true]

/-- What the pass makes of it, and the world behind it. -/
def woodsPass (env : Environment) (region : String) : Except PassError Node × World :=
  Pass.connections.apply env.scripts (truthIn region) env.world

theorem woodsPass_eq {env : Environment} {region : String} {node : Node}
    (hok : (woodsPass env region).1 = .ok node) :
    Pass.connections.apply env.scripts (truthIn region) env.world =
      (.ok node, (woodsPass env region).2) :=
  Prod.ext hok rfl

theorem reached_woods :
    Reached (Request.Plain fun name => ¬ IsHidden name) woodsAnswers woods := by
  refine (Reached.start .standard).after fun request hmem => ?_
  simp only [woodsRequests, List.mem_cons, List.not_mem_nil, or_false] at hmem
  obtain rfl | rfl := hmem
  · intro signature hs
    rw [List.mem_singleton.mp hs]
    decide
  · trivial

theorem reached_writtenWoods :
    Reached (Request.Plain fun name => ¬ IsHidden name) writtenAnswers writtenWoods :=
  .step .aliases reached_woods trivial

/-- A region of another name has another token, as long as no written form of the first token is
a name. -/
theorem lost_woods_kept :
    (woodsPass woods "Lost_Woods").1 = .ok (.has 13 17 Item.one) ∧
      (woodsPass woods "Lost_Woods").2.symbols.Reserved ∧
      Elsewhere.Replaced woodsAnswers (woodsPass woods "Lost_Woods").2 (truthIn "Lost_Woods")
        (.has 13 17 Item.one) := by
  have hall : ((woodsPass woods "Lost_Woods").1,
      decide (woodsPass woods "Lost_Woods").2.symbols.Reserved) =
      (.ok (.has 13 17 Item.one), true) := by decide +kernel
  obtain ⟨hok, hreserved⟩ := Prod.mk.inj hall
  exact ⟨hok, of_decide_eq_true hreserved,
    regions_kept reached_woods .start (woodsPass_eq hok) (of_decide_eq_true hreserved)⟩

/-- The written form of the token of "Lost Woods" is the name that a token of "Lost_Woods" would
have, so that a rule about the second region asks for the token of the first. -/
theorem lost_woods_shared :
    Reached (Request.Plain fun name => ¬ IsHidden name) writtenAnswers writtenWoods ∧
      (woodsPass writtenWoods "Lost_Woods").1 = .ok (.has 13 15 Item.one) ∧
      ¬ (woodsPass writtenWoods "Lost_Woods").2.AsksFor writtenAnswers "Lost_Woods" (.boolean true)
        (.has 13 15 Item.one) := by
  have hall : ((woodsPass writtenWoods "Lost_Woods").1,
      (woodsPass writtenWoods "Lost_Woods").2.symbols.nameOf? 15) =
      (.ok (.has 13 15 Item.one),
        some (Elsewhere.tokenName "Lost Woods" (Node.boolean true).hash)) := by decide +kernel
  obtain ⟨hok, hname⟩ := Prod.mk.inj hall
  -- A token that is asked for is named for the region that its connection leaves from.
  refine ⟨reached_writtenWoods, hok, fun hasks => ?_⟩
  have hother := hasks.nameOf?
    fun hrecorded => recorded_named reached_writtenWoods .start (woodsPass_eq hok) hrecorded
  have horigin : "Lost Woods" = "Lost_Woods" :=
    (Elsewhere.tokenName_inj (Option.some.inj (hname.symm.trans hother))).1
  exact absurd horigin (by decide)

end Environment

end Passage

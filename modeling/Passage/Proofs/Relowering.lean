import Passage.Proofs.Confluence
import Passage.Proofs.Renaming
import Passage.Proofs.Stages

/-!
# Rules that are lowered again

Rules declare names as unknown and as functions, and these declarations may be made in any order
(`Symbol.Kind.OfRule.confluent`). So a rule that was lowered on the way to a table can be lowered on
every table that precedes that one: it comes to the same node but for the numbers of symbols, and
leaves a table that still precedes (`Rule.Tree.lower_again`). What the lowering asks of the table,
whether a name is that of a setting and whether it may be called, has the same answer all the way.
-/

namespace Passage

open Symbol.Kind (OfHeader OfRule)

namespace SymbolTable

variable {may : Symbol.Kind → Prop} {t t' u u' T : SymbolTable} {id id' : SymbolId}

theorem Persists.nameOf? {name : String} (h : t.Persists t') (hname : t.nameOf? id = some name) :
    t'.nameOf? id = some name := by
  obtain ⟨s, hget, rfl⟩ := Option.map_eq_some_iff.mp hname
  obtain ⟨s', hget', hsame⟩ := h id s hget
  rw [SymbolTable.nameOf?, hget', ← hsame]
  rfl

theorem Namesakes.mono (h : t.Namesakes u id id') (ht : t.Persists t') (hu : u.Persists u') :
    t'.Namesakes u' id id' := by
  obtain ⟨name, hname, hname'⟩ := h
  exact ⟨name, ht.nameOf? hname, hu.nameOf? hname'⟩

/-- Namesakes come to be of one kind. -/
theorem Namesakes.leads (h : t.Namesakes u id id') (ht : t.Sound) (hu : u.Sound)
    (htT : t.Precedes may T) (huT : u.Precedes may T) :
    ∃ s s', t.get? id = some s ∧ u.get? id' = some s' ∧ s'.name = s.name ∧
      s.kind.Leads may (T.standing s.name) ∧ s'.kind.Leads may (T.standing s.name) := by
  obtain ⟨_, hname, hname'⟩ := h
  obtain ⟨s, hget, rfl⟩ := Option.map_eq_some_iff.mp hname
  obtain ⟨s', hget', hsame⟩ := Option.map_eq_some_iff.mp hname'
  have hs := htT.standing s.name
  have hs' := huT.standing s'.name
  rw [standing_some (lookup?_of_get? ht hget)] at hs
  rw [standing_some (lookup?_of_get? hu hget'), hsame] at hs'
  exact ⟨s, s', hget, hget', hsame, hs, hs'⟩

namespace Again

variable {ε α β γ δ : Type} {R : SymbolTable → SymbolTable → α → β → Prop} {a : α}

theorem pure (hmay : Symbol.Kind.Confluent may) (huT : u.Precedes may T) {b : β} (h : R t' u a b) :
    Again may T u t' R a ((Pure.pure b : ExceptT ε (StateM SymbolTable) β) u) :=
  ⟨b, u, rfl, (onward_advances hmay).refl u, huT, h⟩

theorem bind (hmay : Symbol.Kind.Confluent may) {m : ExceptT ε (StateM SymbolTable) γ}
    {f : γ → ExceptT ε (StateM SymbolTable) β} {c : γ} (hm : m u = (.ok c, u'))
    (honward : u.Onward may u') (h : Again may T u' t' R a (f c u')) :
    Again may T u t' R a ((m >>= f) u) := by
  obtain ⟨b, u₂, hf, honward', hT, hr⟩ := h
  exact ⟨b, u₂, by rw [bind_ok hm, hf], (onward_advances hmay).trans honward honward', hT, hr⟩

end Again

/-- What a step that succeeds leaves has come from where it began. -/
theorem onward_of_conducts {ε α : Type} {m : ExceptT ε (StateM SymbolTable) α}
    (hm : Conducts Sound (Onward may) m) (ht : t.Sound) {a : α} (h : m t = (.ok a, t')) :
    t.Onward may t' := by
  have honward := (hm t ht).1
  rwa [h] at honward

end SymbolTable

/-! ## Lowering -/

namespace Symbol.Kind.OfRule

variable {known last : Symbol.Kind}

/-- Whether a name may be called does not change. -/
theorem callable_eq (h : known.Leads OfRule last) :
    (decide (known = .unknown) || known.isFunction) =
      (decide (last = .unknown) || last.isFunction) := by
  obtain rfl | ⟨rfl, rfl⟩ := leads h <;> rfl

theorem setting_eq (h : known.Leads OfRule last) : (known == .setting) = (last == .setting) := by
  obtain rfl | ⟨rfl, rfl⟩ := leads h <;> rfl

end Symbol.Kind.OfRule

namespace Lowering

open SymbolTable

variable {t t' u T : SymbolTable}

theorem declare_eq_ok {name : String} {kind : Symbol.Kind} {id : SymbolId} :
    declare name kind t = (.ok id, t') ↔ t.declare name kind = (.ok id, t') := by
  unfold declare
  rcases t.declare name kind with ⟨_ | _, _⟩ <;> constructor <;> intro h <;> cases h <;> rfl

theorem declare_conducts {kind : Symbol.Kind} (hkind : OfRule kind) (name : String) :
    Conducts Sound (Onward OfRule) (declare name kind) := by
  intro t ht
  have honward : t.Onward OfRule (t.declare name kind).2 :=
    SymbolTable.declare_onward OfRule.confluent hkind ht
  rw [declare_snd]
  exact ⟨honward, fun _ _ => honward.sound ht⟩

theorem declare_again {name : String} {kind : Symbol.Kind} (hkind : OfRule kind) (ht : t.Sound)
    (hu : u.Sound) (hT : T.Sound) {id : SymbolId} (h : declare name kind t = (.ok id, t'))
    (ht' : t'.Precedes OfRule T) (huT : u.Precedes OfRule T) :
    Again OfRule T u t' Namesakes id (declare name kind u) := by
  obtain ⟨id', u', h', hrest⟩ :=
    SymbolTable.declare_again OfRule.confluent hkind ht hu hT (declare_eq_ok.mp h) ht' huT
  exact ⟨id', u', declare_eq_ok.mpr h', hrest⟩

/-- Nodes of two tables whose symbols have the same names. -/
abbrev Corresponds (t u : SymbolTable) : Node → Node → Prop := Node.Matches (t.Namesakes u)

section

variable (ht : t.Sound) (hu : u.Sound) (hT : T.Sound)

include ht hu hT

theorem callNamed_again {name : String} {args args' : List Node} {node : Node}
    (h : callNamed name args t = (.ok node, t')) (hargs : List.Forall₂ (Corresponds t u) args args')
    (ht' : t'.Precedes OfRule T) (huT : u.Precedes OfRule T) :
    Again OfRule T u t' Corresponds node (callNamed name args' u) := by
  obtain ⟨id, t₁, hd, hp⟩ := bind_eq_ok h
  obtain ⟨rfl, rfl⟩ := pure_eq_ok hp
  have honward := onward_of_conducts (declare_conducts (.inr rfl) name) ht hd
  obtain ⟨id', u₁, hd', honward', hu₁, hid⟩ := declare_again (.inr rfl) ht hu hT hd ht' huT
  refine .bind OfRule.confluent hd' honward' (.pure OfRule.confluent hu₁ ?_)
  exact .invoke (.identifier hid) (Node.matchesAll_mono
    (fun h => h.mono honward.persists honward'.persists) hargs)

theorem declareCallee_again {id id' : SymbolId} (hid : t.Namesakes u id id')
    (h : declareCallee id t = (.ok (), t')) (ht' : t'.Precedes OfRule T)
    (htT : t.Precedes OfRule T) (huT : u.Precedes OfRule T) :
    Again OfRule T u t' (fun _ _ _ _ => True) () (declareCallee id' u) := by
  obtain ⟨s, s', hget, hget', hname, hs, hs'⟩ := hid.leads ht hu htT huT
  have hcallable : (decide (s.kind = .unknown) || s.kind.isFunction) =
      (decide (s'.kind = .unknown) || s'.kind.isFunction) :=
    (OfRule.callable_eq hs).trans (OfRule.callable_eq hs').symm
  unfold declareCallee at h ⊢
  rw [bind_ok (get_apply t)] at h
  refine .bind OfRule.confluent (get_apply u) ((onward_advances OfRule.confluent).refl u) ?_
  rw [hget] at h
  rw [hget']
  dsimp only at h ⊢
  rw [← hcallable, hname]
  split at h
  · obtain ⟨_, t₁, hd, hp⟩ := bind_eq_ok h
    obtain ⟨-, rfl⟩ := pure_eq_ok hp
    obtain ⟨_, u₁, hd', honward, hu₁, -⟩ := declare_again (.inr rfl) ht hu hT hd ht' huT
    rw [if_pos ‹_›]
    exact .bind OfRule.confluent hd' honward (.pure OfRule.confluent hu₁ trivial)
  · rw [if_neg ‹_›]
    exact .pure OfRule.confluent huT trivial

omit hT in
theorem isSetting_eq {node node' : Node} (h : Corresponds t u node node')
    (htT : t.Precedes OfRule T) (huT : u.Precedes OfRule T) :
    isSetting t node = isSetting u node' := by
  cases h with
  | identifier hid =>
    obtain ⟨s, s', hget, hget', -, hs, hs'⟩ := hid.leads ht hu htT huT
    have hkind : (s.kind == .setting) = (s'.kind == .setting) :=
      (OfRule.setting_eq hs).trans (OfRule.setting_eq hs').symm
    show (t.kindOf? _ == _) = (u.kindOf? _ == _)
    rw [kindOf?, kindOf?, hget, hget']
    exact hkind
  | _ => rfl

end

end Lowering

namespace Rule.Tree

open SymbolTable Lowering

variable {t t' u T : SymbolTable}

theorem lower_onward (ht : t.Sound) {tree : Tree} {node : Node}
    (h : tree.lower t = (.ok node, t')) : t.Onward OfRule t' :=
  onward_of_conducts (tree.lower_conducts (onward_advances OfRule.confluent)
    (declare_conducts (.inl rfl)) (declare_conducts (.inr rfl))) ht h

theorem lowerAll_onward (ht : t.Sound) {trees : List Tree} {done nodes : List Node}
    (h : lowerAll done trees t = (.ok nodes, t')) : t.Onward OfRule t' :=
  onward_of_conducts (lowerAll_conducts (onward_advances OfRule.confluent)
    (declare_conducts (.inl rfl)) (declare_conducts (.inr rfl)) done trees) ht h

theorem callNamed_onward (ht : t.Sound) {name : String} {args : List Node} {node : Node}
    (h : callNamed name args t = (.ok node, t')) : t.Onward OfRule t' :=
  onward_of_conducts (callNamed_conducts (onward_advances OfRule.confluent)
    (declare_conducts (.inr rfl)) name args) ht h

theorem declareCallee_onward (ht : t.Sound) {id : SymbolId}
    (h : declareCallee id t = (.ok (), t')) : t.Onward OfRule t' :=
  onward_of_conducts (declareCallee_conducts (onward_advances OfRule.confluent)
    (declare_conducts (.inr rfl)) id) ht h

/-- The last step of lowering a comparison. -/
abbrev comparison (op : Comparison) (lhs rhs : Node) : Lowering Node := do
  let symbols ← get
  if isSetting symbols lhs || isSetting symbols rhs then
    callNamed settingName [.number (Number.ofNat op.code), lhs, rhs]
  else pure (.compare op lhs rhs)

theorem comparison_onward (ht : t.Sound) {op : Comparison} {lhs rhs node : Node}
    (h : comparison op lhs rhs t = (.ok node, t')) : t.Onward OfRule t' := by
  rw [comparison, bind_ok (get_apply t)] at h
  split at h
  · exact callNamed_onward ht h
  · obtain ⟨-, rfl⟩ := pure_eq_ok h
    exact (onward_advances OfRule.confluent).refl t

theorem comparison_again (ht : t.Sound) (hu : u.Sound) (hT : T.Sound) {op : Comparison}
    {lhs rhs lhs' rhs' node : Node} (h : comparison op lhs rhs t = (.ok node, t'))
    (hlhs : Corresponds t u lhs lhs') (hrhs : Corresponds t u rhs rhs') (ht' : t'.Precedes OfRule T)
    (huT : u.Precedes OfRule T) :
    Again OfRule T u t' Corresponds node (comparison op lhs' rhs' u) := by
  have htT := (comparison_onward ht h).toPrecedes.trans OfRule.confluent ht'
  rw [comparison, bind_ok (get_apply t), isSetting_eq ht hu hlhs htT huT,
    isSetting_eq ht hu hrhs htT huT] at h
  rw [comparison, bind_ok (get_apply u)]
  split at h
  · rw [if_pos ‹_›]
    exact callNamed_again ht hu hT h (.cons (.number _) (.cons hlhs (.cons hrhs .nil))) ht' huT
  · rw [if_neg ‹_›]
    obtain ⟨rfl, rfl⟩ := pure_eq_ok h
    exact .pure OfRule.confluent huT (.compare op hlhs hrhs)

/-- The step of lowering a call that marks what is called as a function. -/
abbrev marking (target : Node) : Lowering Unit :=
  match target.identifier? with
  | some id => declareCallee id
  | none => pure ()

theorem lower_call_eq (callee : Tree) (args : List Tree) :
    (Tree.call callee args).lower = (do
      let target ← callee.lower
      marking target
      let args ← lowerAll [] args
      pure (.invoke target args) : Lowering Node) := by
  rw [lower]
  refine bind_congr fun target => ?_
  cases target <;> rfl

theorem marking_onward (ht : t.Sound) {target : Node} (h : marking target t = (.ok (), t')) :
    t.Onward OfRule t' := by
  cases target with
  | identifier id => exact declareCallee_onward ht h
  | _ =>
    obtain ⟨-, rfl⟩ := pure_eq_ok h
    exact (onward_advances OfRule.confluent).refl t

theorem marking_again (ht : t.Sound) (hu : u.Sound) (hT : T.Sound) {target target' : Node}
    (htarget : Corresponds t u target target') (h : marking target t = (.ok (), t'))
    (ht' : t'.Precedes OfRule T) (htT : t.Precedes OfRule T) (huT : u.Precedes OfRule T) :
    Again OfRule T u t' (fun _ _ _ _ => True) () (marking target' u) := by
  cases htarget with
  | identifier hid => exact declareCallee_again ht hu hT hid h ht' htT huT
  | _ => exact .pure OfRule.confluent huT trivial

/-- Nodes keep their names while tables go on. -/
theorem corresponds_mono {u u' : SymbolTable} (ht : t.Onward OfRule t') (hu : u.Onward OfRule u')
    {node node' : Node} (h : Corresponds t u node node') : Corresponds t' u' node node' :=
  h.mono fun hid => hid.mono ht.persists hu.persists

theorem correspondsAll_mono {u u' : SymbolTable} (ht : t.Onward OfRule t') (hu : u.Onward OfRule u')
    {nodes nodes' : List Node} (h : List.Forall₂ (Corresponds t u) nodes nodes') :
    List.Forall₂ (Corresponds t' u') nodes nodes' :=
  h.imp fun _ _ hnode => corresponds_mono ht hu hnode

mutual

/-- A rule that is lowered on the way to a table is lowered on every table that precedes it, to the
same node but for the numbers of symbols. -/
theorem lower_again (hT : T.Sound) {t t' u : SymbolTable} (ht : t.Sound) (hu : u.Sound)
    {node : Node} : (tree : Tree) → tree.lower t = (.ok node, t') → t'.Precedes OfRule T →
      u.Precedes OfRule T → Again OfRule T u t' Corresponds node (tree.lower u)
  | .identifier name, h, ht', huT => by
    rw [lower] at h ⊢
    rcases htrick : trick? name with _ | trick <;> rw [htrick] at h <;> dsimp only at h ⊢
    · obtain ⟨id, t₁, hd, hp⟩ := bind_eq_ok h
      obtain ⟨rfl, rfl⟩ := pure_eq_ok hp
      obtain ⟨id', u₁, hd', hu₁, huT₁, hid⟩ := declare_again (.inl rfl) ht hu hT hd ht' huT
      exact .bind OfRule.confluent hd' hu₁ (.pure OfRule.confluent huT₁ (.identifier hid))
    · exact callNamed_again ht hu hT h (.cons (.string trick) .nil) ht' huT
  | .bool value, h, ht', huT => by
    rw [lower] at h ⊢
    obtain ⟨rfl, rfl⟩ := pure_eq_ok h
    exact .pure OfRule.confluent huT (.boolean value)
  | .number value, h, ht', huT => by
    rw [lower] at h ⊢
    obtain ⟨rfl, rfl⟩ := pure_eq_ok h
    exact .pure OfRule.confluent huT (.number value)
  | .string value, h, ht', huT => by
    rw [lower] at h ⊢
    obtain ⟨rfl, rfl⟩ := pure_eq_ok h
    exact .pure OfRule.confluent huT (.string value)
  | .within lhs rhs, h, ht', huT => by
    by_cases hform : ∃ region, lhs = .string region ∧ rhs = .identifier "dungeon_shortcuts"
    · obtain ⟨region, rfl, rfl⟩ := hform
      rw [lower] at h ⊢
      exact callNamed_again ht hu hT h (.cons (.string region) .nil) ht' huT
    · rw [lower] at h
      · cases h
      · exact fun region hl hr => hform ⟨region, hl, hr⟩
  | .compare op lhs rhs, h, ht', huT => by
    rw [lower] at h ⊢
    obtain ⟨lhs₁, t₁, hl, hrest⟩ := bind_eq_ok h
    obtain ⟨rhs₁, t₂, hr, htail⟩ := bind_eq_ok hrest
    have ht₁ := lower_onward ht hl
    have ht₂ := lower_onward (ht₁.sound ht) hr
    have ht₃ := comparison_onward (ht₂.sound (ht₁.sound ht)) htail
    have htT₂ := ht₃.toPrecedes.trans OfRule.confluent ht'
    have htT₁ := ht₂.toPrecedes.trans OfRule.confluent htT₂
    obtain ⟨lhs₂, u₁, hl', hu₁, huT₁, hlhs⟩ := lower_again hT ht hu lhs hl htT₁ huT
    obtain ⟨rhs₂, u₂, hr', hu₂, huT₂, hrhs⟩ :=
      lower_again hT (ht₁.sound ht) (hu₁.sound hu) rhs hr htT₂ huT₁
    exact .bind OfRule.confluent hl' hu₁ (.bind OfRule.confluent hr' hu₂
      (comparison_again (ht₂.sound (ht₁.sound ht)) (hu₂.sound (hu₁.sound hu)) hT htail
        (corresponds_mono ht₂ hu₂ hlhs) hrhs ht' huT₂))
  | .connect op lhs rhs, h, ht', huT => by
    rw [lower] at h ⊢
    obtain ⟨lhs₁, t₁, hl, hrest⟩ := bind_eq_ok h
    obtain ⟨rhs₁, t₂, hr, hp⟩ := bind_eq_ok hrest
    have ht₁ := lower_onward ht hl
    have ht₂ := lower_onward (ht₁.sound ht) hr
    have hlast : t₂ = t' := by cases op <;> exact (pure_eq_ok hp).2
    rw [← hlast] at ht'
    have htT₁ := ht₂.toPrecedes.trans OfRule.confluent ht'
    obtain ⟨lhs₂, u₁, hl', hu₁, huT₁, hlhs⟩ := lower_again hT ht hu lhs hl htT₁ huT
    obtain ⟨rhs₂, u₂, hr', hu₂, huT₂, hrhs⟩ :=
      lower_again hT (ht₁.sound ht) (hu₁.sound hu) rhs hr ht' huT₁
    have hitems : List.Forall₂ (Corresponds t₂ u₂) [lhs₁, rhs₁] [lhs₂, rhs₂] :=
      .cons (corresponds_mono ht₂ hu₂ hlhs) (.cons hrhs .nil)
    refine .bind OfRule.confluent hl' hu₁ (.bind OfRule.confluent hr' hu₂ ?_)
    cases op <;> obtain ⟨rfl, rfl⟩ := pure_eq_ok hp
    · exact .pure OfRule.confluent huT₂ (Junction.reduce_matches (j := .every) hitems)
    · exact .pure OfRule.confluent huT₂ (Junction.reduce_matches (j := .anyOf) hitems)
  | .not operand, h, ht', huT => by
    rw [lower] at h ⊢
    obtain ⟨inner, t₁, hi, hp⟩ := bind_eq_ok h
    obtain ⟨rfl, rfl⟩ := pure_eq_ok hp
    obtain ⟨inner', u₁, hi', hu₁, huT₁, hinner⟩ := lower_again hT ht hu operand hi ht' huT
    exact .bind OfRule.confluent hi' hu₁ (.pure OfRule.confluent huT₁ (.invert hinner))
  | .call callee args, h, ht', huT => by
    rw [lower_call_eq] at h ⊢
    obtain ⟨target, t₁, hc, hrest⟩ := bind_eq_ok h
    obtain ⟨⟨⟩, t₂, hm, hrest⟩ := bind_eq_ok hrest
    obtain ⟨nodes, t₃, ha, hp⟩ := bind_eq_ok hrest
    obtain ⟨rfl, rfl⟩ := pure_eq_ok hp
    have ht₁ := lower_onward ht hc
    have ht₂ := marking_onward (ht₁.sound ht) hm
    have ht₃ := lowerAll_onward (ht₂.sound (ht₁.sound ht)) ha
    have htT₂ := ht₃.toPrecedes.trans OfRule.confluent ht'
    have htT₁ := ht₂.toPrecedes.trans OfRule.confluent htT₂
    obtain ⟨target', u₁, hc', hu₁, huT₁, htarget⟩ := lower_again hT ht hu callee hc htT₁ huT
    obtain ⟨⟨⟩, u₂, hm', hu₂, huT₂, -⟩ :=
      marking_again (ht₁.sound ht) (hu₁.sound hu) hT htarget hm htT₂ htT₁ huT₁
    obtain ⟨nodes', u₃, ha', hu₃, huT₃, hnodes⟩ := lowerAll_again hT (ht₂.sound (ht₁.sound ht))
      (hu₂.sound (hu₁.sound hu)) .nil args ha ht' huT₂
    have htarget' := corresponds_mono ht₃ hu₃ (corresponds_mono ht₂ hu₂ htarget)
    exact .bind OfRule.confluent hc' hu₁ (.bind OfRule.confluent hm' hu₂
      (.bind OfRule.confluent ha' hu₃ (.pure OfRule.confluent huT₃ (.invoke htarget' hnodes))))
  | .subscript target index, h, ht', huT => by
    by_cases hform : ∃ trial, target = .identifier "skipped_trials" ∧ index = .identifier trial
    · obtain ⟨trial, rfl, rfl⟩ := hform
      rw [lower] at h ⊢
      exact callNamed_again ht hu hT h (.cons (.string trial) .nil) ht' huT
    · rw [lower] at h
      · cases h
      · exact fun trial ht hi => hform ⟨trial, ht, hi⟩
  | .tuple elements, h, ht', huT => by
    rw [lower] at h ⊢
    obtain ⟨args, t₁, ha, hc⟩ := bind_eq_ok h
    have ht₁ := lowerAll_onward ht ha
    have htT₁ := (callNamed_onward (ht₁.sound ht) hc).toPrecedes.trans OfRule.confluent ht'
    obtain ⟨args', u₁, ha', hu₁, huT₁, hargs⟩ := lowerAll_again hT ht hu .nil elements ha htT₁ huT
    exact .bind OfRule.confluent ha' hu₁
      (callNamed_again (ht₁.sound ht) (hu₁.sound hu) hT hc hargs ht' huT₁)

theorem lowerAll_again (hT : T.Sound) {t t' u : SymbolTable} (ht : t.Sound) (hu : u.Sound)
    {nodes done done' : List Node} (hdone : List.Forall₂ (Corresponds t u) done done') :
    (trees : List Tree) → lowerAll done trees t = (.ok nodes, t') → t'.Precedes OfRule T →
      u.Precedes OfRule T →
      Again OfRule T u t' (fun t u => List.Forall₂ (Corresponds t u)) nodes (lowerAll done' trees u)
  | [], h, ht', huT => by
    rw [lowerAll] at h ⊢
    obtain ⟨rfl, rfl⟩ := pure_eq_ok h
    exact .pure OfRule.confluent huT (List.rel_reverse hdone)
  | tree :: rest, h, ht', huT => by
    rw [lowerAll] at h ⊢
    obtain ⟨node, t₁, hn, hrest⟩ := bind_eq_ok h
    have ht₁ := lower_onward ht hn
    have htT₁ := (lowerAll_onward (ht₁.sound ht) hrest).toPrecedes.trans OfRule.confluent ht'
    obtain ⟨node', u₁, hn', hu₁, huT₁, hnode⟩ := lower_again hT ht hu tree hn htT₁ huT
    exact .bind OfRule.confluent hn' hu₁ (lowerAll_again hT (ht₁.sound ht) (hu₁.sound hu)
      (.cons hnode (correspondsAll_mono ht₁ hu₁ hdone)) rest hrest ht' huT₁)

end

end Rule.Tree

end Passage

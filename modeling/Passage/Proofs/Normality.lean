import Passage.Pass.Standard
import Passage.Proofs.Pointers
import Passage.Proofs.Reducing
import Passage.Proofs.Regimes
import Passage.Proofs.Substituting

/-!
# Normal nodes throughout

Junctions are built in two places: by lowering, and by the passes, which rebuild what they
transform. Both reduce what they build; so all junctions in a rule stay reduced from the first
tree on, through every pass, however the rounds are put together (`Pass.Stock.normal`,
`Pipeline.normal`).

Some passes take calls as they stand, and one of them records the argument of a call as a rule
of its own. These are normal since they are parts of a node that was. What is said about them
is said along a regime (`World.recording`): only connections with normal rules have been added.
-/

namespace Passage

/-! ## Nodes -/

namespace Node

theorem normal_boolean (value : Bool) : (boolean value).Normal := .boolean (reduced_boolean value)

theorem normal_number (value : Number) : (number value).Normal := .number (reduced_number value)

theorem normal_string (value : String) : (string value).Normal := .string (reduced_string value)

theorem normal_identifier (id : SymbolId) : (identifier id).Normal :=
  .identifier (reduced_identifier id)

theorem normal_invert {inner : Node} (h : inner.Normal) : (invert inner).Normal :=
  .invert (reduced_invert inner) h

theorem normal_compare (op : Comparison) {lhs rhs : Node} (hl : lhs.Normal) (hr : rhs.Normal) :
    (compare op lhs rhs).Normal :=
  .compare (reduced_compare op lhs rhs) hl hr

theorem normal_invoke {target : Node} {args : List Node} (ht : target.Normal)
    (ha : ∀ arg ∈ args, arg.Normal) : (invoke target args).Normal :=
  .invoke (reduced_invoke target args) ht ha

theorem normal_call (callee : SymbolId) {args : List Node} (ha : ∀ arg ∈ args, arg.Normal) :
    (call callee args).Normal :=
  normal_invoke (normal_identifier callee) ha

theorem normal_has (has item : SymbolId) (quantity : Number) :
    (Node.has has item quantity).Normal :=
  normal_call has (List.forall_mem_cons.mpr
    ⟨normal_identifier item, List.forall_mem_singleton.mpr (normal_number quantity)⟩)

theorem normal_conjoin {items : List Node} (h : ∀ item ∈ items, item.Normal) :
    (conjoin items).Normal :=
  Junction.reduce_normal (j := .every) h

theorem normal_disjoin {items : List Node} (h : ∀ item ∈ items, item.Normal) :
    (disjoin items).Normal :=
  Junction.reduce_normal (j := .anyOf) h

theorem Normal.args {target : Node} {args : List Node} (h : (invoke target args).Normal) :
    target.Normal ∧ ∀ arg ∈ args, arg.Normal := by
  cases h with
  | invoke _ ht ha => exact ⟨ht, ha⟩

/-- Substitution rebuilds all junctions, so only what is put in has to be normal. -/
theorem normal_substitute {scope : SymbolId → Option Node}
    (hscope : ∀ {id node}, scope id = some node → node.Normal) (node : Node) :
    (node.substitute scope).Normal := by
  have hparts : node.Each fun _ => True := .of_forall (fun _ => trivial) node
  induction hparts with
  | anyOf _ _ ih =>
    rw [substitute_anyOf]
    exact normal_disjoin (List.forall_mem_map.mpr ih)
  | every _ _ ih =>
    rw [substitute_every]
    exact normal_conjoin (List.forall_mem_map.mpr ih)
  | @boolean value _ => exact normal_boolean value
  | @compare op _ _ _ _ _ ihl ihr => exact normal_compare op ihl ihr
  | @identifier id _ =>
    rcases hid : scope id with _ | node
    · rw [substitute_unbound hid]
      exact normal_identifier id
    · rw [substitute_bound hid]
      exact hscope hid
  | invert _ _ ih => exact normal_invert ih
  | invoke _ _ _ iht iha =>
    rw [substitute_invoke]
    exact normal_invoke iht (List.forall_mem_map.mpr iha)
  | @number value _ => exact normal_number value
  | @string value _ => exact normal_string value

end Node

/-! ## Lowering -/

namespace Rule.Tree

open Lowering

theorem callNamed_normal (name : String) {args : List Node} (h : ∀ arg ∈ args, arg.Normal) :
    Ensures Node.Normal (callNamed name args) :=
  .behind fun id => .pure (Node.normal_call id h)

theorem callNamed_string_normal (name value : String) :
    Ensures Node.Normal (callNamed name [.string value]) :=
  callNamed_normal name (List.forall_mem_singleton.mpr (Node.normal_string value))

mutual

/-- Lowering builds normal nodes. -/
theorem lower_normal : (tree : Rule.Tree) → Ensures Node.Normal tree.lower
  | .identifier name => by
    unfold lower
    split
    · exact callNamed_string_normal _ _
    · exact .behind fun id => .pure (Node.normal_identifier id)
  | .bool value => by
    unfold lower
    exact .pure (Node.normal_boolean value)
  | .number value => by
    unfold lower
    exact .pure (Node.normal_number value)
  | .string value => by
    unfold lower
    exact .pure (Node.normal_string value)
  | .within lhs rhs => by
    unfold lower
    split
    all_goals first
      | contradiction
      | exact callNamed_string_normal _ _
      | exact .throw _
  | .compare op lhs rhs => by
    unfold lower
    refine .bind (lower_normal lhs) fun lhs hl => .bind (lower_normal rhs) fun rhs hr =>
      .behind fun symbols => ?_
    split
    · refine callNamed_normal _ (List.forall_mem_cons.mpr ⟨Node.normal_number _, ?_⟩)
      exact List.forall_mem_cons.mpr ⟨hl, List.forall_mem_singleton.mpr hr⟩
    · exact .pure (Node.normal_compare op hl hr)
  | .connect op lhs rhs => by
    unfold lower
    refine .bind (lower_normal lhs) fun lhs hl => .bind (lower_normal rhs) fun rhs hr => ?_
    have hboth := List.forall_mem_cons.mpr ⟨hl, List.forall_mem_singleton.mpr hr⟩
    cases op with
    | and => exact .pure (Node.normal_conjoin hboth)
    | or => exact .pure (Node.normal_disjoin hboth)
  | .not operand => by
    unfold lower
    exact .bind (lower_normal operand) fun inner hinner => .pure (Node.normal_invert hinner)
  | .call callee args => by
    unfold lower
    refine .bind (lower_normal callee) fun target htarget => ?_
    have hrest : Ensures Node.Normal (lowerAll [] args >>= fun args =>
        pure (Node.invoke target args)) :=
      .bind (lowerAll_normal args nofun) fun args hargs =>
        .pure (Node.normal_invoke htarget hargs)
    dsimp only
    split
    · exact .behind fun _ => hrest
    · exact hrest
  | .subscript target index => by
    unfold lower
    split
    all_goals first
      | contradiction
      | exact callNamed_string_normal _ _
      | exact .throw _
  | .tuple elements => by
    unfold lower
    exact .bind (lowerAll_normal elements nofun) fun args hargs => callNamed_normal _ hargs

theorem lowerAll_normal : (trees : List Rule.Tree) → ∀ {done : List Node},
    (∀ node ∈ done, node.Normal) →
      Ensures (fun nodes => ∀ node ∈ nodes, Node.Normal node) (lowerAll done trees)
  | [], done, hdone => by
    unfold lowerAll
    exact .pure fun node hnode => hdone node (List.mem_reverse.mp hnode)
  | tree :: rest, done, hdone => by
    unfold lowerAll
    exact .bind (lower_normal tree) fun node hnode =>
      lowerAll_normal rest (List.forall_mem_cons.mpr ⟨hnode, hdone⟩)

end

end Rule.Tree

/-! ## Steps of passes -/

/-- Behind the connections that waited before, only such with normal rules wait. -/
def World.NormalSince (before : Array Connection) (w : World) : Prop :=
  ∃ recorded, w.context.pending = before ++ recorded ∧ ∀ c ∈ recorded, c.rule.Normal

theorem World.normalSince_self (w : World) : w.NormalSince w.context.pending :=
  ⟨#[], Array.append_empty.symm, nofun⟩

/-- Worlds to which only connections with normal rules are added, also by steps that fail. -/
def World.recording (before : Array Connection) : Regime World PassError where
  holds := World.NormalSince before
  onward _ _ := True
  fails _ := World.NormalSince before
  advances := ⟨fun _ => trivial, fun _ _ => trivial⟩

namespace Transforming

variable {α β : Type} {before : Array Connection} {Q : α → Prop}

/-- The step adds only connections with normal rules, and what it answers satisfies `Q`. -/
def Normally (before : Array Connection) (Q : α → Prop) (m : Transforming α) : Prop :=
  ∀ w, w.NormalSince before → (m w).2.NormalSince before ∧ ∀ a, (m w).1 = .ok a → Q a

/-- In such worlds nothing is said of earlier ones. -/
theorem normally_iff_leads {m : Transforming α} {first : World} :
    Normally before Q m ↔ (World.recording before).Leads first (fun _ => Q) m := by
  constructor
  · intro h w hw _
    obtain ⟨hafter, hanswer⟩ := h w hw
    refine ⟨fun e w' hm => ?_, fun a w' hm => ?_⟩ <;> rw [hm] at hafter hanswer
    · exact hafter
    · exact ⟨hafter, trivial, hanswer a rfl⟩
  · intro h w hw
    obtain ⟨herror, hok⟩ := h w hw trivial
    rcases hm : m w with ⟨e | a, w'⟩
    · exact ⟨herror e w' hm, nofun⟩
    · obtain ⟨hafter, -, hanswer⟩ := hok a w' hm
      exact ⟨hafter, fun _ heq => Except.ok.inj heq ▸ hanswer⟩

theorem normally_pure {a : α} (h : Q a) : Normally before Q (pure a) :=
  fun _ hw => ⟨hw, fun _ heq => Except.ok.inj heq ▸ h⟩

theorem normally_throw (e : PassError) : Normally before Q (throw e) :=
  fun _ hw => ⟨hw, nofun⟩

theorem Normally.bind {x : Transforming α} {f : α → Transforming β} {Q' : β → Prop}
    (hx : Normally before Q x) (hf : ∀ a, Q a → Normally before Q' (f a)) :
    Normally before Q' (x >>= f) := by
  intro w hw
  obtain ⟨hafter, hanswer⟩ := hx w hw
  rw [bind_apply]
  rcases hm : x w with ⟨e | a, w'⟩ <;> rw [hm] at hafter hanswer
  · exact ⟨hafter, nofun⟩
  · exact hf a (hanswer a rfl) w' hafter

/-- Behind a step that leaves the context alone. -/
theorem normally_behind {x : Transforming α} {f : α → Transforming β} {Q' : β → Prop}
    (hx : ∀ w, (x w).2.context = w.context) (hf : ∀ a, Normally before Q' (f a)) :
    Normally before Q' (x >>= f) := by
  have hfirst : Normally before (fun _ => True) x := by
    rintro w ⟨recorded, hpending, hrecorded⟩
    exact ⟨⟨recorded, by rw [hx, hpending], hrecorded⟩, fun _ _ => trivial⟩
  exact hfirst.bind fun a _ => hf a

theorem normally_symbols {f : SymbolTable → Transforming α}
    (hf : ∀ symbols, Normally before Q (f symbols)) : Normally before Q (symbols >>= f) :=
  normally_behind (fun _ => rfl) hf

theorem normally_declare (name : String) (kind : Symbol.Kind) {f : SymbolId → Transforming α}
    (hf : ∀ id, Normally before Q (f id)) : Normally before Q (declare name kind >>= f) :=
  normally_behind (fun _ => rfl) hf

/-- A rule that is recorded has to be normal. -/
theorem normally_record (origin destination placement : String) {rule : Node}
    (hrule : rule.Normal) :
    Normally before (fun _ => True) (record origin destination placement rule) := by
  rintro w ⟨recorded, hpending, hrecorded⟩
  refine ⟨⟨recorded.push ⟨origin, destination, placement, rule, w.context.generation⟩, ?_,
    fun c hc => ?_⟩, fun _ _ => trivial⟩
  · show w.context.pending.push _ = _
    rw [hpending, Array.append_push]
  · obtain hc | rfl := Array.mem_push.mp hc
    · exact hrecorded c hc
    · exact hrule

end Transforming

/-! ## Parts of passes -/

section Parts

open Transforming

variable {before : Array Connection}

namespace Elsewhere

theorem generate_normal (origin : String) {rule : Node} (hrule : rule.Normal) :
    Normally before Node.Normal (generate origin rule) := by
  refine normally_declare _ _ fun has => normally_declare _ _ fun _ =>
    normally_symbols fun symbols => ?_
  split
  · exact normally_pure (Node.normal_has ..)
  · refine normally_declare _ _ fun token => ?_
    exact normally_behind (fun _ => rfl) fun _ =>
      (normally_record _ _ _ hrule).bind fun _ _ => normally_pure (Node.normal_has ..)

theorem intercept_normal {target : Node} {args : List Node} (hargs : ∀ arg ∈ args, arg.Normal) :
    Normally before (fun taken => ∀ node, taken = some node → node.Normal)
      (intercept target args) := by
  have hregion : Normally before Node.Normal (inRegion args) := by
    unfold inRegion
    split
    · exact generate_normal _ (hargs _ (List.mem_cons_of_mem _ List.mem_cons_self))
    all_goals exact normally_throw _
  have hcurrent : Normally before Node.Normal (inCurrentRegion args) := by
    unfold inCurrentRegion
    split
    · refine normally_behind (fun _ => rfl) fun region => ?_
      cases region with
      | some origin => exact generate_normal origin (hargs _ List.mem_cons_self)
      | none => exact normally_throw _
    · exact normally_throw _
  have htaken : ∀ {m : Transforming Node}, Normally before Node.Normal m →
      Normally before (fun taken => ∀ node, taken = some node → node.Normal)
        (m >>= fun node => pure (some node)) :=
    fun h => h.bind fun node hnode => normally_pure fun _ heq => Option.some.inj heq ▸ hnode
  refine normally_symbols fun symbols => ?_
  dsimp only
  split
  · exact htaken hregion
  · split
    · exact htaken hcurrent
    · exact normally_pure nofun

end Elsewhere

theorem BareCall.identifier_normal (scripts : Scripts) (id : SymbolId) :
    Normally before Node.Normal (BareCall.identifier scripts id) := by
  have hcall : (Node.call id []).Normal := Node.normal_call id nofun
  refine normally_symbols fun symbols => ?_
  cases symbols.get? id with
  | none => exact normally_throw _
  | some symbol =>
    dsimp only
    split
    · exact normally_pure hcall
    · exact normally_pure hcall
    all_goals
      first
      | exact normally_pure (Node.normal_identifier id)
      | split
        · exact normally_throw _
        · split
          · exact normally_pure hcall
          · exact normally_throw _

namespace Item

theorem held_normal (token : SymbolId) : Normally before Node.Normal (held token) :=
  normally_declare _ _ fun _ => normally_pure (Node.normal_has ..)

theorem promoteIdentifier_normal (id : SymbolId) :
    Normally before Node.Normal (promoteIdentifier id) := by
  refine normally_symbols fun symbols => ?_
  cases symbols.get? id with
  | none => exact normally_throw _
  | some symbol =>
    dsimp only
    split
    · exact held_normal _
    · exact normally_pure (Node.normal_identifier id)

theorem promoteString_normal (value : String) :
    Normally before Node.Normal (promoteString value) := by
  refine normally_symbols fun symbols => ?_
  split
  · exact held_normal _
  · exact normally_pure (Node.normal_string value)

/-- What a node asks for is part of it. -/
theorem subjects?_each {P : Node → Prop} {has joined : Option SymbolId} {node : Node}
    (h : node.Each P) {subjects : List Node} (hs : subjects? has joined node = some subjects) :
    ∀ subject ∈ subjects, subject.Each P := by
  unfold subjects? at hs
  split at hs
  · next callee args =>
    have hargs : ∀ arg ∈ args, arg.Each P := by
      cases h with | invoke _ _ hargs => exact hargs
    obtain hs | ⟨-, hs⟩ := Option.or_eq_some_iff.mp hs
    · split at hs
      · split at hs
        · obtain rfl := Option.some.inj hs
          exact List.forall_mem_singleton.mpr (hargs _ List.mem_cons_self)
        · exact absurd hs nofun
      · exact absurd hs nofun
    · split at hs
      · obtain rfl := Option.some.inj hs
        exact hargs
      · exact absurd hs nofun
  · exact absurd hs nofun

/-- What the items of a junction ask for is part of them. -/
theorem flatten_subjects?_each {P : Node → Prop} {has joined : Option SymbolId}
    {items : List Node} (h : ∀ item ∈ items, item.Each P) :
    ∀ subject ∈ (items.filterMap (subjects? has joined)).flatten, subject.Each P := by
  intro subject hsubject
  obtain ⟨subjects, hsubjects, hmem⟩ := List.mem_flatten.mp hsubject
  obtain ⟨item, hitem, hasked⟩ := List.mem_filterMap.mp hsubjects
  exact subjects?_each (h item hitem) hasked subject hmem

theorem question_normal (name : String) {others subjects : List Node}
    (hothers : ∀ node ∈ others, node.Normal) (hsubjects : ∀ node ∈ subjects, node.Normal) :
    Normally before (fun items => ∀ item ∈ items, item.Normal) (question name others subjects) := by
  have hjoined : ∀ (joined : String) {args : List Node}, (∀ arg ∈ args, arg.Normal) →
      Normally before (fun items => ∀ item ∈ items, item.Normal) (do
        let callee ← Transforming.declare joined .function
        pure (others ++ [.call callee args])) :=
    fun joined _ hargs => normally_declare _ _ fun callee => normally_pure
      (List.forall_mem_append.mpr
        ⟨hothers, List.forall_mem_singleton.mpr (Node.normal_call callee hargs)⟩)
  match subjects, hsubjects with
  | [], _ => exact normally_pure hothers
  | [subject], h =>
    exact hjoined _ (List.forall_mem_cons.mpr ⟨h subject List.mem_cons_self,
      List.forall_mem_singleton.mpr (Node.normal_number one)⟩)
  | _ :: _ :: _, h => exact hjoined _ h

theorem join_normal (name : String) {items : List Node} (h : ∀ item ∈ items, item.Normal) :
    Normally before (fun items => ∀ item ∈ items, item.Normal) (join name items) := by
  exact normally_symbols fun symbols => question_normal name
    (fun node hnode => h node (List.mem_filter.mp hnode).1) (flatten_subjects?_each h)

end Item

namespace Fold

theorem compare_normal (op : Comparison) {lhs rhs : Node} (hl : lhs.Normal) (hr : rhs.Normal) :
    Normally before Node.Normal (Fold.compare op lhs rhs) := by
  unfold Fold.compare
  split
  · exact normally_pure (Node.normal_boolean _)
  · exact normally_pure (Node.normal_compare op hl hr)
  · exact normally_throw _

theorem invert_normal {inner : Node} (h : inner.Normal) :
    Normally before Node.Normal (Fold.invert inner) := by
  unfold Fold.invert
  split
  · exact normally_pure (Node.normal_boolean _)
  · exact normally_pure (Node.normal_invert h)

end Fold

/-- Whatever its type is, the value of a setting is a literal. -/
theorem SettingValue.literal_normal {settings : Settings} {type : SettingType} {name : String}
    {node : Node} (h : literal settings type name = .ok node) : node.Normal := by
  have hvalue : ∀ {α : Type} {value : Except SettingError α} {make : α → Node},
      (∀ a, (make a).Normal) → value.map make = .ok node → node.Normal := by
    rintro α (e | a) make hmake heq
    · exact absurd heq nofun
    · exact Except.ok.inj heq ▸ hmake a
  cases type with
  | string => exact hvalue Node.normal_string h
  | number => exact hvalue Node.normal_number h
  | boolean => exact hvalue Node.normal_boolean h

theorem SettingValue.identifier_normal (settings : Settings) (id : SymbolId) :
    Normally before Node.Normal (SettingValue.identifier settings id) := by
  refine normally_symbols fun symbols => ?_
  split
  · exact normally_pure (Node.normal_identifier id)
  · split
    · exact normally_pure (Node.normal_identifier id)
    · split
      · split
        · next node hnode => exact normally_pure (literal_normal hnode)
        · exact normally_throw _
      · exact normally_throw _

namespace CompilerFunctions

/-- The functions of the standard table answer normal arguments with normal nodes. -/
theorem standard_normal {tricks : List String} {nightStart : Bool} {name : String}
    {function : CompilerFunction} (hfind : (standard tricks nightStart).find? name = some function)
    {args : List Node} (hargs : ∀ arg ∈ args, arg.Normal) :
    Normally before Node.Normal (function args) := by
  obtain rfl | ⟨-, rfl⟩ | ⟨value, rfl⟩ := standard_cases hfind
  · unfold trickEnabled
    split
    · exact normally_pure (Node.normal_boolean _)
    · exact normally_throw _
  · unfold compareSetting
    split
    · next code lhs rhs =>
      have hl := hargs lhs (List.mem_cons_of_mem _ List.mem_cons_self)
      have hr := hargs rhs (List.mem_cons_of_mem _ (List.mem_cons_of_mem _ List.mem_cons_self))
      split
      · exact normally_throw _
      · split
        · exact normally_pure (Node.normal_compare _ hl hr)
        · exact normally_declare _ _ fun callee => normally_pure (Node.normal_call callee hargs)
    · exact normally_throw _
  · exact normally_pure (Node.normal_boolean value)

theorem answer_normal {tricks : List String} {nightStart : Bool} {target : Node} {args : List Node}
    (ht : target.Normal) (ha : ∀ arg ∈ args, arg.Normal) :
    Normally before Node.Normal ((standard tricks nightStart).answer target args) := by
  refine normally_symbols fun symbols => ?_
  rcases hfind : (standard tricks nightStart).functionOf? symbols target with _ | function
  · exact normally_pure (Node.normal_invoke ht ha)
  · obtain ⟨name, -, hname⟩ := Option.bind_eq_some_iff.mp hfind
    exact standard_normal hname ha

end CompilerFunctions

end Parts

/-! ## Passes -/

/-- Rules that lead from normal nodes to normal nodes. -/
abbrev Rules.Normal (before : Array Connection) (r : Rules Transforming) : Prop :=
  r.Lead (World.recording before) (fun _ => Node.Reduced) fun _ node => node.Normal

section Rules

open Transforming

variable {before : Array Connection}

theorem Rules.normal_default : Rules.Normal before {} where
  anyOf _ h := .pure fun _ _ _ => Node.normal_disjoin h
  every _ h := .pure fun _ _ _ => Node.normal_conjoin h
  boolean value _ := Node.normal_boolean value
  number value _ := Node.normal_number value
  compare op _ _ _ hl hr := .pure fun _ _ _ => Node.normal_compare op hl hr
  identifier {_ id} _ _ := .pure fun _ _ _ => Node.normal_identifier id
  invert _ h := .pure fun _ _ _ => Node.normal_invert h
  string value _ := .pure fun _ _ _ => Node.normal_string value
  intercept _ _ := .pure fun _ _ _ => nofun
  invoke _ ht ha := .pure fun _ _ _ => Node.normal_invoke ht ha

theorem World.recording_keeps {p : Node → Prop} : (World.recording before).Keeps fun _ => p :=
  fun _ _ _ _ h => h

theorem Rules.Normal.transform {r : Rules Transforming} (hr : r.Normal before) {node : Node}
    (h : node.Normal) :
    Normally before Node.Normal (r.transform node) := by
  intro w
  have hleads : (World.recording before).Leads w (fun _ => Node.Normal) (r.transform node) :=
    Rules.Lead.transform hr World.recording_keeps World.recording_keeps node h
  exact normally_iff_leads.mpr hleads w

/-- Calls that are left alone are as normal as they were. -/
theorem Rules.keepCalls_normal {target : Node} {args : List Node}
    (h : (Node.invoke target args).Normal) :
    Normally before (fun taken => ∀ node, taken = some node → node.Normal)
      (Rules.keepCalls target args) :=
  normally_pure fun _ heq => Option.some.inj heq ▸ h

/-- The body of a function with normal arguments is normal, whatever it was before. -/
theorem Inline.instantiate_normal (script : Script) {args : List Node}
    (hargs : ∀ arg ∈ args, arg.Normal) : (instantiate script args).Normal :=
  Node.normal_substitute (fun hscope => hargs _ (Node.mem_of_scopeOf hscope)) _

theorem Inline.intercept_normal (scripts : Scripts) {expand : String → Node → Transforming Node}
    (hexpand : ∀ name {body}, body.Normal → Normally before Node.Normal (expand name body))
    {target : Node} {args : List Node} (hargs : ∀ arg ∈ args, arg.Normal) :
    Normally before (fun taken => ∀ node, taken = some node → node.Normal)
      (Inline.intercept scripts expand target args) := by
  refine normally_symbols fun symbols => ?_
  rcases Inline.scriptOf? scripts symbols target with _ | ⟨name, script⟩
  · exact normally_pure nofun
  · dsimp only
    split
    · exact (hexpand name (Inline.instantiate_normal script hargs)).bind
        fun node hnode => normally_pure fun _ heq => Option.some.inj heq ▸ hnode
    · exact normally_throw _

theorem Inline.rules_normal (scripts : Scripts) (limit left : Nat) :
    (Inline.rules scripts limit left).Normal before := by
  induction left with
  | zero => exact { Rules.normal_default with
      intercept := fun _ h => normally_iff_leads.mp
        (intercept_normal scripts (fun _ _ _ => normally_throw _) (Node.Normal.args h).2) }
  | succ left ih => exact { Rules.normal_default with
      intercept := fun _ h => normally_iff_leads.mp
        (intercept_normal scripts (fun _ _ => Rules.Normal.transform ih) (Node.Normal.args h).2) }

/-- The eight passes, at any depth and with any settings, with the functions of a standard
table. -/
def Pass.Stock (pass : Pass) : Prop :=
  ∃ inlineDepth settings tricks nightStart kind,
    Pass.ofKind? inlineDepth settings (some (.standard tricks nightStart)) kind = some pass

theorem Pass.Stock.rules_normal {pass : Pass} (h : pass.Stock) (scripts : Scripts) :
    (pass.rules scripts).Normal before := by
  have hdefault : Rules.Normal before {} := Rules.normal_default
  obtain ⟨inlineDepth, settings, tricks, nightStart, kind, hpass⟩ := h
  cases kind with
  | connections =>
    cases hpass
    exact { hdefault with
      intercept :=
        fun _ h => normally_iff_leads.mp (Elsewhere.intercept_normal (Node.Normal.args h).2) }
  | inlineCalls =>
    cases hpass
    exact Inline.rules_normal scripts _ _
  | fold =>
    cases hpass
    exact { hdefault with
      compare := fun op _ _ _ hl hr => normally_iff_leads.mp (Fold.compare_normal op hl hr)
      invert := fun _ h => normally_iff_leads.mp (Fold.invert_normal h) }
  | bareCalls =>
    cases hpass
    exact { hdefault with
      identifier := fun _ _ => normally_iff_leads.mp (BareCall.identifier_normal scripts _)
      intercept := fun _ h => normally_iff_leads.mp (Rules.keepCalls_normal h) }
  | collapseHas =>
    cases hpass
    exact { hdefault with
      anyOf := fun _ h => normally_iff_leads.mp ((Item.join_normal _ h).bind
        fun _ hitems => normally_pure (Node.normal_disjoin hitems))
      every := fun _ h => normally_iff_leads.mp ((Item.join_normal _ h).bind
        fun _ hitems => normally_pure (Node.normal_conjoin hitems)) }
  | promoteTokens =>
    cases hpass
    exact { hdefault with
      identifier := fun _ _ => normally_iff_leads.mp (Item.promoteIdentifier_normal _)
      string := fun value _ => normally_iff_leads.mp (Item.promoteString_normal value)
      intercept := fun _ h => normally_iff_leads.mp (Rules.keepCalls_normal h) }
  | settings =>
    obtain ⟨values, -, rfl⟩ := Option.map_eq_some_iff.mp hpass
    exact { hdefault with
      identifier := fun _ _ => normally_iff_leads.mp (SettingValue.identifier_normal values _) }
  | compilerCalls =>
    cases hpass
    exact { hdefault with
      invoke := fun _ ht ha => normally_iff_leads.mp (CompilerFunctions.answer_normal ht ha) }

/-- A pass makes normal nodes of normal ones, and records only normal rules, also where it
fails. -/
theorem Pass.Stock.normal {pass : Pass} (h : pass.Stock) (scripts : Scripts) {node : Node}
    (hnode : node.Normal) (w : World) :
    (∀ node', (pass.apply scripts node w).1 = .ok node' → node'.Normal) ∧
      (pass.apply scripts node w).2.NormalSince w.context.pending := by
  have hpass : Normally w.context.pending Node.Normal (pass.apply scripts node) := by
    rw [Pass.apply_eq]
    exact Rules.Normal.transform (h.rules_normal scripts) hnode
  exact (hpass w w.normalSince_self).symm

/-- So does a whole run of such passes, in any order and for any number of rounds. -/
theorem Pipeline.normal {p : Pipeline} (h : ∀ pass ∈ p.passes, pass.Stock) (scripts : Scripts)
    {node : Node} (hnode : node.Normal) (w : World) :
    (∀ node', (p.run scripts node w).1.result = .ok node' → node'.Normal) ∧
      (p.run scripts node w).2.NormalSince w.context.pending := by
  have hled : Led (World.recording w.context.pending) (fun _ => Node.Reduced)
      (p.run scripts node w).1 (p.run scripts node w).2 :=
    p.run_led World.recording_keeps (fun pass hpass => (h pass hpass).rules_normal scripts)
      w.normalSince_self hnode
  refine ⟨fun node' hok => (hled.trees node' hok).1, ?_⟩
  rcases hres : (p.run scripts node w).1.result with e | node'
  · exact hled.fails e hres
  · exact hled.holds node' hres

end Rules

/-- Every junction is reduced throughout: lowering builds normal nodes, the passes and their
pipelines make normal nodes of normal ones, and the rules of all connections that they record
are normal. The bodies of scripted functions may be any nodes, as instantiating one rebuilds its
junctions. -/
theorem normal_throughout (scripts : Scripts) :
    (∀ (tree : Rule.Tree) t node t', tree.lower t = (.ok node, t') → node.Normal) ∧
    (∀ pass : Pass, pass.Stock → ∀ node : Node, node.Normal → ∀ w,
      (∀ node', (pass.apply scripts node w).1 = .ok node' → node'.Normal) ∧
        (pass.apply scripts node w).2.NormalSince w.context.pending) ∧
    ∀ p : Pipeline, (∀ pass ∈ p.passes, pass.Stock) → ∀ node : Node, node.Normal → ∀ w,
      (∀ node', (p.run scripts node w).1.result = .ok node' → node'.Normal) ∧
        (p.run scripts node w).2.NormalSince w.context.pending :=
  ⟨fun tree _ _ _ => tree.lower_normal _ _ _, fun _ hpass _ hnode => hpass.normal scripts hnode,
    fun _ hpasses _ hnode => Pipeline.normal hpasses scripts hnode⟩

/-- Folding decides two of three items, and the disjunction that is left in the conjunction is
put into it item by item. -/
theorem normal_throughout_folded :
    (Pipeline.run ⟨[.fold], 1⟩ ⟨[]⟩ (.every [.compare .equal (.identifier 0) (.identifier 0),
      .identifier 0, .anyOf [.every [.identifier 1, .identifier 2], .invert (.boolean true)]])
        .empty).1.result =
      .ok (.every [.identifier 0, .identifier 1, .identifier 2]) ∧
    (Node.every [.identifier 0, .identifier 1, .identifier 2]).Normal := by
  have hinner : (Node.anyOf
      [.every [.identifier 1, .identifier 2], .invert (.boolean true)]).Normal := by
    refine Node.normal_disjoin (List.forall_mem_cons.mpr
      ⟨show (Node.conjoin [.identifier 1, .identifier 2]).Normal from Node.normal_conjoin ?_,
        List.forall_mem_singleton.mpr
        (Node.normal_invert (Node.normal_boolean true))⟩)
    exact List.forall_mem_cons.mpr ⟨Node.normal_identifier 1,
      List.forall_mem_singleton.mpr (Node.normal_identifier 2)⟩
  have hnode : (Node.every [.compare .equal (.identifier 0) (.identifier 0), .identifier 0,
      .anyOf [.every [.identifier 1, .identifier 2], .invert (.boolean true)]]).Normal :=
    Node.normal_conjoin (List.forall_mem_cons.mpr
      ⟨Node.normal_compare _ (Node.normal_identifier 0) (Node.normal_identifier 0),
        List.forall_mem_cons.mpr ⟨Node.normal_identifier 0, List.forall_mem_singleton.mpr hinner⟩⟩)
  exact ⟨rfl, ((normal_throughout ⟨[]⟩).2.2 ⟨[.fold], 1⟩
    (List.forall_mem_singleton.mpr ⟨0, none, [], false, .fold, rfl⟩) _ hnode .empty).1 _ rfl⟩

end Passage

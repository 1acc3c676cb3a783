import Passage.Proofs.Coding
import Passage.Proofs.Conversation
import Passage.Proofs.Generation
import Passage.Proofs.Pointers
import Passage.Proofs.Regimes
import Passage.Proofs.Substituting

/-!
# Trees of declared symbols

Symbols are numbered in order, so that a tree is made of declared symbols if all numbers in it
are below the number of symbols (`Node.Below`). Lowering builds such trees, and passes make such
trees of them: what they add, they declare. On the way a tree never has a symbol that the
table lacks, so that no pass stops at an unknown one; and what is recorded for later is made of
declared symbols as well (`World.Scoped`).

Undoing takes symbols away, and leaves those that were there before. So all this is said along
regimes in which the table may only have become longer (`SymbolTable.scope`, `World.scope`).
-/

namespace Passage

/-! ## Nodes -/

namespace Node

/-- If the node is a symbol, it is among the first ones. -/
def Numbered (n : Nat) (part : Node) : Prop := ∀ id, part = .identifier id → id < n

/-- All symbols in the node are among the first ones. -/
def Below (n : Nat) (node : Node) : Prop := node.Each (Numbered n)

variable {n m : Nat}

theorem Numbered.mono (hle : n ≤ m) {part : Node} (h : part.Numbered n) : part.Numbered m :=
  fun id hid => Nat.lt_of_lt_of_le (h id hid) hle

theorem Below.mono (hle : n ≤ m) {node : Node} (h : node.Below n) : node.Below m :=
  h.imp (Numbered.mono hle)

theorem below_identifier {id : SymbolId} (h : id < n) : (Node.identifier id).Below n :=
  .identifier fun _ hid => by injection hid with hid; exact hid ▸ h

theorem below_boolean (value : Bool) : (Node.boolean value).Below n := .boolean nofun

theorem below_number (value : Number) : (Node.number value).Below n := .number nofun

theorem below_string (value : String) : (Node.string value).Below n := .string nofun

theorem below_invert {inner : Node} (h : inner.Below n) : (Node.invert inner).Below n :=
  .invert nofun h

theorem below_compare (op : Comparison) {lhs rhs : Node} (hl : lhs.Below n) (hr : rhs.Below n) :
    (Node.compare op lhs rhs).Below n :=
  .compare nofun hl hr

theorem below_invoke {target : Node} {args : List Node} (ht : target.Below n)
    (ha : ∀ arg ∈ args, arg.Below n) : (Node.invoke target args).Below n :=
  .invoke nofun ht ha

theorem below_call {callee : SymbolId} {args : List Node} (hc : callee < n)
    (ha : ∀ arg ∈ args, arg.Below n) : (Node.call callee args).Below n :=
  below_invoke (below_identifier hc) ha

theorem below_has {has item : SymbolId} {quantity : Number} (hhas : has < n) (hitem : item < n) :
    (Node.has has item quantity).Below n :=
  below_call hhas (List.forall_mem_cons.mpr
    ⟨below_identifier hitem, List.forall_mem_singleton.mpr (below_number quantity)⟩)

theorem below_conjoin {items : List Node} (h : ∀ item ∈ items, item.Below n) :
    (conjoin items).Below n :=
  Each.conjoin (fun _ => nofun) (fun _ => nofun) h

theorem below_disjoin {items : List Node} (h : ∀ item ∈ items, item.Below n) :
    (disjoin items).Below n :=
  Each.disjoin (fun _ => nofun) (fun _ => nofun) h

theorem Below.args {target : Node} {args : List Node} (h : (Node.invoke target args).Below n) :
    target.Below n ∧ ∀ arg ∈ args, arg.Below n := by
  cases h with
  | invoke _ ht ha => exact ⟨ht, ha⟩

theorem Below.identifier? {node : Node} {id : SymbolId} (h : node.Below n)
    (hid : node.identifier? = some id) : id < n := by
  cases node with
  | identifier id' => exact Option.some.inj hid ▸ h.self id' rfl
  | _ => exact absurd hid nofun

/-- What is put for names of a node is below the bound, and so is the node then. -/
theorem Below.substitute {scope : SymbolId → Option Node}
    (hscope : ∀ {id node}, scope id = some node → node.Below n) {node : Node} (h : node.Below n) :
    (node.substitute scope).Below n :=
  Each.substitute (fun _ => nofun) (fun _ => nofun) (fun _ => nofun) (fun _ _ _ => nofun)
    (fun h _ => h) (fun _ => nofun) (fun _ => nofun) (fun _ => nofun) (fun _ => nofun) hscope h

end Node

/-! ## Lowering -/

/-- Sound tables of at least `n` symbols, which may become longer, also where a step fails for
a reason it may fail for. -/
def SymbolTable.scope {ε : Type} (may : ε → Prop) (n : Nat) : Regime SymbolTable ε where
  holds t := t.Sound ∧ n ≤ t.size
  onward t t' := t.size ≤ t'.size
  fails e t := may e ∧ t.Sound ∧ n ≤ t.size
  advances := ⟨fun _ => Nat.le_refl _, Nat.le_trans⟩

abbrev Lowering.scope (n : Nat) : Regime SymbolTable LowerError :=
  SymbolTable.scope (fun _ => True) n

section Lowering

variable {n : Nat} {first : SymbolTable}

/-- A step that declares a name answers with a declared symbol. -/
theorem SymbolTable.declare_leads {ε : Type} {may : ε → Prop} {name : String}
    {kind : Symbol.Kind} {m : ExceptT ε (StateM SymbolTable) SymbolId}
    (hafter : ∀ t, (m t).2 = (t.declare name kind).2)
    (hanswer : ∀ t id, (m t).1 = .ok id → (t.declare name kind).1 = .ok id)
    (hmay : ∀ t e, (m t).1 = .error e → may e) :
    (SymbolTable.scope may n).Leads first (fun t id => id < t.size) m := by
  intro t ht _
  have hgrows := declare_grows ht.1 name kind
  have hsound := hgrows.sound ht.1
  have hsize : t.size ≤ (t.declare name kind).2.size := hgrows.symbols
  refine ⟨fun e t' he => ?_, fun id t' hok => ?_⟩
  · obtain rfl : (t.declare name kind).2 = t' := (hafter t).symm.trans (congrArg Prod.snd he)
    exact ⟨hmay t e (congrArg Prod.fst he), hsound, ht.2.trans hsize⟩
  · obtain rfl : (t.declare name kind).2 = t' := (hafter t).symm.trans (congrArg Prod.snd hok)
    exact ⟨⟨hsound, ht.2.trans hsize⟩, hsize,
      lt_of_declare ht.1 (Prod.ext (hanswer t id (congrArg Prod.fst hok)) rfl)⟩

theorem Lowering.declare_leads (name : String) (kind : Symbol.Kind) :
    (Lowering.scope n).Leads first (fun t id => id < t.size)
      (Lowering.declare name kind) := by
  refine SymbolTable.declare_leads (Lowering.declare_snd name kind) (fun t id hok => ?_)
    fun _ _ _ => trivial
  unfold Lowering.declare at hok
  rcases hd : t.declare name kind with ⟨e | id', t'⟩ <;> rw [hd] at hok
  · exact absurd hok nofun
  · exact congrArg Except.ok (Except.ok.inj hok)

theorem Lowering.callNamed_leads (name : String) {args : List Node}
    (hargs : ∀ arg ∈ args, arg.Below first.size) :
    (Lowering.scope n).Leads first (fun t node => node.Below t.size)
      (Lowering.callNamed name args) :=
  .bind (Lowering.declare_leads name .function) fun _ _ _ hon hid => .pure fun _ _ hon' =>
    Node.below_call (Nat.lt_of_lt_of_le hid hon') fun arg harg =>
      (hargs arg harg).mono (Nat.le_trans hon hon')

theorem Lowering.declareCallee_leads (id : SymbolId) :
    (Lowering.scope n).Leads first (fun _ _ => True)
      (Lowering.declareCallee id) := by
  refine .bind .get fun t symbols _ _ _ => ?_
  cases symbols.get? id with
  | none => exact .pure fun _ _ _ => trivial
  | some symbol =>
    dsimp only
    split
    · exact .bind (Lowering.declare_leads symbol.name .function) fun _ _ _ _ _ =>
        .pure fun _ _ _ => trivial
    · exact .pure fun _ _ _ => trivial

mutual

/-- Lowering builds nodes of declared symbols. -/
theorem Rule.Tree.lower_leads : (tree : Rule.Tree) → ∀ {first : SymbolTable},
    (Lowering.scope n).Leads first (fun t node => node.Below t.size) tree.lower
  | .identifier name, first => by
    unfold lower
    split
    · exact Lowering.callNamed_leads _ (List.forall_mem_singleton.mpr (Node.below_string _))
    · exact .bind (Lowering.declare_leads name .unknown) fun t id _ _ hid =>
        .pure fun t' _ hon => Node.below_identifier (Nat.lt_of_lt_of_le hid hon)
  | .bool value, first => by
    unfold lower
    exact .pure fun _ _ _ => Node.below_boolean value
  | .number value, first => by
    unfold lower
    exact .pure fun _ _ _ => Node.below_number value
  | .string value, first => by
    unfold lower
    exact .pure fun _ _ _ => Node.below_string value
  | .within lhs rhs, first => by
    unfold lower
    split
    all_goals first
      | contradiction
      | exact Lowering.callNamed_leads _ (List.forall_mem_singleton.mpr (Node.below_string _))
      | exact .throw fun _ ht _ => ⟨trivial, ht⟩
  | .compare op lhs rhs, first => by
    unfold lower
    refine .bind (lower_leads lhs) fun t₁ lhs _ _ hl => .bind (lower_leads rhs)
      fun t₂ rhs _ hon hr => .bind .get fun t₃ symbols _ hon' _ => ?_
    have hl' := hl.mono (Nat.le_trans hon hon')
    have hr' := hr.mono hon'
    split
    · refine Lowering.callNamed_leads _ (List.forall_mem_cons.mpr ⟨Node.below_number _, ?_⟩)
      exact List.forall_mem_cons.mpr ⟨hl', List.forall_mem_singleton.mpr hr'⟩
    · exact .pure fun t₄ _ hon'' => Node.below_compare op (hl'.mono hon'') (hr'.mono hon'')
  | .connect op lhs rhs, first => by
    unfold lower
    refine .bind (lower_leads lhs) fun t₁ lhs _ _ hl => .bind (lower_leads rhs)
      fun t₂ rhs _ hon hr => ?_
    have hboth : ∀ {t : SymbolTable}, t₂.size ≤ t.size → ∀ node ∈ [lhs, rhs],
        node.Below t.size := by
      intro t hon'
      exact List.forall_mem_cons.mpr ⟨hl.mono (Nat.le_trans hon hon'),
        List.forall_mem_singleton.mpr (hr.mono hon')⟩
    cases op with
    | and => exact .pure fun t _ hon' => Node.below_conjoin (hboth hon')
    | or => exact .pure fun t _ hon' => Node.below_disjoin (hboth hon')
  | .not operand, first => by
    unfold lower
    exact .bind (lower_leads operand) fun t inner _ _ h =>
      .pure fun t' _ hon => Node.below_invert (h.mono hon)
  | .call callee args, first => by
    unfold lower
    refine .bind (lower_leads callee) fun t₁ target _ _ ht => ?_
    have hargs : ∀ {t₂ : SymbolTable}, t₁.size ≤ t₂.size →
        (Lowering.scope n).Leads t₂ (fun t node => node.Below t.size)
          (Rule.Tree.lowerAll [] args >>= fun args => pure (Node.invoke target args)) := by
      intro t₂ hon
      refine .bind (lowerAll_leads args nofun) fun t₃ args _ hon' ha => .pure fun t₄ _ hon'' => ?_
      exact Node.below_invoke (ht.mono (Nat.le_trans hon (Nat.le_trans hon' hon'')))
        fun arg harg => (ha arg harg).mono hon''
    dsimp only
    split
    · exact .bind (Lowering.declareCallee_leads _) fun t₂ _ _ hon _ => hargs hon
    · exact hargs (Nat.le_refl _)
  | .subscript target index, first => by
    unfold lower
    split
    all_goals first
      | contradiction
      | exact Lowering.callNamed_leads _ (List.forall_mem_singleton.mpr (Node.below_string _))
      | exact .throw fun _ ht _ => ⟨trivial, ht⟩
  | .tuple elements, first => by
    unfold lower
    exact .bind (lowerAll_leads elements nofun) fun t args _ _ ha =>
      Lowering.callNamed_leads _ ha

theorem Rule.Tree.lowerAll_leads : (trees : List Rule.Tree) → ∀ {first : SymbolTable}
    {done : List Node}, (∀ node ∈ done, node.Below first.size) →
    (Lowering.scope n).Leads first (fun t nodes => ∀ node ∈ nodes, node.Below t.size)
      (Rule.Tree.lowerAll done trees)
  | [], first, done, hdone => by
    unfold lowerAll
    exact .pure fun t _ hon node hnode => (hdone node (List.mem_reverse.mp hnode)).mono hon
  | tree :: rest, first, done, hdone => by
    unfold lowerAll
    refine .bind (lower_leads tree) fun t node _ hon h => lowerAll_leads rest ?_
    exact List.forall_mem_cons.mpr ⟨h, fun node hnode => (hdone node hnode).mono hon⟩

end

end Lowering

/-! ## Worlds -/

/-- A sound world, in which connections wait whose rules are made of its symbols. -/
structure World.Scoped (w : World) : Prop extends World.Sound w where
  pending : ∀ c ∈ w.context.pending, c.rule.Below w.symbols.size

/-- Such worlds with at least `n` symbols, which may become more. No step fails at an unknown
symbol. -/
def World.scope (n : Nat) : Regime World PassError where
  holds w := w.Scoped ∧ n ≤ w.symbols.size
  onward w w' := w.symbols.size ≤ w'.symbols.size
  fails e _ := ∀ id, e ≠ .unknownSymbol id
  advances := ⟨fun _ => Nat.le_refl _, Nat.le_trans⟩

/-- If the node is a symbol, it is one of the world. -/
def World.Numbers (w : World) (part : Node) : Prop := part.Numbered w.symbols.size

/-- The symbols in the node are symbols of the world. -/
abbrev World.Covers (w : World) (node : Node) : Prop := node.Below w.symbols.size

abbrev World.CoversAll (w : World) (nodes : List Node) : Prop := ∀ node ∈ nodes, w.Covers node

/-- The symbols in the node are symbols of the world, if there is a node. -/
abbrev World.CoversTaken (w : World) (taken : Option Node) : Prop :=
  ∀ node, taken = some node → w.Covers node

theorem World.Scoped.grown {w : World} (h : w.Scoped) {symbols : SymbolTable} {pool : ObjectPool}
    (hs : symbols.Sound) (hsize : w.symbols.size ≤ symbols.size) (hp : pool.Sound) :
    World.Scoped { w with symbols, pool } where
  symbols := hs
  pool := hp
  pending c hc := (h.pending c hc).mono hsize

section Passes

variable {n : Nat} {first : World}

theorem World.numbers_keeps : (World.scope n).Keeps World.Numbers :=
  fun _ _ _ hon h => h.mono hon

theorem Transforming.declare_leads (name : String) (kind : Symbol.Kind) :
    (World.scope n).Leads first (fun w id => id < w.symbols.size)
      (Transforming.declare name kind) := by
  intro w hw _
  refine ⟨fun e w' he => ?_, fun id w' hok => ?_⟩
  · obtain ⟨_, -, rfl⟩ := error_of_mapError (congrArg Prod.fst he)
    exact fun _ => nofun
  · obtain ⟨symbols, hd, rfl⟩ := Transforming.declare_eq_ok hok
    have hgrows := SymbolTable.declare_grows hw.1.symbols name kind
    rw [hd] at hgrows
    have hsize : w.symbols.size ≤ symbols.size := hgrows.symbols
    exact ⟨⟨hw.1.grown (hgrows.sound hw.1.symbols) hsize hw.1.pool, hw.2.trans hsize⟩, hsize,
      SymbolTable.lt_of_declare hw.1.symbols hd⟩

theorem Transforming.associate_leads (symbol : SymbolId) (pointer : Object) :
    (World.scope n).Leads first (fun _ _ => True) (Transforming.associate symbol pointer) := by
  intro w hw _
  refine ⟨fun e w' he => ?_, fun index w' hok => ?_⟩
  · obtain ⟨_, -, rfl⟩ := error_of_mapError (congrArg Prod.fst he)
    exact fun _ => nofun
  · obtain ⟨pool, hp, rfl⟩ := Transforming.associate_eq_ok hok
    have hgrows := (ObjectPool.associate_step hw.1.pool symbol pointer).grows
    rw [hp] at hgrows
    exact ⟨⟨hw.1.grown hw.1.symbols (Nat.le_refl _) (hgrows.sound hw.1.pool), hw.2⟩, Nat.le_refl _,
      trivial⟩

/-- A connection waits for a rule of declared symbols. -/
theorem Transforming.record_leads (origin destination placement : String) {rule : Node}
    (hrule : rule.Below first.symbols.size) :
    (World.scope n).Leads first (fun _ _ => True)
      (Transforming.record origin destination placement rule) := by
  intro w hw hon
  refine ⟨fun e w' he => absurd (congrArg Prod.fst he) nofun, fun _ w' hok => ?_⟩
  obtain rfl := congrArg Prod.snd hok
  refine ⟨⟨⟨⟨hw.1.symbols, hw.1.pool⟩, fun c hc => ?_⟩, hw.2⟩, Nat.le_refl _, trivial⟩
  obtain hc | rfl := Array.mem_push.mp hc
  · exact hw.1.pending c hc
  · exact hrule.mono hon

/-! ## Rules about regions -/

namespace Elsewhere

theorem generate_leads (origin : String) {rule : Node} (hrule : rule.Below first.symbols.size) :
    (World.scope n).Leads first World.Covers
      (generate origin rule) := by
  refine .bind (Transforming.declare_leads _ _) fun w₁ has _ hon₁ hhas =>
    .bind (Transforming.declare_leads _ _) fun w₂ _ hw₂ hon₂ _ => ?_
  dsimp only
  refine .bind Transforming.symbols_leads fun w₃ symbols hw₃ hon₃ hsymbols => ?_
  have hhas₃ : has < w₃.symbols.size := by
    exact Nat.lt_of_lt_of_le hhas (Nat.le_trans hon₂ hon₃)
  subst hsymbols
  split
  · next token hl =>
    have htoken : token.id < w₃.symbols.size := by
      obtain ⟨-, hget⟩ := SymbolTable.names_of_lookup? hw₃.1.symbols hl
      exact SymbolTable.get?_eq_some_lt hget
    exact .pure fun w _ hon => Node.below_has (Nat.lt_of_lt_of_le hhas₃ hon)
      (Nat.lt_of_lt_of_le htoken hon)
  · refine .bind (Transforming.declare_leads _ _) fun w₄ token _ hon₄ htoken =>
      .bind (Transforming.associate_leads _ _) fun w₅ _ _ hon₅ _ =>
        .bind (Transforming.record_leads _ _ _ (hrule.mono ?_)) fun w₆ _ _ hon₆ _ => ?_
    · exact Nat.le_trans hon₁ (Nat.le_trans hon₂ (Nat.le_trans hon₃ (Nat.le_trans hon₄ hon₅)))
    · exact .pure fun w _ hon => Node.below_has
        (Nat.lt_of_lt_of_le hhas₃ (Nat.le_trans hon₄ (Nat.le_trans hon₅ (Nat.le_trans hon₆ hon))))
        (Nat.lt_of_lt_of_le htoken (Nat.le_trans hon₅ (Nat.le_trans hon₆ hon)))

theorem inRegion_leads {args : List Node} (hargs : ∀ arg ∈ args, arg.Below first.symbols.size) :
    (World.scope n).Leads first World.Covers (inRegion args) := by
  unfold inRegion
  split
  · next origin rule =>
    exact generate_leads origin (hargs rule (List.mem_cons_of_mem _ List.mem_cons_self))
  all_goals exact .throw fun _ _ _ _ => nofun

theorem inCurrentRegion_leads {args : List Node}
    (hargs : ∀ arg ∈ args, arg.Below first.symbols.size) :
    (World.scope n).Leads first World.Covers
      (inCurrentRegion args) := by
  unfold inCurrentRegion
  split
  · next rule =>
    refine .bind Transforming.region_leads fun w region _ hon _ => ?_
    cases region with
    | some origin => exact generate_leads origin ((hargs rule List.mem_cons_self).mono hon)
    | none => exact .throw fun _ _ _ _ => nofun
  · exact .throw fun _ _ _ _ => nofun

theorem intercept_leads {target : Node} {args : List Node}
    (hargs : ∀ arg ∈ args, arg.Below first.symbols.size) :
    (World.scope n).Leads first World.CoversTaken (intercept target args) := by
  refine .bind Transforming.symbols_leads fun w symbols _ hon _ => ?_
  have hlater := fun arg harg => (hargs arg harg).mono hon
  have htaken : ∀ {w : World} {node : Node}, node.Below w.symbols.size →
      (World.scope n).Leads w World.CoversTaken (pure (some node)) :=
    fun h => .pure fun _ _ hon _ heq => Option.some.inj heq ▸ h.mono hon
  dsimp only
  split
  · exact .bind (inRegion_leads hlater) fun _ _ _ _ h => htaken h
  · split
    · exact .bind (inCurrentRegion_leads hlater) fun _ _ _ _ h => htaken h
    · exact .pure fun _ _ _ _ => nofun

end Elsewhere

/-! ## Names that stand alone -/

theorem SymbolTable.get?_ne_none {t : SymbolTable} {id : SymbolId} (h : id < t.size) :
    t.get? id ≠ none := by
  obtain ⟨s, hs⟩ := get?_of_lt h
  rw [hs]
  nofun

theorem BareCall.identifier_leads (scripts : Scripts) {id : SymbolId}
    (hid : id < first.symbols.size) :
    (World.scope n).Leads first World.Covers
      (BareCall.identifier scripts id) := by
  refine .bind Transforming.symbols_leads fun w symbols _ hon hsymbols => ?_
  have hid' : id < w.symbols.size := Nat.lt_of_lt_of_le hid hon
  subst hsymbols
  have hcall : (World.scope n).Leads w World.Covers (pure (Node.call id [])) :=
    .pure fun _ _ hon => Node.below_call (Nat.lt_of_lt_of_le hid' hon) nofun
  rcases hget : w.symbols.get? id with _ | symbol
  · exact absurd hget (SymbolTable.get?_ne_none hid')
  · dsimp only
    cases symbol.kind
    case builtInFunction | compilerFunction => exact hcall
    case function | scriptedFunction =>
      dsimp only
      split
      · exact .throw fun _ _ _ _ => nofun
      · split
        · exact hcall
        · exact .throw fun _ _ _ _ => nofun
    all_goals exact .pure fun _ _ hon => Node.below_identifier (Nat.lt_of_lt_of_le hid' hon)

namespace Item

theorem held_leads {token : SymbolId} (htoken : token < first.symbols.size) :
    (World.scope n).Leads first World.Covers (held token) :=
  .bind (Transforming.declare_leads _ _) fun _ _ _ hon hhas => .pure fun _ _ hon' =>
    Node.below_has (Nat.lt_of_lt_of_le hhas hon')
      (Nat.lt_of_lt_of_le htoken (Nat.le_trans hon hon'))

/-- A token that goes by a name is one of the table. -/
theorem tokenNamed?_lt {t : SymbolTable} (ht : t.Sound) {name : String} {token : SymbolId}
    (h : tokenNamed? t name = some token) : token < t.size := by
  obtain ⟨s, hs, hkind⟩ := Option.bind_eq_some_iff.mp h
  obtain ⟨-, hget⟩ := SymbolTable.names_of_lookup? ht hs
  split at hkind
  · obtain rfl := Option.some.inj hkind
    exact SymbolTable.get?_eq_some_lt hget
  · exact absurd hkind nofun

theorem tokenOf?_lt {t : SymbolTable} (ht : t.Sound) {id : SymbolId} {s : Symbol}
    (hget : t.get? id = some s) {token : SymbolId} (h : tokenOf? t s = some token) :
    token < t.size := by
  unfold tokenOf? at h
  split at h
  · obtain rfl := Option.some.inj h
    rw [ht.ids hget]
    exact SymbolTable.get?_eq_some_lt hget
  · split at h
    · exact tokenNamed?_lt ht h
    · exact absurd h nofun

theorem promoteIdentifier_leads {id : SymbolId} (hid : id < first.symbols.size) :
    (World.scope n).Leads first World.Covers
      (promoteIdentifier id) := by
  refine .bind Transforming.symbols_leads fun w symbols hw hon hsymbols => ?_
  have hid' : id < w.symbols.size := Nat.lt_of_lt_of_le hid hon
  subst hsymbols
  rcases hget : w.symbols.get? id with _ | symbol
  · exact absurd hget (SymbolTable.get?_ne_none hid')
  · dsimp only
    rcases htoken : tokenOf? w.symbols symbol with _ | token
    · exact .pure fun _ _ hon => Node.below_identifier (Nat.lt_of_lt_of_le hid' hon)
    · exact held_leads (tokenOf?_lt hw.1.symbols hget htoken)

theorem promoteString_leads (value : String) :
    (World.scope n).Leads first World.Covers
      (promoteString value) := by
  refine .bind Transforming.symbols_leads fun w symbols hw hon hsymbols => ?_
  subst hsymbols
  rcases htoken : tokenNamed? w.symbols value with _ | token
  · exact .pure fun _ _ _ => Node.below_string value
  · exact held_leads (tokenNamed?_lt hw.1.symbols htoken)

/-! ## Joined questions -/

/-- What a node asks for is part of it. -/
theorem subjects?_below {has joined : Option SymbolId} {m : Nat} {node : Node}
    (h : node.Below m) {subjects : List Node} (hs : subjects? has joined node = some subjects) :
    ∀ subject ∈ subjects, subject.Below m := by
  unfold subjects? at hs
  split at hs
  · next callee args =>
    obtain ⟨-, hargs⟩ := h.args
    obtain hs | ⟨-, hs⟩ := Option.or_eq_some_iff.mp hs
    · split at hs
      · split at hs
        · obtain rfl := Option.some.inj hs
          exact List.forall_mem_singleton.mpr (hargs _ List.mem_cons_self)
        · exact absurd hs nofun
      · exact absurd hs nofun
    · split at hs
      · obtain rfl := Option.some.inj hs
        exact hargs
      · exact absurd hs nofun
  · exact absurd hs nofun

theorem question_leads (name : String) {others subjects : List Node}
    (hothers : ∀ node ∈ others, node.Below first.symbols.size)
    (hsubjects : ∀ node ∈ subjects, node.Below first.symbols.size) :
    (World.scope n).Leads first World.CoversAll
      (question name others subjects) := by
  -- The question is put behind the others, and its function is declared.
  have hjoined : ∀ (joined : String) {args : List Node},
      (∀ arg ∈ args, arg.Below first.symbols.size) →
      (World.scope n).Leads first World.CoversAll (do
        let callee ← Transforming.declare joined .function
        pure (others ++ [.call callee args])) := by
    intro joined args hargs
    refine .bind (Transforming.declare_leads _ _) fun w callee _ hon hcallee =>
      .pure fun w' _ hon' => List.forall_mem_append.mpr
        ⟨fun node hnode => (hothers node hnode).mono (Nat.le_trans hon hon'),
          List.forall_mem_singleton.mpr (Node.below_call (Nat.lt_of_lt_of_le hcallee hon')
            fun arg harg => (hargs arg harg).mono (Nat.le_trans hon hon'))⟩
  match subjects, hsubjects with
  | [], _ => exact .pure fun _ _ hon node hnode => (hothers node hnode).mono hon
  | [subject], h =>
    exact hjoined _ (List.forall_mem_cons.mpr ⟨h subject List.mem_cons_self,
      List.forall_mem_singleton.mpr (Node.below_number one)⟩)
  | _ :: _ :: _, h => exact hjoined _ h

theorem join_leads (name : String) {items : List Node}
    (h : ∀ item ∈ items, item.Below first.symbols.size) :
    (World.scope n).Leads first World.CoversAll
      (join name items) := by
  refine .bind Transforming.symbols_leads fun w symbols _ hon _ => ?_
  have hlater := fun item hitem => (h item hitem).mono hon
  refine question_leads name (fun node hnode => hlater node (List.mem_filter.mp hnode).1) ?_
  intro node hnode
  obtain ⟨subjects, hsubjects, hmem⟩ := List.mem_flatten.mp hnode
  obtain ⟨item, hitem, hasked⟩ := List.mem_filterMap.mp hsubjects
  exact subjects?_below (hlater item hitem) hasked node hmem

theorem every_leads {items : List Node} (h : ∀ item ∈ items, item.Below first.symbols.size) :
    (World.scope n).Leads first World.Covers (every items) :=
  .bind (join_leads _ h) fun _ _ _ _ hitems => .pure fun _ _ hon =>
    Node.below_conjoin fun item hitem => (hitems item hitem).mono hon

theorem anyOf_leads {items : List Node} (h : ∀ item ∈ items, item.Below first.symbols.size) :
    (World.scope n).Leads first World.Covers (anyOf items) :=
  .bind (join_leads _ h) fun _ _ _ _ hitems => .pure fun _ _ hon =>
    Node.below_disjoin fun item hitem => (hitems item hitem).mono hon

end Item

/-! ## Values and functions -/

theorem Fold.compare_leads (op : Comparison) {lhs rhs : Node}
    (hl : lhs.Below first.symbols.size) (hr : rhs.Below first.symbols.size) :
    (World.scope n).Leads first World.Covers
      (Fold.compare op lhs rhs) := by
  unfold Fold.compare
  split
  · exact .pure fun _ _ _ => Node.below_boolean _
  · exact .pure fun _ _ hon => Node.below_compare op (hl.mono hon) (hr.mono hon)
  · next e herror =>
    refine .throw fun _ _ _ id hid => ?_
    rw [hid] at herror
    unfold Fold.outcome? Fold.unordered at herror
    split at herror <;> cases op <;> exact absurd herror nofun

theorem Fold.invert_leads {inner : Node} (h : inner.Below first.symbols.size) :
    (World.scope n).Leads first World.Covers
      (Fold.invert inner) := by
  unfold Fold.invert
  split
  · exact .pure fun _ _ _ => Node.below_boolean _
  · exact .pure fun _ _ hon => Node.below_invert (h.mono hon)

theorem SettingValue.literal_below {settings : Settings} {type : SettingType} {name : String}
    {node : Node} (h : literal settings type name = .ok node) (m : Nat) : node.Below m := by
  unfold literal at h
  cases type <;> dsimp only at h
  · rcases hvalue : settings.string name with e | value <;> rw [hvalue] at h
    · exact absurd h nofun
    · exact Except.ok.inj h ▸ Node.below_string value
  · rcases hvalue : settings.number name with e | value <;> rw [hvalue] at h
    · exact absurd h nofun
    · exact Except.ok.inj h ▸ Node.below_number value
  · rcases hvalue : settings.boolean name with e | value <;> rw [hvalue] at h
    · exact absurd h nofun
    · exact Except.ok.inj h ▸ Node.below_boolean value

theorem SettingValue.identifier_leads (settings : Settings) {id : SymbolId}
    (hid : id < first.symbols.size) :
    (World.scope n).Leads first World.Covers
      (SettingValue.identifier settings id) := by
  refine .bind Transforming.symbols_leads fun w symbols _ hon _ => ?_
  have hkept : (World.scope n).Leads w World.Covers (pure (Node.identifier id)) :=
    .pure fun _ _ hon' => Node.below_identifier (Nat.lt_of_lt_of_le hid (Nat.le_trans hon hon'))
  split
  · exact hkept
  · split
    · exact hkept
    · split
      · split
        · next node hnode => exact .pure fun _ _ _ => SettingValue.literal_below hnode _
        · exact .throw fun _ _ _ _ => nofun
      · exact .throw fun _ _ _ _ => nofun

/-- Compiler functions that know the first symbols of the table, those of their arguments and
those they declare: they miss none, and answer with nodes of these. -/
def CompilerFunctions.Scoped (n : Nat) (functions : CompilerFunctions) : Prop :=
  ∀ name function, functions.find? name = some function → ∀ args w, w.Sound →
    n ≤ w.symbols.size → (∀ arg ∈ args, arg.Below w.symbols.size) →
      (∀ id, (function args w).1 ≠ .error (.unknownSymbol id)) ∧
        ∀ node, (function args w).1 = .ok node → node.Below (function args w).2.symbols.size

theorem CompilerFunctions.Scoped.mono {m : Nat} {functions : CompilerFunctions}
    (h : functions.Scoped n) (hle : n ≤ m) : functions.Scoped m :=
  fun name function hfind args w hw hm => h name function hfind args w hw (Nat.le_trans hle hm)

/-- A comparison of settings is one of its operands, or stays a call of what it declares. -/
theorem CompilerFunctions.compareSetting_below {args : List Node} {w : World} (hw : w.Sound)
    (hargs : ∀ arg ∈ args, arg.Below w.symbols.size) :
    (∀ id, (compareSetting args w).1 ≠ .error (.unknownSymbol id)) ∧
      ∀ node, (compareSetting args w).1 = .ok node →
        node.Below (compareSetting args w).2.symbols.size := by
  unfold compareSetting
  split
  · next code lhs rhs =>
    have hl := hargs lhs (List.mem_cons_of_mem _ List.mem_cons_self)
    have hr := hargs rhs (List.mem_cons_of_mem _ (List.mem_cons_of_mem _ List.mem_cons_self))
    rcases Comparison.ofCode? code.clampToByte with _ | op
    · exact ⟨fun _ => nofun, fun _ => nofun⟩
    · dsimp only
      split
      · exact ⟨fun _ => nofun, fun node hok => Except.ok.inj hok ▸ Node.below_compare op hl hr⟩
      · rw [bind_apply]
        rcases hres : Transforming.declare Lowering.settingName .function w with ⟨e | id, w'⟩
        · obtain ⟨_, -, rfl⟩ := error_of_mapError (congrArg Prod.fst hres)
          exact ⟨fun _ => nofun, fun _ => nofun⟩
        · obtain ⟨symbols, hd, rfl⟩ := Transforming.declare_eq_ok hres
          have hsize : w.symbols.size ≤ symbols.size := by
            have hgrows := SymbolTable.declare_grows hw.symbols Lowering.settingName .function
            rw [hd] at hgrows
            exact hgrows.symbols
          refine ⟨fun _ => nofun, fun node hok => Except.ok.inj hok ▸ ?_⟩
          exact Node.below_call (SymbolTable.lt_of_declare hw.symbols hd)
            fun arg harg => (hargs arg harg).mono hsize
  · exact ⟨fun _ => nofun, fun _ => nofun⟩

/-- The functions of the standard table know no symbols but those of their arguments and the one
they declare. -/
theorem CompilerFunctions.standard_scoped (tricks : List String) (nightStart : Bool) (n : Nat) :
    (standard tricks nightStart).Scoped n := by
  intro name function hfind args w hw _ hargs
  obtain rfl | ⟨-, rfl⟩ | ⟨value, rfl⟩ := standard_cases hfind
  · unfold trickEnabled
    split
    · exact ⟨fun _ => nofun, fun _ hok => Except.ok.inj hok ▸ Node.below_boolean _⟩
    · exact ⟨fun _ => nofun, fun _ => nofun⟩
  · exact compareSetting_below hw hargs
  · exact ⟨fun _ => nofun, fun _ hok => Except.ok.inj hok ▸ Node.below_boolean _⟩

/-- What such a function puts in place of a call is made of declared symbols. -/
theorem CompilerFunctions.Scoped.leads {functions : CompilerFunctions}
    (hscoped : functions.Scoped n) (honly : functions.DeclareOnly fun _ => True) {name : String}
    {function : CompilerFunction} (hfind : functions.find? name = some function)
    {args : List Node} (ha : ∀ arg ∈ args, arg.Below first.symbols.size) :
    (World.scope n).Leads first World.Covers (function args) := by
  intro w hw hon
  have hargs := fun arg harg => (ha arg harg).mono hon
  obtain ⟨hfaults, hanswers⟩ := hscoped name function hfind args w hw.1.toSound hw.2 hargs
  obtain ⟨symbols, pool, hdeclared, hpool, heq⟩ := honly name function hfind args w
  obtain ⟨hgrows, -⟩ := hdeclared.declaredAs.conducted (fun h => h)
    (fun h _ => ⟨(SymbolTable.declare_grows h.symbols _ _).sound h.symbols, h.pool⟩)
    hw.1.toSound
  refine ⟨fun e w' he id hid => ?_, fun node w' hok => ?_⟩
  · rw [he, hid] at hfaults
    exact hfaults id rfl
  · rw [hok] at hanswers heq
    obtain rfl : w' = { w with symbols, pool } := heq
    have hsize : w.symbols.size ≤ symbols.size := hgrows.symbols
    have hscoped := hw.1.grown (hgrows.sound hw.1.symbols) hsize (hpool.sound hw.1.pool)
    exact ⟨⟨hscoped, hw.2.trans hsize⟩, hsize, hanswers node rfl⟩

theorem CompilerFunctions.answer_leads {functions : CompilerFunctions}
    (hscoped : functions.Scoped n) (honly : functions.DeclareOnly fun _ => True) {target : Node}
    {args : List Node} (ht : target.Below first.symbols.size)
    (ha : ∀ arg ∈ args, arg.Below first.symbols.size) :
    (World.scope n).Leads first World.Covers (functions.answer target args) := by
  refine .bind Transforming.symbols_leads fun w symbols _ hon _ => ?_
  have hargs := fun arg harg => (ha arg harg).mono hon
  rcases hfind : functions.functionOf? symbols target with _ | function
  · exact .pure fun _ _ hon' => Node.below_invoke (ht.mono (Nat.le_trans hon hon'))
      fun arg harg => (hargs arg harg).mono hon'
  · obtain ⟨name, -, hname⟩ := Option.bind_eq_some_iff.mp hfind
    exact hscoped.leads honly hname hargs

end Passes

/-! ## Passes -/

/-- A scripted function of declared symbols. -/
structure Script.Below (n : Nat) (script : Script) : Prop where
  symbol : script.symbol < n
  params : ∀ id ∈ script.params, id < n
  body : script.body.Below n

theorem Script.Below.mono {n m : Nat} {script : Script} (h : script.Below n) (hle : n ≤ m) :
    script.Below m :=
  ⟨Nat.lt_of_lt_of_le h.symbol hle, fun id hid => Nat.lt_of_lt_of_le (h.params id hid) hle,
    h.body.mono hle⟩

/-- Scripted functions of declared symbols. -/
def Scripts.Below (n : Nat) (scripts : Scripts) : Prop :=
  ∀ entry ∈ scripts.entries, entry.2.Below n

theorem Scripts.Below.mono {n m : Nat} {scripts : Scripts} (h : scripts.Below n) (hle : n ≤ m) :
    scripts.Below m :=
  fun entry hentry => (h entry hentry).mono hle

theorem Scripts.Below.get? {n : Nat} {scripts : Scripts} (h : scripts.Below n) {name : String}
    {script : Script} (hget : scripts.get? name = some script) : script.Below n := by
  obtain ⟨before, after, hsplit, -⟩ := List.lookup_eq_some_iff.mp hget
  refine h (name, script) ?_
  rw [hsplit]
  exact List.mem_append_right _ List.mem_cons_self

/-- Rules that lead from declared symbols to declared symbols. -/
abbrev Rules.Scoped (n : Nat) (r : Rules Transforming) : Prop :=
  r.Lead (World.scope n) World.Numbers World.Covers

section Rules

variable {n : Nat}

theorem Rules.scoped_default : Rules.Scoped n {} where
  anyOf _ h := .pure fun _ _ hon => Node.below_disjoin fun item hitem => (h item hitem).mono hon
  every _ h := .pure fun _ _ hon => Node.below_conjoin fun item hitem => (h item hitem).mono hon
  boolean value _ := Node.below_boolean value
  number value _ := Node.below_number value
  compare op _ _ _ hl hr := .pure fun _ _ hon => Node.below_compare op (hl.mono hon) (hr.mono hon)
  identifier _ h := .pure fun _ _ hon =>
    Node.below_identifier (Nat.lt_of_lt_of_le (h _ rfl) hon)
  invert _ h := .pure fun _ _ hon => Node.below_invert (h.mono hon)
  string value _ := .pure fun _ _ _ => Node.below_string value
  intercept _ _ := .pure fun _ _ _ _ => nofun
  invoke _ ht ha := .pure fun _ _ hon => Node.below_invoke (ht.mono hon)
    fun arg harg => (ha arg harg).mono hon

theorem Rules.Scoped.transform {r : Rules Transforming} (hr : r.Scoped n) {w : World} {node : Node}
    (h : node.Below w.symbols.size) :
    (World.scope n).Leads w World.Covers (r.transform node) :=
  Rules.Lead.transform hr World.numbers_keeps World.numbers_keeps.each node h

/-- Calls that are left alone keep their symbols. -/
theorem Rules.keepCalls_leads {w : World} {target : Node} {args : List Node}
    (h : (Node.invoke target args).Each w.Numbers) :
    (World.scope n).Leads w World.CoversTaken (Rules.keepCalls target args) :=
  .pure fun _ _ hon _ heq => Option.some.inj heq ▸ Node.Below.mono hon h

/-- The body of a function, with arguments put for its parameters. -/
theorem Inline.instantiate_below {m : Nat} {script : Script} (hbody : script.body.Below m)
    {args : List Node} (hargs : ∀ arg ∈ args, arg.Below m) : (instantiate script args).Below m :=
  hbody.substitute fun {_ node} hscope => hargs node (Node.mem_of_scopeOf hscope)

theorem Inline.rules_scoped {scripts : Scripts} (hscripts : scripts.Below n) (limit left : Nat) :
    (Inline.rules scripts limit left).Scoped n := by
  have hintercept : ∀ {expand : String → Node → Transforming Node},
      (∀ {w : World} name body, body.Below w.symbols.size →
        (World.scope n).Leads w World.Covers (expand name body)) →
      ∀ {w : World} {target : Node} {args : List Node}, (World.scope n).holds w →
        (Node.invoke target args).Each w.Numbers →
        (World.scope n).Leads w World.CoversTaken
        (Inline.intercept scripts expand target args) := by
    intro expand hexpand w target args _ h
    obtain ⟨-, hargs⟩ := Node.Below.args h
    refine .bind Transforming.symbols_leads fun w₁ symbols hw₁ hon₁ _ => ?_
    rcases hscript : Inline.scriptOf? scripts symbols target with _ | ⟨name, script⟩
    · exact .pure fun _ _ _ _ => nofun
    · have hbody : script.body.Below w₁.symbols.size :=
        (hscripts.get? (Inline.get?_of_scriptOf? hscript)).body.mono hw₁.2
      dsimp only
      split
      · refine .bind (hexpand name _ (Inline.instantiate_below hbody
          fun arg harg => (hargs arg harg).mono hon₁)) fun w₂ node _ _ hnode => ?_
        exact .pure fun _ _ hon _ heq => Option.some.inj heq ▸ hnode.mono hon
      · exact .throw fun _ _ _ _ => nofun
  induction left with
  | zero =>
    have hexceeded : ∀ {w : World} name (body : Node), body.Below w.symbols.size →
        (World.scope n).Leads w World.Covers
          (throw (.inlineDepth name limit) : Transforming Node) :=
      fun _ _ _ => .throw fun _ _ _ _ => nofun
    exact { Rules.scoped_default with intercept := hintercept hexceeded }
  | succ left ih =>
    exact { Rules.scoped_default with
      intercept := hintercept fun _ _ hbody => ih.transform hbody }

/-- The passes that an environment may ask for keep trees within the declared symbols. -/
theorem Pass.scoped_of_ofKind? {scripts : Scripts} (hscripts : scripts.Below n) {inlineDepth : Nat}
    {settings : Option Settings} {functions : Option CompilerFunctions}
    (hf : ∀ fs, functions = some fs → fs.DeclareOnly (fun _ => True) ∧ fs.Scoped n)
    {kind : PassKind} {pass : Pass}
    (hpass : Pass.ofKind? inlineDepth settings functions kind = some pass) :
    (pass.rules scripts).Scoped n := by
  have hdefault := Rules.scoped_default (n := n)
  cases kind with
  | connections =>
    cases hpass
    exact { hdefault with
      intercept := fun _ h => Elsewhere.intercept_leads (Node.Below.args h).2 }
  | inlineCalls =>
    cases hpass
    exact Inline.rules_scoped hscripts _ _
  | fold =>
    cases hpass
    exact { hdefault with
      compare := fun op _ _ _ hl hr => Fold.compare_leads op hl hr
      invert := fun _ h => Fold.invert_leads h }
  | bareCalls =>
    cases hpass
    exact { hdefault with
      identifier := fun _ h => BareCall.identifier_leads scripts (h _ rfl)
      intercept := fun _ h => Rules.keepCalls_leads h }
  | collapseHas =>
    cases hpass
    exact { hdefault with
      anyOf := fun _ h => Item.anyOf_leads h
      every := fun _ h => Item.every_leads h }
  | promoteTokens =>
    cases hpass
    exact { hdefault with
      identifier := fun _ h => Item.promoteIdentifier_leads (h _ rfl)
      string := fun value _ => Item.promoteString_leads value
      intercept := fun _ h => Rules.keepCalls_leads h }
  | settings =>
    obtain ⟨values, -, rfl⟩ := Option.map_eq_some_iff.mp hpass
    exact { hdefault with
      identifier := fun _ h => SettingValue.identifier_leads values (h _ rfl) }
  | compilerCalls =>
    obtain ⟨fs, hfs, rfl⟩ := Option.map_eq_some_iff.mp hpass
    obtain ⟨honly, hscoped⟩ := hf fs hfs
    exact { hdefault with
      invoke := fun _ ht ha => CompilerFunctions.answer_leads hscoped honly ht ha }

end Rules

/-! ## Code -/

/-- The generation of code stops at an unknown symbol. -/
def CompileError.IsUnknown : CompileError → Prop
  | .unknownSymbol _ => True
  | _ => False

/-- A step of code generation that does not stop at an unknown symbol. -/
abbrev Drafting.Knows {α : Type} (m : Drafting α) : Prop :=
  Spares (fun _ => True) CompileError.IsUnknown m

namespace Drafting

variable {symbols : SymbolTable}

theorem emit_knows (op : Opcode) (operands : Operands) : (emit op operands).Knows :=
  fun _ _ => ⟨nofun, fun _ _ => trivial⟩

theorem symbol_knows {id : SymbolId} (hid : id < symbols.size) : (symbol symbols id).Knows := by
  obtain ⟨known, hknown⟩ := SymbolTable.get?_of_lt hid
  rw [symbol, hknown]
  exact .pure known

theorem pointerOf_knows {id : SymbolId} (hid : id < symbols.size) :
    (pointerOf symbols id).Knows := by
  refine .bind (symbol_knows hid) fun known => .bind .get fun d => ?_
  split
  · exact .throw nofun
  · exact .bind (fun _ _ => ⟨nofun, fun _ _ => trivial⟩) fun _ =>
      .bind (fun _ _ => ⟨nofun, fun _ _ => trivial⟩) fun _ => .pure _

theorem pushIdentifier_knows {id : SymbolId} (hid : id < symbols.size) :
    (pushIdentifier symbols id).Knows := by
  refine .bind (symbol_knows hid) fun known => ?_
  split
  · exact .bind (pointerOf_knows hid) fun _ => .bind (emit_knows _ _) fun _ => .pure _
  · exact .throw nofun

theorem operandCount_knows (nodes : List Node) : (operandCount nodes).Knows := by
  unfold operandCount
  dsimp only
  split
  · exact .pure _
  · exact .throw nofun

theorem pushConstant_knows (op : ObjectPool → Except PoolError ObjectIndex × ObjectPool) :
    (pushConstant op).Knows := by
  have hrefer : ∀ index, (refer index).Knows :=
    fun _ _ _ => ⟨fun _ he => (by cases he), fun _ _ => trivial⟩
  refine .bind (fun d _ => ⟨fun e he => ?_, fun _ _ => trivial⟩) fun index =>
    .bind (hrefer index) fun _ => emit_knows _ _
  obtain ⟨pool, assembler, consts, names⟩ := d
  rw [intern] at he
  rcases hres : op pool with ⟨e' | index, pool'⟩ <;> rw [hres] at he
  · obtain rfl := Except.error.inj he
    exact fun hunknown => hunknown
  · simp at he

theorem calleeName_knows {target : Node} (ht : target.Below symbols.size) (count : Nat) :
    (calleeName symbols target count).Knows := by
  unfold calleeName
  rcases htarget : target.identifier? with _ | callee
  · exact .throw nofun
  · refine .bind (symbol_knows (ht.identifier? htarget)) fun known => .bind .get fun d => ?_
    split
    · exact .throw nofun
    · split
      · exact .pure _
      · exact .throw nofun

/-- What is called is a declared symbol. -/
theorem calleeName_lt {target : Node} {count : Nat} {d : Draft} {callee : SymbolId × String}
    (h : (calleeName symbols target count d).1 = .ok callee) : callee.1 < symbols.size := by
  obtain ⟨-, hname, -⟩ := calleeName_eq_ok (Prod.ext h rfl)
  obtain ⟨s, hget, -⟩ := Option.map_eq_some_iff.mp hname
  exact SymbolTable.get?_eq_some_lt hget

/-- Writing the code of declared symbols does not stop at an unknown one. -/
theorem upkeep_knows (symbols : SymbolTable) :
    Upkeep Knows symbols (· < symbols.size) (· < symbols.size) where
  pure := .pure
  bind := .bind
  emit := emit_knows
  count := operandCount_knows
  number value := pushConstant_knows (·.internNumber value)
  text value := pushConstant_knows (·.internString value)
  identifier := pushIdentifier_knows
  pointer := pointerOf_knows
  callee ht hf := .bind_of (calleeName_knows ht _) (fun _ _ _ => calleeName_lt) hf

end Drafting

/-- Compiling a node of declared symbols does not stop at an unknown one. -/
theorem Node.Below.compile {node : Node} {symbols : SymbolTable} (h : node.Below symbols.size)
    (fast : Bool) (pool : ObjectPool) (id : SymbolId) :
    (node.compile symbols (.enabled fast) pool).1 ≠ .error (.unknownSymbol id) := by
  have hupkeep := Drafting.upkeep_knows symbols
  have hknows := (hupkeep.visit (hupkeep.enabled fast) node h (.start pool) trivial).1
  unfold Node.compile
  rcases hres : (Drafting.visit symbols (.enabled fast) node).run.run (.start pool) with
    ⟨e | ⟨⟩, draft⟩
  · intro heq
    exact hknows e (congrArg Prod.fst hres) (Except.error.inj heq ▸ trivial)
  · exact nofun

end Passage

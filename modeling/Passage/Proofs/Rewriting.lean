import Passage.Pass.Standard
import Passage.Proofs.Names
import Passage.Proofs.Nesting
import Passage.Proofs.Truth

/-!
# Passes keep the truth

On rules about items and facts, a pass is faithful if it leaves the world alone and keeps
the truth value (`Rules.Faithful`). What its rules do with one node decides that, since the
induction over nodes is made once (`Rules.Faithful.transform`). The passes differ in which
names they leave standing alone: behind the one that calls bare names no fact does, and
behind the one that asks for bare items no name does at all.
-/

namespace Passage

/-! ## Readings of a symbol table -/

/-- The symbols that a reading speaks of are those of the table. -/
structure Reading.Of (r : Reading) (symbols : SymbolTable) : Prop where
  sound : symbols.Sound
  has : symbols.Knows Lowering.hasName .builtInFunction r.has
  every : symbols.Knows Item.everyName .builtInFunction r.every
  any : symbols.Knows Item.anyName .builtInFunction r.any
  item : ∀ {id}, r.IsItem id → symbols.kindOf? id = some .token
  fact : ∀ {id}, r.IsFact id → symbols.kindOf? id = some .builtInFunction
  elsewhere : ∀ name ∈ [Elsewhere.atName, Elsewhere.hereName],
    ∃ id, symbols.Knows name .compilerFunction id

theorem Transforming.declare_function {w : World} {name : String} {id : SymbolId}
    (h : w.symbols.Knows name .builtInFunction id) :
    Transforming.declare name .function w = (.ok id, w) := by
  unfold Transforming.declare Transforming.onWorld World.onSymbols
  dsimp only
  rw [h.declare_function]
  rfl

theorem SymbolTable.get?_of_kindOf? {symbols : SymbolTable} {id : SymbolId} {kind : Symbol.Kind}
    (h : symbols.kindOf? id = some kind) : ∃ s, symbols.get? id = some s ∧ s.kind = kind :=
  Option.map_eq_some_iff.mp h

namespace Reading.Of

variable {r : Reading} {symbols : SymbolTable}

/-- Questions are calls of built-in functions. -/
theorem callee (h : r.Of symbols) {target : Node} {args : List Node}
    (hq : r.IsQuestion target args) :
    ∃ id, target = .identifier id ∧ symbols.kindOf? id = some .builtInFunction := by
  cases hq with
  | has count _ => exact ⟨r.has, rfl, h.has.kindOf? h.sound⟩
  | every _ => exact ⟨r.every, rfl, h.every.kindOf? h.sound⟩
  | any _ => exact ⟨r.any, rfl, h.any.kindOf? h.sound⟩
  | fact hfact => exact ⟨_, rfl, h.fact hfact⟩

/-- No built-in function goes by a name of the functions about regions. -/
theorem name_ne (h : r.Of symbols) {id : SymbolId} {s : Symbol} (hget : symbols.get? id = some s)
    (hkind : s.kind = .builtInFunction) {name : String}
    (hname : name ∈ [Elsewhere.atName, Elsewhere.hereName]) : s.name ≠ name := by
  rintro rfl
  obtain ⟨id', hknown⟩ := h.elsewhere s.name hname
  have hsame := (SymbolTable.Knows.of_get? h.sound hget).unique hknown
  exact absurd (hkind.symm.trans hsame.1) (by decide)

end Reading.Of

/-! ## Faithful rules -/

/-- The step leaves the world alone, and answers with a rule about items and facts that has
the truth value. -/
def Rewrites (r : Reading) (w : World) (alone : SymbolId → Prop) (value : Bool)
    (step : Transforming Node) : Prop :=
  ∃ node, step w = (.ok node, w) ∧ node.Within r alone ∧ node.truth r = value

/-- Rules that keep the truth, and leave of the names that stand alone those that `alone'`
allows. Questions stay as they are. -/
structure Rules.Faithful (r : Reading) (w : World) (alone alone' : SymbolId → Prop)
    (rules : Rules Transforming) : Prop where
  anyOf : ∀ {items : List Node}, (∀ item ∈ items, item.Within r alone') →
    Rewrites r w alone' (items.any (Node.truth r)) (rules.anyOf items)
  every : ∀ {items : List Node}, (∀ item ∈ items, item.Within r alone') →
    Rewrites r w alone' (items.all (Node.truth r)) (rules.every items)
  invert : ∀ {inner : Node}, inner.Within r alone' →
    Rewrites r w alone' (!inner.truth r) (rules.invert inner)
  identifier : ∀ {id : SymbolId}, alone id → Rewrites r w alone' (r.states id) (rules.identifier id)
  question : ∀ {target : Node} {args : List Node}, r.IsQuestion target args →
    rules.transform (.invoke target args) w = (.ok (.invoke target args), w)

variable {r : Reading} {w : World} {alone alone' alone'' : SymbolId → Prop}

theorem Rewrites.pure {node : Node} (h : node.Within r alone) :
    Rewrites r w alone (node.truth r) (pure node) :=
  ⟨node, rfl, h, rfl⟩

theorem rewrites_disjoin {items : List Node} (h : ∀ item ∈ items, item.Within r alone) :
    Rewrites r w alone (items.any (Node.truth r)) (pure (.disjoin items)) :=
  ⟨_, rfl, Node.within_disjoin h, Node.truth_disjoin items⟩

theorem rewrites_conjoin {items : List Node} (h : ∀ item ∈ items, item.Within r alone) :
    Rewrites r w alone (items.all (Node.truth r)) (pure (.conjoin items)) :=
  ⟨_, rfl, Node.within_conjoin h, Node.truth_conjoin items⟩

namespace Rules

variable {rules : Rules Transforming}

/-- Nodes of which each is transformed faithfully keep their truth values. -/
theorem transformAll_rewrites {items : List Node}
    (h : ∀ item ∈ items, Rewrites r w alone (item.truth r) (rules.transform item))
    (done : List Node) :
    ∃ items', rules.transformAll done items w = (.ok (done.reverse ++ items'), w) ∧
      (∀ item ∈ items', item.Within r alone) ∧
      items'.map (Node.truth r) = items.map (Node.truth r) := by
  induction items generalizing done with
  | nil =>
    refine ⟨[], ?_, List.forall_mem_nil _, rfl⟩
    rw [transformAll, List.append_nil, pure_apply]
  | cons node rest ih =>
    obtain ⟨hnode, hrest⟩ := List.forall_mem_cons.mp h
    obtain ⟨node', hstep, hwithin, htruth⟩ := hnode
    obtain ⟨rest', hall, hwithin', htruth'⟩ := ih hrest (node' :: done)
    refine ⟨node' :: rest', ?_, List.forall_mem_cons.mpr ⟨hwithin, hwithin'⟩, ?_⟩
    · rw [transformAll, bind_ok hstep, hall, List.reverse_cons, List.append_assoc,
        List.singleton_append]
    · rw [List.map_cons, List.map_cons, htruth, htruth']

/-- Nodes that are transformed to themselves stay. -/
theorem transformAll_same {items : List Node}
    (h : ∀ item ∈ items, rules.transform item w = (.ok item, w)) (done : List Node) :
    rules.transformAll done items w = (.ok (done.reverse ++ items), w) := by
  induction items generalizing done with
  | nil => rw [transformAll, List.append_nil, pure_apply]
  | cons node rest ih =>
    obtain ⟨hnode, hrest⟩ := List.forall_mem_cons.mp h
    rw [transformAll, bind_ok hnode, ih hrest, List.reverse_cons, List.append_assoc,
      List.singleton_append]

/-- What faithful rules do throughout a node. -/
theorem Faithful.transform (hr : rules.Faithful r w alone alone') {node : Node}
    (h : node.Within r alone) : Rewrites r w alone' (node.truth r) (rules.transform node) := by
  induction h with
  | boolean value =>
    rw [Rules.transform]
    exact .pure (.boolean value)
  | identifier hid =>
    rw [Rules.transform]
    exact hr.identifier hid
  | @invert inner _ ih =>
    obtain ⟨inner', hstep, hwithin, htruth⟩ := ih
    obtain ⟨node, hinvert, hnode, hvalue⟩ := hr.invert hwithin
    refine ⟨node, ?_, hnode, ?_⟩
    · rw [Rules.transform, bind_ok hstep, hinvert]
    · rw [hvalue, htruth, Node.truth_invert]
  | @anyOf items _ ih =>
    obtain ⟨items', hall, hwithin, htruth⟩ := transformAll_rewrites ih []
    obtain ⟨node, hanyOf, hnode, hvalue⟩ := hr.anyOf hwithin
    have hany := congrArg (List.any · id) htruth
    rw [List.any_map, List.any_map] at hany
    refine ⟨node, ?_, hnode, ?_⟩
    · rw [Rules.transform, bind_ok hall]
      exact hanyOf
    · rw [hvalue, Node.truth_anyOf]
      exact hany
  | @every items _ ih =>
    obtain ⟨items', hall, hwithin, htruth⟩ := transformAll_rewrites ih []
    obtain ⟨node, hevery, hnode, hvalue⟩ := hr.every hwithin
    have hconj := congrArg (List.all · id) htruth
    rw [List.all_map, List.all_map] at hconj
    refine ⟨node, ?_, hnode, ?_⟩
    · rw [Rules.transform, bind_ok hall]
      exact hevery
    · rw [hvalue, Node.truth_every]
      exact hconj
  | question hq => exact ⟨_, hr.question hq, .question hq, rfl⟩

/-! ## Questions -/

/-- Questions stay as they are where calls are left alone. -/
theorem transform_keepCalls (hrules : rules.intercept = keepCalls) (target : Node)
    (args : List Node) :
    rules.transform (.invoke target args) w = (.ok (.invoke target args), w) := by
  have hkeep : rules.intercept target args w = (.ok (some (.invoke target args)), w) := by
    rw [hrules]
    rfl
  rw [transform, bind_ok hkeep]
  rfl

/-- Questions stay as they are where the call is not taken, and what it is made of stays. -/
theorem transform_question {target : Node} {args : List Node} (hq : r.IsQuestion target args)
    (hintercept : rules.intercept target args w = (.ok none, w))
    (hidentifier : ∀ id, rules.identifier id w = (.ok (.identifier id), w))
    (hinvoke : rules.invoke target args w = (.ok (.invoke target args), w)) :
    rules.transform (.invoke target args) w = (.ok (.invoke target args), w) := by
  have hname : ∀ id, rules.transform (.identifier id) w = (.ok (.identifier id), w) := by
    intro id
    rw [transform, hidentifier]
  have hnumber : ∀ value, rules.transform (.number value) w = (.ok (.number value), w) := by
    intro value
    rw [transform, pure_apply]
  have hnames : ∀ items : List SymbolId, ∀ item ∈ items.map Node.identifier,
      rules.transform item w = (.ok item, w) := by
    intro items item hitem
    obtain ⟨id, -, rfl⟩ := List.mem_map.mp hitem
    exact hname id
  have hparts : rules.transform target w = (.ok target, w) ∧
      rules.transformAll [] args w = (.ok args, w) := by
    cases hq with
    | has count _ =>
      refine ⟨hname _, transformAll_same ?_ []⟩
      exact List.forall_mem_cons.mpr ⟨hname _, List.forall_mem_singleton.mpr (hnumber _)⟩
    | every _ => exact ⟨hname _, transformAll_same (hnames _) []⟩
    | any _ => exact ⟨hname _, transformAll_same (hnames _) []⟩
    | fact _ => exact ⟨hname _, transformAll_same (List.forall_mem_nil _) []⟩
  rw [transform, bind_ok hintercept]
  dsimp only
  rw [bind_ok hparts.1, bind_ok hparts.2, hinvoke]

end Rules

/-! ## The passes -/

section

variable (hr : r.Of w.symbols) (hc : r.Coherent)

include hr

/-- Rules about regions are not questions of the host. -/
theorem connections_faithful (scripts : Scripts) (alone : SymbolId → Prop) :
    (Pass.connections.rules scripts).Faithful r w alone alone where
  anyOf := rewrites_disjoin
  every := rewrites_conjoin
  invert h := .pure (.invert h)
  identifier h := .pure (.identifier h)
  question {target args} hq := by
    refine Rules.transform_question hq ?_ (fun _ => rfl) rfl
    obtain ⟨id, rfl, hkindOf⟩ := hr.callee hq
    obtain ⟨s, hget, hkind⟩ := SymbolTable.get?_of_kindOf? hkindOf
    have hname : (Node.identifier id).identifier?.bind w.symbols.nameOf? = some s.name := by
      show w.symbols.nameOf? id = some s.name
      rw [SymbolTable.nameOf?, hget]
      rfl
    have hat : some s.name ≠ some Elsewhere.atName := fun h =>
      hr.name_ne hget hkind List.mem_cons_self (Option.some.inj h)
    have hhere : some s.name ≠ some Elsewhere.hereName := fun h =>
      hr.name_ne hget hkind (List.mem_cons_of_mem _ List.mem_cons_self) (Option.some.inj h)
    show Elsewhere.intercept _ args w = _
    rw [Elsewhere.intercept, bind_ok (Transforming.symbols_apply w), hname, if_neg hat,
      if_neg hhere, pure_apply]

/-- No question calls a scripted function. -/
theorem inlineCalls_faithful (limit : Nat) (scripts : Scripts) (alone : SymbolId → Prop) :
    ((Pass.inlineCalls limit).rules scripts).Faithful r w alone alone := by
  have hscript : ∀ {target : Node} {args : List Node}, r.IsQuestion target args →
      Inline.scriptOf? scripts w.symbols target = none := by
    intro target args hq
    obtain ⟨id, rfl, hkindOf⟩ := hr.callee hq
    obtain ⟨s, hget, hkind⟩ := SymbolTable.get?_of_kindOf? hkindOf
    exact Inline.scriptOf?_of_kind_ne hget (by rw [hkind]; decide)
  -- Whatever the body of a function would be made into, none is reached.
  have hfaithful : ∀ expand : String → Node → Transforming Node,
      Rules.Faithful r w alone alone { intercept := Inline.intercept scripts expand } := by
    intro expand
    refine ⟨rewrites_disjoin, rewrites_conjoin, fun h => .pure (.invert h),
      fun h => .pure (.identifier h), fun {target args} hq => ?_⟩
    refine Rules.transform_question hq ?_ (fun _ => rfl) rfl
    exact Inline.intercept_of_none (hscript hq)
  show (Inline.rules scripts limit limit).Faithful r w alone alone
  cases limit <;> exact hfaithful _

omit hr in
/-- A negated boolean has the truth value of the negation. -/
theorem fold_faithful (scripts : Scripts) (alone : SymbolId → Prop) :
    (Pass.fold.rules scripts).Faithful r w alone alone where
  anyOf := rewrites_disjoin
  every := rewrites_conjoin
  invert {inner} h := by
    show Rewrites r w alone (!inner.truth r) (Fold.invert inner)
    unfold Fold.invert
    split
    · exact .pure (.boolean _)
    · exact .pure (.invert h)
  identifier h := .pure (.identifier h)
  question hq := Rules.transform_question hq rfl (fun _ => rfl) rfl

include hc

/-- A fact that stands alone becomes a call, which says the same. -/
theorem bareCalls_faithful (scripts : Scripts)
    (halone : ∀ id, alone id → r.IsItem id ∨ r.IsFact id) :
    (Pass.bareCalls.rules scripts).Faithful r w alone fun id => alone id ∧ r.IsItem id where
  anyOf := rewrites_disjoin
  every := rewrites_conjoin
  invert h := .pure (.invert h)
  identifier {id} h := by
    show Rewrites r w _ (r.states id) (BareCall.identifier scripts id)
    obtain hitem | hfact := halone id h
    · obtain ⟨s, hget, hkind⟩ := SymbolTable.get?_of_kindOf? (hr.item hitem)
      refine ⟨.identifier id, ?_, .identifier ⟨h, hitem⟩, rfl⟩
      rw [BareCall.identifier, bind_ok (Transforming.symbols_apply w), hget]
      dsimp only
      rw [hkind]
      rfl
    · obtain ⟨s, hget, hkind⟩ := SymbolTable.get?_of_kindOf? (hr.fact hfact)
      refine ⟨.call id [], ?_, .question (.fact hfact), hc.answer_fact hfact⟩
      rw [BareCall.identifier, bind_ok (Transforming.symbols_apply w), hget]
      dsimp only
      rw [hkind]
      rfl
  question _ := Rules.transform_keepCalls rfl _ _

/-- An item that stands alone becomes the question for one of it, which says the same. -/
theorem promoteTokens_faithful (scripts : Scripts) (halone : ∀ id, alone id → r.IsItem id) :
    (Pass.promoteTokens.rules scripts).Faithful r w alone fun _ => False where
  anyOf := rewrites_disjoin
  every := rewrites_conjoin
  invert h := .pure (.invert h)
  identifier {id} h := by
    have hitem := halone id h
    obtain ⟨s, hget, hkind⟩ := SymbolTable.get?_of_kindOf? (hr.item hitem)
    have hheld : Item.held id w = (.ok (.has r.has id Item.one), w) := by
      rw [Item.held, bind_ok (Transforming.declare_function hr.has), pure_apply]
    have htoken : Item.tokenOf? w.symbols s = some id := by
      rw [Item.tokenOf?, if_pos hkind, hr.sound.ids hget]
    refine ⟨.has r.has id Item.one, ?_, .question (.has 1 hitem), ?_⟩
    · show Item.promoteIdentifier id w = _
      rw [Item.promoteIdentifier, bind_ok (Transforming.symbols_apply w), hget]
      dsimp only
      rw [htoken]
      exact hheld
    · exact (Reading.Coherent.answer_has id Item.one).trans (hc.item hitem).symm
  question _ := Rules.transform_keepCalls rfl _ _

end

end Passage

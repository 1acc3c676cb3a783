import Passage.Proofs.Substituting

/-!
# What stands where in a tree

Some passes leave calls alone, and others do not. So what is left to do on a tree depends on
which names and texts stand in the arguments of a call, and which stand bare. A `Scheme` says
what may stand where, and `Node.Fits` that a tree keeps to it.

The body of a scripted function is put in the place of its call. What stands in the arguments of
such a call stands bare as soon as it is expanded, so it counts as bare where the call itself
does (`Node.Fits.substitute`). Only names are called, and literals, which the names of settings
may become.
-/

namespace Passage

/-! ## Schemes -/

/-- What may stand where. -/
structure Scheme where
  /-- Names that are no part of a call. -/
  bare : SymbolId → Prop
  /-- Names anywhere but in the place of a callee. -/
  name : SymbolId → Prop
  /-- Texts that are no part of a call. -/
  text : String → Prop
  /-- Callees, with the number of arguments. -/
  call : SymbolId → Nat → Prop
  /-- Callees in whose place a body is put, with the arguments in it. -/
  script : SymbolId → Prop
  /-- Callees that compare two operands by a code. -/
  weigh : SymbolId → Number → Node → Node → Prop

namespace Node

/-- Whether the node is a literal or a name. -/
def isOperand : Node → Bool
  | .boolean _ | .number _ | .string _ | .identifier _ => true
  | _ => false

/-- The tree keeps to the scheme, where it may be a part of a call or must not. -/
inductive Fits (S : Scheme) : Bool → Node → Prop
  | anyOf {bare : Bool} {items : List Node} : (∀ item ∈ items, Fits S bare item) →
      Fits S bare (.anyOf items)
  | every {bare : Bool} {items : List Node} : (∀ item ∈ items, Fits S bare item) →
      Fits S bare (.every items)
  | boolean {bare : Bool} (value : Bool) : Fits S bare (.boolean value)
  | compare {bare : Bool} (op : Comparison) {lhs rhs : Node} : Fits S bare lhs → Fits S bare rhs →
      Fits S bare (.compare op lhs rhs)
  | identifier {bare : Bool} {id : SymbolId} : S.name id → (bare = true → S.bare id) →
      Fits S bare (.identifier id)
  | invert {bare : Bool} {inner : Node} : Fits S bare inner → Fits S bare (.invert inner)
  | number {bare : Bool} (value : Number) : Fits S bare (.number value)
  | string {bare : Bool} {value : String} : (bare = true → S.text value) →
      Fits S bare (.string value)
  | call {bare : Bool} {callee : SymbolId} {args : List Node} : S.call callee args.length →
      (∀ arg ∈ args, Fits S false arg) → Fits S bare (.call callee args)
  | script {bare : Bool} {callee : SymbolId} {args : List Node} : S.script callee →
      (∀ arg ∈ args, Fits S bare arg) → Fits S bare (.call callee args)
  | weigh {bare : Bool} {callee : SymbolId} {code : Number} {lhs rhs : Node} :
      S.weigh callee code lhs rhs → lhs.isOperand = true → rhs.isOperand = true →
      Fits S false lhs → Fits S false rhs → Fits S bare (.call callee [.number code, lhs, rhs])
  | idle {bare : Bool} {target : Node} {args : List Node} : target.isLiteral = true →
      (∀ arg ∈ args, Fits S false arg) → Fits S bare (.invoke target args)

theorem isOperand_of_isLiteral {node : Node} (h : node.isLiteral = true) :
    node.isOperand = true := by
  cases node <;> first | rfl | cases h

theorem identifier?_of_isLiteral {node : Node} (h : node.isLiteral = true) :
    node.identifier? = none := by
  cases node <;> first | rfl | cases h

theorem Each.of_isLiteral {P : Node → Prop} {node : Node} (h : node.isLiteral = true)
    (hp : P node) : node.Each P := by
  cases node with
  | boolean _ => exact .boolean hp
  | number _ => exact .number hp
  | string _ => exact .string hp
  | _ => cases h

end Node

namespace Scheme

/-- What the first scheme allows in calls, the second one does. -/
structure Inside (S S' : Scheme) : Prop where
  name : ∀ {id}, S.name id → S'.name id
  call : ∀ {callee count}, S.call callee count → S'.call callee count
  script : ∀ {callee}, S.script callee → S'.script callee
  weigh : ∀ {callee code lhs rhs}, S.weigh callee code lhs rhs → S'.weigh callee code lhs rhs

/-- What the first scheme allows, the second one does. -/
structure Within (S S' : Scheme) : Prop extends Inside S S' where
  bare : ∀ {id}, S.bare id → S'.bare id
  text : ∀ {value}, S.text value → S'.text value

variable {S S' S'' : Scheme}

theorem Within.trans (h : S.Within S') (h' : S'.Within S'') : S.Within S'' where
  name hn := h'.name (h.name hn)
  call hc := h'.call (h.call hc)
  script hs := h'.script (h.script hs)
  weigh hw := h'.weigh (h.weigh hw)
  bare hb := h'.bare (h.bare hb)
  text ht := h'.text (h.text ht)

/-- The callees of the scheme are no names of the list, and nothing of it is compared. -/
structure Avoids (S : Scheme) (ids : List SymbolId) : Prop where
  call : ∀ {callee count}, S.call callee count → callee ∉ ids
  script : ∀ {callee}, S.script callee → callee ∉ ids
  weigh : ∀ {callee code lhs rhs}, S.weigh callee code lhs rhs → callee ∉ ids ∧
    ∀ id ∈ ids, lhs ≠ .identifier id ∧ rhs ≠ .identifier id

end Scheme

namespace Node.Fits

variable {S S' : Scheme} {bare : Bool} {node : Node}

/-- A literal stands anywhere, if the texts may that stand bare. -/
theorem literal (h : node.isLiteral = true) (htext : bare = true → ∀ value, S.text value) :
    node.Fits S bare := by
  cases node with
  | boolean value => exact .boolean value
  | number value => exact .number value
  | string value => exact .string fun hb => htext hb value
  | _ => cases h

/-- What may stand bare may stand in a call. -/
theorem inside (h : node.Fits S bare) : node.Fits S false := by
  induction h with
  | anyOf _ ih => exact .anyOf ih
  | every _ ih => exact .every ih
  | boolean value => exact .boolean value
  | compare op _ _ ihl ihr => exact .compare op ihl ihr
  | identifier hname _ => exact .identifier hname nofun
  | invert _ ih => exact .invert ih
  | number value => exact .number value
  | string _ => exact .string nofun
  | call hcall hargs _ => exact .call hcall hargs
  | script hscript _ ih => exact .script hscript ih
  | weigh hweigh hlhs hrhs hl hr _ _ => exact .weigh hweigh hlhs hrhs hl hr
  | idle htarget hargs _ => exact .idle htarget hargs

theorem mono_of (hinside : S.Inside S')
    (hbare : bare = true → S.Within S') (h : node.Fits S bare) : node.Fits S' bare := by
  induction h with
  | anyOf _ ih => exact .anyOf fun item hitem => ih item hitem hbare
  | every _ ih => exact .every fun item hitem => ih item hitem hbare
  | boolean value => exact .boolean value
  | compare op _ _ ihl ihr => exact .compare op (ihl hbare) (ihr hbare)
  | identifier hname hid =>
    exact .identifier (hinside.name hname) fun hb => (hbare hb).bare (hid hb)
  | invert _ ih => exact .invert (ih hbare)
  | number value => exact .number value
  | string htext => exact .string fun hb => (hbare hb).text (htext hb)
  | call hcall _ ih => exact .call (hinside.call hcall) fun arg harg => ih arg harg nofun
  | script hscript _ ih => exact .script (hinside.script hscript) fun arg harg => ih arg harg hbare
  | weigh hweigh hlhs hrhs _ _ ihl ihr =>
    exact .weigh (hinside.weigh hweigh) hlhs hrhs (ihl nofun) (ihr nofun)
  | idle htarget _ ih => exact .idle htarget fun arg harg => ih arg harg nofun

theorem mono (hwithin : S.Within S') (h : node.Fits S bare) : node.Fits S' bare :=
  h.mono_of hwithin.toInside fun _ => hwithin

/-- In a call only what is allowed there matters. -/
theorem mono_inside (hinside : S.Inside S') (h : node.Fits S false) : node.Fits S' false :=
  h.mono_of hinside nofun

/-- A call is as good as a bare one, if no body is put in its place. -/
theorem call_mono (hinside : S.Inside S') (hscript : ∀ callee, ¬ S.script callee)
    {target : Node} {args : List Node} (h : (Node.invoke target args).Fits S bare) :
    (Node.invoke target args).Fits S' bare := by
  cases h with
  | call hcall hargs =>
    exact .call (hinside.call hcall) fun arg harg => (hargs arg harg).mono_inside hinside
  | script hs _ => exact absurd hs (hscript _)
  | weigh hweigh hlhs hrhs hl hr =>
    exact .weigh (hinside.weigh hweigh) hlhs hrhs (hl.mono_inside hinside) (hr.mono_inside hinside)
  | idle htarget hargs =>
    exact .idle htarget fun arg harg => (hargs arg harg).mono_inside hinside

/-- What all trees of the scheme have, all parts of one do. -/
theorem each {P : Node → Prop} (hP : ∀ {bare node}, node.Fits S bare → P node)
    (hcallee : ∀ id, P (.identifier id)) (h : node.Fits S bare) : node.Each P := by
  have hp : P node := hP h
  induction h with
  | anyOf hitems ih => exact .anyOf hp fun item hitem => ih item hitem (hP (hitems item hitem))
  | every hitems ih => exact .every hp fun item hitem => ih item hitem (hP (hitems item hitem))
  | boolean _ => exact .boolean hp
  | compare _ hl hr ihl ihr => exact .compare hp (ihl (hP hl)) (ihr (hP hr))
  | identifier _ _ => exact .identifier hp
  | invert hinner ih => exact .invert hp (ih (hP hinner))
  | number _ => exact .number hp
  | string _ => exact .string hp
  | call _ hargs ih =>
    exact .invoke hp (.identifier (hcallee _)) fun arg harg => ih arg harg (hP (hargs arg harg))
  | script _ hargs ih =>
    exact .invoke hp (.identifier (hcallee _)) fun arg harg => ih arg harg (hP (hargs arg harg))
  | @weigh _ _ code _ _ _ _ _ hl hr ihl ihr =>
    refine .invoke hp (.identifier (hcallee _)) (List.forall_mem_cons.mpr ⟨.number ?_,
      List.forall_mem_cons.mpr ⟨ihl (hP hl), List.forall_mem_singleton.mpr (ihr (hP hr))⟩⟩)
    exact hP (@Fits.number S true code)
  | idle htarget hargs ih =>
    have hliteral : Node.Fits S false _ := literal htarget nofun
    exact .invoke hp (.of_isLiteral htarget (hP hliteral)) fun arg harg =>
      ih arg harg (hP (hargs arg harg))

theorem has {callee item : SymbolId} {quantity : Number} (hcall : S.call callee 2)
    (hitem : S.name item) : (Node.has callee item quantity).Fits S bare :=
  .call hcall (List.forall_mem_cons.mpr
    ⟨.identifier hitem nofun, List.forall_mem_singleton.mpr (.number quantity)⟩)

theorem conjoin {items : List Node} (h : ∀ item ∈ items, item.Fits S bare) :
    (Node.conjoin items).Fits S bare :=
  forall_conjoin (P := Fits S bare) (fun h => by cases h; assumption) .every .boolean h

theorem disjoin {items : List Node} (h : ∀ item ∈ items, item.Fits S bare) :
    (Node.disjoin items).Fits S bare :=
  forall_disjoin (P := Fits S bare) (fun h => by cases h; assumption) .anyOf .boolean h

/-- What is put for names fits where it is put, if no callee is replaced and nothing that is
compared. A tree inside a call stays there, wherever what is put in may stand. -/
theorem substitute {scope : SymbolId → Option Node} {ids : List SymbolId}
    (hwithin : S.Within S') (havoids : S.Avoids ids)
    (hscope : ∀ {id}, id ∉ ids → scope id = none)
    (hargs : ∀ {id arg}, scope id = some arg → arg.Fits S' bare) {own : Bool}
    (h : node.Fits S own) : (node.substitute scope).Fits S' (own && bare) := by
  have hstays : ∀ {id}, id ∉ ids → (Node.identifier id).substitute scope = .identifier id :=
    fun hid => substitute_unbound (hscope hid)
  have hoperand : ∀ {operand : Node}, operand.isOperand = true →
      (∀ id ∈ ids, operand ≠ .identifier id) → operand.substitute scope = operand := by
    intro operand hoperand hne
    cases operand with
    | identifier id => exact hstays fun hid => hne id hid rfl
    | boolean _ | number _ | string _ => rw [Node.substitute]
    | _ => cases hoperand
  induction h with
  | anyOf _ ih =>
    rw [substitute_anyOf]
    exact disjoin (List.forall_mem_map.mpr ih)
  | every _ ih =>
    rw [substitute_every]
    exact conjoin (List.forall_mem_map.mpr ih)
  | boolean value =>
    rw [Node.substitute]
    exact .boolean value
  | compare op _ _ ihl ihr =>
    rw [Node.substitute]
    exact .compare op ihl ihr
  | @identifier own id hname hid =>
    rcases hbound : scope id with _ | arg
    · rw [substitute_unbound hbound]
      refine .identifier (hwithin.name hname) fun hb => hwithin.bare (hid ?_)
      exact (Bool.and_eq_true_iff.mp hb).1
    · rw [substitute_bound hbound]
      cases own with
      | true => exact hargs hbound
      | false => exact (hargs hbound).inside
  | invert _ ih =>
    rw [Node.substitute]
    exact .invert ih
  | number value =>
    rw [Node.substitute]
    exact .number value
  | string htext =>
    rw [Node.substitute]
    exact .string fun hb => hwithin.text (htext (Bool.and_eq_true_iff.mp hb).1)
  | @call _ callee args hcall _ ih =>
    rw [Node.call, substitute_invoke, hstays (havoids.call hcall)]
    refine .call ?_ (List.forall_mem_map.mpr ih)
    rw [List.length_map]
    exact hwithin.call hcall
  | script hscript _ ih =>
    rw [Node.call, substitute_invoke, hstays (havoids.script hscript)]
    exact .script (hwithin.script hscript) (List.forall_mem_map.mpr ih)
  | @weigh _ callee code lhs rhs hweigh hlhs hrhs hl hr _ _ =>
    obtain ⟨hcallee, hnames⟩ := havoids.weigh hweigh
    rw [Node.call, substitute_invoke, hstays hcallee, List.map_cons, List.map_cons, List.map_cons,
      List.map_nil, hoperand hlhs fun id hid => (hnames id hid).1,
      hoperand hrhs fun id hid => (hnames id hid).2, Node.substitute]
    exact .weigh (hwithin.weigh hweigh) hlhs hrhs (hl.mono_inside hwithin.toInside)
      (hr.mono_inside hwithin.toInside)
  | idle htarget _ ih =>
    rw [substitute_invoke, hoperand (isOperand_of_isLiteral htarget)]
    · exact .idle htarget (List.forall_mem_map.mpr ih)
    · rintro id - rfl
      cases htarget

end Node.Fits

end Passage

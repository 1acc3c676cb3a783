import Passage.Pass.Standard
import Passage.Proofs.Fallible
import Passage.Proofs.Reserve

/-!
# Passes keep within the reserve

No pass makes a rule about items need more room than was reserved for it: not the pass that joins
questions, since the reserve counts on that, and not the others, which leave the form of such a
rule as it is (`Node.Eases`). What a pass does with one node decides that, since the
induction over nodes is made once (`Rules.Ease.transform`).
-/

namespace Passage

section

variable (q : Askers) (quantityAsked? : Node → List Node → Option (SymbolId × UInt8)) (still : Prop)

/-- The second node needs no more room than is reserved for the first one, pushes the same numbers,
and is a junction or a joined question only if the first one is. Where nothing is joined, it needs
the same room and asks for the same items. -/
structure Node.Eases (node node' : Node) : Prop where
  reserve : node'.reserve q quantityAsked? ≤ node.reserve q quantityAsked?
  numerals : node'.numerals quantityAsked? = node.numerals quantityAsked?
  need : still → node'.need quantityAsked? = node.need quantityAsked?
  items : still → ∀ IsItem : SymbolId → Prop, node'.Asking q IsItem True → node.Asking q IsItem True
  junction : ∀ (j : Junction) inner, node' = j.node inner → ∃ inner, node = j.node inner
  breadth : ∀ j : Junction, (∀ inner, node ≠ j.node inner) →
    node'.breadth (q.joining j) ≤ node.breadth (q.joining j)

end

namespace Node.Eases

variable {q : Askers} {quantityAsked? : Node → List Node → Option (SymbolId × UInt8)} {still : Prop}
  {node node' node'' : Node} {items items' : List Node} {j : Junction}

theorem refl (node : Node) : Eases q quantityAsked? still node node :=
  ⟨Nat.le_refl _, rfl, fun _ => rfl, fun _ _ => id, fun _ inner h => ⟨inner, h⟩,
    fun _ _ => Nat.le_refl _⟩

theorem trans (h : Eases q quantityAsked? still node node')
    (h' : Eases q quantityAsked? still node' node'') :
    Eases q quantityAsked? still node node'' where
  reserve := Nat.le_trans h'.reserve h.reserve
  numerals := h'.numerals.trans h.numerals
  need hstill := (h'.need hstill).trans (h.need hstill)
  items hstill IsItem hasking := h.items hstill IsItem (h'.items hstill IsItem hasking)
  junction j inner heq :=
    let ⟨inner', heq'⟩ := h'.junction j inner heq
    h.junction j inner' heq'
  breadth j hne := by
    refine Nat.le_trans (h'.breadth j fun inner heq => ?_) (h.breadth j hne)
    obtain ⟨inner', heq'⟩ := h.junction j inner heq
    exact hne inner' heq'

theorem invert (h : Eases q quantityAsked? still node node') :
    Eases q quantityAsked? still (.invert node) (.invert node') where
  reserve := h.reserve
  numerals := h.numerals
  need := h.need
  items hstill IsItem hasking := by
    cases hasking with
    | invert hinner => exact .invert (h.items hstill IsItem hinner)
  junction j _ heq := by cases j <;> exact absurd heq nofun
  breadth _ _ := Nat.le_refl 1

/-- Items that are eased make up a reduced junction again. -/
theorem reduced (hitems : List.Forall₂ (Eases q quantityAsked? still) items items')
    (hreduced : j.Reduced items) (hdecided : ∀ item ∈ items', ∀ value, item ≠ .boolean value) :
    j.Reduced items' := by
  refine ⟨hitems.length_eq ▸ hreduced.two, ?_, hdecided⟩
  have hflat := hreduced.flat
  clear hreduced hdecided
  induction hitems with
  | nil => nofun
  | cons heases _ ih =>
    obtain ⟨hitem, hrest⟩ := List.forall_mem_cons.mp hflat
    refine List.forall_mem_cons.mpr ⟨fun inner heq => ?_, ih hrest⟩
    obtain ⟨inner', heq'⟩ := heases.junction j inner heq
    exact hitem inner' heq'

/-- A junction whose items are eased is. -/
theorem of_items (hitems : List.Forall₂ (Eases q quantityAsked? still) items items')
    (hreduced : j.Reduced items) :
    Eases q quantityAsked? still (j.node items) (j.node items') := by
  have hall : breadths (q.joining j) items' ≤ breadths (q.joining j) items ∧
      reserveAll q quantityAsked? (q.joining j) items' ≤
        reserveAll q quantityAsked? (q.joining j) items ∧
      numeralsAll quantityAsked? items' = numeralsAll quantityAsked? items ∧
      (still → needAll quantityAsked? items' = needAll quantityAsked? items ∧
        ∀ IsItem : SymbolId → Prop, (∀ item ∈ items', item.Asking q IsItem True) →
          ∀ item ∈ items, item.Asking q IsItem True) := by
    have hflat := hreduced.flat
    clear hreduced
    induction hitems with
    | nil => exact ⟨Nat.le_refl 0, Nat.le_refl 0, rfl, fun _ => ⟨rfl, fun _ => id⟩⟩
    | cons heases _ ih =>
      obtain ⟨hitem, hrest⟩ := List.forall_mem_cons.mp hflat
      obtain ⟨hbreadths, hreserve, hnumerals, hlater⟩ := ih hrest
      have hbreadth := heases.breadth j hitem
      have hhere := heases.reserve
      refine ⟨?_, ?_, ?_, fun hstill => ⟨?_, fun IsItem hasking => ?_⟩⟩
      · rw [breadths_cons, breadths_cons]
        exact Nat.add_le_add hbreadth hbreadths
      · rw [reserveAll, reserveAll]
        omega
      · rw [numeralsAll, numeralsAll, heases.numerals, hnumerals]
      · rw [needAll, needAll, heases.need hstill, (hlater hstill).1]
      · obtain ⟨hfirst, hothers⟩ := List.forall_mem_cons.mp hasking
        exact List.forall_mem_cons.mpr
          ⟨heases.items hstill IsItem hfirst, (hlater hstill).2 IsItem hothers⟩
  obtain ⟨hbreadths, hreserve, hnumerals, hsame⟩ := hall
  constructor
  · rw [reserve_junction, reserve_junction]
    omega
  · rw [numerals_junction, numerals_junction, hnumerals]
  · intro hstill
    rw [need_junction, need_junction, (hsame hstill).1]
  · intro hstill IsItem hasking
    exact .junction hreduced ((hsame hstill).2 IsItem hasking.of_junction.2)
  · intro j' inner heq
    obtain ⟨rfl, -⟩ := Junction.node_eq_node heq
    exact ⟨items, rfl⟩
  · intro j' _
    rw [breadth_junction, breadth_junction]

end Node.Eases

/-! ## Rules -/

/-- What the rules do with the items of a junction. -/
def Rules.junction (rules : Rules Transforming) : Junction → List Node → Transforming Node
  | .every => rules.every
  | .anyOf => rules.anyOf

section

variable (q : Askers) (IsItem : SymbolId → Prop)
  (quantityAsked? : Node → List Node → Option (SymbolId × UInt8)) (still : Prop) (w : World)

/-- The step leaves the world alone, and eases the node. -/
def Easing (node : Node) (step : Transforming Node) : Prop :=
  ∃ node', step w = (.ok node', w) ∧ node'.Asking q IsItem True ∧
    Node.Eases q quantityAsked? still node node'

/-- Rules that ease what they are applied to. Questions stay as they are. -/
structure Rules.Ease (rules : Rules Transforming) : Prop where
  junction : ∀ (j : Junction) {items : List Node}, j.Reduced items →
    (∀ item ∈ items, item.Asking q IsItem True) →
    Easing q IsItem quantityAsked? still w (j.node items) (rules.junction j items)
  invert : ∀ {inner : Node}, inner.Asking q IsItem True →
    rules.invert inner w = (.ok (.invert inner), w)
  name : ∀ {id : SymbolId}, IsItem id →
    Easing q IsItem quantityAsked? still w (.identifier id) (rules.identifier id)
  question : ∀ {target : Node} {args : List Node}, (Node.invoke target args).Asking q IsItem True →
    rules.transform (.invoke target args) w = (.ok (.invoke target args), w)

end

namespace Rules

variable {q : Askers} {IsItem : SymbolId → Prop}
  {quantityAsked? : Node → List Node → Option (SymbolId × UInt8)} {still : Prop} {w : World}
  {rules : Rules Transforming} {node : Node} {items : List Node}

theorem transform_junction (rules : Rules Transforming) (j : Junction) (items : List Node) :
    rules.transform (j.node items) = (do
      let items ← rules.transformAll [] items
      rules.junction j items) := by
  cases j
  · exact Rules.transform.eq_2 ..
  · exact Rules.transform.eq_1 ..

theorem transformAll_easing
    (h : ∀ item ∈ items, Easing q IsItem quantityAsked? still w item (rules.transform item))
    (done : List Node) :
    ∃ items', rules.transformAll done items w = (.ok (done.reverse ++ items'), w) ∧
      (∀ item ∈ items', item.Asking q IsItem True) ∧
      List.Forall₂ (Node.Eases q quantityAsked? still) items items' := by
  induction items generalizing done with
  | nil =>
    refine ⟨[], ?_, List.forall_mem_nil _, .nil⟩
    rw [transformAll, List.append_nil, pure_apply]
  | cons node rest ih =>
    obtain ⟨⟨node', hstep, hasking, heases⟩, hrest⟩ := List.forall_mem_cons.mp h
    obtain ⟨rest', hall, hasking', heases'⟩ := ih hrest (node' :: done)
    refine ⟨node' :: rest', ?_, List.forall_mem_cons.mpr ⟨hasking, hasking'⟩, .cons heases heases'⟩
    rw [transformAll, bind_ok hstep, hall, List.reverse_cons, List.append_assoc,
      List.singleton_append]

/-- What such rules do throughout a node. -/
theorem Ease.transform (h : rules.Ease q IsItem quantityAsked? still w)
    (hnode : node.Asking q IsItem True) :
    Easing q IsItem quantityAsked? still w node (rules.transform node) := by
  have hjunction : ∀ (j : Junction) {items : List Node}, j.Reduced items →
      (∀ item ∈ items, Easing q IsItem quantityAsked? still w item (rules.transform item)) →
      Easing q IsItem quantityAsked? still w (j.node items) (rules.transform (j.node items)) := by
    intro j items hreduced ih
    obtain ⟨items', hall, hasking, heases⟩ := transformAll_easing ih []
    have hreduced' := Node.Eases.reduced heases hreduced fun item hitem =>
      (hasking item hitem).ne_boolean
    obtain ⟨node', hstep, hasking', heases'⟩ := h.junction j hreduced' hasking
    refine ⟨node', ?_, hasking', (Node.Eases.of_items heases hreduced).trans heases'⟩
    rw [transform_junction, bind_ok hall]
    exact hstep
  induction hnode with
  | name hid =>
    rw [Rules.transform]
    exact h.name hid
  | has quantity hitem =>
    exact ⟨_, h.question (.has quantity hitem), .has quantity hitem, .refl _⟩
  | joined j hjoined htwo hitems =>
    exact ⟨_, h.question (.joined j hjoined htwo hitems), .joined j hjoined htwo hitems, .refl _⟩
  | invert _ ih =>
    obtain ⟨inner', hstep, hasking, heases⟩ := ih
    refine ⟨.invert inner', ?_, .invert hasking, heases.invert⟩
    rw [Rules.transform, bind_ok hstep]
    exact h.invert hasking
  | every hreduced _ ih => exact hjunction .every hreduced ih
  | anyOf hreduced _ ih => exact hjunction .anyOf hreduced ih

end Rules

/-! ## Tables that know the functions -/

theorem Junction.joining_ne_has (j : Junction) : j.joining ≠ Lowering.hasName := by
  cases j <;> decide

theorem Junction.joining_injective {j j' : Junction} (h : j.joining = j'.joining) : j = j' := by
  revert h
  cases j <;> cases j' <;> decide

/-- The functions that ask for items go by their own names in the table, and items are tokens. -/
structure Askers.Of (q : Askers) (IsItem : SymbolId → Prop) (symbols : SymbolTable) : Prop where
  sound : symbols.Sound
  has : symbols.get? q.has = some ⟨Lowering.hasName, q.has, .builtInFunction⟩
  joining : ∀ j, symbols.get? (q.joining j) = some ⟨j.joining, q.joining j, .builtInFunction⟩
  item : ∀ {id}, IsItem id → symbols.kindOf? id = some .token

namespace Askers.Of

variable {q : Askers} {IsItem : SymbolId → Prop} {symbols : SymbolTable}

theorem knows_has (h : q.Of IsItem symbols) :
    symbols.Knows Lowering.hasName .builtInFunction q.has :=
  .of_get? h.sound h.has

theorem knows_joining (h : q.Of IsItem symbols) (j : Junction) :
    symbols.Knows j.joining .builtInFunction (q.joining j) :=
  .of_get? h.sound (h.joining j)

theorem apart (h : q.Of IsItem symbols) : q.Apart where
  has j heq := j.joining_ne_has
    (congrArg Symbol.name (Option.some.inj ((h.joining j).symm.trans (heq ▸ h.has))))
  joining {j j'} heq := Junction.joining_injective
    (congrArg Symbol.name (Option.some.inj ((h.joining j).symm.trans (heq ▸ h.joining j'))))

/-- With fast operations, a quantity of an item is asked for by a quantity check if it is a byte. -/
theorem asked_has (h : q.Of IsItem symbols) {item : SymbolId} (hitem : IsItem item)
    (quantity : Number) :
    symbols.quantityAsked? true (.identifier q.has) [.identifier item, .number quantity] =
      quantity.byte?.map fun count => (item, count) := by
  have hname : symbols.nameOf? q.has = some Lowering.hasName := by
    rw [SymbolTable.nameOf?, h.has]
    rfl
  exact if_pos ⟨rfl, hname, h.item hitem⟩

/-- One of an item is asked for by a quantity check, and joined questions are asked by calls. -/
theorem checked (h : q.Of IsItem symbols) : q.Checked (symbols.quantityAsked? true) IsItem where
  one {item} hitem := by
    have hbyte : Item.one.byte? = some 1 := by decide
    refine ⟨(item, 1), ?_⟩
    rw [h.asked_has hitem, hbyte]
    rfl
  joining j items := by
    have hname : symbols.nameOf? (q.joining j) = some j.joining := by
      rw [SymbolTable.nameOf?, h.joining]
      rfl
    refine FastOps.quantityAsked?_of_lookup_none hname ?_ _
    cases j <;> decide

end Askers.Of

/-- The functions that ask for items, where they are built in. -/
theorem Askers.exists_of {symbols : SymbolTable} (hs : symbols.Sound)
    (h : ∀ name ∈ [Lowering.hasName, Item.everyName, Item.anyName],
      ∃ id, symbols.get? id = some ⟨name, id, .builtInFunction⟩) :
    ∃ q : Askers, q.Of (fun _ => False) symbols := by
  obtain ⟨⟨has, hhas⟩, h⟩ := List.forall_mem_cons.mp h
  obtain ⟨⟨every, hevery⟩, h⟩ := List.forall_mem_cons.mp h
  obtain ⟨any, hany⟩ := h _ List.mem_cons_self
  refine ⟨⟨has, every, any⟩, hs, hhas, fun j => ?_, False.elim⟩
  cases j with
  | every => exact hevery
  | anyOf => exact hany

/-- What an asking node calls is one of the functions, with names of items and numbers. -/
theorem Node.Asking.callee {q : Askers} {IsItem : SymbolId → Prop} {symbols : SymbolTable}
    (hq : q.Of IsItem symbols) {target : Node} {args : List Node}
    (h : (Node.invoke target args).Asking q IsItem True) :
    ∃ id name, target = .identifier id ∧
      symbols.get? id = some ⟨name, id, .builtInFunction⟩ ∧
      name ∈ [Lowering.hasName, Item.everyName, Item.anyName] ∧
      ∀ arg ∈ args, (∃ item, IsItem item ∧ arg = .identifier item) ∨ ∃ value,
        arg = .number value := by
  generalize hnode : Node.invoke target args = node at h
  cases h with
  | @has item quantity hitem =>
    obtain ⟨rfl, rfl⟩ := Node.invoke.inj hnode
    refine ⟨q.has, _, rfl, hq.has, List.mem_cons_self, ?_⟩
    exact List.forall_mem_cons.mpr ⟨.inl ⟨item, hitem, rfl⟩,
      List.forall_mem_singleton.mpr (.inr ⟨quantity, rfl⟩)⟩
  | @joined j items _ _ hitems =>
    obtain ⟨rfl, rfl⟩ := Node.invoke.inj hnode
    refine ⟨q.joining j, _, rfl, hq.joining j, by cases j <;> decide, fun arg harg => ?_⟩
    obtain ⟨item, hitem, rfl⟩ := List.mem_map.mp harg
    exact .inl ⟨item, hitems item hitem, rfl⟩
  | _ => exact absurd hnode nofun

/-- The symbol has not the name of a setting. -/
def SymbolTable.Unlisted (t : SymbolTable) (id : SymbolId) : Prop :=
  ∀ {s}, t.get? id = some s → SettingType.ofName? s.name = none

/-! ## The passes -/

section

variable {q : Askers} {IsItem : SymbolId → Prop}
  {quantityAsked? : Node → List Node → Option (SymbolId × UInt8)} {still : Prop} {w : World}
  {rules : Rules Transforming}

theorem Easing.of_same {node : Node} (h : node.Asking q IsItem True) {step : Transforming Node}
    (hstep : step w = (.ok node, w)) : Easing q IsItem quantityAsked? still w node step :=
  ⟨node, hstep, h, .refl node⟩

/-- Rules that say nothing about junctions and negations. -/
theorem Rules.ease_of_default (hanyOf : rules.anyOf = fun items => pure (.disjoin items))
    (hevery : rules.every = fun items => pure (.conjoin items))
    (hinvert : rules.invert = fun inner => pure (.invert inner))
    (hname : ∀ {id : SymbolId}, IsItem id →
      Easing q IsItem quantityAsked? still w (.identifier id) (rules.identifier id))
    (hquestion : ∀ {target : Node} {args : List Node},
      (Node.invoke target args).Asking q IsItem True →
      rules.transform (.invoke target args) w = (.ok (.invoke target args), w)) :
    rules.Ease q IsItem quantityAsked? still w where
  junction j {items} hreduced hitems := by
    refine .of_same (.junction hreduced hitems) ?_
    rw [← hreduced.reduce_eq]
    cases j
    · exact congrFun (congrFun hevery items) w
    · exact congrFun (congrFun hanyOf items) w
  invert _ := congrFun (congrFun hinvert _) w
  name := hname
  question := hquestion

/-- What is true of every node that is transformed, if the world stays as it is meanwhile. -/
theorem Rules.of_transformAll {Q : Node → Prop} {items items' done : List Node} {w' : World}
    (h : ∀ item ∈ items, ∀ {node' w'}, rules.transform item w = (.ok node', w') → w' = w ∧ Q item)
    (hok : rules.transformAll done items w = (.ok items', w')) :
    w' = w ∧ ∀ item ∈ items, Q item := by
  induction items generalizing done with
  | nil =>
    rw [Rules.transformAll] at hok
    exact ⟨(pure_eq_ok hok).2.symm, List.forall_mem_nil _⟩
  | cons node rest ih =>
    obtain ⟨hnode, hrest⟩ := List.forall_mem_cons.mp h
    rw [Rules.transformAll] at hok
    obtain ⟨node', w₁, hfirst, hlater⟩ := bind_eq_ok hok
    obtain ⟨rfl, hhere⟩ := hnode hfirst
    obtain ⟨hsame, hthere⟩ := ih hrest hlater
    exact ⟨hsame, List.forall_mem_cons.mpr ⟨hhere, hthere⟩⟩

/-- Questions stay as they are where the call is not taken, and what it is made of stays. -/
theorem Rules.transform_asking (hq : q.Of IsItem w.symbols) {target : Node} {args : List Node}
    (h : (Node.invoke target args).Asking q IsItem True)
    (hintercept : rules.intercept target args w = (.ok none, w))
    (hidentifier : ∀ id, target = .identifier id ∨ IsItem id →
      rules.identifier id w = (.ok (.identifier id), w))
    (hinvoke : rules.invoke target args w = (.ok (.invoke target args), w)) :
    rules.transform (.invoke target args) w = (.ok (.invoke target args), w) := by
  obtain ⟨callee, name, rfl, -, -, hargs⟩ := h.callee hq
  have htarget : rules.transform (.identifier callee) w = (.ok (.identifier callee), w) := by
    rw [Rules.transform, hidentifier callee (.inl rfl)]
  have hall : rules.transformAll [] args w = (.ok args, w) := by
    refine Rules.transformAll_same (fun arg harg => ?_) []
    obtain ⟨item, hitem, rfl⟩ | ⟨value, rfl⟩ := hargs arg harg
    · rw [Rules.transform, hidentifier item (.inr hitem)]
    · rw [Rules.transform, pure_apply]
  rw [Rules.transform, bind_ok hintercept]
  dsimp only
  rw [bind_ok htarget, bind_ok hall, hinvoke]

variable (hq : q.Of IsItem w.symbols) (scripts : Scripts)

include hq

theorem connections_ease :
    (Pass.connections.rules scripts).Ease q IsItem quantityAsked? still w := by
  refine Rules.ease_of_default rfl rfl rfl (fun hid => .of_same (.name hid) rfl)
    fun {target args} h => ?_
  obtain ⟨callee, name, rfl, hget, hname, -⟩ := h.callee hq
  refine Rules.transform_asking hq h ?_ (fun _ _ => rfl) rfl
  have hcallee : (Node.identifier callee).identifier?.bind w.symbols.nameOf? = some name := by
    show w.symbols.nameOf? callee = some name
    rw [SymbolTable.nameOf?, hget]
    rfl
  have hne : some name ≠ some Elsewhere.atName ∧ some name ≠ some Elsewhere.hereName := by
    have hall : ∀ name ∈ [Lowering.hasName, Item.everyName, Item.anyName],
        name ≠ Elsewhere.atName ∧ name ≠ Elsewhere.hereName := by decide
    exact (hall name hname).imp (fun hne heq => hne (Option.some.inj heq))
      fun hne heq => hne (Option.some.inj heq)
  show Elsewhere.intercept _ args w = _
  rw [Elsewhere.intercept, bind_ok (Transforming.symbols_apply w), hcallee, if_neg hne.1,
    if_neg hne.2, pure_apply]

theorem inlineCalls_ease (limit : Nat) :
    ((Pass.inlineCalls limit).rules scripts).Ease q IsItem quantityAsked? still w := by
  -- None of the functions is scripted, whatever the body of one would be made into.
  have hease : ∀ expand : String → Node → Transforming Node,
      Rules.Ease q IsItem quantityAsked? still w
        { intercept := Inline.intercept scripts expand } := by
    intro expand
    refine Rules.ease_of_default rfl rfl rfl (fun hid => .of_same (.name hid) rfl)
      fun {target args} h => ?_
    obtain ⟨callee, name, rfl, hget, -, -⟩ := h.callee hq
    refine Rules.transform_asking hq h ?_ (fun _ _ => rfl) rfl
    exact Inline.intercept_of_none (Inline.scriptOf?_of_kind_ne hget nofun)
  show (Inline.rules scripts limit limit).Ease q IsItem quantityAsked? still w
  cases limit <;> exact hease _

theorem fold_ease : (Pass.fold.rules scripts).Ease q IsItem quantityAsked? still w where
  junction _ _ hreduced hitems :=
    .of_same (.junction hreduced hitems)
      (by rw [← hreduced.reduce_eq]; rename_i j _; cases j <;> rfl)
  invert {inner} h := by
    show Fold.invert inner w = _
    unfold Fold.invert
    split
    · exact absurd rfl (h.ne_boolean _)
    · rfl
  name hid := .of_same (.name hid) rfl
  question h := Rules.transform_asking hq h rfl (fun _ _ => rfl) rfl

theorem bareCalls_ease : (Pass.bareCalls.rules scripts).Ease q IsItem quantityAsked? still w := by
  refine Rules.ease_of_default rfl rfl rfl (fun {id} hid => .of_same (.name hid) ?_)
    fun _ => Rules.transform_keepCalls rfl _ _
  obtain ⟨s, hget, hkind⟩ := SymbolTable.get?_of_kindOf? (hq.item hid)
  show BareCall.identifier scripts id w = _
  rw [BareCall.identifier, bind_ok (Transforming.symbols_apply w), hget]
  dsimp only
  rw [hkind]
  rfl

theorem promoteTokens_ease (hchecked : q.Checked quantityAsked? IsItem) :
    (Pass.promoteTokens.rules scripts).Ease q IsItem quantityAsked? still w := by
  refine Rules.ease_of_default rfl rfl rfl (fun {id} hid => ?_) fun _ =>
    Rules.transform_keepCalls rfl _ _
  obtain ⟨s, hget, hkind⟩ := SymbolTable.get?_of_kindOf? (hq.item hid)
  have hheld : Item.held id w = (.ok (.has q.has id Item.one), w) := by
    rw [Item.held, bind_ok (Transforming.declare_function hq.knows_has), pure_apply]
  have htoken : Item.tokenOf? w.symbols s = some id := by
    rw [Item.tokenOf?, if_pos hkind, hq.sound.ids hget]
  refine ⟨.has q.has id Item.one, ?_, .has Item.one hid, ?_⟩
  · show Item.promoteIdentifier id w = _
    rw [Item.promoteIdentifier, bind_ok (Transforming.symbols_apply w), hget]
    dsimp only
    rw [htoken]
    exact hheld
  · have hneed := Node.need_one hchecked hid
    refine ⟨Nat.le_of_eq hneed, Node.numerals_one hchecked hid, fun _ => hneed,
      fun _ _ hasking => ?_, fun j inner heq => ?_,
      fun j _ => Nat.le_of_eq (Node.breadth_has hq.apart j id Item.one)⟩
    · exact .name (hasking.of_has hq.apart)
    · exact absurd heq (Node.ne_junction rfl j inner)

omit hq in
theorem settings_identifier (settings : Settings) {id : SymbolId}
    (h : w.symbols.Unlisted id) {s : Symbol} (hget : w.symbols.get? id = some s) :
    SettingValue.identifier settings id w = (.ok (.identifier id), w) := by
  rw [SettingValue.identifier, bind_ok (Transforming.symbols_apply w), hget]
  dsimp only
  rw [h hget]
  rfl

/-- The functions have names of their own, and none of these is a setting. -/
theorem settings_callee (settings : Settings) {target : Node} {args : List Node}
    (h : (Node.invoke target args).Asking q IsItem True) {id : SymbolId}
    (htarget : target = .identifier id) :
    SettingValue.identifier settings id w = (.ok (.identifier id), w) := by
  have hfunctions : ∀ name ∈ [Lowering.hasName, Item.everyName, Item.anyName],
      SettingType.ofName? name = none := by decide
  obtain ⟨callee, name, hcallee, hget, hname, -⟩ := h.callee hq
  obtain rfl := Node.identifier.inj (htarget.symm.trans hcallee)
  refine settings_identifier settings (fun hs => ?_) hget
  rw [← Option.some.inj (hget.symm.trans hs)]
  exact hfunctions name hname

theorem settings_ease (settings : Settings) (hfree : ∀ {id}, IsItem id → w.symbols.Unlisted id) :
    ((Pass.settings settings).rules scripts).Ease q IsItem quantityAsked? still w := by
  have hitem :
      ∀ {id}, IsItem id → SettingValue.identifier settings id w = (.ok (.identifier id), w) := by
    intro id hid
    obtain ⟨s, hget, -⟩ := SymbolTable.get?_of_kindOf? (hq.item hid)
    exact settings_identifier settings (hfree hid) hget
  exact Rules.ease_of_default rfl rfl rfl (fun hid => .of_same (.name hid) (hitem hid))
    fun h => Rules.transform_asking hq h rfl
      (fun id hid => hid.elim (settings_callee hq settings h) hitem) rfl

/-- A token that goes by the name of a setting is no setting, and no rule about it gets through. -/
theorem settings_unlisted (settings : Settings) {node node' : Node} {w' : World}
    (h : node.Asking q IsItem True)
    (hok : ((Pass.settings settings).rules scripts).transform node w = (.ok node', w')) :
    w' = w ∧ node.Asking q (fun id => IsItem id ∧ w.symbols.Unlisted id) True := by
  have hname : ∀ {id node' w'}, IsItem id →
      SettingValue.identifier settings id w = (.ok node', w') → w' = w ∧ w.symbols.Unlisted id := by
    intro id node' w' hid hok
    obtain ⟨s, hget, hkind⟩ := SymbolTable.get?_of_kindOf? (hq.item hid)
    rcases hlisted : SettingType.ofName? s.name with _ | type
    · have hunlisted : w.symbols.Unlisted id := fun hs =>
        Option.some.inj (hget.symm.trans hs) ▸ hlisted
      rw [settings_identifier settings hunlisted hget] at hok
      exact ⟨(congrArg Prod.snd hok).symm, hunlisted⟩
    · rw [SettingValue.identifier, bind_ok (Transforming.symbols_apply w), hget] at hok
      dsimp only at hok
      rw [hlisted, hkind] at hok
      exact absurd (congrArg Prod.fst hok) nofun
  have hjunction : ∀ (j : Junction) {items : List Node}, j.Reduced items →
      (∀ item ∈ items, ∀ {node' w'}, ((Pass.settings settings).rules scripts).transform item w =
        (.ok node', w') → w' = w ∧
          item.Asking q (fun id => IsItem id ∧ w.symbols.Unlisted id) True) →
      ∀ {node' w'}, ((Pass.settings settings).rules scripts).transform (j.node items) w =
        (.ok node', w') → w' = w ∧
          (j.node items).Asking q (fun id => IsItem id ∧ w.symbols.Unlisted id) True := by
    intro j items hreduced ih node' w' hok
    rw [Rules.transform_junction] at hok
    obtain ⟨items', w₁, hall, hlast⟩ := bind_eq_ok hok
    obtain ⟨rfl, hitems⟩ := Rules.of_transformAll ih hall
    refine ⟨?_, .junction hreduced hitems⟩
    cases j <;> exact (congrArg Prod.snd hlast).symm
  have hcall : ∀ {target args node' w'}, (Node.invoke target args).Asking q IsItem True →
      ((Pass.settings settings).rules scripts).transform (.invoke target args) w = (.ok node', w') →
      w' = w ∧ ∀ arg ∈ args, ∀ id, arg = .identifier id → w.symbols.Unlisted id := by
    intro target args node' w' h hok
    obtain ⟨callee, name, rfl, -, -, hargs⟩ := h.callee hq
    have htarget : ((Pass.settings settings).rules scripts).transform (.identifier callee) w =
        (.ok (.identifier callee), w) := by
      rw [Rules.transform]
      exact settings_callee hq settings h rfl
    have hkept : ((Pass.settings settings).rules scripts).intercept (.identifier callee) args w =
        (.ok none, w) := rfl
    have hparts : ∀ arg ∈ args, ∀ {node' w'},
        ((Pass.settings settings).rules scripts).transform arg w = (.ok node', w') →
        w' = w ∧ ∀ id, arg = .identifier id → w.symbols.Unlisted id := by
      intro arg harg node' w' hok
      obtain ⟨item, hitem, rfl⟩ | ⟨value, rfl⟩ := hargs arg harg
      · rw [Rules.transform] at hok
        obtain ⟨hsame, hunlisted⟩ := hname hitem hok
        exact ⟨hsame, fun id heq => Node.identifier.inj heq ▸ hunlisted⟩
      · rw [Rules.transform] at hok
        exact ⟨(pure_eq_ok hok).2.symm, nofun⟩
    rw [Rules.transform, bind_ok hkept] at hok
    dsimp only at hok
    rw [bind_ok htarget] at hok
    obtain ⟨args', w₁, hall, hlast⟩ := bind_eq_ok hok
    obtain ⟨rfl, hunlisted⟩ := Rules.of_transformAll hparts hall
    exact ⟨(congrArg Prod.snd hlast).symm, hunlisted⟩
  induction h generalizing node' w' with
  | name hid =>
    rw [Rules.transform] at hok
    obtain ⟨hsame, hunlisted⟩ := hname hid hok
    exact ⟨hsame, .name ⟨hid, hunlisted⟩⟩
  | has quantity hid =>
    obtain ⟨hsame, hunlisted⟩ := hcall (.has quantity hid) hok
    exact ⟨hsame, .has quantity ⟨hid, hunlisted _ List.mem_cons_self _ rfl⟩⟩
  | joined j hjoined htwo hitems =>
    obtain ⟨hsame, hunlisted⟩ := hcall (.joined j hjoined htwo hitems) hok
    exact ⟨hsame, .joined j hjoined htwo fun item hitem =>
      ⟨hitems item hitem, hunlisted _ (List.mem_map_of_mem hitem) _ rfl⟩⟩
  | invert _ ih =>
    rw [Rules.transform] at hok
    obtain ⟨inner', w₁, hinner, hlast⟩ := bind_eq_ok hok
    obtain ⟨rfl, hasking⟩ := ih hinner
    exact ⟨(pure_eq_ok hlast).2.symm, .invert hasking⟩
  | every hreduced _ ih => exact hjunction .every hreduced ih hok
  | anyOf hreduced _ ih => exact hjunction .anyOf hreduced ih hok

theorem compilerCalls_ease (functions : CompilerFunctions)
    (hfree : ∀ name ∈ [Lowering.hasName, Item.everyName, Item.anyName],
      functions.find? name = none) :
    ((Pass.compilerCalls functions).rules scripts).Ease q IsItem quantityAsked? still w := by
  refine Rules.ease_of_default rfl rfl rfl (fun hid => .of_same (.name hid) rfl)
    fun {target args} h => ?_
  obtain ⟨callee, name, rfl, hget, hname, -⟩ := h.callee hq
  refine Rules.transform_asking hq h rfl (fun _ _ => rfl) ?_
  have hnone : functions.functionOf? w.symbols (.identifier callee) = none := by
    show (w.symbols.nameOf? callee).bind functions.find? = none
    rw [SymbolTable.nameOf?, hget]
    exact hfree name hname
  show functions.answer (.identifier callee) args w = _
  rw [CompilerFunctions.answer, bind_ok (Transforming.symbols_apply w), hnone]
  rfl

end

end Passage

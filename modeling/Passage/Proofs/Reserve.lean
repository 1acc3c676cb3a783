import Passage.Proofs.Demand
import Passage.Proofs.Settling

/-!
# The room that questions take, joined or not

Joining the questions of a junction changes how much of the stack a rule needs, either way: the
operands of the questions are as many as before, but the function that is called for them comes
on top, and the other items of the junction come first. What no joining exceeds is the room
that is needed if all operands of a junction stood below a function (`Node.reserve`). That is at
most one more than what a rule needs in which no questions are joined
(`Node.Asking.reserve_le_need`), whatever is nested in what: the functions of nested
junctions are never on the stack at once.
-/

namespace Passage

/-- The functions that ask for items. -/
structure Askers where
  has : SymbolId
  every : SymbolId
  any : SymbolId

namespace Askers

/-- The function that joins the questions in a junction. -/
def joining (q : Askers) : Junction → SymbolId
  | .every => q.every
  | .anyOf => q.any

/-- The three functions are different ones. -/
structure Apart (q : Askers) : Prop where
  has : ∀ j, q.joining j ≠ q.has
  joining : ∀ {j j'}, q.joining j = q.joining j' → j = j'

/-- The question for some items, as a junction is left with it. -/
def question (q : Askers) (j : Junction) : List SymbolId → List Node
  | [] => []
  | [item] => [.has q.has item Item.one]
  | items => [.call (q.joining j) (items.map .identifier)]

end Askers

section

variable (q : Askers) (IsItem : SymbolId → Prop) (joined : Prop)

/-- The node asks for items, and its junctions are reduced. Questions are joined in it only if they
may be. -/
inductive Node.Asking : Node → Prop
  | name {id : SymbolId} : IsItem id → Node.Asking (.identifier id)
  | has {item : SymbolId} (quantity : Number) : IsItem item →
      Node.Asking (.has q.has item quantity)
  | joined (j : Junction) {items : List SymbolId} : joined → 2 ≤ items.length →
      (∀ item ∈ items, IsItem item) → Node.Asking (.call (q.joining j) (items.map .identifier))
  | invert {inner : Node} : Node.Asking inner → Node.Asking (.invert inner)
  | every {items : List Node} : Junction.every.Reduced items → (∀ item ∈ items, Node.Asking item) →
      Node.Asking (.every items)
  | anyOf {items : List Node} : Junction.anyOf.Reduced items → (∀ item ∈ items, Node.Asking item) →
      Node.Asking (.anyOf items)

end

/-! ## Measures of a node -/

/-- The number of operands that an item of a junction gives to the question of the function. -/
def Node.breadth (callee : SymbolId) : Node → Nat
  | .invoke (.identifier id) args => if id = callee then args.length else 1
  | _ => 1

def Node.breadths (callee : SymbolId) (items : List Node) : Nat :=
  (items.map (Node.breadth callee)).sum

section

variable (q : Askers) (quantityAsked? : Node → List Node → Option (SymbolId × UInt8))

mutual

/-- The room that a node needs however the questions in its junctions are joined. -/
def Node.reserve : Node → Nat
  | .anyOf items => max (Node.breadths q.any items + 1) (Node.reserveAll q.any items)
  | .every items => max (Node.breadths q.every items + 1) (Node.reserveAll q.every items)
  | .invert inner => Node.reserve inner
  | node => node.need quantityAsked?

def Node.reserveAll (callee : SymbolId) : List Node → Nat
  | [] => 0
  | node :: rest => max (Node.reserve node) (node.breadth callee + Node.reserveAll callee rest)

end

mutual

/-- The numbers that the code of a node pushes, in order. -/
def Node.numerals : Node → List Number
  | .anyOf items => Node.numeralsAll items
  | .every items => Node.numeralsAll items
  | .compare _ lhs rhs => Node.numerals rhs ++ Node.numerals lhs
  | .invert inner => Node.numerals inner
  | .invoke target args => if (quantityAsked? target args).isSome then [] else Node.numeralsAll args
  | .number value => [value]
  | .boolean _ | .identifier _ | .string _ => []

def Node.numeralsAll : List Node → List Number
  | [] => []
  | node :: rest => Node.numerals node ++ Node.numeralsAll rest

end

/-- Quantity checks ask for one of an item, and for no items together. -/
structure Askers.Checked (IsItem : SymbolId → Prop) : Prop where
  one : ∀ {item}, IsItem item →
    ∃ check, quantityAsked? (.identifier q.has) [.identifier item, .number Item.one] = some check
  joining : ∀ j (items : List SymbolId),
    quantityAsked? (.identifier (q.joining j)) (items.map .identifier) = none

end

namespace Node

variable {q : Askers} {IsItem : SymbolId → Prop} {joined : Prop}
  {quantityAsked? : Node → List Node → Option (SymbolId × UInt8)} {node : Node} {items : List Node}
  {j : Junction}

theorem Asking.junction (h : j.Reduced items)
    (hitems : ∀ item ∈ items, Asking q IsItem joined item) :
    Asking q IsItem joined (j.node items) := by
  cases j
  · exact .every h hitems
  · exact .anyOf h hitems

theorem Asking.of_junction (h : Asking q IsItem joined (j.node items)) :
    j.Reduced items ∧ ∀ item ∈ items, Asking q IsItem joined item := by
  cases j <;> cases h <;> exact ⟨‹_›, ‹_›⟩

theorem Asking.of_has (hq : q.Apart) {item : SymbolId} {quantity : Number}
    (h : Asking q IsItem joined (.has q.has item quantity)) : IsItem item := by
  generalize hnode : Node.has q.has item quantity = node at h
  cases h with
  | has _ hitem =>
    obtain rfl := Node.identifier.inj (List.cons.inj (Node.invoke.inj hnode).2).1
    exact hitem
  | joined j => exact absurd (Node.identifier.inj (Node.invoke.inj hnode).1).symm (hq.has j)
  | _ => exact absurd hnode nofun

theorem Asking.imp {IsItem' : SymbolId → Prop} {joined' : Prop}
    (hitem : ∀ {id}, IsItem id → IsItem' id) (hjoined : joined → joined')
    (h : Asking q IsItem joined node) : Asking q IsItem' joined' node := by
  induction h with
  | name hid => exact .name (hitem hid)
  | has quantity hid => exact .has quantity (hitem hid)
  | joined j h htwo hitems => exact .joined j (hjoined h) htwo fun id hid => hitem (hitems id hid)
  | invert _ ih => exact .invert ih
  | every hreduced _ ih => exact .every hreduced ih
  | anyOf hreduced _ ih => exact .anyOf hreduced ih

theorem Asking.ne_boolean (h : Asking q IsItem joined node) (value : Bool) :
    node ≠ .boolean value := by
  rintro rfl
  cases h

/-! ### Junctions -/

theorem need_junction (j : Junction) (items : List Node) :
    need quantityAsked? (j.node items) = max 1 (needAll quantityAsked? items) := by
  cases j <;> rfl

theorem reserve_junction (j : Junction) (items : List Node) :
    reserve q quantityAsked? (j.node items) =
      max (breadths (q.joining j) items + 1) (reserveAll q quantityAsked? (q.joining j) items) := by
  cases j <;> rfl

theorem numerals_junction (j : Junction) (items : List Node) :
    numerals quantityAsked? (j.node items) = numeralsAll quantityAsked? items := by
  cases j <;> rfl

theorem breadth_junction (callee : SymbolId) (j : Junction) (items : List Node) :
    breadth callee (j.node items) = 1 := by
  cases j <;> rfl

theorem breadths_cons (callee : SymbolId) (node : Node) (rest : List Node) :
    breadths callee (node :: rest) = breadth callee node + breadths callee rest := by
  rw [breadths, List.map_cons, List.sum_cons]
  rfl

theorem breadths_append (callee : SymbolId) (items more : List Node) :
    breadths callee (items ++ more) = breadths callee items + breadths callee more := by
  rw [breadths, List.map_append, List.sum_append]
  rfl

theorem reserveAll_append (callee : SymbolId) (items more : List Node) :
    reserveAll q quantityAsked? callee (items ++ more) =
      max (reserveAll q quantityAsked? callee items)
        (breadths callee items + reserveAll q quantityAsked? callee more) := by
  induction items with
  | nil =>
    rw [List.nil_append, reserveAll, Nat.zero_max]
    exact (Nat.zero_add _).symm
  | cons node rest ih =>
    rw [List.cons_append, reserveAll, ih, reserveAll, breadths_cons]
    omega

theorem numeralsAll_append (items more : List Node) :
    numeralsAll quantityAsked? (items ++ more) =
      numeralsAll quantityAsked? items ++ numeralsAll quantityAsked? more := by
  induction items with
  | nil => rfl
  | cons node rest ih => rw [List.cons_append, numeralsAll, numeralsAll, ih, List.append_assoc]

/-! ### Names of items -/

/-- Where every node needs room for itself only, the nodes need room for their number. -/
theorem needAll_eq_length (h : ∀ item ∈ items, need quantityAsked? item = 1) :
    needAll quantityAsked? items = items.length := by
  induction items with
  | nil => rfl
  | cons item rest ih =>
    obtain ⟨hitem, hrest⟩ := List.forall_mem_cons.mp h
    rw [needAll, ih hrest, List.length_cons, hitem]
    omega

theorem numeralsAll_eq_nil (h : ∀ item ∈ items, numerals quantityAsked? item = []) :
    numeralsAll quantityAsked? items = [] := by
  induction items with
  | nil => rfl
  | cons item rest ih =>
    obtain ⟨hitem, hrest⟩ := List.forall_mem_cons.mp h
    rw [numeralsAll, hitem, ih hrest, List.append_nil]

theorem needAll_names (items : List SymbolId) :
    needAll quantityAsked? (items.map .identifier) = items.length := by
  rw [needAll_eq_length, List.length_map]
  exact List.forall_mem_map.mpr fun _ _ => rfl

theorem numeralsAll_names (items : List SymbolId) :
    numeralsAll quantityAsked? (items.map .identifier) = [] :=
  numeralsAll_eq_nil (List.forall_mem_map.mpr fun _ _ => rfl)

/-- A joined question needs room for its items and its function. -/
theorem need_joined (hc : q.Checked quantityAsked? IsItem) (j : Junction) (items : List SymbolId) :
    need quantityAsked? (.call (q.joining j) (items.map .identifier)) = items.length + 1 := by
  rw [call, need_call (hc.joining j items), needAll_names, List.length_map]
  exact Nat.max_eq_right (Nat.le_succ _)

theorem numerals_joined (hc : q.Checked quantityAsked? IsItem) (j : Junction)
    (items : List SymbolId) :
    numerals quantityAsked? (.call (q.joining j) (items.map .identifier)) = [] := by
  rw [call, numerals, hc.joining]
  exact numeralsAll_names items

theorem need_one (hc : q.Checked quantityAsked? IsItem) {item : SymbolId} (hitem : IsItem item) :
    need quantityAsked? (.has q.has item Item.one) = 1 :=
  let ⟨_, hasked⟩ := hc.one hitem
  need_asked hasked

theorem numerals_one (hc : q.Checked quantityAsked? IsItem) {item : SymbolId}
    (hitem : IsItem item) :
    numerals quantityAsked? (.has q.has item Item.one) = [] := by
  obtain ⟨check, hasked⟩ := hc.one hitem
  rw [has, call, numerals, hasked]
  rfl

theorem breadth_joined (hq : q.Apart) (j j' : Junction) (items : List Node) :
    breadth (q.joining j) (.call (q.joining j') items) = if j' = j then items.length else 1 := by
  show (if q.joining j' = q.joining j then items.length else 1) = _
  by_cases hj : j' = j
  · rw [if_pos hj, if_pos (congrArg _ hj)]
  · rw [if_neg hj, if_neg fun heq => hj (hq.joining heq)]

theorem breadth_has (hq : q.Apart) (j : Junction) (item : SymbolId) (quantity : Number) :
    breadth (q.joining j) (.has q.has item quantity) = 1 :=
  if_neg (hq.has j).symm

/-! ### Bounds -/

/-- Every item gives one operand to its junction, or more. -/
theorem Asking.one_le_breadth (h : Asking q IsItem joined node) (callee : SymbolId) :
    1 ≤ breadth callee node := by
  cases h with
  | name | invert | every | anyOf => exact Nat.le_refl 1
  | has =>
    show 1 ≤ if q.has = callee then 2 else 1
    split <;> decide
  | @joined j items _ htwo =>
    show 1 ≤ if q.joining j = callee then (items.map Node.identifier).length else 1
    rw [List.length_map]
    split <;> omega

theorem Asking.need_le_reserve (h : Asking q IsItem joined node) :
    need quantityAsked? node ≤ reserve q quantityAsked? node := by
  have hjunction : ∀ (j : Junction) {items : List Node},
      (∀ item ∈ items, Asking q IsItem joined item) →
      (∀ item ∈ items, need quantityAsked? item ≤ reserve q quantityAsked? item) →
      need quantityAsked? (j.node items) ≤ reserve q quantityAsked? (j.node items) := by
    intro j items hitems ih
    have hall : needAll quantityAsked? items ≤ reserveAll q quantityAsked? (q.joining j) items := by
      induction items with
      | nil => exact Nat.le_refl 0
      | cons node rest ihrest =>
        obtain ⟨hnode, hrest⟩ := List.forall_mem_cons.mp ih
        obtain ⟨hasking, hothers⟩ := List.forall_mem_cons.mp hitems
        have hbreadth := hasking.one_le_breadth (q.joining j)
        have hlater := ihrest hothers hrest
        rw [needAll, reserveAll]
        omega
    rw [need_junction, reserve_junction]
    omega
  induction h with
  | name | has | joined => exact Nat.le_refl _
  | invert _ ih => exact ih
  | every _ hitems ih => exact hjunction .every hitems ih
  | anyOf _ hitems ih => exact hjunction .anyOf hitems ih

/-- Where no questions are joined, one operand more is enough. -/
theorem Asking.reserve_le_need (hq : q.Apart) (h : Asking q IsItem False node) :
    reserve q quantityAsked? node ≤ need quantityAsked? node + 1 := by
  have hone : ∀ (j : Junction) {node}, Asking q IsItem False node →
      breadth (q.joining j) node = 1 := by
    intro j node h
    cases h with
    | name | invert | every | anyOf => rfl
    | has => exact breadth_has hq j _ _
    | joined _ hjoined => exact hjoined.elim
  have hjunction : ∀ (j : Junction) {items : List Node},
      (∀ item ∈ items, Asking q IsItem False item) →
      (∀ item ∈ items, reserve q quantityAsked? item ≤ need quantityAsked? item + 1) →
      reserve q quantityAsked? (j.node items) ≤ need quantityAsked? (j.node items) + 1 := by
    intro j items hitems ih
    have hall : breadths (q.joining j) items ≤ needAll quantityAsked? items ∧
        reserveAll q quantityAsked? (q.joining j) items ≤ needAll quantityAsked? items + 1 := by
      induction items with
      | nil => exact ⟨Nat.le_refl 0, Nat.le_succ 0⟩
      | cons node rest ihrest =>
        obtain ⟨hnode, hrest⟩ := List.forall_mem_cons.mp ih
        obtain ⟨hasking, hothers⟩ := List.forall_mem_cons.mp hitems
        obtain ⟨hbreadths, hlater⟩ := ihrest hothers hrest
        have hneed := one_le_need quantityAsked? node
        rw [breadths_cons, hone j hasking, needAll, reserveAll, hone j hasking]
        omega
    rw [need_junction, reserve_junction]
    omega
  induction h with
  | name | has => exact Nat.le_succ _
  | joined _ hjoined => exact hjoined.elim
  | invert _ ih => exact ih
  | every _ hitems ih => exact hjunction .every hitems ih
  | anyOf _ hitems ih => exact hjunction .anyOf hitems ih

end Node

end Passage

import Passage.Pass.Item
import Passage.Proofs.Verdicts

/-!
# The truth of a node

The rules about items and facts are nodes of a few forms, which `Node.Within` singles out:
booleans, junctions, negations, names that stand alone, and questions of the host. A
`Reading` says what names and questions mean; `Node.truth` is the truth value of a node by
a reading. The constructors that reduce what they build neither change it
(`truth_conjoin`, `truth_disjoin`) nor leave the forms.
-/

namespace Passage

/-- What the names of a world mean. -/
structure Reading where
  /-- The function that asks for a quantity of an item. -/
  has : SymbolId
  /-- The function that asks for all of several items. -/
  every : SymbolId
  /-- The function that asks for one of several items. -/
  any : SymbolId
  IsItem : SymbolId → Prop
  IsFact : SymbolId → Prop
  /-- Whether a quantity of an item is held. -/
  holds : SymbolId → Number → Bool
  /-- What a name states that stands alone. -/
  states : SymbolId → Bool

namespace Reading

/-- Whether one of an item is held, where the item is named. -/
def holdsOne (r : Reading) : Node → Bool
  | .identifier item => r.holds item Item.one
  | _ => false

/-- Whether a quantity of an item is held, where both are written. -/
def holdsQuantity (r : Reading) : List Node → Bool
  | [.identifier item, .number quantity] => r.holds item quantity
  | _ => false

/-- The answer to a call of a function. -/
def answer (r : Reading) (callee : SymbolId) (args : List Node) : Bool :=
  if callee = r.has then r.holdsQuantity args
  else if callee = r.every then args.all r.holdsOne
  else if callee = r.any then args.any r.holdsOne
  else r.states callee

/-- A reading by which names and questions agree: an item that stands alone asks for one of
it, and no two functions have one name. -/
structure Coherent (r : Reading) : Prop where
  item : ∀ {id}, r.IsItem id → r.states id = r.holds id Item.one
  fact : ∀ {id}, r.IsFact id → id ≠ r.has ∧ id ≠ r.every ∧ id ≠ r.any
  every : r.every ≠ r.has
  any : r.any ≠ r.has ∧ r.any ≠ r.every

namespace Coherent

variable {r : Reading}

theorem answer_has (item : SymbolId) (quantity : Number) :
    r.answer r.has [.identifier item, .number quantity] = r.holds item quantity :=
  if_pos rfl

theorem answer_every (h : r.Coherent) (args : List Node) :
    r.answer r.every args = args.all r.holdsOne := by
  rw [answer, if_neg h.every, if_pos rfl]

theorem answer_any (h : r.Coherent) (args : List Node) :
    r.answer r.any args = args.any r.holdsOne := by
  rw [answer, if_neg h.any.1, if_neg h.any.2, if_pos rfl]

theorem answer_fact (h : r.Coherent) {id : SymbolId} (hid : r.IsFact id) :
    r.answer id [] = r.states id := by
  obtain ⟨hhas, hevery, hany⟩ := h.fact hid
  rw [answer, if_neg hhas, if_neg hevery, if_neg hany]

/-- The two functions that join questions are the question itself on one item. -/
theorem answer_single (h : r.Coherent) {joined : SymbolId}
    (hj : joined = r.every ∨ joined = r.any) (item : SymbolId) :
    r.answer joined [.identifier item] = r.holds item Item.one := by
  obtain rfl | rfl := hj
  · rw [h.answer_every, List.all_cons, List.all_nil, Bool.and_true]
    rfl
  · rw [h.answer_any, List.any_cons, List.any_nil, Bool.or_false]
    rfl

end Coherent

/-- The questions of the host that rules about items and facts consist of. -/
inductive IsQuestion (r : Reading) : Node → List Node → Prop
  | has {item : SymbolId} (count : Nat) : r.IsItem item →
      IsQuestion r (.identifier r.has) [.identifier item, .number (.ofNat count)]
  | every {items : List SymbolId} : (∀ item ∈ items, r.IsItem item) →
      IsQuestion r (.identifier r.every) (items.map .identifier)
  | any {items : List SymbolId} : (∀ item ∈ items, r.IsItem item) →
      IsQuestion r (.identifier r.any) (items.map .identifier)
  | fact {id : SymbolId} : r.IsFact id → IsQuestion r (.identifier id) []

end Reading

namespace Node

/-- The node is a rule about items and facts, where the names that stand alone are among
those that are allowed to. -/
inductive Within (r : Reading) (alone : SymbolId → Prop) : Node → Prop
  | boolean (value : Bool) : Within r alone (.boolean value)
  | identifier {id : SymbolId} : alone id → Within r alone (.identifier id)
  | invert {inner : Node} : Within r alone inner → Within r alone (.invert inner)
  | anyOf {items : List Node} : (∀ item ∈ items, Within r alone item) →
      Within r alone (.anyOf items)
  | every {items : List Node} : (∀ item ∈ items, Within r alone item) →
      Within r alone (.every items)
  | question {target : Node} {args : List Node} :
      r.IsQuestion target args → Within r alone (.invoke target args)

theorem Within.imp {r : Reading} {alone alone' : SymbolId → Prop}
    (himp : ∀ id, alone id → alone' id) {node : Node} (h : node.Within r alone) :
    node.Within r alone' := by
  induction h with
  | boolean value => exact .boolean value
  | identifier hid => exact .identifier (himp _ hid)
  | invert _ ih => exact .invert ih
  | anyOf _ ih => exact .anyOf ih
  | every _ ih => exact .every ih
  | question hquestion => exact .question hquestion

mutual

/-- The truth value of a node by a reading. -/
def truth (r : Reading) : Node → Bool
  | .anyOf items => (truthAll r items).any id
  | .every items => (truthAll r items).all id
  | .boolean value => value
  | .identifier id => r.states id
  | .invert inner => !truth r inner
  | .invoke target args => (target.identifier?.map (r.answer · args)).getD false
  | .compare _ _ _ | .number _ | .string _ => false

def truthAll (r : Reading) : List Node → List Bool
  | [] => []
  | node :: rest => truth r node :: truthAll r rest

end

variable {r : Reading}

theorem truthAll_eq (items : List Node) : truthAll r items = items.map (truth r) := by
  induction items with
  | nil => rfl
  | cons node rest ih => rw [truthAll, ih, List.map_cons]

@[simp] theorem truth_anyOf (items : List Node) : truth r (.anyOf items) = items.any (truth r) := by
  rw [truth, truthAll_eq, List.any_map]
  rfl

@[simp] theorem truth_every (items : List Node) : truth r (.every items) = items.all (truth r) := by
  rw [truth, truthAll_eq, List.all_map]
  rfl

@[simp] theorem truth_boolean (value : Bool) : truth r (.boolean value) = value := rfl

@[simp] theorem truth_identifier (id : SymbolId) : truth r (.identifier id) = r.states id := rfl

@[simp] theorem truth_invert (inner : Node) : truth r (.invert inner) = !truth r inner := rfl

@[simp] theorem truth_call (callee : SymbolId) (args : List Node) :
    truth r (.invoke (.identifier callee) args) = r.answer callee args := rfl

/-! ## Junctions -/

end Node

/-- The truth values of the parts that a node is put together from. -/
def Reading.facts (r : Reading) : Node → Bool
  | .identifier id => r.states id
  | .invoke target args => (target.identifier?.map (r.answer · args)).getD false
  | _ => false

namespace Node

mutual

/-- The truth value is the verdict by those of the parts. -/
theorem truth_eq_verdict : (node : Node) → truth r node = verdict r.facts node
  | .anyOf items => by rw [truth, verdict, truthAll_eq_verdicts items]
  | .every items => by rw [truth, verdict, truthAll_eq_verdicts items]
  | .invert inner => by rw [truth, verdict, truth_eq_verdict inner]
  | .boolean _ | .identifier _ | .invoke _ _ | .compare _ _ _ | .number _ | .string _ => rfl

theorem truthAll_eq_verdicts : (items : List Node) → truthAll r items = verdicts r.facts items
  | [] => rfl
  | node :: rest => by rw [truthAll, verdicts, truth_eq_verdict node, truthAll_eq_verdicts rest]

end

/-- The conjunction of nodes is true if all of them are. -/
theorem truth_conjoin (items : List Node) : truth r (conjoin items) = items.all (truth r) := by
  rw [truth_eq_verdict, verdict_conjoin, funext truth_eq_verdict]

/-- The disjunction of nodes is true if one of them is. -/
theorem truth_disjoin (items : List Node) : truth r (disjoin items) = items.any (truth r) := by
  rw [truth_eq_verdict, verdict_disjoin, funext truth_eq_verdict]

/-! ## Forms of junctions -/

section

variable {alone : SymbolId → Prop}

theorem within_conjoin {items : List Node} (h : ∀ item ∈ items, item.Within r alone) :
    (conjoin items).Within r alone :=
  forall_conjoin (P := Within r alone) (fun h => by cases h; assumption) .every .boolean h

theorem within_disjoin {items : List Node} (h : ∀ item ∈ items, item.Within r alone) :
    (disjoin items).Within r alone :=
  forall_disjoin (P := Within r alone) (fun h => by cases h; assumption) .anyOf .boolean h

end

end Node

end Passage

import Passage.Machine.Inventory
import Passage.Proofs.Filling
import Passage.Proofs.Numerals
import Passage.Proofs.Rewriting

/-!
# Rules about items and facts, asked of the host

A host answers from an inventory if it knows how many of each token are held, and of each
fact whether it is one (`Host.Answers`). Where it does, rules about items and facts
in which no name stands alone evaluate to their truth (`Node.Within.evaluate`). The
functions of `Inventory` answer in this way (`Inventory.answers`).
-/

namespace Passage

namespace Meaning

/-! ## Questions -/

/-- Questions have the answers that a reading gives them. -/
structure Agrees (m : Meaning) (r : Reading) : Prop where
  holds : ∀ {item : SymbolId} {quantity : UInt8}, r.IsItem item →
    m.holds item quantity = .ok (.ofBool (r.holds item (.ofNat quantity.toNat)))
  question : ∀ {target : Node} {args : List Node}, r.IsQuestion target args →
    ∃ callee values, target = .identifier callee ∧ Node.evaluateAll m args = .ok values ∧
      m.call callee values = .ok (.ofBool (r.answer callee args))

variable {m : Meaning} {r : Reading}

/-- What a function answers, a call of it answers. -/
theorem call_ofBool {callee : SymbolId} {signature : Signature} {function : HostFunction}
    {args : List Object} {value : Bool} (hs : m.pool.definitions.lookup callee = some signature)
    (hf : m.host.find? signature.name = some function)
    (hanswer : function m.pool.freeze args = .ok (.ofBool value)) :
    m.call callee args = .ok (.ofBool value) := by
  rw [call_eq hs hf, hanswer]
  show spoken (.ofBool value) = _
  rw [spoken, Object.isNull_ofBool]
  rfl

end Meaning

namespace Node

variable {m : Meaning} {r : Reading}

theorem evaluateAll_eq {items : List Node} {values : Node → Object}
    (h : ∀ item ∈ items, item.evaluate m = .ok (values item)) :
    evaluateAll m items = .ok (items.map values) := by
  induction items with
  | nil => rfl
  | cons item rest ih =>
    obtain ⟨hitem, hrest⟩ := List.forall_mem_cons.mp h
    rw [evaluateAll, hitem, ih hrest]
    rfl

/-- A quantity check asks for the quantity of a question, of an item. -/
theorem of_quantityAsked? {symbols : SymbolTable} {fast : Bool} {target : Node} {args : List Node}
    (hq : r.IsQuestion target args) {item : SymbolId} {quantity : UInt8}
    (h : symbols.quantityAsked? fast target args = some (item, quantity)) :
    target = .identifier r.has ∧ r.IsItem item ∧
      args = [.identifier item, .number (.ofNat quantity.toNat)] := by
  cases hq with
  | @has id count hitem =>
    rw [SymbolTable.quantityAsked?] at h
    split at h
    · obtain ⟨k, hk, hpair⟩ := Option.map_eq_some_iff.mp h
      obtain ⟨rfl, rfl⟩ := Prod.mk.inj hpair
      exact ⟨rfl, hitem, by rw [Number.toNat_of_byte? hk]⟩
    · cases h
  | @every items _ | @any items _ =>
    rcases items with _ | ⟨_, _ | ⟨_, _ | _⟩⟩ <;> cases h
  | fact _ => cases h

/-- Where questions are answered as they read, a rule in which no name stands alone
evaluates to its truth. -/
theorem Within.evaluate (hm : m.Agrees r) {node : Node} (h : node.Within r fun _ => False) :
    node.evaluate m = .ok (.ofBool (node.truth r)) := by
  induction h with
  | boolean value => rfl
  | identifier halone => exact halone.elim
  | @invert inner _ ih =>
    rw [Node.evaluate, ih]
    show Except.ok (Object.ofBool (!(Object.ofBool (inner.truth r)).isTruthy)) = _
    rw [Object.isTruthy_ofBool, truth_invert]
  | @anyOf items _ ih =>
    rw [Node.evaluate, evaluateAll_eq ih, truth_anyOf]
    show Except.ok (Object.ofBool ((items.map _).any Object.isTruthy)) = _
    rw [List.any_map]
    simp only [Function.comp_def, Object.isTruthy_ofBool]
  | @every items _ ih =>
    rw [Node.evaluate, evaluateAll_eq ih, truth_every]
    show Except.ok (Object.ofBool ((items.map _).all Object.isTruthy)) = _
    rw [List.all_map]
    simp only [Function.comp_def, Object.isTruthy_ofBool]
  | @question target args hq =>
    rw [Node.evaluate]
    split
    · rename_i item quantity hasked
      obtain ⟨rfl, hitem, rfl⟩ := of_quantityAsked? hq hasked
      rw [hm.holds hitem, truth_call, Reading.Coherent.answer_has]
    · obtain ⟨callee, values, rfl, hargs, hcall⟩ := hm.question hq
      show (Node.evaluateAll m args >>= fun values => m.call callee values) = _
      rw [hargs]
      exact hcall

end Node

/-! ## Inventories -/

/-- A token of the table, by its name and its number. -/
def SymbolTable.IsToken (symbols : SymbolTable) (item : String × SymbolId) : Prop :=
  symbols.Knows item.1 .token item.2

/-- Asked about the tokens of a symbol table, the host answers from an inventory, in which
`held` of each are, and says that a fact is one where `facts` does. -/
structure Host.Answers (host : Host) (check : QuantityCheck) (symbols : SymbolTable)
    (table : ObjectTable) (held : String → Nat) (facts : String → Bool) : Prop where
  has : ∃ function, host.find? Lowering.hasName = some function ∧
    ∀ {item}, symbols.IsToken item → ∀ count,
      function table [Elsewhere.tokenPointer item.2, ⟨(Number.ofNat count).bits⟩] =
        .ok (.ofBool (count ≤ held item.1))
  every : ∃ function, host.find? Item.everyName = some function ∧
    ∀ {items : List (String × SymbolId)}, (∀ item ∈ items, symbols.IsToken item) →
      function table (items.map (Elsewhere.tokenPointer ·.2)) =
        .ok (.ofBool (items.all (1 ≤ held ·.1)))
  any : ∃ function, host.find? Item.anyName = some function ∧
    ∀ {items : List (String × SymbolId)}, (∀ item ∈ items, symbols.IsToken item) →
      function table (items.map (Elsewhere.tokenPointer ·.2)) =
        .ok (.ofBool (items.any (1 ≤ held ·.1)))
  check : ∀ {item}, symbols.IsToken item → ∀ quantity,
    check table (Elsewhere.tokenPointer item.2) quantity =
      .ok (.ofBool (quantity.toNat ≤ held item.1))
  fact : ∀ {name}, ⟨name, 0⟩ ∈ Signature.standard →
    ∃ function, host.find? name = some function ∧
      function table [] = .ok (.ofBool (facts name))

namespace Inventory

/-- A question after a quantity reads the quantity, and compares with it. -/
theorem has_pair (inventory : Inventory) {token quantity : Object} {x : Number}
    (h : quantity.asNumber = .ok x) :
    inventory.has [token, quantity] = (inventory.holds token x).map .ofBool := by
  have hsecond : ([token, quantity][1]?.getD Object.null).asNumber = .ok x := h
  rw [has, hsecond]
  rfl

/-- Host functions that look up an inventory answer from it. Its counts are held as numbers,
which are exact below `2 ^ 53`. -/
theorem answers {host : Host} {inventory : Inventory} {symbols : SymbolTable}
    {table : ObjectTable} {held : String → Nat} {facts : String → Bool}
    (hheld : ∀ item, symbols.IsToken item → inventory (UInt32.ofNat item.2) = held item.1)
    (hexact : ∀ name, held name < 2 ^ 53)
    (hhas : host.find? Lowering.hasName = some fun _ args => inventory.has args)
    (hevery : host.find? Item.everyName = some fun _ args => inventory.hasEvery args)
    (hany : host.find? Item.anyName = some fun _ args => inventory.hasAnyOf args)
    (hfacts : ∀ name, ⟨name, 0⟩ ∈ Signature.standard →
      host.find? name = some fun _ _ => .ok (.ofBool (facts name))) :
    host.Answers inventory.check symbols table held facts := by
  have hholds : ∀ {item}, symbols.IsToken item → ∀ count,
      inventory.holds (Elsewhere.tokenPointer item.2) (.ofNat count) =
        .ok (decide (count ≤ held item.1)) := by
    intro item hitem count
    rw [holds, Elsewhere.tokenPointer, Object.asPointer_ofPointer]
    dsimp only
    rw [hheld item hitem, Number.atMost_ofNat count (hexact item.1)]
  have heach : ∀ {items : List (String × SymbolId)}, (∀ item ∈ items, symbols.IsToken item) →
      inventory.holdsEach (items.map (Elsewhere.tokenPointer ·.2)) =
        .ok (items.map fun item => decide (1 ≤ held item.1)) := by
    intro items hitems
    induction items with
    | nil => rfl
    | cons item rest ih =>
      obtain ⟨hitem, hrest⟩ := List.forall_mem_cons.mp hitems
      rw [List.map_cons, holdsEach, hholds hitem, ih hrest]
      rfl
  refine ⟨⟨_, hhas, ?_⟩, ⟨_, hevery, ?_⟩, ⟨_, hany, ?_⟩, ?_, ?_⟩
  · intro item hitem count
    show inventory.has _ = _
    rw [has_pair inventory (Object.asNumber_ofNumber (Number.ofNumber_ofNat count)),
      hholds hitem]
    rfl
  · intro items hitems
    show inventory.hasEvery _ = _
    rw [hasEvery, heach hitems]
    show Except.ok (Object.ofBool ((items.map _).all id)) = _
    rw [List.all_map]
    rfl
  · intro items hitems
    show inventory.hasAnyOf _ = _
    rw [hasAnyOf, heach hitems]
    show Except.ok (Object.ofBool ((items.map _).any id)) = _
    rw [List.any_map]
    rfl
  · intro item hitem quantity
    rw [check, hholds hitem]
    rfl
  · intro name hname
    exact ⟨_, hfacts name hname, rfl⟩

end Inventory

end Passage

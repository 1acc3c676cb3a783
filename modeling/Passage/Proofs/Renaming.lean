import Passage.Proofs.Reducing

/-!
# Nodes that differ in the numbers of their symbols

Two tables may number the same names in different ways, and then hold the same rule as two nodes
that differ only in their symbols. `Node.Matches` compares nodes up to a relation of symbols. What
the reducing constructors build depends on no symbol, so of items that match they build nodes that
match (`Junction.reduce_matches`).
-/

namespace Passage

namespace Node

variable {P Q : SymbolId → SymbolId → Prop}

/-- The nodes are the same but for their symbols, which are related one by one. -/
inductive Matches (P : SymbolId → SymbolId → Prop) : Node → Node → Prop
  | anyOf {items items' : List Node} : List.Forall₂ (Matches P) items items' →
      Matches P (.anyOf items) (.anyOf items')
  | every {items items' : List Node} : List.Forall₂ (Matches P) items items' →
      Matches P (.every items) (.every items')
  | boolean (value : Bool) : Matches P (.boolean value) (.boolean value)
  | compare (op : Comparison) {lhs lhs' rhs rhs' : Node} : Matches P lhs lhs' →
      Matches P rhs rhs' → Matches P (.compare op lhs rhs) (.compare op lhs' rhs')
  | identifier {id id' : SymbolId} : P id id' → Matches P (.identifier id) (.identifier id')
  | invert {inner inner' : Node} : Matches P inner inner' →
      Matches P (.invert inner) (.invert inner')
  | invoke {target target' : Node} {args args' : List Node} : Matches P target target' →
      List.Forall₂ (Matches P) args args' → Matches P (.invoke target args) (.invoke target' args')
  | number (value : Number) : Matches P (.number value) (.number value)
  | string (value : String) : Matches P (.string value) (.string value)

mutual

theorem Matches.mono (hP : ∀ {id id'}, P id id' → Q id id') {node node' : Node} :
    node.Matches P node' → node.Matches Q node'
  | .anyOf hitems => .anyOf (matchesAll_mono hP hitems)
  | .every hitems => .every (matchesAll_mono hP hitems)
  | .boolean value => .boolean value
  | .compare op hlhs hrhs => .compare op (hlhs.mono hP) (hrhs.mono hP)
  | .identifier hid => .identifier (hP hid)
  | .invert hinner => .invert (hinner.mono hP)
  | .invoke htarget hargs => .invoke (htarget.mono hP) (matchesAll_mono hP hargs)
  | .number value => .number value
  | .string value => .string value

theorem matchesAll_mono (hP : ∀ {id id'}, P id id' → Q id id') {nodes nodes' : List Node} :
    List.Forall₂ (Matches P) nodes nodes' → List.Forall₂ (Matches Q) nodes nodes'
  | .nil => .nil
  | .cons hnode hrest => .cons (hnode.mono hP) (matchesAll_mono hP hrest)

end

/-- Nodes that match are the same booleans. -/
theorem Matches.isBoolean_eq {node node' : Node} (h : node.Matches P node') (value : Bool) :
    Junction.isBoolean value node = Junction.isBoolean value node' := by
  cases value <;> cases h <;> rfl

end Node

namespace Junction

open Node (Matches)

variable {P : SymbolId → SymbolId → Prop} {j : Junction}

@[simp] theorem node_every (items : List Node) : node .every items = .every items := rfl

@[simp] theorem node_anyOf (items : List Node) : node .anyOf items = .anyOf items := rfl

theorem node_matches {items items' : List Node} (h : List.Forall₂ (Matches P) items items') :
    (j.node items).Matches P (j.node items') := by
  cases j
  · exact .every h
  · exact .anyOf h

theorem onto_plain {done done' : List Node} {node node' : Node}
    (hdone : List.Forall₂ (Matches P) done done') (h : node.Matches P node')
    (hne : ∀ inner, node ≠ j.node inner) (hne' : ∀ inner, node' ≠ j.node inner) :
    List.Forall₂ (Matches P) (j.onto done node) (j.onto done' node') := by
  rw [onto_of_ne hne, onto_of_ne hne']
  exact .cons h hdone

mutual

theorem onto_matches (j : Junction) {done done' : List Node}
    (hdone : List.Forall₂ (Matches P) done done') {node node' : Node} :
    node.Matches P node' → List.Forall₂ (Matches P) (j.onto done node) (j.onto done' node')
  | .every hitems => by
    cases j
    · rw [← node_every, ← node_every, onto_node, onto_node]
      exact allOnto_matches .every hdone hitems
    · exact onto_plain hdone (.every hitems) (by rintro _ ⟨⟩) (by rintro _ ⟨⟩)
  | .anyOf hitems => by
    cases j
    · exact onto_plain hdone (.anyOf hitems) (by rintro _ ⟨⟩) (by rintro _ ⟨⟩)
    · rw [← node_anyOf, ← node_anyOf, onto_node, onto_node]
      exact allOnto_matches .anyOf hdone hitems
  | .boolean value =>
    onto_plain hdone (.boolean value) (Node.ne_junction rfl j) (Node.ne_junction rfl j)
  | .compare op hlhs hrhs =>
    onto_plain hdone (.compare op hlhs hrhs) (Node.ne_junction rfl j) (Node.ne_junction rfl j)
  | .identifier hid =>
    onto_plain hdone (.identifier hid) (Node.ne_junction rfl j) (Node.ne_junction rfl j)
  | .invert hinner =>
    onto_plain hdone (.invert hinner) (Node.ne_junction rfl j) (Node.ne_junction rfl j)
  | .invoke htarget hargs =>
    onto_plain hdone (.invoke htarget hargs) (Node.ne_junction rfl j) (Node.ne_junction rfl j)
  | .number value =>
    onto_plain hdone (.number value) (Node.ne_junction rfl j) (Node.ne_junction rfl j)
  | .string value =>
    onto_plain hdone (.string value) (Node.ne_junction rfl j) (Node.ne_junction rfl j)

theorem allOnto_matches (j : Junction) {done done' : List Node}
    (hdone : List.Forall₂ (Matches P) done done') {nodes nodes' : List Node} :
    List.Forall₂ (Matches P) nodes nodes' →
      List.Forall₂ (Matches P) (j.allOnto done nodes) (j.allOnto done' nodes')
  | .nil => by rwa [allOnto_nil, allOnto_nil]
  | .cons hnode hrest => by
    rw [allOnto_cons, allOnto_cons]
    exact allOnto_matches j (onto_matches j hdone hnode) hrest

end

theorem flatten_matches {items items' : List Node} (h : List.Forall₂ (Matches P) items items') :
    List.Forall₂ (Matches P) (j.flatten items) (j.flatten items') := by
  rw [flatten_eq_allOnto, flatten_eq_allOnto]
  exact List.rel_reverse (allOnto_matches j .nil h)

theorem any_isBoolean {nodes nodes' : List Node} (h : List.Forall₂ (Matches P) nodes nodes')
    (value : Bool) : nodes.any (isBoolean value) = nodes'.any (isBoolean value) := by
  induction h with
  | nil => rfl
  | cons hnode _ ih => rw [List.any_cons, List.any_cons, hnode.isBoolean_eq, ih]

theorem filter_isBoolean {nodes nodes' : List Node} (h : List.Forall₂ (Matches P) nodes nodes')
    (value : Bool) : List.Forall₂ (Matches P) (nodes.filter fun node => !isBoolean value node)
      (nodes'.filter fun node => !isBoolean value node) :=
  List.rel_filter (fun _ _ hnode => by simp only [hnode.isBoolean_eq]) h

/-- Of items that match, nodes are built that match. -/
theorem reduce_matches {items items' : List Node} (h : List.Forall₂ (Matches P) items items') :
    (j.reduce items).Matches P (j.reduce items') := by
  have hflat := flatten_matches (j := j) h
  have hany := any_isBoolean hflat (!j.neutral)
  have hleft := filter_isBoolean hflat j.neutral
  rw [reduce_eq, reduce_eq, hany]
  split
  · exact .boolean _
  · generalize (j.flatten items).filter (fun node => !isBoolean j.neutral node) = left at hleft ⊢
    generalize (j.flatten items').filter (fun node => !isBoolean j.neutral node) = left' at hleft ⊢
    rcases hleft with _ | ⟨hnode, _ | ⟨hsecond, hrest⟩⟩
    · exact .boolean _
    · exact hnode
    · exact node_matches (.cons hnode (.cons hsecond hrest))

end Junction

end Passage

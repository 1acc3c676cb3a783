import Passage.Proofs.Junctions

/-!
# Reduced junctions

A junction is reduced if it has at least two items, none of them a boolean or a junction of
its own kind. The constructors that reduce what they build are about just this: of items
whose own junctions are reduced, they make a node whose junctions are (`Junction.reduce_normal`),
and a junction that is reduced they leave as it is (`Junction.Reduced.reduce_eq`).
-/

namespace Passage

/-- The two kinds of junctions. -/
inductive Junction where
  | every | anyOf
deriving DecidableEq

namespace Junction

/-- The junction of the items, as it stands. -/
def node : Junction → List Node → Node
  | .every => .every
  | .anyOf => .anyOf

/-- The junction of the items, reduced. -/
def reduce : Junction → List Node → Node
  | .every => .conjoin
  | .anyOf => .disjoin

/-- The items with nested junctions of the kind replaced by their items. -/
def flatten : Junction → List Node → List Node
  | .every => Node.flattenEvery
  | .anyOf => Node.flattenAnyOf

/-- The boolean that may be left out of a junction; the other one decides it. -/
def neutral : Junction → Bool
  | .every => true
  | .anyOf => false

/-- The items of a junction of the kind. Every other node is its own only item. -/
def itemsOf : Junction → Node → List Node
  | .every, .every items => items
  | .anyOf, .anyOf items => items
  | _, node => [node]

/-- What the items of a reduced junction are. -/
structure Reduced (j : Junction) (items : List Node) : Prop where
  two : 2 ≤ items.length
  flat : ∀ item ∈ items, ∀ inner, item ≠ j.node inner
  undecided : ∀ item ∈ items, ∀ value, item ≠ .boolean value

end Junction

namespace Node

/-- If the node is a junction, it is reduced. -/
def Reduced (node : Node) : Prop := ∀ (j : Junction) items, node = j.node items → j.Reduced items

/-- All junctions in the node are reduced. -/
abbrev Normal (node : Node) : Prop := node.Each Reduced

/-- Whether the node is a junction of either kind. -/
def isJunction : Node → Bool
  | .anyOf _ | .every _ => true
  | _ => false

theorem ne_junction {node : Node} (h : node.isJunction = false) (j : Junction)
    (items : List Node) : node ≠ j.node items := by
  rintro rfl
  cases j <;> cases h

/-- What is no junction is reduced. -/
theorem reduced_of_ne {node : Node} (h : ∀ (j : Junction) items, node ≠ j.node items) :
    node.Reduced :=
  fun j items heq => absurd heq (h j items)

theorem reduced_boolean (value : Bool) : (boolean value).Reduced := reduced_of_ne (ne_junction rfl)

theorem reduced_compare (op : Comparison) (lhs rhs : Node) : (compare op lhs rhs).Reduced :=
  reduced_of_ne (ne_junction rfl)

theorem reduced_identifier (id : SymbolId) : (identifier id).Reduced :=
  reduced_of_ne (ne_junction rfl)

theorem reduced_invert (inner : Node) : (invert inner).Reduced :=
  reduced_of_ne (ne_junction rfl)

theorem reduced_invoke (target : Node) (args : List Node) : (invoke target args).Reduced :=
  reduced_of_ne (ne_junction rfl)

theorem reduced_number (value : Number) : (number value).Reduced :=
  reduced_of_ne (ne_junction rfl)

theorem reduced_string (value : String) : (string value).Reduced :=
  reduced_of_ne (ne_junction rfl)

section

variable {P : Node → Prop} {j : Junction} {items : List Node}

theorem Each.junction (h : P (j.node items)) (hitems : ∀ item ∈ items, Each P item) :
    Each P (j.node items) := by
  cases j
  · exact .every h hitems
  · exact .anyOf h hitems

theorem Each.of_junction (h : Each P (j.node items)) : ∀ item ∈ items, Each P item := by
  cases j <;> cases h <;> assumption

end

end Node

namespace Junction

variable {j : Junction} {items : List Node}

theorem node_eq_node {j' : Junction} {items' : List Node} (h : j.node items = j'.node items') :
    j = j' ∧ items = items' := by
  cases j <;> cases j' <;> cases h <;> exact ⟨rfl, rfl⟩

theorem Reduced.node (h : j.Reduced items) : (j.node items).Reduced := by
  intro j' items' heq
  obtain ⟨rfl, rfl⟩ := node_eq_node heq
  exact h

@[simp] theorem itemsOf_node : j.itemsOf (j.node items) = items := by
  cases j <;> rfl

theorem itemsOf_of_ne {node : Node} (h : ∀ inner, node ≠ j.node inner) :
    j.itemsOf node = [node] := by
  cases j <;> cases node <;> first | rfl | exact absurd rfl (h _)

/-! ## Flattening -/

/-- Puts a node in front of `done`, a junction of the kind as its items, last first. -/
def onto : Junction → List Node → Node → List Node
  | .every => Node.conjunctsOnto
  | .anyOf => Node.disjunctsOnto

def allOnto : Junction → List Node → List Node → List Node
  | .every => Node.allConjunctsOnto
  | .anyOf => Node.allDisjunctsOnto

theorem flatten_eq_allOnto : j.flatten items = (j.allOnto [] items).reverse := by
  cases j <;> rfl

variable {done : List Node}

theorem onto_node : j.onto done (j.node items) = j.allOnto done items := by
  cases j
  · exact Node.conjunctsOnto.eq_1 ..
  · exact Node.disjunctsOnto.eq_1 ..

theorem onto_of_ne {node : Node} (h : ∀ inner, node ≠ j.node inner) :
    j.onto done node = node :: done := by
  cases j
  · exact Node.conjunctsOnto.eq_2 done node h
  · exact Node.disjunctsOnto.eq_2 done node h

theorem allOnto_nil : j.allOnto done [] = done := by
  cases j
  · exact Node.allConjunctsOnto.eq_1 done
  · exact Node.allDisjunctsOnto.eq_1 done

theorem allOnto_cons (node : Node) (rest : List Node) :
    j.allOnto done (node :: rest) = j.allOnto (j.onto done node) rest := by
  cases j
  · exact Node.allConjunctsOnto.eq_2 ..
  · exact Node.allDisjunctsOnto.eq_2 ..

/-- Items that are no junctions of the kind are put in front as they are. -/
theorem allOnto_of_flat (h : ∀ item ∈ items, ∀ inner, item ≠ j.node inner) :
    j.allOnto done items = items.reverse ++ done := by
  induction items generalizing done with
  | nil => exact allOnto_nil
  | cons item rest ih =>
    obtain ⟨hitem, hrest⟩ := List.forall_mem_cons.mp h
    rw [allOnto_cons, onto_of_ne hitem, ih hrest, List.reverse_cons, List.append_assoc]
    rfl

theorem flatten_of_flat (h : ∀ item ∈ items, ∀ inner, item ≠ j.node inner) :
    j.flatten items = items := by
  rw [flatten_eq_allOnto, allOnto_of_flat h, List.append_nil, List.reverse_reverse]

theorem onto_eq {node : Node} (h : ∀ part ∈ j.itemsOf node, ∀ inner, part ≠ j.node inner) :
    j.onto done node = (j.itemsOf node).reverse ++ done := by
  by_cases hnode : ∃ inner, node = j.node inner
  · obtain ⟨inner, rfl⟩ := hnode
    rw [itemsOf_node] at h ⊢
    rw [onto_node, allOnto_of_flat h]
  · have hne : ∀ inner, node ≠ j.node inner := fun inner heq => hnode ⟨inner, heq⟩
    rw [onto_of_ne hne, itemsOf_of_ne hne]
    rfl

/-- Where the junctions among the items are flat, one level of them is flattened. -/
theorem flatten_eq (h : ∀ item ∈ items, ∀ part ∈ j.itemsOf item, ∀ inner, part ≠ j.node inner) :
    j.flatten items = items.flatMap j.itemsOf := by
  have hall : ∀ {done : List Node},
      j.allOnto done items = (items.flatMap j.itemsOf).reverse ++ done := by
    induction items with
    | nil => exact allOnto_nil
    | cons item rest ih =>
      obtain ⟨hitem, hrest⟩ := List.forall_mem_cons.mp h
      intro done
      rw [allOnto_cons, onto_eq hitem, ih hrest, List.flatMap_cons, List.reverse_append,
        List.append_assoc]
  rw [flatten_eq_allOnto, hall, List.append_nil, List.reverse_reverse]

/-! ## Reduction -/

/-- Whether the node is the boolean. -/
def isBoolean : Bool → Node → Bool
  | true => Node.isTrue
  | false => Node.isFalse

theorem isBoolean_iff {value : Bool} {node : Node} :
    isBoolean value node = true ↔ node = .boolean value := by
  cases value <;> cases node with
  | boolean value => cases value <;> simp [isBoolean, Node.isTrue, Node.isFalse]
  | _ => exact ⟨nofun, nofun⟩

/-- Both kinds of junctions are reduced in one way. -/
theorem reduce_eq (j : Junction) (items : List Node) :
    j.reduce items =
      if (j.flatten items).any (isBoolean !j.neutral) then .boolean !j.neutral
      else match (j.flatten items).filter fun node => !isBoolean j.neutral node with
        | [] => .boolean j.neutral
        | [node] => node
        | items => j.node items := by
  cases j <;> rfl

/-- Among items without booleans, only one item is no junction of its own. -/
theorem reduce_of_undecided (h : ∀ item ∈ j.flatten items, ∀ value, item ≠ .boolean value) :
    j.reduce items = match j.flatten items with
      | [] => .boolean j.neutral
      | [node] => node
      | items => j.node items := by
  have hany : (j.flatten items).any (isBoolean !j.neutral) = false :=
    List.any_eq_false.mpr fun item hitem hbool => h item hitem _ (isBoolean_iff.mp hbool)
  have hfilter : (j.flatten items).filter (fun node => !isBoolean j.neutral node) =
      j.flatten items := by
    refine List.filter_eq_self.mpr fun item hitem => ?_
    rcases hbool : isBoolean j.neutral item with _ | _
    · rfl
    · exact absurd (isBoolean_iff.mp hbool) (h item hitem _)
  rw [reduce_eq, hany, hfilter]
  rfl

/-- A single item takes the place of the junction. -/
theorem reduce_singleton {node : Node} (hne : ∀ inner, node ≠ j.node inner)
    (hundecided : ∀ value, node ≠ .boolean value) : j.reduce [node] = node := by
  have hflat : j.flatten [node] = [node] := flatten_of_flat (List.forall_mem_singleton.mpr hne)
  rw [reduce_of_undecided (by rw [hflat]; exact List.forall_mem_singleton.mpr hundecided), hflat]

/-- A junction that is reduced stays as it is. -/
theorem Reduced.reduce_eq (h : j.Reduced items) : j.reduce items = j.node items := by
  have hflat : j.flatten items = items := flatten_of_flat h.flat
  have htwo := h.two
  rw [reduce_of_undecided (by rw [hflat]; exact h.undecided), hflat]
  match items, htwo with
  | _ :: _ :: _, _ => rfl

/-- The parts that flattening brings up are normal, and none is a junction of the kind. -/
theorem normal_of_mem_flatten (h : ∀ item ∈ items, item.Normal) :
    ∀ part ∈ j.flatten items, part.Normal ∧ ∀ inner, part ≠ j.node inner := by
  have hparts : ∀ item ∈ items, ∀ part ∈ j.itemsOf item,
      part.Normal ∧ ∀ inner, part ≠ j.node inner := by
    intro item hitem part hpart
    by_cases hnode : ∃ inner, item = j.node inner
    · obtain ⟨inner, rfl⟩ := hnode
      rw [itemsOf_node] at hpart
      have hreduced := (h _ hitem).self j inner rfl
      exact ⟨(h _ hitem).of_junction part hpart, hreduced.flat part hpart⟩
    · have hne : ∀ inner, item ≠ j.node inner := fun inner heq => hnode ⟨inner, heq⟩
      rw [itemsOf_of_ne hne, List.mem_singleton] at hpart
      exact hpart ▸ ⟨h item hitem, hne⟩
  intro part hpart
  rw [flatten_eq fun item hitem part hpart => (hparts item hitem part hpart).2] at hpart
  obtain ⟨item, hitem, hpart⟩ := List.mem_flatMap.mp hpart
  exact hparts item hitem part hpart

/-- Of normal items, a normal node is made. -/
theorem reduce_normal (h : ∀ item ∈ items, item.Normal) : (j.reduce items).Normal := by
  rw [Junction.reduce_eq]
  split
  · exact .boolean (Node.reduced_boolean _)
  · rename_i hdecided
    have hleft : ∀ part ∈ (j.flatten items).filter fun node => !isBoolean j.neutral node,
        part.Normal ∧ (∀ inner, part ≠ j.node inner) ∧ ∀ value, part ≠ .boolean value := by
      intro part hpart
      obtain ⟨hmem, hneutral⟩ := List.mem_filter.mp hpart
      obtain ⟨hnormal, hflat⟩ := normal_of_mem_flatten h part hmem
      refine ⟨hnormal, hflat, ?_⟩
      -- One boolean would have decided the junction, and the other one has been left out.
      rintro value rfl
      by_cases hvalue : value = j.neutral
      · rw [hvalue, isBoolean_iff.mpr rfl] at hneutral
        exact absurd hneutral nofun
      · refine hdecided (List.any_eq_true.mpr ⟨_, hmem, isBoolean_iff.mpr ?_⟩)
        rw [Bool.eq_not.mpr hvalue]
    generalize (j.flatten items).filter (fun node => !isBoolean j.neutral node) = left at hleft ⊢
    match left, hleft with
    | [], _ => exact .boolean (Node.reduced_boolean _)
    | [node], hleft => exact (hleft node (List.mem_singleton_self node)).1
    | first :: second :: rest, hleft =>
      exact .junction (Reduced.node ⟨Nat.le_add_left 2 _, fun part hpart => (hleft part hpart).2.1,
        fun part hpart => (hleft part hpart).2.2⟩) fun part hpart => (hleft part hpart).1

end Junction

end Passage

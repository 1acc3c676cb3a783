import Mathlib
import Passage.Node.Basic

/-!
# Parts of nodes

`Node.Each` says a property of all the nodes that a node is built of.

`Node.conjoin` and `Node.disjoin` flatten their items and leave some out, but the nodes
they put together are items, parts of junctions among the items, and booleans. So a
property of nodes that passes to the items of a junction and back again holds of what is
built if it holds of the items (`forall_conjoin`, `forall_disjoin`).
-/

namespace Passage.Node

/-- The property holds of a node and of all nodes that it is built of. -/
inductive Each (P : Node → Prop) : Node → Prop
  | anyOf {items : List Node} : P (.anyOf items) → (∀ item ∈ items, Each P item) →
      Each P (.anyOf items)
  | every {items : List Node} : P (.every items) → (∀ item ∈ items, Each P item) →
      Each P (.every items)
  | boolean {value : Bool} : P (.boolean value) → Each P (.boolean value)
  | compare {op : Comparison} {lhs rhs : Node} : P (.compare op lhs rhs) → Each P lhs →
      Each P rhs → Each P (.compare op lhs rhs)
  | identifier {id : SymbolId} : P (.identifier id) → Each P (.identifier id)
  | invert {inner : Node} : P (.invert inner) → Each P inner → Each P (.invert inner)
  | invoke {target : Node} {args : List Node} : P (.invoke target args) → Each P target →
      (∀ arg ∈ args, Each P arg) → Each P (.invoke target args)
  | number {value : Number} : P (.number value) → Each P (.number value)
  | string {value : String} : P (.string value) → Each P (.string value)

variable {P : Node → Prop}

theorem Each.self {node : Node} (h : node.Each P) : P node := by
  cases h <;> assumption

/-- What holds of all nodes holds of the parts of each. -/
theorem Each.of_forall (h : ∀ part, P part) (node : Node) : node.Each P := by
  cases node with
  | anyOf items => exact .anyOf (h _) fun item _ => of_forall h item
  | every items => exact .every (h _) fun item _ => of_forall h item
  | boolean value => exact .boolean (h _)
  | compare op lhs rhs => exact .compare (h _) (of_forall h lhs) (of_forall h rhs)
  | identifier id => exact .identifier (h _)
  | invert inner => exact .invert (h _) (of_forall h inner)
  | invoke target args => exact .invoke (h _) (of_forall h target) fun arg _ => of_forall h arg
  | number value => exact .number (h _)
  | string value => exact .string (h _)

theorem Each.imp {Q : Node → Prop} (himp : ∀ {part}, P part → Q part) {node : Node}
    (h : node.Each P) : node.Each Q := by
  induction h with
  | anyOf hp _ ih => exact .anyOf (himp hp) ih
  | every hp _ ih => exact .every (himp hp) ih
  | boolean hp => exact .boolean (himp hp)
  | compare hp _ _ ihl ihr => exact .compare (himp hp) ihl ihr
  | identifier hp => exact .identifier (himp hp)
  | invert hp _ ih => exact .invert (himp hp) ih
  | invoke hp _ _ iht iha => exact .invoke (himp hp) iht iha
  | number hp => exact .number (himp hp)
  | string hp => exact .string (himp hp)

theorem Each.and {Q : Node → Prop} {node : Node} (h : node.Each P) (h' : node.Each Q) :
    node.Each fun part => P part ∧ Q part := by
  induction h with
  | anyOf hp _ ih => cases h' with
    | anyOf hq hitems => exact .anyOf ⟨hp, hq⟩ fun item hitem => ih item hitem (hitems item hitem)
  | every hp _ ih => cases h' with
    | every hq hitems => exact .every ⟨hp, hq⟩ fun item hitem => ih item hitem (hitems item hitem)
  | boolean hp => exact .boolean ⟨hp, h'.self⟩
  | compare hp _ _ ihl ihr => cases h' with
    | compare hq hl hr => exact .compare ⟨hp, hq⟩ (ihl hl) (ihr hr)
  | identifier hp => exact .identifier ⟨hp, h'.self⟩
  | invert hp _ ih => cases h' with
    | invert hq hinner => exact .invert ⟨hp, hq⟩ (ih hinner)
  | invoke hp _ _ iht iha => cases h' with
    | invoke hq htarget hargs =>
      exact .invoke ⟨hp, hq⟩ (iht htarget) fun arg harg => iha arg harg (hargs arg harg)
  | number hp => exact .number ⟨hp, h'.self⟩
  | string hp => exact .string ⟨hp, h'.self⟩

/-- What holds of every part of a node holds of each. -/
theorem each_each (node : Node) : node.Each fun part => ∀ P, node.Each P → P part := by
  have hparts : node.Each fun _ => True := .of_forall (fun _ => trivial) node
  induction hparts with
  | anyOf _ _ ih =>
    refine .anyOf (fun _ h => h.self) fun item hitem => (ih item hitem).imp fun h P hnode => ?_
    cases hnode with | anyOf _ hitems => exact h P (hitems item hitem)
  | every _ _ ih =>
    refine .every (fun _ h => h.self) fun item hitem => (ih item hitem).imp fun h P hnode => ?_
    cases hnode with | every _ hitems => exact h P (hitems item hitem)
  | boolean _ => exact .boolean fun _ h => h.self
  | compare _ _ _ ihl ihr =>
    refine .compare (fun _ h => h.self) (ihl.imp fun h P hnode => ?_) (ihr.imp fun h P hnode => ?_)
    · cases hnode with | compare _ hl _ => exact h P hl
    · cases hnode with | compare _ _ hr => exact h P hr
  | identifier _ => exact .identifier fun _ h => h.self
  | invert _ _ ih =>
    refine .invert (fun _ h => h.self) (ih.imp fun h P hnode => ?_)
    cases hnode with | invert _ hinner => exact h P hinner
  | invoke _ _ _ iht iha =>
    refine .invoke (fun _ h => h.self) (iht.imp fun h P hnode => ?_)
      fun arg harg => (iha arg harg).imp fun h P hnode => ?_
    · cases hnode with | invoke _ htarget _ => exact h P htarget
    · cases hnode with | invoke _ _ hargs => exact h P (hargs arg harg)
  | number _ => exact .number fun _ h => h.self
  | string _ => exact .string fun _ h => h.self

/-! ## Conjunctions -/

mutual

theorem forall_conjunctsOnto (hitems : ∀ {items}, P (.every items) → ∀ item ∈ items, P item)
    {done : List Node} (hdone : ∀ node ∈ done, P node) :
    {node : Node} → P node → ∀ item ∈ conjunctsOnto done node, P item
  | .every items, h => by
    rw [conjunctsOnto]
    exact forall_allConjunctsOnto hitems hdone (hitems h)
  | .anyOf _, h | .boolean _, h | .compare _ _ _, h | .identifier _, h | .invert _, h
  | .invoke _ _, h | .number _, h | .string _, h => by
    rw [conjunctsOnto]
    · exact List.forall_mem_cons.mpr ⟨h, hdone⟩
    · nofun

theorem forall_allConjunctsOnto (hitems : ∀ {items}, P (.every items) → ∀ item ∈ items, P item)
    {done : List Node} (hdone : ∀ node ∈ done, P node) :
    {items : List Node} → (∀ item ∈ items, P item) → ∀ item ∈ allConjunctsOnto done items, P item
  | [], _ => by rwa [allConjunctsOnto]
  | _ :: _, h => by
    rw [allConjunctsOnto]
    obtain ⟨hnode, hrest⟩ := List.forall_mem_cons.mp h
    exact forall_allConjunctsOnto hitems (forall_conjunctsOnto hitems hdone hnode) hrest

end

theorem forall_conjoin (hitems : ∀ {items}, P (.every items) → ∀ item ∈ items, P item)
    (hevery : ∀ {items}, (∀ item ∈ items, P item) → P (.every items))
    (hboolean : ∀ value, P (.boolean value)) {items : List Node} (h : ∀ item ∈ items, P item) :
    P (conjoin items) := by
  have hflat : ∀ item ∈ flattenEvery items, P item := by
    intro item hitem
    exact forall_allConjunctsOnto hitems (List.forall_mem_nil _) h item (List.mem_reverse.mp hitem)
  have hfilter : ∀ item ∈ (flattenEvery items).filter fun node => !node.isTrue, P item :=
    fun item hitem => hflat item ((List.mem_filter.mp hitem).1)
  rw [conjoin]
  split
  · exact hboolean false
  · split
    · exact hboolean true
    · rename_i node hone
      exact hfilter node (hone ▸ List.mem_singleton_self node)
    · exact hevery hfilter

/-! ## Disjunctions -/

mutual

theorem forall_disjunctsOnto (hitems : ∀ {items}, P (.anyOf items) → ∀ item ∈ items, P item)
    {done : List Node} (hdone : ∀ node ∈ done, P node) :
    {node : Node} → P node → ∀ item ∈ disjunctsOnto done node, P item
  | .anyOf items, h => by
    rw [disjunctsOnto]
    exact forall_allDisjunctsOnto hitems hdone (hitems h)
  | .every _, h | .boolean _, h | .compare _ _ _, h | .identifier _, h | .invert _, h
  | .invoke _ _, h | .number _, h | .string _, h => by
    rw [disjunctsOnto]
    · exact List.forall_mem_cons.mpr ⟨h, hdone⟩
    · nofun

theorem forall_allDisjunctsOnto (hitems : ∀ {items}, P (.anyOf items) → ∀ item ∈ items, P item)
    {done : List Node} (hdone : ∀ node ∈ done, P node) :
    {items : List Node} → (∀ item ∈ items, P item) → ∀ item ∈ allDisjunctsOnto done items, P item
  | [], _ => by rwa [allDisjunctsOnto]
  | _ :: _, h => by
    rw [allDisjunctsOnto]
    obtain ⟨hnode, hrest⟩ := List.forall_mem_cons.mp h
    exact forall_allDisjunctsOnto hitems (forall_disjunctsOnto hitems hdone hnode) hrest

end

theorem forall_disjoin (hitems : ∀ {items}, P (.anyOf items) → ∀ item ∈ items, P item)
    (hanyOf : ∀ {items}, (∀ item ∈ items, P item) → P (.anyOf items))
    (hboolean : ∀ value, P (.boolean value)) {items : List Node} (h : ∀ item ∈ items, P item) :
    P (disjoin items) := by
  have hflat : ∀ item ∈ flattenAnyOf items, P item := by
    intro item hitem
    exact forall_allDisjunctsOnto hitems (List.forall_mem_nil _) h item (List.mem_reverse.mp hitem)
  have hfilter : ∀ item ∈ (flattenAnyOf items).filter fun node => !node.isFalse, P item :=
    fun item hitem => hflat item ((List.mem_filter.mp hitem).1)
  rw [disjoin]
  split
  · exact hboolean true
  · split
    · exact hboolean false
    · rename_i node hone
      exact hfilter node (hone ▸ List.mem_singleton_self node)
    · exact hanyOf hfilter

/-! ## Junctions of nodes with a property -/

namespace Each

theorem conjoin (hevery : ∀ items, P (.every items)) (hboolean : ∀ value, P (.boolean value))
    {items : List Node} (h : ∀ item ∈ items, Each P item) : Each P (conjoin items) :=
  forall_conjoin (P := Each P) (fun h => by cases h; assumption) (.every (hevery _))
    (fun value => .boolean (hboolean value)) h

theorem disjoin (hanyOf : ∀ items, P (.anyOf items)) (hboolean : ∀ value, P (.boolean value))
    {items : List Node} (h : ∀ item ∈ items, Each P item) : Each P (disjoin items) :=
  forall_disjoin (P := Each P) (fun h => by cases h; assumption) (.anyOf (hanyOf _))
    (fun value => .boolean (hboolean value)) h

end Each

end Passage.Node

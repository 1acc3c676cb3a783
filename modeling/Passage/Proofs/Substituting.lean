import Passage.Pass.Inline
import Passage.Proofs.Junctions

/-!
# Substitution part by part

Substitution replaces names and builds everything else anew from its parts. What becomes of
one node of a kind depends on that node and its parts only; so whether every part of a node
has a property after substitution follows from what the parts had before, form by form
(`Node.Each.substitute`). The body of a function is such a node (`Inline.instantiate`): what
replaces names there are arguments, and only parameters are replaced.
-/

namespace Passage

namespace Node

variable {scope : SymbolId → Option Node}

theorem substituteAll_eq (nodes : List Node) (done : List Node) :
    substituteAll scope done nodes = done.reverse ++ nodes.map (substitute scope) := by
  induction nodes generalizing done with
  | nil => rw [substituteAll, List.map_nil, List.append_nil]
  | cons node rest ih =>
    rw [substituteAll, ih, List.reverse_cons, List.append_assoc, List.map_cons]
    rfl

theorem substitute_anyOf (items : List Node) :
    (anyOf items).substitute scope = disjoin (items.map (substitute scope)) := by
  rw [substitute, substituteAll_eq]
  rfl

theorem substitute_every (items : List Node) :
    (every items).substitute scope = conjoin (items.map (substitute scope)) := by
  rw [substitute, substituteAll_eq]
  rfl

theorem substitute_invoke (target : Node) (args : List Node) :
    (invoke target args).substitute scope =
      invoke (target.substitute scope) (args.map (substitute scope)) := by
  rw [substitute, substituteAll_eq]
  rfl

/-- A name that nothing stands for stays. -/
theorem substitute_unbound {id : SymbolId} (h : scope id = none) :
    (identifier id).substitute scope = identifier id := by
  rw [substitute, h]
  rfl

theorem substitute_bound {id : SymbolId} {node : Node} (h : scope id = some node) :
    (identifier id).substitute scope = node := by
  rw [substitute, h]
  rfl

/-- All parts have the property `Q` after substitution if they had `P` before it, where `P`
leads to `Q` in each form that stays, and all parts of what is put in have `Q`. -/
theorem Each.substitute {P Q : Node → Prop} (hanyOf : ∀ items, Q (.anyOf items))
    (hevery : ∀ items, Q (.every items)) (hboolean : ∀ value, Q (.boolean value))
    (hcompare : ∀ {op lhs rhs}, P (.compare op lhs rhs) → ∀ lhs rhs, Q (.compare op lhs rhs))
    (hidentifier : ∀ {id}, P (.identifier id) → scope id = none → Q (.identifier id))
    (hinvert : ∀ inner, Q (.invert inner))
    (hinvoke : ∀ {target args}, P (.invoke target args) →
      Q (.invoke (target.substitute scope) (args.map (Node.substitute scope))))
    (hnumber : ∀ {value}, P (.number value) → Q (.number value))
    (hstring : ∀ {value}, P (.string value) → Q (.string value))
    (hscope : ∀ {id node}, scope id = some node → node.Each Q) {node : Node} (h : node.Each P) :
    (node.substitute scope).Each Q := by
  have hmap : ∀ {nodes : List Node}, (∀ node ∈ nodes, (node.substitute scope).Each Q) →
      ∀ node ∈ nodes.map (Node.substitute scope), node.Each Q := by
    intro nodes hnodes
    exact List.forall_mem_map.mpr hnodes
  induction h with
  | anyOf _ _ ih =>
    rw [substitute_anyOf]
    exact Each.disjoin hanyOf hboolean (hmap ih)
  | every _ _ ih =>
    rw [substitute_every]
    exact Each.conjoin hevery hboolean (hmap ih)
  | @boolean value _ => exact .boolean (hboolean value)
  | compare hp _ _ ihl ihr => exact .compare (hcompare hp _ _) ihl ihr
  | @identifier id hp =>
    rcases hid : scope id with _ | node
    · rw [substitute_unbound hid]
      exact .identifier (hidentifier hp hid)
    · rw [substitute_bound hid]
      exact hscope hid
  | invert _ _ ih => exact .invert (hinvert _) ih
  | invoke hp _ _ iht iha =>
    rw [substitute_invoke]
    exact .invoke (hinvoke hp) iht (hmap iha)
  | number hp => exact .number (hnumber hp)
  | string hp => exact .string (hstring hp)

/-! ## Scopes -/

variable {params : List SymbolId} {args : List Node} {id : SymbolId} {node : Node}

/-- What stands for a parameter is the argument in its place. -/
theorem mem_zip_of_scopeOf (h : scopeOf params args id = some node) :
    (id, node) ∈ params.zip args := by
  obtain ⟨before, after, hsplit, -⟩ := List.lookup_eq_some_iff.mp h
  rw [← List.mem_reverse, hsplit]
  exact List.mem_append_right _ List.mem_cons_self

theorem mem_of_scopeOf (h : scopeOf params args id = some node) : node ∈ args :=
  (List.of_mem_zip (mem_zip_of_scopeOf h)).2

/-- Only parameters are replaced. -/
theorem scopeOf_unbound (h : id ∉ params) : scopeOf params args id = none := by
  rcases hid : scopeOf params args id with _ | node
  · rfl
  · exact absurd (List.of_mem_zip (mem_zip_of_scopeOf hid)).1 h

end Node

/-- What is found by name is an entry of the table. -/
theorem Scripts.mem_of_get? {scripts : Scripts} {name : String} {script : Script}
    (h : scripts.get? name = some script) : (name, script) ∈ scripts.entries := by
  obtain ⟨before, after, hsplit, -⟩ := List.lookup_eq_some_iff.mp h
  rw [hsplit]
  exact List.mem_append_right _ List.mem_cons_self

/-- What is found in a table of two functions is one of them. -/
theorem Scripts.get?_pair {name name₁ name₂ : String} {script script₁ script₂ : Script}
    (h : Scripts.get? ⟨[(name₁, script₁), (name₂, script₂)]⟩ name = some script) :
    name = name₁ ∧ script = script₁ ∨ name = name₂ ∧ script = script₂ := by
  rcases List.mem_cons.mp (mem_of_get? h) with heq | hmem
  · exact .inl (Prod.mk.inj heq)
  · exact .inr (Prod.mk.inj (List.mem_singleton.mp hmem))

namespace Inline

/-- What is called is a function of the table, and the called symbol goes by its name. -/
theorem get?_of_scriptOf? {scripts : Scripts} {symbols : SymbolTable} {target : Node}
    {name : String} {script : Script} (h : scriptOf? scripts symbols target = some (name, script)) :
    scripts.get? name = some script := by
  obtain ⟨id, -, hrest⟩ := Option.bind_eq_some_iff.mp h
  obtain ⟨symbol, -, hrest⟩ := Option.bind_eq_some_iff.mp hrest
  split at hrest
  · obtain ⟨found, hget, hpure⟩ := Option.bind_eq_some_iff.mp hrest
    obtain ⟨rfl, rfl⟩ := Prod.mk.inj (Option.some.inj hpure)
    exact hget
  · exact absurd hrest nofun

end Inline

end Passage

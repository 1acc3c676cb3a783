import Passage.Proofs.Parsing
import Passage.Proofs.Rewriting

/-!
# Lowering a formula

In a symbol table that knows the names of a formula, its tree is lowered without a trace:
no name is declared, no kind refined. What it is lowered to is a rule about items and
facts that has the truth value of the formula (`Formula.lower_tree`).
-/

namespace Passage

/-- What a reading says of names is what is held and what is a fact. -/
structure Reading.Names (r : Reading) (symbols : SymbolTable) (IsItem IsFact : String → Prop)
    (held : String → Nat) (facts : String → Bool) : Prop where
  of : r.Of symbols
  coherent : r.Coherent
  item : ∀ {name}, IsItem name → Lowering.trick? name = none ∧
    ∃ id, symbols.Knows name .token id ∧ r.IsItem id ∧
      ∀ count, r.holds id (.ofNat count) = decide (count ≤ held name)
  fact : ∀ {name}, IsFact name → Lowering.trick? name = none ∧
    ∃ id, symbols.Knows name .builtInFunction id ∧ r.IsFact id ∧ r.states id = facts name

variable {symbols : SymbolTable}

namespace Rule.Tree

theorem lower_identifier {name : String} {kind : Symbol.Kind} {id : SymbolId}
    (hname : Lowering.trick? name = none) (h : symbols.Knows name kind id) :
    lower (.identifier name) symbols = (.ok (.identifier id), symbols) := by
  have hdeclare : Lowering.declare name .unknown symbols = (.ok id, symbols) := by
    rw [Lowering.declare, h.declare_unknown]
  rw [lower, hname]
  dsimp only
  rw [bind_ok hdeclare, pure_apply]

/-- A call of a built-in function changes nothing about it. -/
theorem lower_call {name : String} {id : SymbolId} (hs : symbols.Sound)
    (hname : Lowering.trick? name = none) (h : symbols.Knows name .builtInFunction id)
    {args : List Tree} {nodes : List Node}
    (hargs : lowerAll [] args symbols = (.ok nodes, symbols)) :
    lower (.call (.identifier name) args) symbols = (.ok (.call id nodes), symbols) := by
  obtain ⟨s, hget, hkind, -⟩ := h.get? hs
  have hfunction : (s.kind = .unknown || s.kind.isFunction) = true := by
    rw [hkind]
    rfl
  have hown : symbols.Knows s.name .builtInFunction id := hkind ▸ .of_get? hs hget
  have hdeclare : Lowering.declare s.name .function symbols = (.ok id, symbols) := by
    rw [Lowering.declare, hown.declare_function]
  have hcallee : Lowering.declareCallee id symbols = (.ok (), symbols) := by
    rw [Lowering.declareCallee, bind_ok (get_apply symbols), hget]
    dsimp only
    rw [if_pos hfunction, bind_ok hdeclare]
    rfl
  rw [lower, bind_ok (lower_identifier hname h)]
  show (Lowering.declareCallee id >>= fun _ => _) symbols = _
  rw [bind_ok hcallee, bind_ok hargs]
  rfl

end Rule.Tree

open Rule.Tree

/-- In a table that knows its names, a formula is lowered to a rule of the same truth. -/
theorem Formula.lower_tree {r : Reading} {IsItem IsFact : String → Prop} {held : String → Nat}
    {facts : String → Bool} (hr : r.Names symbols IsItem IsFact held facts) {tier : Tier}
    {ls : List Lexeme} {f : Formula} (h : Reads IsItem IsFact tier ls f) :
    ∃ node, f.tree.lower symbols = (.ok node, symbols) ∧
      node.Within r (fun id => r.IsItem id ∨ r.IsFact id) ∧ node.truth r = f.truth held facts := by
  induction h with
  | true => exact ⟨.boolean Bool.true, rfl, .boolean _, rfl⟩
  | false => exact ⟨.boolean Bool.false, rfl, .boolean _, rfl⟩
  | item hname =>
    obtain ⟨htrick, id, hknown, hitem, hholds⟩ := hr.item hname
    refine ⟨.identifier id, lower_identifier htrick hknown, .identifier (.inl hitem), ?_⟩
    rw [Node.truth_identifier, hr.coherent.item hitem, Item.one, hholds, Formula.truth]
  | @quantity name digits hname =>
    obtain ⟨htrick, id, hknown, hitem, hholds⟩ := hr.item hname
    have hargs : lowerAll [] [.identifier name, .number (.ofNat (decimal digits))] symbols =
        (.ok [.identifier id, .number (.ofNat (decimal digits))], symbols) := by
      rw [lowerAll, bind_ok (lower_identifier htrick hknown), lowerAll]
      rfl
    refine ⟨.has r.has id (.ofNat (decimal digits)), ?_, .question (.has _ hitem), ?_⟩
    · exact lower_call hr.of.sound (by decide) hr.of.has hargs
    · exact (Reading.Coherent.answer_has _ _).trans (hholds _)
  | fact hname =>
    obtain ⟨htrick, id, hknown, hfact, hstates⟩ := hr.fact hname
    exact ⟨.identifier id, lower_identifier htrick hknown, .identifier (.inr hfact), hstates⟩
  | asked hname =>
    obtain ⟨htrick, id, hknown, hfact, hstates⟩ := hr.fact hname
    refine ⟨.call id [], ?_, .question (.fact hfact), ?_⟩
    · exact lower_call hr.of.sound htrick hknown rfl
    · exact (hr.coherent.answer_fact hfact).trans hstates
  | not _ ih =>
    obtain ⟨inner, hlower, hwithin, htruth⟩ := ih
    refine ⟨.invert inner, ?_, .invert hwithin, ?_⟩
    · rw [Formula.tree, lower, bind_ok hlower, pure_apply]
    · rw [Node.truth_invert, htruth, Formula.truth]
  | and _ _ ihl ihr =>
    obtain ⟨lhs, hlhs, hwithin, htruth⟩ := ihl
    obtain ⟨rhs, hrhs, hwithin', htruth'⟩ := ihr
    have hitems : ∀ item ∈ [lhs, rhs], item.Within r fun id => r.IsItem id ∨ r.IsFact id :=
      List.forall_mem_cons.mpr ⟨hwithin, List.forall_mem_singleton.mpr hwithin'⟩
    refine ⟨.conjoin [lhs, rhs], ?_, Node.within_conjoin hitems, ?_⟩
    · rw [Formula.tree, lower, bind_ok hlhs, bind_ok hrhs]
      rfl
    · rw [Node.truth_conjoin, List.all_cons, List.all_cons, List.all_nil, Bool.and_true, htruth,
        htruth', Formula.truth]
  | or _ _ ihl ihr =>
    obtain ⟨lhs, hlhs, hwithin, htruth⟩ := ihl
    obtain ⟨rhs, hrhs, hwithin', htruth'⟩ := ihr
    have hitems : ∀ item ∈ [lhs, rhs], item.Within r fun id => r.IsItem id ∨ r.IsFact id :=
      List.forall_mem_cons.mpr ⟨hwithin, List.forall_mem_singleton.mpr hwithin'⟩
    refine ⟨.disjoin [lhs, rhs], ?_, Node.within_disjoin hitems, ?_⟩
    · rw [Formula.tree, lower, bind_ok hlhs, bind_ok hrhs]
      rfl
    · rw [Node.truth_disjoin, List.any_cons, List.any_cons, List.any_nil, Bool.or_false, htruth,
        htruth', Formula.truth]
  | paren _ ih | literal _ ih | conjunction _ ih | disjunction _ ih => exact ih

end Passage

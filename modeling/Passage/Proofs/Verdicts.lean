import Passage.Proofs.Junctions

/-!
# The verdict on a node

Junctions and negations put a node together from parts that are none: names, calls,
comparisons, numbers and texts. `Node.verdict` is the truth value of the node by the truth
values that these parts are given. The constructors that reduce what they build do not change
it (`verdict_conjoin`, `verdict_disjoin`).
-/

namespace Passage.Node

mutual

/-- The truth value of a node, where `facts` says those of its parts that are neither booleans
nor put together by junctions and negations. -/
def verdict (facts : Node → Bool) : Node → Bool
  | .anyOf items => (verdicts facts items).any id
  | .every items => (verdicts facts items).all id
  | .boolean value => value
  | .invert inner => !verdict facts inner
  | .compare op lhs rhs => facts (.compare op lhs rhs)
  | .identifier id => facts (.identifier id)
  | .invoke target args => facts (.invoke target args)
  | .number value => facts (.number value)
  | .string value => facts (.string value)

def verdicts (facts : Node → Bool) : List Node → List Bool
  | [] => []
  | node :: rest => verdict facts node :: verdicts facts rest

end

variable {facts : Node → Bool}

theorem verdicts_eq (items : List Node) : verdicts facts items = items.map (verdict facts) := by
  induction items with
  | nil => rfl
  | cons node rest ih => rw [verdicts, ih, List.map_cons]

@[simp] theorem verdict_anyOf (items : List Node) :
    verdict facts (.anyOf items) = items.any (verdict facts) := by
  rw [verdict, verdicts_eq, List.any_map]
  rfl

@[simp] theorem verdict_every (items : List Node) :
    verdict facts (.every items) = items.all (verdict facts) := by
  rw [verdict, verdicts_eq, List.all_map]
  rfl

@[simp] theorem verdict_boolean (value : Bool) : verdict facts (.boolean value) = value := rfl

@[simp] theorem verdict_invert (inner : Node) :
    verdict facts (.invert inner) = !verdict facts inner := rfl

@[simp] theorem verdict_identifier (id : SymbolId) :
    verdict facts (.identifier id) = facts (.identifier id) := rfl

@[simp] theorem verdict_invoke (target : Node) (args : List Node) :
    verdict facts (.invoke target args) = facts (.invoke target args) := rfl

theorem verdict_of_isTrue {node : Node} (h : node.isTrue = true) : verdict facts node = true := by
  unfold isTrue at h
  split at h
  · rfl
  · exact absurd h nofun

theorem verdict_of_isFalse {node : Node} (h : node.isFalse = true) :
    verdict facts node = false := by
  unfold isFalse at h
  split at h
  · rfl
  · exact absurd h nofun

/-! ## Conjunctions -/

mutual

theorem all_conjunctsOnto (done : List Node) : (node : Node) →
    (conjunctsOnto done node).all (verdict facts) = (verdict facts node && done.all (verdict facts))
  | .every items => by rw [conjunctsOnto, all_allConjunctsOnto done items, verdict_every]
  | .anyOf _ | .boolean _ | .compare _ _ _ | .identifier _ | .invert _ | .invoke _ _ | .number _
  | .string _ => by rw [conjunctsOnto, List.all_cons]; nofun

theorem all_allConjunctsOnto (done : List Node) : (items : List Node) →
    (allConjunctsOnto done items).all (verdict facts) =
      (items.all (verdict facts) && done.all (verdict facts))
  | [] => by rw [allConjunctsOnto, List.all_nil, Bool.true_and]
  | node :: rest => by
    rw [allConjunctsOnto, all_allConjunctsOnto (conjunctsOnto done node) rest,
      all_conjunctsOnto done node, List.all_cons, ← Bool.and_assoc,
      Bool.and_comm (rest.all (verdict facts))]

end

theorem all_flattenEvery (items : List Node) :
    (flattenEvery items).all (verdict facts) = items.all (verdict facts) := by
  rw [flattenEvery, List.all_reverse, all_allConjunctsOnto, List.all_nil, Bool.and_true]

/-- What has no effect on a conjunction may be left out. -/
theorem all_filter_isTrue (items : List Node) :
    (items.filter fun node => !node.isTrue).all (verdict facts) = items.all (verdict facts) := by
  induction items with
  | nil => rfl
  | cons node rest ih =>
    rcases h : node.isTrue with _ | _
    · rw [List.filter_cons_of_pos (by simp [h]), List.all_cons, List.all_cons, ih]
    · rw [List.filter_cons_of_neg (by simp [h]), List.all_cons, verdict_of_isTrue h, Bool.true_and,
        ih]

/-- The conjunction of nodes is true if all of them are. -/
theorem verdict_conjoin (items : List Node) :
    verdict facts (conjoin items) = items.all (verdict facts) := by
  rw [← all_flattenEvery, conjoin]
  generalize flattenEvery items = flat
  split
  · rename_i hfalse
    obtain ⟨node, hmem, hnode⟩ := List.any_eq_true.mp hfalse
    have hall : flat.all (verdict facts) = false :=
      List.all_eq_false.mpr ⟨node, hmem, by simp [verdict_of_isFalse hnode]⟩
    rw [hall, verdict_boolean]
  · rw [← all_filter_isTrue flat]
    split
    · rename_i hnil
      rw [hnil]
      rfl
    · rename_i node hone
      rw [hone, List.all_cons, List.all_nil, Bool.and_true]
    · rw [verdict_every]

/-! ## Disjunctions -/

mutual

theorem any_disjunctsOnto (done : List Node) : (node : Node) →
    (disjunctsOnto done node).any (verdict facts) = (verdict facts node || done.any (verdict facts))
  | .anyOf items => by rw [disjunctsOnto, any_allDisjunctsOnto done items, verdict_anyOf]
  | .every _ | .boolean _ | .compare _ _ _ | .identifier _ | .invert _ | .invoke _ _ | .number _
  | .string _ => by rw [disjunctsOnto, List.any_cons]; nofun

theorem any_allDisjunctsOnto (done : List Node) : (items : List Node) →
    (allDisjunctsOnto done items).any (verdict facts) =
      (items.any (verdict facts) || done.any (verdict facts))
  | [] => by rw [allDisjunctsOnto, List.any_nil, Bool.false_or]
  | node :: rest => by
    rw [allDisjunctsOnto, any_allDisjunctsOnto (disjunctsOnto done node) rest,
      any_disjunctsOnto done node, List.any_cons, ← Bool.or_assoc,
      Bool.or_comm (rest.any (verdict facts))]

end

theorem any_flattenAnyOf (items : List Node) :
    (flattenAnyOf items).any (verdict facts) = items.any (verdict facts) := by
  rw [flattenAnyOf, List.any_reverse, any_allDisjunctsOnto, List.any_nil, Bool.or_false]

theorem any_filter_isFalse (items : List Node) :
    (items.filter fun node => !node.isFalse).any (verdict facts) = items.any (verdict facts) := by
  induction items with
  | nil => rfl
  | cons node rest ih =>
    rcases h : node.isFalse with _ | _
    · rw [List.filter_cons_of_pos (by simp [h]), List.any_cons, List.any_cons, ih]
    · rw [List.filter_cons_of_neg (by simp [h]), List.any_cons, verdict_of_isFalse h,
        Bool.false_or, ih]

/-- The disjunction of nodes is true if one of them is. -/
theorem verdict_disjoin (items : List Node) :
    verdict facts (disjoin items) = items.any (verdict facts) := by
  rw [← any_flattenAnyOf, disjoin]
  generalize flattenAnyOf items = flat
  split
  · rename_i htrue
    obtain ⟨node, hmem, hnode⟩ := List.any_eq_true.mp htrue
    have hany : flat.any (verdict facts) = true :=
      List.any_eq_true.mpr ⟨node, hmem, verdict_of_isTrue hnode⟩
    rw [hany, verdict_boolean]
  · rw [← any_filter_isFalse flat]
    split
    · rename_i hnil
      rw [hnil]
      rfl
    · rename_i node hone
      rw [hone, List.any_cons, List.any_nil, Bool.or_false]
    · rw [verdict_anyOf]

end Passage.Node

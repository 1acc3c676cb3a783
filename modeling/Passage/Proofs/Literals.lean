import Passage.Node.Lowering
import Passage.Proofs.Consuming
import Passage.Proofs.Junctions

/-!
# The numbers of a rule

The numerals of a rule are digits, so that all numbers of a tree that was parsed are
natural (`natural_of_parse`). Lowering adds none but the codes of comparisons
(`lower_natural`).
-/

namespace Passage

open Rule

/-- The number of a natural number. -/
def Number.IsNatural (x : Number) : Prop := ∃ n, x = .ofNat n

/-- All numbers of the tree are natural. -/
inductive Rule.Tree.Natural : Tree → Prop
  | identifier (name : String) : Natural (.identifier name)
  | bool (value : Bool) : Natural (.bool value)
  | number {value : Number} : value.IsNatural → Natural (.number value)
  | string (value : String) : Natural (.string value)
  | compare {op : Comparison} {lhs rhs : Tree} : Natural lhs → Natural rhs →
      Natural (.compare op lhs rhs)
  | within {lhs rhs : Tree} : Natural lhs → Natural rhs → Natural (.within lhs rhs)
  | connect {op : Connective} {lhs rhs : Tree} : Natural lhs → Natural rhs →
      Natural (.connect op lhs rhs)
  | not {operand : Tree} : Natural operand → Natural (.not operand)
  | call {callee : Tree} {args : List Tree} : Natural callee → (∀ arg ∈ args, Natural arg) →
      Natural (.call callee args)
  | subscript {target index : Tree} : Natural target → Natural index →
      Natural (.subscript target index)
  | tuple {elements : List Tree} : (∀ element ∈ elements, Natural element) →
      Natural (.tuple elements)

/-! ## Parsing -/

namespace Rule.Tree

mutual

/-- The numbers of a tree are among its marks. -/
theorem natural_of_marks : {tree : Tree} → (∀ value, .number value ∈ tree.marks → value.IsNatural) →
    tree.Natural
  | .identifier _, _ => .identifier _
  | .bool _, _ => .bool _
  | .number _, h => .number (h _ (by rw [marks]; exact List.mem_singleton_self _))
  | .string _, _ => .string _
  | .compare .., h => by
    rw [marks] at h
    exact .compare (natural_of_marks fun value hmem => h value (List.mem_append_left _ hmem))
      (natural_of_marks fun value hmem =>
        h value (List.mem_append_right _ (List.mem_cons_of_mem _ hmem)))
  | .within .., h => by
    rw [marks] at h
    exact .within (natural_of_marks fun value hmem => h value (List.mem_append_left _ hmem))
      (natural_of_marks fun value hmem =>
        h value (List.mem_append_right _ (List.mem_cons_of_mem _ hmem)))
  | .connect .., h => by
    rw [marks] at h
    exact .connect (natural_of_marks fun value hmem => h value (List.mem_append_left _ hmem))
      (natural_of_marks fun value hmem =>
        h value (List.mem_append_right _ (List.mem_cons_of_mem _ hmem)))
  | .not _, h => by
    rw [marks] at h
    exact .not (natural_of_marks fun value hmem => h value (List.mem_cons_of_mem _ hmem))
  | .call .., h => by
    rw [marks] at h
    exact .call (natural_of_marks fun value hmem => h value (List.mem_append_left _ hmem))
      (natural_of_marksOf fun value hmem => h value (List.mem_append_right _ hmem))
  | .subscript .., h => by
    rw [marks] at h
    exact .subscript (natural_of_marks fun value hmem => h value (List.mem_append_left _ hmem))
      (natural_of_marks fun value hmem => h value (List.mem_append_right _ hmem))
  | .tuple _, h => by
    rw [marks] at h
    exact .tuple (natural_of_marksOf h)

theorem natural_of_marksOf : {trees : List Tree} →
    (∀ value, .number value ∈ marksOf trees → value.IsNatural) → ∀ tree ∈ trees, tree.Natural
  | [], _ => List.forall_mem_nil _
  | _ :: _, h => by
    rw [marksOf] at h
    exact List.forall_mem_cons.mpr
      ⟨natural_of_marks fun value hmem => h value (List.mem_append_left _ hmem),
        natural_of_marksOf fun value hmem => h value (List.mem_append_right _ hmem)⟩

end

end Rule.Tree

/-- A token that marks a number is a numeral. -/
theorem Rule.Token.natural_of_mark? {t : Token} {value : Number}
    (h : t.mark? = some (.number value)) : value.IsNatural := by
  unfold mark? at h
  cases hkind : t.kind <;> rw [hkind] at h
  case number => exact ⟨_, (Mark.number.inj (Option.some.inj h)).symm⟩
  all_goals exact absurd h (by simp)

/-- All numbers of a rule are natural. -/
theorem Rule.natural_of_parse {text : String} {tree : Tree} (h : parse text = .ok tree) :
    tree.Natural := by
  obtain ⟨p, p', -, hread, -⟩ := parse_eq_ok h
  obtain ⟨-, ts, -, hmarks⟩ := Parser.expression_covers _ _ hread
  refine Tree.natural_of_marks fun value hmem => ?_
  obtain ⟨t, -, hmark⟩ := List.mem_filterMap.mp (hmarks ▸ hmem)
  exact t.natural_of_mark? hmark

/-! ## Lowering -/

/-- A number is natural. -/
def Node.CountsNaturally : Node → Prop
  | .number value => value.IsNatural
  | _ => True

/-- All numbers of the node are natural. -/
abbrev Node.Natural (node : Node) : Prop := node.Each Node.CountsNaturally

namespace Rule.Tree

open Lowering

theorem callNamed_natural {name : String} {args : List Node} (h : ∀ arg ∈ args, arg.Natural) :
    Ensures Node.Natural (callNamed name args) :=
  .behind fun _ => .pure (.invoke trivial (.identifier trivial) h)

theorem callNamed_string (name value : String) :
    Ensures Node.Natural (callNamed name [.string value]) :=
  callNamed_natural (List.forall_mem_singleton.mpr (.string trivial))

mutual

theorem lower_natural : {tree : Tree} → tree.Natural → Ensures Node.Natural tree.lower
  | .identifier name, _ => by
    unfold lower
    split
    · exact callNamed_string _ _
    · exact .behind fun _ => .pure (.identifier trivial)
  | .bool value, _ => by
    unfold lower
    exact .pure (.boolean trivial)
  | .number value, h => by
    unfold lower
    cases h with
    | number hvalue => exact .pure (.number hvalue)
  | .string value, _ => by
    unfold lower
    exact .pure (.string trivial)
  | .within lhs rhs, _ => by
    unfold lower
    split
    all_goals first
      | contradiction
      | exact callNamed_string _ _
      | exact .throw _
  | .compare op lhs rhs, h => by
    unfold lower
    cases h with
    | compare hlhs hrhs =>
      refine .bind (lower_natural hlhs) fun lhs hl => .bind (lower_natural hrhs) fun rhs hr =>
        .behind fun symbols => ?_
      split
      · refine callNamed_natural (List.forall_mem_cons.mpr ⟨.number ⟨_, rfl⟩, ?_⟩)
        exact List.forall_mem_cons.mpr ⟨hl, List.forall_mem_singleton.mpr hr⟩
      · exact .pure (.compare trivial hl hr)
  | .connect op lhs rhs, h => by
    unfold lower
    cases h with
    | connect hlhs hrhs =>
      refine .bind (lower_natural hlhs) fun lhs hl => .bind (lower_natural hrhs) fun rhs hr => ?_
      have hboth := List.forall_mem_cons.mpr ⟨hl, List.forall_mem_singleton.mpr hr⟩
      cases op with
      | and => exact .pure (.conjoin (fun _ => trivial) (fun _ => trivial) hboth)
      | or => exact .pure (.disjoin (fun _ => trivial) (fun _ => trivial) hboth)
  | .not operand, h => by
    unfold lower
    cases h with
    | not hoperand =>
      exact .bind (lower_natural hoperand) fun inner hinner => .pure (.invert trivial hinner)
  | .call callee args, h => by
    unfold lower
    cases h with
    | call hcallee hargs =>
      refine .bind (lower_natural hcallee) fun target htarget => ?_
      have hrest : Ensures Node.Natural (lowerAll [] args >>= fun args =>
          pure (Node.invoke target args)) :=
        .bind (lowerAll_natural (List.forall_mem_nil _) hargs) fun args hargs =>
          .pure (.invoke trivial htarget hargs)
      dsimp only
      split
      · exact .behind fun _ => hrest
      · exact hrest
  | .subscript target index, _ => by
    unfold lower
    split
    all_goals first
      | contradiction
      | exact callNamed_string _ _
      | exact .throw _
  | .tuple elements, h => by
    unfold lower
    cases h with
    | tuple helements =>
      exact .bind (lowerAll_natural (List.forall_mem_nil _) helements) fun args hargs =>
        callNamed_natural hargs

theorem lowerAll_natural {done : List Node} (hdone : ∀ node ∈ done, node.Natural) :
    {trees : List Tree} → (∀ tree ∈ trees, tree.Natural) →
      Ensures (fun nodes => ∀ node ∈ nodes, Node.Natural node) (lowerAll done trees)
  | [], _ => by
    unfold lowerAll
    exact .pure fun node hnode => hdone node (List.mem_reverse.mp hnode)
  | tree :: rest, h => by
    unfold lowerAll
    obtain ⟨htree, hrest⟩ := List.forall_mem_cons.mp h
    exact .bind (lower_natural htree) fun node hnode =>
      lowerAll_natural (List.forall_mem_cons.mpr ⟨hnode, hdone⟩) hrest

end

end Rule.Tree

end Passage

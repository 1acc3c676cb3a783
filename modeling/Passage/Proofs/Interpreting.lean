import Passage.Proofs.Folding

/-!
# What a node means, however it is read

An `Interpretation` gives literals, names and calls values of any kind, compares values, and
takes some of them as true. It has to compare literals as they are compared, and names by
identity, and a call has the value of the call with its parts folded; beyond that it may be
anything (`Interpretation.Lawful`). Every choice of what is true beyond the literals is one
(`Interpretation.free`).

Folding does not change the truth value of a node under any of them (`Fold.truth_folded`), as
long as no side of a comparison is put together by junctions. One that is could be folded to a
single item, which as a side of a comparison is not the same as whether it is true.
-/

namespace Passage

/-- Values of literals, names and calls, with their comparisons and their truth. -/
structure Interpretation (α : Type) where
  boolean : Bool → α
  number : Number → α
  string : String → α
  name : SymbolId → α
  call : Node → List Node → α
  compare : Comparison → α → α → Bool
  isTrue : α → Bool

namespace Interpretation

variable {α : Type} (I : Interpretation α)

mutual

/-- The value of a node. -/
def value : Node → α
  | .anyOf items => I.boolean ((truths items).any id)
  | .every items => I.boolean ((truths items).all id)
  | .boolean value => I.boolean value
  | .compare op lhs rhs => I.boolean (I.compare op (value lhs) (value rhs))
  | .identifier id => I.name id
  | .invert inner => I.boolean (!I.isTrue (value inner))
  | .invoke target args => I.call target args
  | .number value => I.number value
  | .string value => I.string value

/-- Whether the nodes are true. -/
def truths : List Node → List Bool
  | [] => []
  | node :: rest => I.isTrue (value node) :: truths rest

end

/-- The truth value of a node. -/
def truth (node : Node) : Bool := I.isTrue (I.value node)

/-- What an interpretation has to agree with. -/
structure Lawful : Prop where
  isTrue : ∀ value, I.isTrue (I.boolean value) = value
  /-- Numbers are compared by the values they stand for. -/
  numbers : ∀ op x y, I.compare op (I.number x) (I.number y) = true ↔
    op.Relates (x.Equals y) (x.Precedes y)
  /-- Texts are compared by their bytes. -/
  strings : ∀ op x y, I.compare op (I.string x) (I.string y) = true ↔
    op.Relates (x = y) (bytesOf x < bytesOf y)
  /-- Booleans and names are equal or not, and have no order. -/
  booleans : ∀ op x y, op ≠ .less →
    (I.compare op (I.boolean x) (I.boolean y) = true ↔ op.Relates (x = y) False)
  names : ∀ op x y, op ≠ .less →
    (I.compare op (I.name x) (I.name y) = true ↔ op.Relates (x = y) False)
  /-- Folding the parts of a call does not make it another call. -/
  calls : ∀ {target args target' args'}, Fold.folded target = .ok target' →
    Fold.foldedAll args = .ok args' → I.call target args = I.call target' args'

variable {I}

theorem truths_eq (items : List Node) : I.truths items = items.map I.truth := by
  induction items with
  | nil => rfl
  | cons node rest ih => rw [truths, ih]; rfl

/-- Truth is put together as verdicts are. -/
theorem truth_eq_verdict (hI : I.Lawful) (node : Node) : I.truth node = node.verdict I.truth := by
  have hparts : node.Each fun _ => True := .of_forall (fun _ => trivial) node
  induction hparts with
  | anyOf _ _ ih =>
    rw [truth, value, hI.isTrue, truths_eq, Node.verdict, Node.verdicts_eq, List.map_congr_left ih]
  | every _ _ ih =>
    rw [truth, value, hI.isTrue, truths_eq, Node.verdict, Node.verdicts_eq, List.map_congr_left ih]
  | boolean _ => exact hI.isTrue _
  | invert _ _ ih =>
    rw [truth, value, hI.isTrue, Node.verdict_invert, ← ih]
    rfl
  | compare | identifier | invoke | number | string => rfl

/-- Reducing a junction leaves its truth value as it is. -/
theorem truth_reduce (hI : I.Lawful) (j : Junction) (items : List Node) :
    I.truth (j.reduce items) = I.truth (j.node items) := by
  rw [truth_eq_verdict hI, truth_eq_verdict hI]
  cases j with
  | every => exact (Node.verdict_conjoin items).trans (Node.verdict_every items).symm
  | anyOf => exact (Node.verdict_disjoin items).trans (Node.verdict_anyOf items).symm

/-- Items of one truth value each make junctions of one truth value. -/
theorem value_junction (j : Junction) {items items' : List Node}
    (h : items.map I.truth = items'.map I.truth) :
    I.value (j.node items) = I.value (j.node items') := by
  cases j with
  | every =>
    show I.value (.every items) = I.value (.every items')
    rw [value, value, truths_eq, truths_eq, h]
  | anyOf =>
    show I.value (.anyOf items) = I.value (.anyOf items')
    rw [value, value, truths_eq, truths_eq, h]

/-- Sides without an order are equal or not. -/
theorem unordered_eq_ok {values : Unordered} {op : Comparison} {same value : Bool}
    (h : (Fold.unordered values op same).map some = .ok (some value)) {Same : Prop}
    (hsame : same = true ↔ Same) :
    op ≠ .less ∧ (op.Relates Same False ↔ value = true) := by
  cases op with
  | equal =>
    rw [← Option.some.inj (Except.ok.inj h)]
    exact ⟨nofun, hsame.symm⟩
  | unequal =>
    rw [← Option.some.inj (Except.ok.inj h)]
    exact ⟨nofun, (Comparison.unequal.decide_iff hsame Bool.false_eq_true.to_iff).symm⟩
  | less => exact absurd h nofun

/-- What sides decide, every interpretation finds so. -/
theorem compare_of_outcome (hI : I.Lawful) {op : Comparison} {lhs rhs : Node} {value : Bool}
    (h : Fold.outcome? op lhs rhs = .ok (some value)) :
    I.compare op (I.value lhs) (I.value rhs) = value := by
  rw [Bool.eq_iff_iff]
  unfold Fold.outcome? at h
  split at h
  · next x y =>
    rw [← Option.some.inj (Except.ok.inj h)]
    exact (hI.numbers op x y).trans (op.decide_iff Number.same_iff Number.less_iff).symm
  · next x y =>
    rw [← Option.some.inj (Except.ok.inj h)]
    exact (hI.strings op x y).trans (op.decide_iff beq_iff_eq
      (decide_eq_true_iff.trans (lt_iff_bytesOf_lt x y))).symm
  · next x y =>
    obtain ⟨hop, hvalue⟩ := unordered_eq_ok h (beq_iff_eq (a := x) (b := y))
    exact (hI.booleans op x y hop).trans hvalue
  · next x y =>
    obtain ⟨hop, hvalue⟩ := unordered_eq_ok h (beq_iff_eq (a := x) (b := y))
    exact (hI.names op x y hop).trans hvalue
  · exact absurd h nofun

/-! ## An interpretation for any choice of truth -/

/-- Every node that is not decided has itself as its value, and is as true as `facts` says. -/
def free (facts : Node → Bool) : Interpretation Node where
  boolean := .boolean
  number := .number
  string := .string
  name := .identifier
  call target args :=
    match Fold.folded (.invoke target args) with
    | .ok node => node
    | .error _ => .invoke target args
  compare op lhs rhs :=
    match Fold.outcome? op lhs rhs with
    | .ok (some value) => value
    | _ => facts (.compare op lhs rhs)
  isTrue
    | .boolean value => value
    | node => facts node

theorem free_lawful (facts : Node → Bool) : (free facts).Lawful where
  isTrue _ := rfl
  numbers op _ _ := op.decide_iff Number.same_iff Number.less_iff
  strings op x y := op.decide_iff beq_iff_eq (decide_eq_true_iff.trans (lt_iff_bytesOf_lt x y))
  booleans op x y hop := by
    cases op with
    | equal => exact beq_iff_eq
    | unequal => exact Comparison.unequal.decide_iff beq_iff_eq Bool.false_eq_true.to_iff
    | less => exact absurd rfl hop
  names op x y hop := by
    cases op with
    | equal => exact beq_iff_eq
    | unequal => exact Comparison.unequal.decide_iff beq_iff_eq Bool.false_eq_true.to_iff
    | less => exact absurd rfl hop
  calls {target args target' args'} ht ha := by
    have hfolded : Fold.folded (.invoke target args) = .ok (.invoke target' args') := by
      rw [Fold.folded, ht, ha]
      rfl
    have hagain : Fold.folded (.invoke target' args') = .ok (.invoke target' args') :=
      (Fold.done_of_folded.of_folded _ hfolded).folded
    show (match Fold.folded (.invoke target args) with | .ok node => node | .error _ => _) =
      (match Fold.folded (.invoke target' args') with | .ok node => node | .error _ => _)
    rw [hfolded, hagain]

end Interpretation

/-! ## Folding -/

namespace Node

/-- The node is no junction. -/
def Single (part : Node) : Prop := ∀ (j : Junction) items, part ≠ j.node items

/-- If the node is a comparison, its sides are not put together by junctions. -/
def PlainlyCompared (part : Node) : Prop :=
  ∀ op lhs rhs, part = .compare op lhs rhs → lhs.Each Single ∧ rhs.Each Single

end Node

namespace Fold

variable {α : Type} {I : Interpretation α}

/-- What is kept when a node is folded: its truth value, and its value where it has no
junctions. -/
structure Kept (I : Interpretation α) (node node' : Node) : Prop where
  truth : node.Each Node.PlainlyCompared → I.truth node' = I.truth node
  value : node.Each Node.Single → I.value node' = I.value node

theorem Kept.of_value {node node' : Node}
    (h : node.Each Node.PlainlyCompared ∨ node.Each Node.Single → I.value node' = I.value node) :
    Kept I node node' :=
  ⟨fun hplain => congrArg I.isTrue (h (.inl hplain)), fun hsingle => h (.inr hsingle)⟩

/-- The sides of a comparison have no junctions, in a node that has none or has them elsewhere. -/
theorem sides_single {op : Comparison} {lhs rhs : Node}
    (h : (Node.compare op lhs rhs).Each Node.PlainlyCompared ∨
      (Node.compare op lhs rhs).Each Node.Single) :
    lhs.Each Node.Single ∧ rhs.Each Node.Single := by
  obtain h | h := h
  · exact h.self op lhs rhs rfl
  · cases h with
    | compare _ hl hr => exact ⟨hl, hr⟩

theorem Kept.truth_of_invert {inner inner' : Node} (hkept : Kept I inner inner')
    (h : (Node.invert inner).Each Node.PlainlyCompared ∨ (Node.invert inner).Each Node.Single) :
    I.truth inner' = I.truth inner := by
  obtain h | h := h
  · cases h with
    | invert _ hinner => exact hkept.truth hinner
  · cases h with
    | invert _ hinner => exact congrArg I.isTrue (hkept.value hinner)

theorem FoldsAll.foldedAll {P : Node → Node → Prop} {nodes nodes' : List Node}
    (h : FoldsAll P nodes nodes') : foldedAll nodes = .ok nodes' := by
  induction h with
  | nil => rfl
  | cons hnode _ ih =>
    rw [Fold.foldedAll, hnode.1, ih]
    rfl

theorem kept_of_folded (hI : I.Lawful) : Forms (Kept I) where
  junction j items items' h := by
    refine ⟨fun hplain => ?_, fun hsingle => absurd rfl (hsingle.self j items)⟩
    have hitems : items'.map I.truth = items.map I.truth := by
      replace hplain := hplain.of_junction
      induction h with
      | nil => rfl
      | cons hitem _ ih =>
        obtain ⟨hfirst, hrest⟩ := List.forall_mem_cons.mp hplain
        rw [List.map_cons, List.map_cons, hitem.2.truth hfirst, ih hrest]
    rw [I.truth_reduce hI]
    exact congrArg I.isTrue (I.value_junction j hitems)
  boolean _ := .of_value fun _ => rfl
  identifier _ := .of_value fun _ => rfl
  number _ := .of_value fun _ => rfl
  string _ := .of_value fun _ => rfl
  decided hl hr hvalue := .of_value fun h => by
    obtain ⟨hlhs, hrhs⟩ := sides_single h
    have houtcome := I.compare_of_outcome hI hvalue
    rw [hl.2.value hlhs, hr.2.value hrhs] at houtcome
    exact congrArg I.boolean houtcome.symm
  undecided {op _ _ _ _} hl hr _ := .of_value fun h => by
    obtain ⟨hlhs, hrhs⟩ := sides_single h
    exact congrArg I.boolean (congrArg₂ (I.compare op) (hl.2.value hlhs) (hr.2.value hrhs))
  negated {inner value} hinner := .of_value fun h => by
    have htruth : value = I.truth inner := by
      rw [← hinner.truth_of_invert h]
      exact (hI.isTrue value).symm
    exact congrArg (fun truth => I.boolean !truth) htruth
  invert {inner inner'} hinner _ := .of_value fun h =>
    congrArg (fun truth => I.boolean !truth) (hinner.truth_of_invert h)
  invoke ht ha := .of_value fun _ => (hI.calls ht.1 ha.foldedAll).symm

/-- Folding a node is a function of the node, and leaves the world alone. It fails with a fault of
order exactly if some part of the node orders two booleans or two names once these are folded.
Otherwise all junctions of the outcome are reduced, so that no boolean is among their items,
nothing else in it is left to decide, and folding it again changes nothing; and if no side of a
comparison in the node has junctions, the outcome is as true as the node under every
interpretation. -/
theorem fold_decides (scripts : Scripts) (node : Node) (w : World) :
    Pass.fold.apply scripts node w = (folded node, w) ∧
    ((∃ values, folded node = .error (.ordering values)) ↔ HasDisorder node) ∧
    (¬ HasDisorder node → ∃ node', folded node = .ok node' ∧
      node'.Normal ∧ node'.Each Settled ∧ Pass.fold.apply scripts node' w = (.ok node', w) ∧
      (node.Each Node.PlainlyCompared → ∀ {α : Type} (I : Interpretation α), I.Lawful →
        I.truth node' = I.truth node)) := by
  refine ⟨fold_apply scripts w node, error_iff node, fun horder => ?_⟩
  obtain ⟨node', hok⟩ | ⟨-, hbad⟩ := sorts node
  · obtain ⟨hnormal, hsettled⟩ := done_of_folded.of_folded node hok
    refine ⟨node', hok, hnormal, hsettled, ?_, fun hplain α I hI => ?_⟩
    · rw [fold_apply, Done.folded ⟨hnormal, hsettled⟩]
    · exact ((kept_of_folded hI).of_folded node hok).truth hplain
  · exact absurd hbad horder

/-- In a conjunction of a comparison and a call, the comparison is decided, and so is the argument
of the call; so the call alone is left, and where calls are as true as their argument, both the
conjunction and the call are. -/
theorem fold_decides_call :
    Pass.fold.apply ⟨[]⟩ (.every [.compare .equal (.invert (.boolean false))
        (.compare .unequal (.identifier 1) (.identifier 2)),
      .call 0 [.compare .equal (.identifier 1) (.identifier 1)]]) .empty =
      (.ok (.call 0 [.boolean true]), .empty) ∧
    (Interpretation.free fun | .invoke _ [.boolean value] => value | _ => false).truth
      (.every [.compare .equal (.invert (.boolean false))
          (.compare .unequal (.identifier 1) (.identifier 2)),
        .call 0 [.compare .equal (.identifier 1) (.identifier 1)]]) = true := by
  have hnode : folded (.every [.compare .equal (.invert (.boolean false))
        (.compare .unequal (.identifier 1) (.identifier 2)),
      .call 0 [.compare .equal (.identifier 1) (.identifier 1)]]) =
      .ok (.call 0 [.boolean true]) := rfl
  have hid : ∀ id, (Node.identifier id).Each Node.Single := fun _ =>
    .identifier (by rintro ⟨⟩ <;> nofun)
  have hcompare : ∀ op {lhs rhs : Node}, lhs.Each Node.Single → rhs.Each Node.Single →
      (Node.compare op lhs rhs).Each Node.Single := fun _ _ _ hl hr =>
    .compare (by rintro ⟨⟩ <;> nofun) hl hr
  have hinvert : (Node.invert (.boolean false)).Each Node.Single :=
    .invert (by rintro ⟨⟩ <;> nofun) (.boolean (by rintro ⟨⟩ <;> nofun))
  have hleft : (Node.compare .unequal (.identifier 1) (.identifier 2)).Each Node.Single :=
    hcompare _ (hid 1) (hid 2)
  have hplain : ∀ {op lhs rhs}, lhs.Each Node.Single → rhs.Each Node.Single →
      (Node.compare op lhs rhs).PlainlyCompared := by
    rintro op lhs rhs hl hr _ _ _ ⟨⟩
    exact ⟨hl, hr⟩
  obtain ⟨happly, -, hrest⟩ := fold_decides ⟨[]⟩ (.every [.compare .equal (.invert (.boolean false))
      (.compare .unequal (.identifier 1) (.identifier 2)),
    .call 0 [.compare .equal (.identifier 1) (.identifier 1)]]) .empty
  obtain ⟨node', hok, -, -, -, htruth⟩ := hrest fun hbad => by
    obtain ⟨values, he⟩ := (error_iff _).mpr hbad
    exact absurd (hnode.symm.trans he) nofun
  obtain rfl := Except.ok.inj (hnode.symm.trans hok)
  refine ⟨happly.trans (by rw [hnode]), (htruth ?_ _ (Interpretation.free_lawful _)).symm⟩
  have hname : ∀ id, (Node.identifier id).Each Node.PlainlyCompared := fun _ => .identifier nofun
  refine .every nofun (List.forall_mem_cons.mpr ⟨.compare (hplain hinvert hleft)
    (.invert nofun (.boolean nofun)) (.compare (hplain (hid 1) (hid 2)) (hname 1) (hname 2)),
      List.forall_mem_singleton.mpr (.invoke nofun (hname 0) (List.forall_mem_singleton.mpr
        (.compare (hplain (hid 1) (hid 1)) (hname 1) (hname 1))))⟩)

end Fold

end Passage

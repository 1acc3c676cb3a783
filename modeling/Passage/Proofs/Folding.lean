import Passage.Proofs.Normality
import Passage.Proofs.Values
import Passage.Proofs.Verdicts

/-!
# Folding in one pass

Folding does nothing to the world, so it is a function of the node (`folded`). What it makes
of a node is made of what it makes of the parts, form by form (`folded_induction`), and all
that is said about it goes by these forms: that the outcome is normal, that nothing is left in it
to decide, and that it is as true as the node was, however names, calls and comparisons that
cannot be decided are read (`Interpretation`). A normal node with nothing left to decide is folded
to itself; so one pass is enough.
-/

namespace Passage

/-! ## Folding as a function -/

namespace Fold

/-- The comparison of two folded sides. -/
def compared (op : Comparison) (lhs rhs : Node) : Except PassError Node :=
  match outcome? op lhs rhs with
  | .ok (some value) => .ok (.boolean value)
  | .ok none => .ok (.compare op lhs rhs)
  | .error e => .error e

/-- The negation of a folded node. -/
def inverted : Node → Node
  | .boolean value => .boolean !value
  | inner => .invert inner

mutual

/-- What folding makes of a node. -/
def folded : Node → Except PassError Node
  | .anyOf items => do return .disjoin (← foldedAll items)
  | .every items => do return .conjoin (← foldedAll items)
  | .boolean value => .ok (.boolean value)
  | .compare op lhs rhs => do compared op (← folded lhs) (← folded rhs)
  | .identifier id => .ok (.identifier id)
  | .invert inner => do return inverted (← folded inner)
  | .invoke target args => do return .invoke (← folded target) (← foldedAll args)
  | .number value => .ok (.number value)
  | .string value => .ok (.string value)

def foldedAll : List Node → Except PassError (List Node)
  | [] => .ok []
  | node :: rest => do return (← folded node) :: (← foldedAll rest)

end

theorem compare_apply (op : Comparison) (lhs rhs : Node) (w : World) :
    Fold.compare op lhs rhs w = (compared op lhs rhs, w) := by
  unfold Fold.compare compared
  rcases outcome? op lhs rhs with e | _ | value <;> rfl

theorem invert_apply (inner : Node) (w : World) :
    Fold.invert inner w = (.ok (inverted inner), w) := by
  cases inner <;> rfl

mutual

/-- The pass folds, and leaves the world alone. -/
theorem fold_apply (scripts : Scripts) (w : World) : (node : Node) →
    Pass.fold.apply scripts node w = (folded node, w)
  | .anyOf items => by
    rw [Pass.apply_eq, Rules.transform, bind_apply, fold_applyAll scripts w [] items, folded]
    rcases foldedAll items with e | items' <;> rfl
  | .every items => by
    rw [Pass.apply_eq, Rules.transform, bind_apply, fold_applyAll scripts w [] items, folded]
    rcases foldedAll items with e | items' <;> rfl
  | .compare op lhs rhs => by
    rw [Pass.apply_eq, Rules.transform, bind_apply, ← Pass.apply_eq,
      fold_apply scripts w lhs, folded]
    rcases folded lhs with e | lhs'
    · rfl
    · dsimp only
      rw [bind_apply, ← Pass.apply_eq, fold_apply scripts w rhs]
      rcases folded rhs with e | rhs'
      · rfl
      · exact compare_apply op lhs' rhs' w
  | .invert inner => by
    rw [Pass.apply_eq, Rules.transform, bind_apply, ← Pass.apply_eq,
      fold_apply scripts w inner, folded]
    rcases folded inner with e | inner'
    · rfl
    · exact invert_apply inner' w
  | .invoke target args => by
    rw [Pass.apply_eq, Rules.transform, bind_apply]
    show (do
      let target ← (Pass.fold.rules scripts).transform target
      let args ← (Pass.fold.rules scripts).transformAll [] args
      pure (Node.invoke target args) : Transforming Node) w = _
    rw [bind_apply, ← Pass.apply_eq, fold_apply scripts w target, folded]
    rcases folded target with e | target'
    · rfl
    · dsimp only
      rw [bind_apply, fold_applyAll scripts w [] args]
      rcases foldedAll args with e | args' <;> rfl
  | .boolean _ | .identifier _ | .number _ | .string _ => rfl

theorem fold_applyAll (scripts : Scripts) (w : World) (done : List Node) : (nodes : List Node) →
    (Pass.fold.rules scripts).transformAll done nodes w =
      ((foldedAll nodes).map (done.reverse ++ ·), w)
  | [] => by
    rw [Rules.transformAll, foldedAll, pure_apply]
    exact congrArg (Except.ok · , w) (List.append_nil _).symm
  | node :: rest => by
    rw [Rules.transformAll, bind_apply, ← Pass.apply_eq, fold_apply scripts w node, foldedAll]
    rcases folded node with e | node'
    · rfl
    · dsimp only
      rw [fold_applyAll scripts w (node' :: done) rest]
      rcases foldedAll rest with e | rest'
      · rfl
      · refine congrArg (Except.ok ·, w) ?_
        rw [List.reverse_cons]
        exact List.append_assoc ..

end

/-! ## What folding makes of a node -/

/-- Two literals of one kind, or two names: sides that decide a comparison. -/
inductive Alike : Node → Node → Prop
  | numbers (x y : Number) : Alike (.number x) (.number y)
  | strings (x y : String) : Alike (.string x) (.string y)
  | booleans (x y : Bool) : Alike (.boolean x) (.boolean y)
  | identifiers (x y : SymbolId) : Alike (.identifier x) (.identifier y)

/-- Sides that have no order. -/
inductive Orderless : Node → Node → Prop
  | booleans (x y : Bool) : Orderless (.boolean x) (.boolean y)
  | identifiers (x y : SymbolId) : Orderless (.identifier x) (.identifier y)

theorem outcome?_of_alike {op : Comparison} {lhs rhs : Node} (h : Alike lhs rhs) :
    outcome? op lhs rhs ≠ .ok none := by
  cases h <;> cases op <;> nofun

theorem outcome?_eq_none {op : Comparison} {lhs rhs : Node} (h : ¬ Alike lhs rhs) :
    outcome? op lhs rhs = .ok none := by
  unfold outcome?
  split
  · exact absurd (.numbers _ _) h
  · exact absurd (.strings _ _) h
  · exact absurd (.booleans _ _) h
  · exact absurd (.identifiers _ _) h
  · rfl

/-- Only the order of sides without one cannot be told. -/
theorem outcome?_eq_error {op : Comparison} {lhs rhs : Node} {e : PassError} :
    outcome? op lhs rhs = .error e →
      op = .less ∧ Orderless lhs rhs ∧ ∃ values, e = .ordering values := by
  unfold outcome? unordered
  split <;> cases op <;> intro h <;> first
    | exact ⟨rfl, .booleans _ _, _, (Except.error.inj h).symm⟩
    | exact ⟨rfl, .identifiers _ _, _, (Except.error.inj h).symm⟩
    | exact absurd h nofun

theorem outcome?_of_orderless {lhs rhs : Node} (h : Orderless lhs rhs) :
    ∃ e, outcome? .less lhs rhs = .error e := by
  cases h <;> exact ⟨_, rfl⟩

/-- A node and what folding makes of it, where `P` is true of the two. -/
abbrev Folds (P : Node → Node → Prop) (node node' : Node) : Prop :=
  folded node = .ok node' ∧ P node node'

/-- Nodes and what folding makes of them. -/
abbrev FoldsAll (P : Node → Node → Prop) : List Node → List Node → Prop :=
  List.Forall₂ (Folds P)

/-- What is true of all outcomes. -/
theorem FoldsAll.outcomes {Q : Node → Prop} {nodes nodes' : List Node}
    (h : FoldsAll (fun _ => Q) nodes nodes') : ∀ node ∈ nodes', Q node := by
  induction h with
  | nil => exact List.forall_mem_nil _
  | cons hnode _ ih => exact List.forall_mem_cons.mpr ⟨hnode.2, ih⟩

/-- What is true of nodes and their outcomes form by form. -/
structure Forms (P : Node → Node → Prop) : Prop where
  junction : ∀ (j : Junction) {items items'}, FoldsAll P items items' →
    P (j.node items) (j.reduce items')
  boolean : ∀ value, P (.boolean value) (.boolean value)
  identifier : ∀ id, P (.identifier id) (.identifier id)
  number : ∀ value, P (.number value) (.number value)
  string : ∀ value, P (.string value) (.string value)
  decided : ∀ {op lhs rhs lhs' rhs' value}, Folds P lhs lhs' → Folds P rhs rhs' →
    outcome? op lhs' rhs' = .ok (some value) → P (.compare op lhs rhs) (.boolean value)
  undecided : ∀ {op lhs rhs lhs' rhs'}, Folds P lhs lhs' → Folds P rhs rhs' → ¬ Alike lhs' rhs' →
    P (.compare op lhs rhs) (.compare op lhs' rhs')
  negated : ∀ {inner value}, P inner (.boolean value) → P (.invert inner) (.boolean !value)
  invert : ∀ {inner inner'}, P inner inner' → (∀ value, inner' ≠ .boolean value) →
    P (.invert inner) (.invert inner')
  invoke : ∀ {target args target' args'}, Folds P target target' → FoldsAll P args args' →
    P (.invoke target args) (.invoke target' args')

mutual

theorem Forms.of_folded {P : Node → Node → Prop} (hP : Forms P) : (node : Node) → {node' : Node} →
    folded node = .ok node' → P node node'
  | .anyOf items, node', h => by
    rw [folded] at h
    rcases hitems : foldedAll items with e | items' <;> rw [hitems] at h
    · exact absurd h nofun
    · exact Except.ok.inj h ▸ hP.junction .anyOf (Forms.of_foldedAll hP items hitems)
  | .every items, node', h => by
    rw [folded] at h
    rcases hitems : foldedAll items with e | items' <;> rw [hitems] at h
    · exact absurd h nofun
    · exact Except.ok.inj h ▸ hP.junction .every (Forms.of_foldedAll hP items hitems)
  | .boolean value, node', h => Except.ok.inj h ▸ hP.boolean value
  | .identifier id, node', h => Except.ok.inj h ▸ hP.identifier id
  | .number value, node', h => Except.ok.inj h ▸ hP.number value
  | .string value, node', h => Except.ok.inj h ▸ hP.string value
  | .compare op lhs rhs, node', h => by
    rw [folded] at h
    rcases hlhs : folded lhs with e | lhs' <;> rw [hlhs] at h
    · exact absurd h nofun
    rcases hrhs : folded rhs with e | rhs' <;> rw [hrhs] at h
    · exact absurd h nofun
    have hcompared : compared op lhs' rhs' = .ok node' := h
    unfold compared at hcompared
    have hl : Folds P lhs lhs' := ⟨hlhs, Forms.of_folded hP lhs hlhs⟩
    have hr : Folds P rhs rhs' := ⟨hrhs, Forms.of_folded hP rhs hrhs⟩
    split at hcompared
    · next value hvalue => exact Except.ok.inj hcompared ▸ hP.decided hl hr hvalue
    · next hnone =>
      exact Except.ok.inj hcompared ▸ hP.undecided hl hr fun halike =>
        outcome?_of_alike halike hnone
    · exact absurd hcompared nofun
  | .invert inner, node', h => by
    rw [folded] at h
    rcases hinner : folded inner with e | inner' <;> rw [hinner] at h
    · exact absurd h nofun
    obtain rfl : inverted inner' = node' := Except.ok.inj h
    have hi := Forms.of_folded hP inner hinner
    unfold inverted
    split
    · exact hP.negated hi
    · next hne => exact hP.invert hi hne
  | .invoke target args, node', h => by
    rw [folded] at h
    rcases htarget : folded target with e | target' <;> rw [htarget] at h
    · exact absurd h nofun
    rcases hargs : foldedAll args with e | args' <;> rw [hargs] at h
    · exact absurd h nofun
    exact Except.ok.inj h ▸ hP.invoke ⟨htarget, Forms.of_folded hP target htarget⟩
      (Forms.of_foldedAll hP args hargs)

theorem Forms.of_foldedAll {P : Node → Node → Prop} (hP : Forms P) : (nodes : List Node) →
    {nodes' : List Node} → foldedAll nodes = .ok nodes' → FoldsAll P nodes nodes'
  | [], nodes', h => Except.ok.inj h ▸ .nil
  | node :: rest, nodes', h => by
    rw [foldedAll] at h
    rcases hnode : folded node with e | node' <;> rw [hnode] at h
    · exact absurd h nofun
    rcases hrest : foldedAll rest with e | rest' <;> rw [hrest] at h
    · exact absurd h nofun
    exact Except.ok.inj h ▸ .cons ⟨hnode, Forms.of_folded hP node hnode⟩
      (Forms.of_foldedAll hP rest hrest)

end

/-! ## The outcome -/

/-- Nothing is left to decide at a node. -/
structure Settled (part : Node) : Prop where
  invert : ∀ value, part ≠ .invert (.boolean value)
  compare : ∀ op lhs rhs, part = .compare op lhs rhs → ¬ Alike lhs rhs

theorem settled_of_ne {part : Node} (hinvert : ∀ inner, part ≠ .invert inner)
    (hcompare : ∀ op lhs rhs, part ≠ .compare op lhs rhs) : Settled part :=
  ⟨fun _ => hinvert _, fun op lhs rhs heq => absurd heq (hcompare op lhs rhs)⟩

/-- A node is made of what has been folded. -/
def Done (node : Node) : Prop := node.Normal ∧ node.Each Settled

theorem done_of_folded : Forms fun _ => Done where
  junction j items items' h := by
    have hitems : ∀ item ∈ items', Done item := h.outcomes
    refine ⟨Junction.reduce_normal fun item hitem => (hitems item hitem).1, ?_⟩
    have hsettled := fun item hitem => (hitems item hitem).2
    have hboolean : ∀ value, Settled (.boolean value) := fun _ => settled_of_ne nofun nofun
    cases j with
    | every => exact .conjoin (fun _ => settled_of_ne nofun nofun) hboolean hsettled
    | anyOf => exact .disjoin (fun _ => settled_of_ne nofun nofun) hboolean hsettled
  boolean value := ⟨Node.normal_boolean value, .boolean (settled_of_ne nofun nofun)⟩
  identifier id := ⟨Node.normal_identifier id, .identifier (settled_of_ne nofun nofun)⟩
  number value := ⟨Node.normal_number value, .number (settled_of_ne nofun nofun)⟩
  string value := ⟨Node.normal_string value, .string (settled_of_ne nofun nofun)⟩
  decided _ _ _ := ⟨Node.normal_boolean _, .boolean (settled_of_ne nofun nofun)⟩
  undecided hl hr halike := by
    refine ⟨Node.normal_compare _ hl.2.1 hr.2.1, .compare ⟨nofun, ?_⟩ hl.2.2 hr.2.2⟩
    rintro op lhs rhs ⟨⟩
    exact halike
  negated _ := ⟨Node.normal_boolean _, .boolean (settled_of_ne nofun nofun)⟩
  invert hinner hne := by
    refine ⟨Node.normal_invert hinner.1, .invert ⟨?_, nofun⟩ hinner.2⟩
    rintro value ⟨⟩
    exact hne value rfl
  invoke ht ha := ⟨Node.normal_invoke ht.2.1 fun arg harg => (ha.outcomes arg harg).1,
    .invoke (settled_of_ne nofun nofun) ht.2.2 fun arg harg => (ha.outcomes arg harg).2⟩

theorem foldedAll_of_fixed {nodes : List Node} (h : ∀ node ∈ nodes, folded node = .ok node) :
    foldedAll nodes = .ok nodes := by
  induction nodes with
  | nil => rfl
  | cons node rest ih =>
    obtain ⟨hnode, hrest⟩ := List.forall_mem_cons.mp h
    rw [foldedAll, hnode, ih hrest]
    rfl

/-- Where all junctions are reduced and nothing is left to decide, folding changes nothing. -/
theorem folded_of_settled {node : Node} (h : node.Each fun part => part.Reduced ∧ Settled part) :
    folded node = .ok node := by
  induction h with
  | @anyOf items hp _ ih =>
    rw [folded, foldedAll_of_fixed ih]
    exact congrArg Except.ok (hp.1 .anyOf items rfl).reduce_eq
  | @every items hp _ ih =>
    rw [folded, foldedAll_of_fixed ih]
    exact congrArg Except.ok (hp.1 .every items rfl).reduce_eq
  | @compare op lhs rhs hp _ _ ihl ihr =>
    rw [folded, ihl, ihr]
    show compared op lhs rhs = _
    rw [compared, outcome?_eq_none (hp.2.compare op lhs rhs rfl)]
  | @invert inner hp _ ih =>
    rw [folded, ih]
    refine congrArg Except.ok ?_
    unfold inverted
    split
    · exact absurd rfl (hp.2.invert _)
    · rfl
  | invoke _ _ _ iht iha =>
    rw [folded, iht, foldedAll_of_fixed iha]
    rfl
  | boolean _ | identifier _ | number _ | string _ => rfl

/-- What has been folded is folded to itself. -/
theorem Done.folded {node : Node} (h : Done node) : folded node = .ok node :=
  folded_of_settled (h.1.and h.2)

/-! ## Faults -/

/-- The node orders sides that have no order once they are folded. -/
def Disordered (part : Node) : Prop :=
  ∃ lhs rhs lhs' rhs', part = .compare .less lhs rhs ∧ folded lhs = .ok lhs' ∧
    folded rhs = .ok rhs' ∧ Orderless lhs' rhs'

/-- Whether the node asks if one side is less than the other. -/
def asksLess : Node → Bool
  | .compare .less _ _ => true
  | _ => false

theorem not_disordered {part : Node} (h : asksLess part = false) : ¬ Disordered part := by
  rintro ⟨_, _, _, _, rfl, _⟩
  cases h

/-- Some part of the node is disordered. -/
def HasDisorder (node : Node) : Prop := ¬ node.Each fun part => ¬ Disordered part

/-- Nothing that can be folded has a disordered part. -/
theorem orderly_of_folded : Forms fun node _ => node.Each fun part => ¬ Disordered part := by
  have hcompare : ∀ {op lhs rhs lhs' rhs'} {outcome : Option Bool}, folded lhs = .ok lhs' →
      folded rhs = .ok rhs' → outcome? op lhs' rhs' = .ok outcome →
      ¬ Disordered (.compare op lhs rhs) := by
    rintro op lhs rhs lhs' rhs' outcome hl hr hok ⟨_, _, l, r, ⟨⟩, hl', hr', horderless⟩
    obtain rfl := Except.ok.inj (hl.symm.trans hl')
    obtain rfl := Except.ok.inj (hr.symm.trans hr')
    obtain ⟨e, he⟩ := outcome?_of_orderless horderless
    cases he.symm.trans hok
  have hall : ∀ {nodes nodes' : List Node},
      FoldsAll (fun node _ => node.Each fun part => ¬ Disordered part) nodes nodes' →
      ∀ node ∈ nodes, node.Each fun part => ¬ Disordered part := by
    intro nodes nodes' h
    induction h with
    | nil => exact List.forall_mem_nil _
    | cons hnode _ ih => exact List.forall_mem_cons.mpr ⟨hnode.2, ih⟩
  exact
    { junction := fun j _ _ h => .junction (not_disordered (by cases j <;> rfl)) (hall h)
      boolean := fun _ => .boolean (not_disordered rfl)
      identifier := fun _ => .identifier (not_disordered rfl)
      number := fun _ => .number (not_disordered rfl)
      string := fun _ => .string (not_disordered rfl)
      decided := fun hl hr hvalue => .compare (hcompare hl.1 hr.1 hvalue) hl.2 hr.2
      undecided := fun hl hr halike =>
        .compare (hcompare hl.1 hr.1 (outcome?_eq_none halike)) hl.2 hr.2
      negated := fun hinner => .invert (not_disordered rfl) hinner
      invert := fun hinner _ => .invert (not_disordered rfl) hinner
      invoke := fun ht ha => .invoke (not_disordered rfl) ht.2 (hall ha) }

/-- A node can be folded, or it has a disordered part and folding says so. -/
def Sorts (node : Node) : Prop :=
  (∃ node', folded node = .ok node') ∨
    (∃ values, folded node = .error (.ordering values)) ∧ HasDisorder node

theorem sorts_all {nodes : List Node} (h : ∀ node ∈ nodes, Sorts node) :
    (∃ nodes', foldedAll nodes = .ok nodes') ∨
      (∃ values, foldedAll nodes = .error (.ordering values)) ∧ ∃ node ∈ nodes,
        HasDisorder node := by
  induction nodes with
  | nil => exact .inl ⟨[], rfl⟩
  | cons node rest ih =>
    obtain ⟨hnode, hrest⟩ := List.forall_mem_cons.mp h
    obtain ⟨node', hnode⟩ | ⟨⟨values, hnode⟩, hbad⟩ := hnode
    · obtain ⟨rest', hrest⟩ | ⟨⟨values, hrest⟩, bad, hmem, hbad⟩ := ih hrest
      · exact .inl ⟨node' :: rest', by rw [foldedAll, hnode, hrest]; rfl⟩
      · exact .inr ⟨⟨values, by rw [foldedAll, hnode, hrest]; rfl⟩, bad,
          List.mem_cons_of_mem _ hmem, hbad⟩
    · exact .inr ⟨⟨values, by rw [foldedAll, hnode]; rfl⟩, node, List.mem_cons_self, hbad⟩

theorem sorts (node : Node) : Sorts node := by
  have hparts : node.Each fun _ => True := .of_forall (fun _ => trivial) node
  induction hparts with
  | @anyOf items _ _ ih =>
    obtain ⟨items', hitems⟩ | ⟨⟨values, hitems⟩, bad, hmem, hbad⟩ := sorts_all ih
    · exact .inl ⟨.disjoin items', by rw [folded, hitems]; rfl⟩
    · exact .inr ⟨⟨values, by rw [folded, hitems]; rfl⟩,
        fun h => hbad (h.of_junction (j := .anyOf) bad hmem)⟩
  | @every items _ _ ih =>
    obtain ⟨items', hitems⟩ | ⟨⟨values, hitems⟩, bad, hmem, hbad⟩ := sorts_all ih
    · exact .inl ⟨.conjoin items', by rw [folded, hitems]; rfl⟩
    · exact .inr ⟨⟨values, by rw [folded, hitems]; rfl⟩,
        fun h => hbad (h.of_junction (j := .every) bad hmem)⟩
  | @compare op lhs rhs _ _ _ ihl ihr =>
    obtain ⟨lhs', hlhs⟩ | ⟨⟨values, hlhs⟩, hbad⟩ := ihl
    · obtain ⟨rhs', hrhs⟩ | ⟨⟨values, hrhs⟩, hbad⟩ := ihr
      · have hfolded : folded (.compare op lhs rhs) = compared op lhs' rhs' := by
          rw [folded, hlhs, hrhs]
          rfl
        unfold Sorts
        rw [hfolded, compared]
        rcases houtcome : outcome? op lhs' rhs' with e | _ | value
        · obtain ⟨rfl, horderless, values, rfl⟩ := outcome?_eq_error houtcome
          exact .inr ⟨⟨values, rfl⟩, fun h => h.self
            ⟨lhs, rhs, lhs', rhs', rfl, hlhs, hrhs, horderless⟩⟩
        · exact .inl ⟨_, rfl⟩
        · exact .inl ⟨_, rfl⟩
      · exact .inr ⟨⟨values, by rw [folded, hlhs, hrhs]; rfl⟩,
          fun h => hbad (by cases h with | compare _ _ hr => exact hr)⟩
    · exact .inr ⟨⟨values, by rw [folded, hlhs]; rfl⟩,
        fun h => hbad (by cases h with | compare _ hl _ => exact hl)⟩
  | @invert inner _ _ ih =>
    obtain ⟨inner', hinner⟩ | ⟨⟨values, hinner⟩, hbad⟩ := ih
    · exact .inl ⟨inverted inner', by rw [folded, hinner]; rfl⟩
    · exact .inr ⟨⟨values, by rw [folded, hinner]; rfl⟩,
        fun h => hbad (by cases h with | invert _ hinner => exact hinner)⟩
  | @invoke target args _ _ _ iht iha =>
    obtain ⟨target', htarget⟩ | ⟨⟨values, htarget⟩, hbad⟩ := iht
    · obtain ⟨args', hargs⟩ | ⟨⟨values, hargs⟩, bad, hmem, hbad⟩ := sorts_all iha
      · exact .inl ⟨.invoke target' args', by rw [folded, htarget, hargs]; rfl⟩
      · exact .inr ⟨⟨values, by rw [folded, htarget, hargs]; rfl⟩,
          fun h => hbad (by cases h with | invoke _ _ ha => exact ha bad hmem)⟩
    · exact .inr ⟨⟨values, by rw [folded, htarget]; rfl⟩,
        fun h => hbad (by cases h with | invoke _ ht _ => exact ht)⟩
  | boolean _ | identifier _ | number _ | string _ => exact .inl ⟨_, rfl⟩

/-- Folding fails where a part of the node is disordered, and only there. -/
theorem error_iff (node : Node) :
    (∃ values, folded node = .error (.ordering values)) ↔ HasDisorder node := by
  obtain ⟨node', hok⟩ | ⟨herror, hbad⟩ := sorts node
  · refine iff_of_false (fun ⟨values, he⟩ => absurd (hok.symm.trans he) nofun) fun hbad => hbad ?_
    exact orderly_of_folded.of_folded node hok
  · exact iff_of_true herror hbad

end Fold

end Passage

import Passage.Proofs.Schemes
import Passage.Proofs.Reducing
import Passage.Proofs.Rewriting

/-!
# Passes from one scheme to another

What a pass does with single nodes decides which scheme its trees keep to. Rules that go through
the arguments of calls (`Rules.Enters`) and rules that leave calls alone
(`Rules.refits_of_keepCalls`) are taken together in `Rules.Refits`, for which the induction over
trees is made once. Where the rules leave names, texts and calls as they are, a normal tree is
left as it is (`Rules.Rebuilds.transform_same`).
-/

namespace Passage

/-! ## Steps that keep an assertion -/

/-- Begun where `I` holds, the step ends where it holds, with an answer that satisfies `Q`,
unless it fails. -/
def Upholds {ε σ α : Type} (I : σ → Prop) (Q : α → Prop) (m : ExceptT ε (StateM σ) α) : Prop :=
  ∀ s a s', I s → m s = (.ok a, s') → I s' ∧ Q a

namespace Upholds

variable {ε σ α β : Type} {I : σ → Prop} {Q : α → Prop} {Q' : β → Prop}

theorem pure {a : α} (h : Q a) : Upholds I Q (pure a : ExceptT ε (StateM σ) α) := by
  intro s a' s' hs hok
  obtain ⟨rfl, rfl⟩ := pure_eq_ok hok
  exact ⟨hs, h⟩

theorem of_ok {a : α} {m : ExceptT ε (StateM σ) α} (h : ∀ s, m s = (.ok a, s)) (hq : Q a) :
    Upholds I Q m := by
  intro s a' s' hs hok
  obtain ⟨heq, rfl⟩ := Prod.mk.inj ((h s).symm.trans hok)
  obtain rfl := Except.ok.inj heq
  exact ⟨hs, hq⟩

theorem throw (e : ε) : Upholds I Q (throw e : ExceptT ε (StateM σ) α) :=
  fun _ _ _ _ hok => absurd (congrArg Prod.fst hok) nofun

theorem bind {x : ExceptT ε (StateM σ) α} {f : α → ExceptT ε (StateM σ) β} (hx : Upholds I Q x)
    (hf : ∀ a, Q a → Upholds I Q' (f a)) : Upholds I Q' (x >>= f) := by
  intro s b s'' hs hok
  obtain ⟨a, s', ha, hb⟩ := bind_eq_ok hok
  obtain ⟨hs', hqa⟩ := hx s a s' hs ha
  exact hf a hqa s' b s'' hs' hb

theorem imp {Q' : α → Prop} {m : ExceptT ε (StateM σ) α} (h : Upholds I Q m)
    (himp : ∀ a, Q a → Q' a) : Upholds I Q' m :=
  fun s a s' hs hok => (h s a s' hs hok).imp id (himp a)

/-- The table that is read is that of a world in which the assertion holds. -/
theorem symbols {I : World → Prop} :
    Upholds I (fun symbols => ∃ w, I w ∧ w.symbols = symbols) Transforming.symbols := by
  intro w symbols w' hw hok
  obtain ⟨rfl, rfl⟩ := pure_eq_ok (show (Pure.pure w.symbols : Transforming _) w = _ from hok)
  exact ⟨hw, w, hw, rfl⟩

end Upholds

/-! ## Passes -/

namespace Rules

variable {I : World → Prop} {S S' : Scheme} {r : Rules Transforming}

/-- Rules that build trees of the scheme of what fits it. -/
structure Builds (I : World → Prop) (S : Scheme) (r : Rules Transforming) : Prop where
  anyOf : ∀ {bare items}, (∀ item ∈ items, Node.Fits S bare item) →
    Upholds I (Node.Fits S bare) (r.anyOf items)
  every : ∀ {bare items}, (∀ item ∈ items, Node.Fits S bare item) →
    Upholds I (Node.Fits S bare) (r.every items)
  compare : ∀ {bare} op {lhs rhs}, Node.Fits S bare lhs → Node.Fits S bare rhs →
    Upholds I (Node.Fits S bare) (r.compare op lhs rhs)
  invert : ∀ {bare inner}, Node.Fits S bare inner → Upholds I (Node.Fits S bare) (r.invert inner)

/-- Rules that put nothing else in place of what is no name, no text and no call. -/
structure Rebuilds (r : Rules Transforming) : Prop where
  anyOf : ∀ items, r.anyOf items = pure (.disjoin items)
  every : ∀ items, r.every items = pure (.conjoin items)
  compare : ∀ op lhs rhs, r.compare op lhs rhs = pure (.compare op lhs rhs)
  invert : ∀ inner, r.invert inner = pure (.invert inner)

theorem rebuilds_default {identifier : SymbolId → Transforming Node}
    {string : String → Transforming Node} {intercept : Node → List Node → Transforming (Option Node)}
    {invoke : Node → List Node → Transforming Node} :
    Rebuilds { identifier, string, intercept, invoke } :=
  ⟨fun _ => rfl, fun _ => rfl, fun _ _ _ => rfl, fun _ => rfl⟩

theorem Rebuilds.builds (h : Rebuilds r) : Builds I S r where
  anyOf hitems := h.anyOf _ ▸ .pure (.disjoin hitems)
  every hitems := h.every _ ▸ .pure (.conjoin hitems)
  compare op _ _ hl hr := h.compare op _ _ ▸ .pure (.compare op hl hr)
  invert hinner := h.invert _ ▸ .pure (.invert hinner)

theorem transformAll_upholds {Q : Node → Prop} {nodes : List Node}
    (h : ∀ node ∈ nodes, Upholds I Q (r.transform node)) {done : List Node}
    (hdone : ∀ node ∈ done, Q node) :
    Upholds I (fun nodes' => nodes'.length = done.length + nodes.length ∧ ∀ node ∈ nodes', Q node)
      (r.transformAll done nodes) := by
  induction nodes generalizing done with
  | nil =>
    rw [transformAll]
    exact .pure ⟨List.length_reverse, fun node hnode => hdone node (List.mem_reverse.mp hnode)⟩
  | cons node rest ih =>
    obtain ⟨hnode, hrest⟩ := List.forall_mem_cons.mp h
    rw [transformAll]
    refine .bind hnode fun node' hnode' => ?_
    refine (ih hrest (List.forall_mem_cons.mpr ⟨hnode', hdone⟩)).imp fun nodes' hnodes' => ?_
    refine ⟨hnodes'.1.trans ?_, hnodes'.2⟩
    rw [List.length_cons, List.length_cons]
    omega

/-- Rules that make trees of the second scheme out of trees of the first one, where trees may
stand that are come to. -/
structure Refits (I : World → Prop) (comes : Bool → Prop) (S S' : Scheme)
    (r : Rules Transforming) : Prop extends Builds I S' r where
  identifier : ∀ {bare id}, comes bare → S.name id → (bare = true → S.bare id) →
    Upholds I (Node.Fits S' bare) (r.identifier id)
  string : ∀ {bare value}, comes bare → (bare = true → S.text value) →
    Upholds I (Node.Fits S' bare) (r.string value)
  call : ∀ {bare callee args}, comes bare → S.call callee args.length →
    (∀ arg ∈ args, Node.Fits S false arg) →
    (∀ arg ∈ args, comes false → Upholds I (Node.Fits S' false) (r.transform arg)) →
    Upholds I (Node.Fits S' bare) (r.transform (.call callee args))
  script : ∀ {bare callee args}, comes bare → S.script callee →
    (∀ arg ∈ args, Node.Fits S bare arg) →
    (∀ arg ∈ args, Upholds I (Node.Fits S' bare) (r.transform arg)) →
    Upholds I (Node.Fits S' bare) (r.transform (.call callee args))
  weigh : ∀ {bare callee code lhs rhs}, comes bare → S.weigh callee code lhs rhs →
    lhs.isOperand = true → rhs.isOperand = true → Node.Fits S false lhs → Node.Fits S false rhs →
    Upholds I (Node.Fits S' bare) (r.transform (.call callee [.number code, lhs, rhs]))
  idle : ∀ {bare target args}, comes bare → target.isLiteral = true →
    (∀ arg ∈ args, Node.Fits S false arg) →
    (∀ arg ∈ args, comes false → Upholds I (Node.Fits S' false) (r.transform arg)) →
    Upholds I (Node.Fits S' bare) (r.transform (.invoke target args))

/-- What the rules do with single nodes, they do throughout a tree. -/
theorem Refits.transform {comes : Bool → Prop} (hr : r.Refits I comes S S') {bare : Bool}
    {node : Node} (h : node.Fits S bare) (hbare : comes bare) :
    Upholds I (Node.Fits S' bare) (r.transform node) := by
  have hall : ∀ {bare : Bool} {items : List Node},
      (∀ item ∈ items, comes bare → Upholds I (Node.Fits S' bare) (r.transform item)) →
      comes bare → Upholds I (fun items => ∀ item ∈ items, Node.Fits S' bare item)
        (r.transformAll [] items) := fun h hbare =>
    (transformAll_upholds (fun item hitem => h item hitem hbare) (List.forall_mem_nil _)).imp
      fun _ h => h.2
  induction h with
  | anyOf _ ih =>
    rw [Rules.transform]
    exact .bind (hall ih hbare) fun _ => hr.anyOf
  | every _ ih =>
    rw [Rules.transform]
    exact .bind (hall ih hbare) fun _ => hr.every
  | boolean value =>
    rw [Rules.transform]
    exact .pure (.boolean value)
  | compare op _ _ ihl ihr =>
    rw [Rules.transform]
    exact .bind (ihl hbare) fun _ hl => .bind (ihr hbare) fun _ => hr.compare op hl
  | identifier hname hid =>
    rw [Rules.transform]
    exact hr.identifier hbare hname hid
  | invert _ ih =>
    rw [Rules.transform]
    exact .bind (ih hbare) fun _ => hr.invert
  | number value =>
    rw [Rules.transform]
    exact .pure (.number value)
  | string htext =>
    rw [Rules.transform]
    exact hr.string hbare htext
  | call hcall hargs ih => exact hr.call hbare hcall hargs ih
  | script hscript hargs ih => exact hr.script hbare hscript hargs fun arg harg => ih arg harg hbare
  | weigh hweigh hlhs hrhs hl hr' _ _ => exact hr.weigh hbare hweigh hlhs hrhs hl hr'
  | idle htarget hargs ih => exact hr.idle hbare htarget hargs ih

/-! ### Passes that enter calls -/

/-- Rules that make trees of the second scheme out of trees of the first one, and go through the
arguments of a call if they do not take it. The callee `stays` then, and if it is not `named` so
that its name is left, a literal is put in its place. Operands turn into others as `turns` says. -/
structure Enters (I : World → Prop) (stays named : SymbolId → Prop) (turns : Node → Node → Prop)
    (S S' : Scheme) (r : Rules Transforming) : Prop extends Builds I S' r where
  identifier : ∀ {bare id}, S.name id → (bare = true → S.bare id) →
    Upholds I (Node.Fits S' bare) (r.identifier id)
  string : ∀ {bare value}, (bare = true → S.text value) →
    Upholds I (Node.Fits S' bare) (r.string value)
  head : ∀ callee, Upholds I (fun target => target = .identifier callee ∧ named callee ∨
    target.isLiteral = true) (r.identifier callee)
  literal : ∀ {node}, node.isLiteral = true →
    Upholds I (fun node' => node'.isLiteral = true) (r.transform node)
  operand : ∀ {node}, node.isOperand = true → node.Fits S false → Upholds I
    (fun node' => node'.isOperand = true ∧ node'.Fits S' false ∧ turns node node')
    (r.transform node)
  intercept : ∀ {bare callee args}, (Node.call callee args).Fits S bare →
    Upholds I (fun taken => (∀ node, taken = some node → node.Fits S' bare) ∧
      (taken = none → stays callee)) (r.intercept (.identifier callee) args)
  untaken : ∀ {target args}, target.isLiteral = true →
    Upholds I (· = none) (r.intercept target args)
  call : ∀ {bare callee args}, stays callee → named callee → S.call callee args.length →
    (∀ arg ∈ args, Node.Fits S' false arg) →
    Upholds I (Node.Fits S' bare) (r.invoke (.identifier callee) args)
  script : ∀ {bare callee args}, stays callee → named callee → S.script callee →
    (∀ arg ∈ args, Node.Fits S' bare arg) →
    Upholds I (Node.Fits S' bare) (r.invoke (.identifier callee) args)
  weigh : ∀ {bare callee code lhs rhs lhs' rhs'}, stays callee → named callee →
    S.weigh callee code lhs rhs → lhs'.isOperand = true → rhs'.isOperand = true →
      lhs'.Fits S' false → rhs'.Fits S' false →
    turns lhs lhs' → turns rhs rhs' →
    Upholds I (Node.Fits S' bare) (r.invoke (.identifier callee) [.number code, lhs', rhs'])
  idle : ∀ {bare target args}, target.isLiteral = true → (∀ arg ∈ args, Node.Fits S' false arg) →
    Upholds I (Node.Fits S' bare) (r.invoke target args)

theorem Enters.refits {stays named : SymbolId → Prop} {turns : Node → Node → Prop}
    (hr : r.Enters I stays named turns S S') : r.Refits I (fun _ => True) S S' := by
  have henter : ∀ {bare : Bool} {callee : SymbolId} {args : List Node} {Q : List Node → Prop},
      (Node.call callee args).Fits S bare → Upholds I Q (r.transformAll [] args) →
      (∀ args', Q args' → ∀ arg ∈ args', Node.Fits S' false arg) →
      (∀ args', stays callee → named callee → Q args' →
        Upholds I (Node.Fits S' bare) (r.invoke (.identifier callee) args')) →
      Upholds I (Node.Fits S' bare) (r.transform (.call callee args)) := by
    intro bare callee args Q hcall hargs hinside hinvoke
    rw [Node.call, Rules.transform]
    refine .bind (hr.intercept hcall) fun taken htaken => ?_
    cases taken with
    | some node => exact .pure (htaken.1 node rfl)
    | none =>
      rw [Rules.transform]
      refine .bind (hr.head callee) fun target htarget => ?_
      obtain ⟨rfl, hnamed⟩ | hliteral := htarget
      · exact .bind hargs fun args' => hinvoke args' (htaken.2 rfl) hnamed
      · exact .bind hargs fun args' hargs' => hr.idle hliteral (hinside args' hargs')
  refine { hr.toBuilds with
    identifier := fun _ => hr.identifier, string := fun _ => hr.string,
    call := ?_, script := ?_, weigh := ?_, idle := ?_ }
  · intro bare callee args _ hcall hargs ih
    refine henter (.call hcall hargs) (transformAll_upholds (fun arg harg => ih arg harg trivial)
      (List.forall_mem_nil _)) (fun _ hargs' => hargs'.2)
      fun args' hstays hnamed hargs' => hr.call hstays hnamed ?_ hargs'.2
    rwa [hargs'.1, List.length_nil, Nat.zero_add]
  · intro bare callee args _ hscript hargs ih
    exact henter (.script hscript hargs) (transformAll_upholds ih (List.forall_mem_nil _))
      (fun _ hargs' arg harg => (hargs'.2 arg harg).inside)
      fun args' hstays hnamed hargs' => hr.script hstays hnamed hscript hargs'.2
  · intro bare callee code lhs rhs _ hweigh hlhs hrhs hl hrh
    have hargs : Upholds I (fun args => ∃ lhs' rhs', args = [.number code, lhs', rhs'] ∧
        (lhs'.isOperand = true ∧ lhs'.Fits S' false ∧ turns lhs lhs') ∧
        (rhs'.isOperand = true ∧ rhs'.Fits S' false ∧ turns rhs rhs'))
        (r.transformAll [] [.number code, lhs, rhs]) := by
      rw [transformAll, Rules.transform]
      refine .bind (.pure (Q := (· = .number code)) rfl) fun number hnumber => ?_
      rw [transformAll]
      refine .bind (hr.operand hlhs hl) fun lhs' hlhs' => ?_
      rw [transformAll]
      refine .bind (hr.operand hrhs hrh) fun rhs' hrhs' => ?_
      rw [transformAll]
      exact .pure ⟨lhs', rhs', by rw [hnumber]; rfl, hlhs', hrhs'⟩
    refine henter (.weigh hweigh hlhs hrhs hl hrh) hargs ?_ fun args' hstays hnamed hargs' => ?_
    · rintro _ ⟨lhs', rhs', rfl, ⟨-, hlfits, -⟩, -, hrfits, -⟩
      exact List.forall_mem_cons.mpr ⟨.number code,
        List.forall_mem_cons.mpr ⟨hlfits, List.forall_mem_singleton.mpr hrfits⟩⟩
    · obtain ⟨lhs', rhs', rfl, ⟨hl, hlfits, hlturns⟩, hr', hrfits, hrturns⟩ := hargs'
      exact hr.weigh hstays hnamed hweigh hl hr' hlfits hrfits hlturns hrturns
  · intro bare target args _ htarget hargs ih
    rw [Rules.transform]
    refine .bind (hr.untaken htarget) fun taken htaken => ?_
    subst htaken
    refine .bind (hr.literal htarget) fun target' htarget' => ?_
    have hall := transformAll_upholds (fun arg harg => ih arg harg trivial) (List.forall_mem_nil _)
    exact .bind hall fun args' hargs' => hr.idle htarget' hargs'.2

/-- Operands stay as they are where names and texts do. -/
theorem operand_same (hname : ∀ {id}, S.name id → S'.name id)
    (hidentifier : ∀ id, r.identifier id = pure (.identifier id))
    (hstring : ∀ value, r.string value = pure (.string value)) {node : Node}
    (h : node.isOperand = true) (hfits : node.Fits S false) :
    Upholds I (fun node' => node'.isOperand = true ∧ node'.Fits S' false ∧ node = node')
      (r.transform node) := by
  cases hfits with
  | boolean value =>
    rw [Rules.transform]
    exact .pure ⟨rfl, .boolean value, rfl⟩
  | number value =>
    rw [Rules.transform]
    exact .pure ⟨rfl, .number value, rfl⟩
  | string =>
    rw [Rules.transform, hstring]
    exact .pure ⟨rfl, .string nofun, rfl⟩
  | identifier hid =>
    rw [Rules.transform, hidentifier]
    exact .pure ⟨rfl, .identifier (hname hid) nofun, rfl⟩
  | _ => cases h

/-- Literals stay literals where texts stay as they are. -/
theorem literal_same (hstring : ∀ value, r.string value = pure (.string value)) {node : Node}
    (h : node.isLiteral = true) :
    Upholds I (fun node' => node'.isLiteral = true) (r.transform node) := by
  cases node with
  | boolean value =>
    rw [Rules.transform]
    exact .pure rfl
  | number value =>
    rw [Rules.transform]
    exact .pure rfl
  | string value =>
    rw [Rules.transform, hstring]
    exact .pure rfl
  | _ => cases h

/-- Rules that leave names and texts alone are known by what they do with calls. -/
theorem refits_of_names (stays : SymbolId → Prop) (hbuilds : r.Builds I S')
    (hidentifier : ∀ id, r.identifier id = pure (.identifier id))
    (hstring : ∀ value, r.string value = pure (.string value))
    (hbare : ∀ {id}, S.bare id → S'.bare id) (htext : ∀ {value}, S.text value → S'.text value)
    (hname : ∀ {id}, S.name id → S'.name id)
    (hintercept : ∀ {bare callee args}, (Node.call callee args).Fits S bare →
      Upholds I (fun taken => (∀ node, taken = some node → node.Fits S' bare) ∧
        (taken = none → stays callee)) (r.intercept (.identifier callee) args))
    (huntaken : ∀ {target args}, target.isLiteral = true →
      Upholds I (· = none) (r.intercept target args))
    (hcall : ∀ {bare callee args}, stays callee → S.call callee args.length →
      (∀ arg ∈ args, Node.Fits S' false arg) →
      Upholds I (Node.Fits S' bare) (r.invoke (.identifier callee) args))
    (hscript : ∀ {bare callee args}, stays callee → S.script callee →
      (∀ arg ∈ args, Node.Fits S' bare arg) →
      Upholds I (Node.Fits S' bare) (r.invoke (.identifier callee) args))
    (hweigh : ∀ {bare callee code lhs rhs}, stays callee → S.weigh callee code lhs rhs →
      lhs.isOperand = true → rhs.isOperand = true → lhs.Fits S' false → rhs.Fits S' false →
      Upholds I (Node.Fits S' bare) (r.invoke (.identifier callee) [.number code, lhs, rhs]))
    (hidle : ∀ {bare target args}, target.isLiteral = true →
      (∀ arg ∈ args, Node.Fits S' false arg) →
      Upholds I (Node.Fits S' bare) (r.invoke target args)) :
    r.Refits I (fun _ => True) S S' := by
  have henters : r.Enters I stays (fun _ => True) (· = ·) S S' := { hbuilds with
    identifier :=
      fun hn hid => hidentifier _ ▸ .pure (.identifier (hname hn) fun hb => hbare (hid hb))
    string := fun hvalue => hstring _ ▸ .pure (.string fun hb => htext (hvalue hb))
    head := fun _ => hidentifier _ ▸ .pure (.inl ⟨rfl, trivial⟩)
    literal := literal_same hstring
    operand := operand_same hname hidentifier hstring
    intercept := hintercept
    untaken := huntaken
    idle := hidle
    call := fun hstays _ => hcall hstays
    script := fun hstays _ => hscript hstays
    weigh := fun hstays _ hw hlhs hrhs hl hr hlturns hrturns => by
      subst hlturns hrturns
      exact hweigh hstays hw hlhs hrhs hl hr }
  exact henters.refits

/-- Rules that leave names, texts and calls that are not taken. -/
theorem refits_of_intercept (stays : SymbolId → Prop) (hbuilds : r.Builds I S')
    (hidentifier : ∀ id, r.identifier id = pure (.identifier id))
    (hstring : ∀ value, r.string value = pure (.string value))
    (hinvoke : ∀ target args, r.invoke target args = pure (.invoke target args))
    (hbare : ∀ {id}, S.bare id → S'.bare id) (htext : ∀ {value}, S.text value → S'.text value)
    (hname : ∀ {id}, S.name id → S'.name id)
    (hintercept : ∀ {bare callee args}, (Node.call callee args).Fits S bare →
      Upholds I (fun taken => (∀ node, taken = some node → node.Fits S' bare) ∧
        (taken = none → stays callee)) (r.intercept (.identifier callee) args))
    (huntaken : ∀ {target args}, target.isLiteral = true →
      Upholds I (· = none) (r.intercept target args))
    (hcall : ∀ {callee count}, stays callee → S.call callee count → S'.call callee count)
    (hscript : ∀ {callee}, stays callee → S.script callee → S'.script callee)
    (hweigh : ∀ {callee code lhs rhs}, stays callee → S.weigh callee code lhs rhs →
      S'.weigh callee code lhs rhs) : r.Refits I (fun _ => True) S S' :=
  refits_of_names stays hbuilds hidentifier hstring hbare htext hname hintercept huntaken
    (fun hstays hc hargs => hinvoke _ _ ▸ .pure (.call (hcall hstays hc) hargs))
    (fun hstays hs hargs => hinvoke _ _ ▸ .pure (.script (hscript hstays hs) hargs))
    (fun hstays hw hlhs hrhs hl hr =>
      hinvoke _ _ ▸ .pure (.weigh (hweigh hstays hw) hlhs hrhs hl hr))
    fun htarget hargs => hinvoke _ _ ▸ .pure (.idle htarget hargs)

/-! ### Passes that leave calls alone -/

/-- Rules that leave calls alone, and make a tree of the second scheme of what stands bare in one
of the first. -/
theorem refits_of_keepCalls (hbuilds : r.Builds I S') (hkeep : r.intercept = keepCalls)
    (hidentifier : ∀ {id}, S.name id → S.bare id →
      Upholds I (Node.Fits S' true) (r.identifier id))
    (hstring : ∀ {value}, S.text value → Upholds I (Node.Fits S' true) (r.string value))
    (hcall : ∀ {target args}, (Node.invoke target args).Fits S true →
      (Node.invoke target args).Fits S' true) : r.Refits I (· = true) S S' := by
  have hkept : ∀ {target : Node} {args : List Node}, (Node.invoke target args).Fits S true →
      Upholds I (Node.Fits S' true) (r.transform (.invoke target args)) := by
    intro target args h w node w' hw hok
    rw [transform_keepCalls hkeep] at hok
    obtain ⟨rfl, rfl⟩ := pure_eq_ok hok
    exact ⟨hw, hcall h⟩
  refine { hbuilds with
    identifier := ?_, string := ?_, call := ?_, script := ?_, weigh := ?_, idle := ?_ }
  · rintro _ id rfl hname hbare
    exact hidentifier hname (hbare rfl)
  · rintro _ value rfl htext
    exact hstring (htext rfl)
  · rintro _ callee args rfl h hargs _
    exact hkept (.call h hargs)
  · rintro _ callee args rfl h hargs _
    exact hkept (.script h hargs)
  · rintro _ callee code lhs rhs rfl h hlhs hrhs hl hr
    exact hkept (.weigh h hlhs hrhs hl hr)
  · rintro _ target args rfl h hargs _
    exact hkept (.idle h hargs)

/-! ### Passes that change nothing -/

/-- Where names, texts and calls stay as they are, a normal tree does. -/
theorem Rebuilds.transform_same (h : Rebuilds r) {w : World} (comes : Bool → Prop)
    (hscript : ∀ callee, ¬ S.script callee)
    (hidentifier : ∀ {bare id}, comes bare → S.name id → (bare = true → S.bare id) →
      r.identifier id w = (.ok (.identifier id), w))
    (hstring : ∀ {bare value}, comes bare → (bare = true → S.text value) →
      r.string value w = (.ok (.string value), w))
    (hcall : ∀ {bare callee args}, comes bare → (Node.call callee args).Fits S bare →
      (comes false → ∀ arg ∈ args, r.transform arg w = (.ok arg, w)) →
      r.transform (.call callee args) w = (.ok (.call callee args), w))
    (hidle : ∀ {target args}, target.isLiteral = true →
      (comes false → ∀ arg ∈ args, r.transform arg w = (.ok arg, w)) →
      r.transform (.invoke target args) w = (.ok (.invoke target args), w))
    {bare : Bool} {node : Node} (hnode : node.Fits S bare) (hnormal : node.Normal)
    (hbare : comes bare) : r.transform node w = (.ok node, w) := by
  induction hnode with
  | anyOf _ ih =>
    cases hnormal with | anyOf hreduced hitems =>
    have hsame := transformAll_same (fun item hitem => ih item hitem (hitems item hitem) hbare) []
    rw [Rules.transform, bind_ok hsame, h.anyOf]
    exact congrArg (fun node => (Except.ok node, w)) (hreduced .anyOf _ rfl).reduce_eq
  | every _ ih =>
    cases hnormal with | every hreduced hitems =>
    have hsame := transformAll_same (fun item hitem => ih item hitem (hitems item hitem) hbare) []
    rw [Rules.transform, bind_ok hsame, h.every]
    exact congrArg (fun node => (Except.ok node, w)) (hreduced .every _ rfl).reduce_eq
  | boolean value =>
    rw [Rules.transform]
    rfl
  | compare op _ _ ihl ihr =>
    cases hnormal with | compare _ hl hr =>
    rw [Rules.transform, bind_ok (ihl hl hbare), bind_ok (ihr hr hbare), h.compare]
    rfl
  | identifier hname hid =>
    rw [Rules.transform]
    exact hidentifier hbare hname hid
  | invert _ ih =>
    cases hnormal with | invert _ hinner =>
    rw [Rules.transform, bind_ok (ih hinner hbare), h.invert]
    rfl
  | number value =>
    rw [Rules.transform]
    rfl
  | string htext =>
    rw [Rules.transform]
    exact hstring hbare htext
  | call hc hargs ih =>
    cases hnormal with | invoke _ _ hnormal =>
    exact hcall hbare (.call hc hargs) fun hfalse arg harg => ih arg harg (hnormal arg harg) hfalse
  | script hs _ _ => exact absurd hs (hscript _)
  | weigh hw hlhs hrhs hl hr ihl ihr =>
    cases hnormal with | invoke _ _ hnormal =>
    obtain ⟨-, hargs⟩ := List.forall_mem_cons.mp hnormal
    obtain ⟨hlhs', hargs⟩ := List.forall_mem_cons.mp hargs
    refine hcall hbare (.weigh hw hlhs hrhs hl hr) fun hfalse => ?_
    refine List.forall_mem_cons.mpr ⟨by rw [Rules.transform]; rfl, List.forall_mem_cons.mpr
      ⟨ihl hlhs' hfalse, List.forall_mem_singleton.mpr (ihr (hargs _ List.mem_cons_self) hfalse)⟩⟩
  | idle htarget _ ih =>
    cases hnormal with | invoke _ _ hnormal =>
    exact hidle htarget fun hfalse arg harg => ih arg harg (hnormal arg harg) hfalse

/-- A call that is not taken stays if what it is made of does, and the rule for it leaves it. -/
theorem transform_invoke_same {w : World} {target : Node} {args : List Node}
    (hintercept : r.intercept target args w = (.ok none, w))
    (htarget : r.transform target w = (.ok target, w))
    (hargs : ∀ arg ∈ args, r.transform arg w = (.ok arg, w))
    (hinvoke : r.invoke target args w = (.ok (.invoke target args), w)) :
    r.transform (.invoke target args) w = (.ok (.invoke target args), w) := by
  rw [Rules.transform, bind_ok hintercept]
  dsimp only
  rw [bind_ok htarget, bind_ok (transformAll_same hargs [])]
  exact hinvoke

theorem transform_call_same {w : World} {callee : SymbolId} {args : List Node}
    (hintercept : r.intercept (.identifier callee) args w = (.ok none, w))
    (hcallee : r.identifier callee w = (.ok (.identifier callee), w))
    (hargs : ∀ arg ∈ args, r.transform arg w = (.ok arg, w))
    (hinvoke : r.invoke (.identifier callee) args w = (.ok (.call callee args), w)) :
    r.transform (.call callee args) w = (.ok (.call callee args), w) := by
  refine transform_invoke_same hintercept ?_ hargs hinvoke
  rw [Rules.transform, hcallee]

/-- What calls a literal stays where texts do. -/
theorem transform_idle_same {w : World} {target : Node} {args : List Node}
    (htarget : target.isLiteral = true)
    (hintercept : r.intercept target args w = (.ok none, w))
    (hstring : ∀ value, r.string value w = (.ok (.string value), w))
    (hargs : ∀ arg ∈ args, r.transform arg w = (.ok arg, w))
    (hinvoke : r.invoke target args w = (.ok (.invoke target args), w)) :
    r.transform (.invoke target args) w = (.ok (.invoke target args), w) := by
  refine transform_invoke_same hintercept ?_ hargs hinvoke
  cases target with
  | boolean _ | number _ =>
    rw [Rules.transform]
    rfl
  | string value => rw [Rules.transform, hstring]
  | _ => cases htarget

end Rules

end Passage

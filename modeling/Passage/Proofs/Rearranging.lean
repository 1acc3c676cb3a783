import Passage.Proofs.Easing
import Passage.Proofs.Lasting
import Passage.Proofs.Refitting
import Passage.Proofs.Settling

/-!
# What each pass makes of a scheme

One theorem for each pass says which scheme the trees keep to behind it, whatever scheme they
kept to before. Only the pass for rules about regions does anything to the table on the way, if the
functions that ask for items are built in, and what it does is to find out that unknown names are
regions (`SymbolTable.Steady`); the others leave the world as it is.
-/

namespace Passage

/-! ## Tables in which functions stay what they are -/

/-- Declared as what is no function, a name stays what it was, unless that was unknown. -/
theorem Symbol.Kind.refine_plain {known kind refined : Symbol.Kind}
    (hkind : kind.isFunction = false) (h : known.refine kind = some refined) :
    refined = known ∨ known = .unknown ∧ refined.isFunction = false := by
  unfold refine at h
  split at h
  case h_12 =>
    split at h
    · exact .inl (Option.some.inj h).symm
    · cases h
  all_goals first
    | exact .inl (Option.some.inj h).symm
    | exact .inr ⟨rfl, Option.some.inj h ▸ hkind⟩
    | cases hkind

namespace SymbolTable

/-- Symbols keep their names, and their kinds as well, but that an unknown one may turn out to be
no function. -/
structure Steady (t t' : SymbolTable) : Prop where
  sound : t'.Sound
  symbols : ∀ {id s}, t.get? id = some s → ∃ s', t'.get? id = some s' ∧ s'.name = s.name ∧
    (s'.kind = s.kind ∨ s.kind = .unknown ∧ s'.kind.isFunction = false)

namespace Steady

variable {t t' : SymbolTable}

theorem refl (hs : t.Sound) : t.Steady t := ⟨hs, fun h => ⟨_, h, rfl, .inl rfl⟩⟩

/-- A name may be declared as what is no function. -/
theorem declare (h : t.Steady t') (name : String) {kind : Symbol.Kind}
    (hkind : kind.isFunction = false) : t.Steady (t'.declare name kind).2 where
  sound := (declare_grows h.sound name kind).sound h.sound
  symbols := by
    intro id s hs
    obtain ⟨s', hs', hname', hkind'⟩ := h.symbols hs
    obtain ⟨s'', hs'', hname'', hkind''⟩ := get?_declare_of_get? h.sound name kind hs'
    refine ⟨s'', hs'', hname''.trans hname', ?_⟩
    have hrefined : s''.kind = s'.kind ∨ s'.kind = .unknown ∧ s''.kind.isFunction = false :=
      hkind''.elim .inl (Symbol.Kind.refine_plain hkind)
    obtain hsame | ⟨hunknown, hplain⟩ := hrefined
    · rwa [hsame]
    · refine .inr ⟨?_, hplain⟩
      obtain hs | ⟨hs, -⟩ := hkind'
      · exact hs.symm.trans hunknown
      · exact hs

variable {id : SymbolId} {s : Symbol}

/-- A function is still the function it was. -/
theorem function (h : t.Steady t') (hs : t.get? id = some s) (hkind : s.kind.isFunction = true) :
    ∃ s', t'.get? id = some s' ∧ s'.name = s.name ∧ s'.kind = s.kind := by
  obtain ⟨s', hs', hname, hsame | ⟨hunknown, -⟩⟩ := h.symbols hs
  · exact ⟨s', hs', hname, hsame⟩
  · rw [hunknown] at hkind
    cases hkind

/-- What is no function has not become one. -/
theorem plain (h : t.Steady t') (hs : t.get? id = some s) (hkind : s.kind.isFunction = false) :
    ∃ s', t'.get? id = some s' ∧ s'.name = s.name ∧ s'.kind.isFunction = false := by
  obtain ⟨s', hs', hname, hsame | ⟨-, hplain⟩⟩ := h.symbols hs
  · exact ⟨s', hs', hname, hsame ▸ hkind⟩
  · exact ⟨s', hs', hname, hplain⟩

theorem nameOf? (h : t.Steady t') (hs : t.get? id = some s) : t'.nameOf? id = some s.name := by
  obtain ⟨s', hs', hname, -⟩ := h.symbols hs
  exact Option.map_eq_some_iff.mpr ⟨s', hs', hname⟩

theorem askers (h : t.Steady t') {q : Askers} {IsItem : SymbolId → Prop}
    (hq : q.Of IsItem t) : q.Of (fun _ => False) t' := by
  have hknown : ∀ {id name}, t.get? id = some ⟨name, id, .builtInFunction⟩ →
      t'.get? id = some ⟨name, id, .builtInFunction⟩ := by
    intro id name hget
    obtain ⟨s', hs', hname, hkind⟩ := h.function hget rfl
    obtain rfl : s' = ⟨name, id, .builtInFunction⟩ := by
      obtain ⟨name', id', kind'⟩ := s'
      obtain rfl : name' = name := hname
      obtain rfl : kind' = .builtInFunction := hkind
      obtain rfl : id' = id := h.sound.ids hs'
      rfl
    exact hs'
  exact ⟨h.sound, hknown hq.has, fun j => hknown (hq.joining j), False.elim⟩

/-- A body is put in the place of the same calls. -/
theorem scriptOf? (h : t.Steady t') (hs : t.get? id = some s) (scripts : Scripts) :
    Inline.scriptOf? scripts t' (.identifier id) = Inline.scriptOf? scripts t (.identifier id) := by
  by_cases hkind : s.kind = .scriptedFunction
  · obtain ⟨s', hs', hname, hsame⟩ := h.function hs (hkind ▸ rfl)
    show (t'.get? id).bind _ = (t.get? id).bind _
    rw [hs', hs, Option.bind_some, Option.bind_some, if_pos (hsame.trans hkind),
      if_pos hkind, hname]
  · obtain ⟨s', hs', -, hkind'⟩ := h.symbols hs
    rw [Inline.scriptOf?_of_kind_ne hs hkind, Inline.scriptOf?_of_kind_ne hs']
    obtain hsame | ⟨-, hplain⟩ := hkind'
    · rwa [hsame]
    · intro hscripted
      rw [hscripted] at hplain
      cases hplain

end Steady

end SymbolTable

/-- All callees of the scheme are symbols of the table, and functions if more is done with a call
than to leave it. -/
structure Scheme.Over (S : Scheme) (t : SymbolTable) : Prop where
  call : ∀ {callee count}, S.call callee count → ∃ s, t.get? callee = some s
  script : ∀ {callee}, S.script callee → ∃ s, t.get? callee = some s ∧ s.kind.isFunction = true
  weigh : ∀ {callee code lhs rhs}, S.weigh callee code lhs rhs →
    ∃ s, t.get? callee = some s ∧ s.kind.isFunction = true

theorem Scheme.Over.callee {S : Scheme} {t : SymbolTable} (h : S.Over t) {bare : Bool}
    {callee : SymbolId} {args : List Node} (hcall : (Node.call callee args).Fits S bare) :
    ∃ s, t.get? callee = some s := by
  cases hcall with
  | call hc _ => exact h.call hc
  | script hs _ => exact (h.script hs).imp fun _ => And.left
  | weigh hw _ _ _ _ => exact (h.weigh hw).imp fun _ => And.left
  | idle htarget _ => cases htarget

variable {S S' : Scheme} {t : SymbolTable} {w : World} {q : Askers} {IsItem : SymbolId → Prop}

/-! ## Rules about regions -/

namespace Elsewhere

/-- Worlds whose tables have kept the functions of a table. -/
abbrev Kept (t : SymbolTable) (w : World) : Prop := t.Steady w.symbols

theorem declare_kept (name : String) {kind : Symbol.Kind} (hkind : kind.isFunction = false) :
    Upholds (Kept t) (fun _ => True) (Transforming.declare name kind) := by
  intro w id w' hw hok
  obtain ⟨symbols, hdeclare, rfl⟩ := Transforming.declare_eq_ok hok
  have hsteady := hw.declare name hkind
  rw [hdeclare] at hsteady
  exact ⟨hsteady, trivial⟩

theorem declare_has (hq : q.Of IsItem t) :
    Upholds (Kept t) (· = q.has) (Transforming.declare Lowering.hasName .function) := by
  intro w id w' hw hok
  rw [Transforming.declare_function (hw.askers hq).knows_has] at hok
  obtain ⟨rfl, rfl⟩ := pure_eq_ok hok
  exact ⟨hw, rfl⟩

/-- A rule about a region becomes the question for a token. -/
theorem generate_refits (hq : q.Of IsItem t) (hhas : S'.call q.has 2) (hname : ∀ id, S'.name id)
    (origin : String) (rule : Node) {bare : Bool} :
    Upholds (Kept t) (Node.Fits S' bare) (generate origin rule) := by
  refine .bind (declare_has hq) fun has hhas' => ?_
  subst hhas'
  refine .bind (declare_kept origin rfl) fun _ _ => .bind .symbols fun symbols _ => ?_
  rcases symbols.lookup? (tokenName origin rule.hash) with _ | token
  · refine .bind (declare_kept _ rfl) fun token _ => ?_
    have hpointer : Upholds (Kept t) (fun _ => True)
        (Transforming.associate token (tokenPointer token)) := by
      intro w index w' hw hok
      obtain ⟨pool, -, rfl⟩ := Transforming.associate_eq_ok hok
      exact ⟨hw, trivial⟩
    refine .bind hpointer fun _ _ => .bind (Q := fun _ => True) ?_ fun _ _ =>
      .pure (.has hhas (hname _))
    intro w _ w' hw hok
    obtain rfl : _ = w' := congrArg Prod.snd hok
    exact ⟨hw, trivial⟩
  · exact .pure (.has hhas (hname _))

/-- What calls a literal is no rule about a region. -/
theorem intercept_literal {target : Node} (htarget : target.isLiteral = true) (args : List Node)
    (w : World) : intercept target args w = (.ok none, w) := by
  rw [intercept, bind_ok (Transforming.symbols_apply w), Node.identifier?_of_isLiteral htarget]
  rfl

/-- The pass makes questions of rules about regions, and leaves none of these. -/
theorem refits (hq : q.Of IsItem t) (hover : S.Over t) (hbare : ∀ {id}, S.bare id → S'.bare id)
    (htext : ∀ {value}, S.text value → S'.text value) (hname : ∀ id, S'.name id)
    (hhas : S'.call q.has 2)
    (hcall : ∀ {callee count s}, S.call callee count → t.get? callee = some s → s.name ≠ atName →
      s.name ≠ hereName → S'.call callee count)
    (hscript : ∀ {callee}, S.script callee → S'.script callee)
    (hweigh : ∀ {callee code lhs rhs}, S.weigh callee code lhs rhs → S'.weigh callee code lhs rhs)
    (scripts : Scripts) :
    (Pass.connections.rules scripts).Refits (Kept t) (fun _ => True) S S' := by
  have hdefault : Rules.Builds (Kept t) S' {} := Rules.rebuilds_default.builds
  have hinRegion : ∀ {bare args}, Upholds (Kept t) (Node.Fits S' bare) (inRegion args) := by
    intro bare args
    unfold inRegion
    split
    · exact generate_refits hq hhas hname _ _
    · exact .throw _
    · exact .throw _
  have hinCurrentRegion : ∀ {bare args},
      Upholds (Kept t) (Node.Fits S' bare) (inCurrentRegion args) := by
    intro bare args
    unfold inCurrentRegion
    split
    · refine .bind (Q := fun _ => True) ?_ fun region _ => ?_
      · intro w region w' hw hok
        obtain ⟨rfl, rfl⟩ :=
          pure_eq_ok (show (pure w.context.region : Transforming _) w = _ from hok)
        exact ⟨hw, trivial⟩
      · cases region with
        | some origin => exact generate_refits hq hhas hname _ _
        | none => exact .throw _
    · exact .throw _
  -- A call that is not taken is of a name that is neither of the two.
  let stays (callee : SymbolId) : Prop :=
    ∀ s, t.get? callee = some s → s.name ≠ atName ∧ s.name ≠ hereName
  have hintercept : ∀ {bare callee args}, (Node.call callee args).Fits S bare →
      Upholds (Kept t) (fun taken => (∀ node, taken = some node → node.Fits S' bare) ∧
        (taken = none → stays callee)) (intercept (.identifier callee) args) := by
    intro bare callee args h
    refine .bind .symbols fun symbols hsymbols => ?_
    obtain ⟨w, hw, rfl⟩ := hsymbols
    obtain ⟨s, hs⟩ := hover.callee h
    have hcalled : ((Node.identifier callee).identifier?.bind w.symbols.nameOf?) = some s.name :=
      hw.nameOf? hs
    dsimp only
    rw [hcalled]
    split
    · exact .bind hinRegion fun node hnode => .pure
        ⟨fun node' heq => Option.some.inj heq ▸ hnode, nofun⟩
    · next hat =>
      split
      · exact .bind hinCurrentRegion fun node hnode => .pure
          ⟨fun node' heq => Option.some.inj heq ▸ hnode, nofun⟩
      · next hhere =>
        refine .pure ⟨nofun, fun _ s' hs' => ?_⟩
        obtain rfl := Option.some.inj (hs.symm.trans hs')
        exact ⟨fun heq => hat (congrArg some heq), fun heq => hhere (congrArg some heq)⟩
  refine Rules.refits_of_intercept stays { hdefault with } (fun _ => rfl) (fun _ => rfl)
    (fun _ _ => rfl) hbare htext (fun _ => hname _) hintercept
    (fun htarget => .of_ok (intercept_literal htarget _) rfl) (fun hstays hc => ?_)
    (fun _ => hscript) fun _ => hweigh
  obtain ⟨s, hs⟩ := hover.call hc
  exact hcall hc hs (hstays s hs).1 (hstays s hs).2

end Elsewhere

/-! ## Scripted functions -/

namespace Inline

/-- What has a body is a scripted function, and goes by its name. -/
theorem of_scriptOf? {scripts : Scripts} {id : SymbolId} {s : Symbol} {name : String}
    {script : Script}
    (hget : t.get? id = some s) (h : scriptOf? scripts t (.identifier id) = some (name, script)) :
    s.kind = .scriptedFunction ∧ name = s.name := by
  by_cases hkind : s.kind = .scriptedFunction
  · refine ⟨hkind, ?_⟩
    replace h : (t.get? id).bind _ = some (name, script) := h
    rw [hget, Option.bind_some, if_pos hkind] at h
    obtain ⟨script', -, hname⟩ := Option.bind_eq_some_iff.mp h
    exact (congrArg Prod.fst (Option.some.inj hname)).symm
  · rw [scriptOf?_of_kind_ne hget hkind] at h
    cases h

/-- What calls a literal calls no scripted function. -/
theorem scriptOf?_literal {scripts : Scripts} {target : Node} (htarget : target.isLiteral = true) :
    scriptOf? scripts t target = none := by
  rw [scriptOf?, Node.identifier?_of_isLiteral htarget]
  rfl

/-- Bodies are put in the places of calls until none is left to be expanded. A body keeps to a
scheme that calls none of its parameters. -/
theorem refits {scripts : Scripts} (hbare : ∀ {id}, S.bare id → S'.bare id)
    (htext : ∀ {value}, S.text value → S'.text value) (hname : ∀ {id}, S.name id → S'.name id)
    (hcall : ∀ {callee count}, S.call callee count →
      scriptOf? scripts w.symbols (.identifier callee) = none ∧ S'.call callee count)
    (hweigh : ∀ {callee code lhs rhs}, S.weigh callee code lhs rhs →
      scriptOf? scripts w.symbols (.identifier callee) = none ∧ S'.weigh callee code lhs rhs)
    (hscript : ∀ {callee}, S.script callee → ∃ name script,
      scriptOf? scripts w.symbols (.identifier callee) = some (name, script) ∧
        ∃ own : Scheme, own.Within S ∧ own.Avoids script.params ∧ script.body.Fits own true)
    (limit left : Nat) : (rules scripts limit left).Refits (· = w) (fun _ => True) S S' := by
  have hdefault : Rules.Builds (· = w) S' {} := Rules.rebuilds_default.builds
  let stays (callee : SymbolId) : Prop := scriptOf? scripts w.symbols (.identifier callee) = none
  have hput : ∀ {bare callee args name script}, (Node.call callee args).Fits S bare →
      scriptOf? scripts w.symbols (.identifier callee) = some (name, script) →
      (instantiate script args).Fits S bare := by
    intro bare callee args name script h hfound
    cases h with
    | call hc _ => exact absurd ((hcall hc).1.symm.trans hfound) nofun
    | weigh hw _ _ _ _ => exact absurd ((hweigh hw).1.symm.trans hfound) nofun
    | idle htarget _ => cases htarget
    | script hs hargs =>
      obtain ⟨_, _, hfound', own, hwithin, havoids, hbody⟩ := hscript hs
      obtain ⟨rfl, rfl⟩ := Prod.mk.inj (Option.some.inj (hfound'.symm.trans hfound))
      have hinto := hbody.substitute hwithin havoids Node.scopeOf_unbound
        fun {_ _} hscope => hargs _ (Node.mem_of_scopeOf hscope)
      rwa [Bool.true_and] at hinto
  have hrefits : ∀ {expand : String → Node → Transforming Node},
      (∀ {bare} name {body}, body.Fits S bare →
        Upholds (· = w) (Node.Fits S' bare) (expand name body)) →
      ({ intercept := intercept scripts expand } : Rules Transforming).Refits (· = w)
        (fun _ => True) S S' := by
    intro expand hexpand
    have hintercept : ∀ {bare callee args}, (Node.call callee args).Fits S bare →
        Upholds (· = w) (fun taken => (∀ node, taken = some node → node.Fits S' bare) ∧
          (taken = none → stays callee)) (intercept scripts expand (.identifier callee) args) := by
      rintro bare callee args h w₀ taken w' rfl hok
      rcases hfound : scriptOf? scripts w₀.symbols (.identifier callee) with _ | ⟨name, script⟩
      · rw [intercept_of_none hfound] at hok
        obtain ⟨rfl, rfl⟩ := pure_eq_ok hok
        exact ⟨rfl, nofun, fun _ => hfound⟩
      · by_cases hlength : script.params.length = args.length
        · rw [intercept_of_some hfound hlength] at hok
          obtain ⟨node, w₁, hbody, hok⟩ := bind_eq_ok hok
          obtain ⟨rfl, rfl⟩ := pure_eq_ok hok
          obtain ⟨hw, hnode⟩ := hexpand name (hput h hfound) _ _ _ rfl hbody
          exact ⟨hw, fun _ heq => Option.some.inj heq ▸ hnode, nofun⟩
        · rw [intercept_of_length_ne hfound hlength] at hok
          exact absurd (congrArg Prod.fst hok) nofun
    refine Rules.refits_of_intercept stays { hdefault with } (fun _ => rfl) (fun _ => rfl)
      (fun _ _ => rfl) hbare htext hname hintercept
      (fun htarget => .of_ok (fun _ => intercept_of_none (scriptOf?_literal htarget)) rfl)
      (fun _ hc => (hcall hc).2)
      (fun hstays hs => ?_) fun _ hw => (hweigh hw).2
    obtain ⟨_, _, hfound, -⟩ := hscript hs
    exact absurd (hstays.symm.trans hfound) nofun
  induction left with
  | zero => exact hrefits fun _ _ _ => .throw _
  | succ left ih => exact hrefits fun _ _ h => ih.transform h trivial

end Inline

/-! ## Folding -/

/-- Folding keeps to every scheme, as it puts booleans in the place of what it decides. -/
theorem Fold.refits (scripts : Scripts) :
    (Pass.fold.rules scripts).Refits (· = w) (fun _ => True) S S := by
  have hdefault : Rules.Builds (· = w) S {} := Rules.rebuilds_default.builds
  have hcompare : ∀ {bare} op {lhs rhs : Node}, lhs.Fits S bare → rhs.Fits S bare →
      Upholds (· = w) (Node.Fits S bare) (Fold.compare op lhs rhs) := by
    intro bare op lhs rhs hl hr
    unfold Fold.compare
    split
    · exact .pure (.boolean _)
    · exact .pure (.compare op hl hr)
    · exact .throw _
  have hinvert : ∀ {bare} {inner : Node}, inner.Fits S bare →
      Upholds (· = w) (Node.Fits S bare) (Fold.invert inner) := by
    intro bare inner h
    unfold Fold.invert
    split
    · exact .pure (.boolean _)
    · exact .pure (.invert h)
  exact Rules.refits_of_intercept (fun _ => True)
    { hdefault with compare := hcompare, invert := hinvert } (fun _ => rfl) (fun _ => rfl)
    (fun _ _ => rfl) id id id (fun _ => .pure ⟨nofun, fun _ => trivial⟩) (fun _ => .pure rfl)
    (fun _ => id) (fun _ => id) fun _ => id

/-! ## Bare names -/

/-- Bare names of functions are called, and other bare names stay. -/
theorem BareCall.refits (hname : ∀ {id}, S.name id → S'.name id)
    (htext : ∀ {value}, S.text value → S'.text value)
    (hfunction : ∀ {id s}, S.bare id → w.symbols.get? id = some s → s.kind.isFunction = true →
      (Node.call id []).Fits S' true)
    (hplain : ∀ {id s}, S.bare id → w.symbols.get? id = some s → s.kind.isFunction = false →
      S'.bare id)
    (hcall : ∀ {target args}, (Node.invoke target args).Fits S true →
      (Node.invoke target args).Fits S' true)
    (scripts : Scripts) : (Pass.bareCalls.rules scripts).Refits (· = w) (· = true) S S' := by
  have hdefault : Rules.Builds (· = w) S' {} := Rules.rebuilds_default.builds
  refine Rules.refits_of_keepCalls { hdefault with } rfl (fun {id} hn hid => ?_)
    (fun hvalue => .pure (.string fun _ => htext hvalue)) hcall
  refine .bind .symbols fun symbols hsymbols => ?_
  obtain ⟨w, rfl, rfl⟩ := hsymbols
  rcases hget : w.symbols.get? id with _ | s
  · exact .throw _
  · have hcalled : s.kind.isFunction = true →
        Upholds (· = w) (Node.Fits S' true) (pure (.call id []) : Transforming Node) :=
      fun hkind => .pure (hfunction hid hget hkind)
    dsimp only
    split
    · next hkind => exact hcalled (by rw [hkind]; rfl)
    · next hkind => exact hcalled (by rw [hkind]; rfl)
    · next hkind =>
      split
      · exact .throw _
      · split
        · exact hcalled (by rw [hkind]; rfl)
        · exact .throw _
    · next hkind =>
      split
      · exact .throw _
      · split
        · exact hcalled (by rw [hkind]; rfl)
        · exact .throw _
    · next hbuiltIn hcompiler hfunction' hscripted =>
      refine .pure (.identifier (hname hn) fun _ => hplain hid hget ?_)
      revert hbuiltIn hcompiler hfunction' hscripted
      cases s.kind <;> simp [Symbol.Kind.isFunction]

/-! ## Joining -/

/-- The scheme allows questions, and calls the functions that ask for nothing else. -/
structure Scheme.Asks (S : Scheme) (q : Askers) : Prop where
  has : S.call q.has 2
  joining : ∀ j {count}, 2 ≤ count → S.call (q.joining j) count
  plain : ∀ {callee}, (callee = q.has ∨ ∃ j, callee = q.joining j) →
    ¬ S.script callee ∧ ∀ code lhs rhs, ¬ S.weigh callee code lhs rhs

namespace Item

/-- Questions are joined into questions. -/
theorem join_refits (hq : q.Of IsItem w.symbols) (hasks : S.Asks q) (j : Junction) {bare : Bool}
    {items : List Node} (h : ∀ item ∈ items, item.Fits S bare) :
    Upholds (· = w) (fun items => ∀ item ∈ items, Node.Fits S bare item)
      (join j.joining items) := by
  have hbound : ∀ {name id}, w.symbols.Knows name .builtInFunction id →
      w.symbols.names[name]? = some id := by
    rintro name id ⟨s, hlookup, -, rfl⟩
    exact (SymbolTable.names_of_lookup? hq.sound hlookup).1
  have hsubjects : ∀ {item subjects}, item.Fits S bare →
      asked w.symbols j.joining item = some subjects →
      ∀ subject ∈ subjects, subject.Fits S false := by
    intro item subjects hitem hasked
    have hcallee : ∀ {callee args}, (Node.call callee args).Fits S bare →
        callee = q.has ∨ callee = q.joining j → ∀ arg ∈ args, arg.Fits S false := by
      intro callee args hcall hown
      obtain ⟨hscript, hweigh⟩ := hasks.plain (hown.imp id fun h => ⟨j, h⟩)
      cases hcall with
      | call _ hargs => exact hargs
      | script hs _ => exact absurd hs hscript
      | weigh hw _ _ _ _ => exact absurd hw (hweigh _ _ _)
      | idle htarget _ => cases htarget
    obtain hsingle | hjoined := asked_of_subjects?
      (fun _ => (SymbolTable.names_iff hq.sound).mp) (fun _ => (SymbolTable.names_iff hq.sound).mp)
      hasked
    · next has subject =>
      obtain rfl : q.has = has := Option.some.inj ((hbound hq.knows_has).symm.trans hsingle)
      exact List.forall_mem_singleton.mpr (hcallee hitem (.inl rfl) subject List.mem_cons_self)
    · next callee =>
      obtain rfl : q.joining j = callee :=
        Option.some.inj ((hbound (hq.knows_joining j)).symm.trans hjoined)
      exact hcallee hitem (.inr rfl)
  rintro w₀ items' w' rfl hok
  rw [join_eq] at hok
  have hothers : ∀ item ∈ items.filter fun item => (asked w₀.symbols j.joining item).isNone,
      item.Fits S bare := fun item hitem => h item (List.mem_of_mem_filter hitem)
  have hall : ∀ subject ∈ (items.filterMap (asked w₀.symbols j.joining)).flatten,
      subject.Fits S false := by
    intro subject hsubject
    obtain ⟨subjects, hmem, hin⟩ := List.mem_flatten.mp hsubject
    obtain ⟨item, hitem, hasked⟩ := List.mem_filterMap.mp hmem
    exact hsubjects (h item hitem) hasked subject hin
  generalize (items.filterMap (asked w₀.symbols j.joining)).flatten = subjects at hok hall
  match subjects with
  | [] =>
    obtain ⟨rfl, rfl⟩ := pure_eq_ok hok
    exact ⟨rfl, hothers⟩
  | [subject] =>
    obtain ⟨has, w₁, hdeclare, hpure⟩ := bind_eq_ok hok
    rw [Transforming.declare_function hq.knows_has] at hdeclare
    obtain ⟨rfl, rfl⟩ := pure_eq_ok hdeclare
    obtain ⟨rfl, rfl⟩ := pure_eq_ok hpure
    refine ⟨rfl, List.forall_mem_append.mpr ⟨hothers, List.forall_mem_singleton.mpr ?_⟩⟩
    exact .call hasks.has (List.forall_mem_cons.mpr ⟨hall subject List.mem_cons_self,
      List.forall_mem_singleton.mpr (.number one)⟩)
  | first :: second :: rest =>
    obtain ⟨callee, w₁, hdeclare, hpure⟩ := bind_eq_ok hok
    rw [Transforming.declare_function (hq.knows_joining j)] at hdeclare
    obtain ⟨rfl, rfl⟩ := pure_eq_ok hdeclare
    obtain ⟨rfl, rfl⟩ := pure_eq_ok hpure
    refine ⟨rfl, List.forall_mem_append.mpr ⟨hothers, List.forall_mem_singleton.mpr ?_⟩⟩
    exact .call (hasks.joining j (Nat.le_add_left 2 _)) hall

/-- Joining keeps to a scheme that allows questions. -/
theorem refits (hq : q.Of IsItem w.symbols) (hasks : S.Asks q) (scripts : Scripts) :
    (Pass.collapseHas.rules scripts).Refits (· = w) (fun _ => True) S S := by
  have hdefault : Rules.Builds (· = w) S {} := Rules.rebuilds_default.builds
  have hjoins : ∀ (j : Junction) {bare : Bool} {items : List Node},
      (∀ item ∈ items, item.Fits S bare) → Upholds (· = w)
        (fun items => ∀ item ∈ items, Node.Fits S bare item) (join j.joining items) :=
    fun j _ _ => join_refits hq hasks j
  have hanyOf : ∀ {bare : Bool} {items : List Node}, (∀ item ∈ items, item.Fits S bare) →
      Upholds (· = w) (Node.Fits S bare) (anyOf items) := fun h =>
    .bind (hjoins .anyOf h) fun _ hitems => .pure (.disjoin hitems)
  have hevery : ∀ {bare : Bool} {items : List Node}, (∀ item ∈ items, item.Fits S bare) →
      Upholds (· = w) (Node.Fits S bare) (every items) := fun h =>
    .bind (hjoins .every h) fun _ hitems => .pure (.conjoin hitems)
  exact Rules.refits_of_intercept (fun _ => True)
    { hdefault with anyOf := hanyOf, every := hevery } (fun _ => rfl) (fun _ => rfl)
    (fun _ _ => rfl) id id id (fun _ => .pure ⟨nofun, fun _ => trivial⟩) (fun _ => .pure rfl)
    (fun _ => id) (fun _ => id) fun _ => id

/-! ## Items -/

theorem held_refits (hq : q.Of IsItem w.symbols) (hhas : S.call q.has 2) {token : SymbolId}
    (htoken : S.name token) : Upholds (· = w) (Node.Fits S true) (held token) := by
  rintro w₀ node w' rfl hok
  rw [held, bind_ok (Transforming.declare_function hq.knows_has)] at hok
  obtain ⟨rfl, rfl⟩ := pure_eq_ok hok
  exact ⟨rfl, .has hhas htoken⟩

/-- Bare names and texts that tokens go by become questions, and others stay. -/
theorem promote_refits (hq : q.Of IsItem w.symbols) (hhas : S'.call q.has 2)
    (hname : ∀ {id}, S.name id → S'.name id)
    (htoken : ∀ {id}, id < w.symbols.size → S'.name id)
    (hbare : ∀ {id s}, S.bare id → w.symbols.get? id = some s → tokenOf? w.symbols s = none →
      S'.bare id)
    (htext : ∀ {value}, S.text value → tokenNamed? w.symbols value = none → S'.text value)
    (hcall : ∀ {target args}, (Node.invoke target args).Fits S true →
      (Node.invoke target args).Fits S' true)
    (scripts : Scripts) : (Pass.promoteTokens.rules scripts).Refits (· = w) (· = true) S S' := by
  have hdefault : Rules.Builds (· = w) S' {} := Rules.rebuilds_default.builds
  refine Rules.refits_of_keepCalls { hdefault with } rfl (fun {id} hn hid => ?_)
    (fun {value} hvalue => ?_) hcall
  · refine .bind .symbols fun symbols hsymbols => ?_
    obtain ⟨w, rfl, rfl⟩ := hsymbols
    rcases hget : w.symbols.get? id with _ | s
    · exact .throw _
    · dsimp only
      rcases hfound : tokenOf? w.symbols s with _ | token
      · exact .pure (.identifier (hname hn) fun _ => hbare hid hget hfound)
      · exact held_refits hq hhas (htoken (tokenOf?_lt hq.sound hget hfound))
  · refine .bind .symbols fun symbols hsymbols => ?_
    obtain ⟨w, rfl, rfl⟩ := hsymbols
    rcases hfound : tokenNamed? w.symbols value with _ | token
    · exact .pure (.string fun _ => htext hvalue hfound)
    · exact held_refits hq hhas (htoken (tokenNamed?_lt hq.sound hfound))

end Item

/-! ## Settings -/

namespace SettingValue

/-- What an operand is made into: the name of a setting into a literal, and any other one into
itself. -/
def Turns (symbols : SymbolTable) (node node' : Node) : Prop :=
  (node' = node ∧ ∀ id, node = .identifier id → symbols.Unlisted id) ∨
    node'.isLiteral = true ∧ ∃ id, node = .identifier id ∧ ¬ symbols.Unlisted id

/-- The value of a setting is a literal. -/
theorem literal_isLiteral {settings : Settings} {type : SettingType} {name : String} {node : Node}
    (h : literal settings type name = .ok node) : node.isLiteral = true := by
  have hvalue : ∀ {α : Type} {value : Except SettingError α} {make : α → Node},
      (∀ a, (make a).isLiteral = true) → value.map make = .ok node → node.isLiteral = true := by
    rintro α (e | a) make hmake heq
    · exact absurd heq nofun
    · exact Except.ok.inj heq ▸ hmake a
  cases type with
  | string => exact hvalue (fun _ => rfl) h
  | number => exact hvalue (fun _ => rfl) h
  | boolean => exact hvalue (fun _ => rfl) h

variable {settings : Settings} {id : SymbolId}

/-- A name that no setting goes by stays, and another one becomes a literal. -/
theorem identifier_upholds :
    Upholds (· = w) (fun node => node = .identifier id ∧ w.symbols.Unlisted id ∨
      node.isLiteral = true ∧ ¬ w.symbols.Unlisted id) (identifier settings id) := by
  refine .bind .symbols fun symbols hsymbols => ?_
  obtain ⟨w, rfl, rfl⟩ := hsymbols
  rcases hget : w.symbols.get? id with _ | s
  · exact .pure (.inl ⟨rfl, fun hs => absurd (hget.symm.trans hs) nofun⟩)
  · dsimp only
    split
    · next hlisted =>
      exact .pure (.inl ⟨rfl, fun hs => Option.some.inj (hget.symm.trans hs) ▸ hlisted⟩)
    · next hlisted =>
      split
      · split
        · next hliteral =>
          exact .pure
            (.inr ⟨literal_isLiteral hliteral, fun h => nomatch (h hget).symm.trans hlisted⟩)
        · exact .throw _
      · exact .throw _

/-- Names of settings become literals throughout. -/
theorem refits (hname : ∀ {id}, S.name id → w.symbols.Unlisted id → S'.name id)
    (hbare : ∀ {id}, S.bare id → w.symbols.Unlisted id → S'.bare id)
    (htext : ∀ {value}, S.text value → S'.text value)
    (hliteral : ∀ {id}, S.bare id → ¬ w.symbols.Unlisted id → ∀ value, S'.text value)
    (hcall : ∀ {callee count}, S.call callee count → w.symbols.Unlisted callee →
      S'.call callee count)
    (hscript : ∀ {callee}, S.script callee → w.symbols.Unlisted callee → S'.script callee)
    (hweigh : ∀ {callee code lhs rhs lhs' rhs'}, S.weigh callee code lhs rhs →
      w.symbols.Unlisted callee → Turns w.symbols lhs lhs' → Turns w.symbols rhs rhs' →
      S'.weigh callee code lhs' rhs')
    (scripts : Scripts) :
    ((Pass.settings settings).rules scripts).Refits (· = w) (fun _ => True) S S' := by
  have hdefault : Rules.Builds (· = w) S' {} := Rules.rebuilds_default.builds
  have hput : ∀ {bare id}, S.name id → (bare = true → S.bare id) → Upholds (· = w)
      (fun node => node.isOperand = true ∧ node.Fits S' bare ∧
        Turns w.symbols (.identifier id) node) (identifier settings id) := by
    intro bare id hn hid
    refine identifier_upholds.imp fun node hnode => ?_
    obtain ⟨rfl, hunlisted⟩ | ⟨hliteral', hlisted⟩ := hnode
    · refine ⟨rfl, .identifier (hname hn hunlisted) fun hb => hbare (hid hb) hunlisted,
        .inl ⟨rfl, ?_⟩⟩
      rintro _ ⟨⟩
      exact hunlisted
    · exact ⟨Node.isOperand_of_isLiteral hliteral',
        .literal hliteral' fun hb => hliteral (hid hb) hlisted, .inr ⟨hliteral', id, rfl, hlisted⟩⟩
  have hoperand : ∀ {node : Node}, node.isOperand = true → node.Fits S false → Upholds (· = w)
      (fun node' => node'.isOperand = true ∧ node'.Fits S' false ∧ Turns w.symbols node node')
      (((Pass.settings settings).rules scripts).transform node) := by
    intro node hnode h
    cases h with
    | boolean value =>
      rw [Rules.transform]
      exact .pure ⟨rfl, .boolean value, .inl ⟨rfl, nofun⟩⟩
    | number value =>
      rw [Rules.transform]
      exact .pure ⟨rfl, .number value, .inl ⟨rfl, nofun⟩⟩
    | string =>
      rw [Rules.transform]
      exact .pure ⟨rfl, .string nofun, .inl ⟨rfl, nofun⟩⟩
    | identifier hn hid =>
      rw [Rules.transform]
      exact hput hn hid
    | _ => cases hnode
  have henters : ((Pass.settings settings).rules scripts).Enters (· = w) (fun _ => True)
      w.symbols.Unlisted (Turns w.symbols) S S' := { hdefault with
    identifier := fun hn hid => (hput hn hid).imp fun _ h => h.2.1
    string := fun hvalue => .pure (.string fun hb => htext (hvalue hb))
    head := fun _ => identifier_upholds.imp fun _ h => h.imp id And.left
    literal := Rules.literal_same fun _ => rfl
    operand := hoperand
    intercept := fun _ => .pure ⟨nofun, fun _ => trivial⟩
    untaken := fun _ => .pure rfl
    idle := fun htarget hargs => .pure (.idle htarget hargs)
    call := fun _ hnamed hc hargs => .pure (.call (hcall hc hnamed) hargs)
    script := fun _ hnamed hs hargs => .pure (.script (hscript hs hnamed) hargs)
    weigh := fun _ hnamed hw hlhs hrhs hl hr hlturns hrturns =>
      .pure (.weigh (hweigh hw hnamed hlturns hrturns) hlhs hrhs hl hr) }
  exact henters.refits

end SettingValue

/-! ## Compiler functions -/

namespace CompilerFunctions

variable {tricks : List String} {nightStart : Bool}

/-- The declaration of a known function answers with it. -/
theorem declare_callee (hs : w.symbols.Sound) {callee : SymbolId} {s : Symbol}
    (hget : w.symbols.get? callee = some s) (hkind : s.kind.isFunction = true) :
    Transforming.declare s.name .function w = (.ok callee, w) := by
  refine Item.declare_calls ⟨s.kind, .of_get? hs hget, ?_⟩
  revert hkind
  cases s.kind <;> decide

/-- A comparison of literals is made, and any other one is left. -/
theorem compareSetting_upholds (hs : w.symbols.Sound) {callee : SymbolId} {s : Symbol}
    (hget : w.symbols.get? callee = some s) (hkind : s.kind.isFunction = true)
    (hname : s.name = Lowering.settingName) {Q : Node → Prop} {args : List Node}
    (hargs : ∀ {code op lhs rhs}, args = [.number code, lhs, rhs] →
      Comparison.ofCode? code.clampToByte = some op →
      ((lhs.isLiteral && rhs.isLiteral) = true → Q (.compare op lhs rhs)) ∧
        ((lhs.isLiteral && rhs.isLiteral) = false → Q (.call callee args))) :
    Upholds (· = w) Q (compareSetting args) := by
  unfold compareSetting
  split
  · next code lhs rhs =>
    rcases hop : Comparison.ofCode? code.clampToByte with _ | op
    · exact .throw _
    · obtain ⟨hmade, hleft⟩ := hargs rfl hop
      dsimp only
      split
      · next hliteral => exact .pure (hmade hliteral)
      · next hliteral =>
        rintro w₀ node w' rfl hok
        rw [← hname, bind_ok (declare_callee hs hget hkind)] at hok
        obtain ⟨rfl, rfl⟩ := pure_eq_ok hok
        exact ⟨rfl, hleft (Bool.eq_false_iff.mpr hliteral)⟩
  · exact .throw _

/-- What calls a literal calls no function of a table. -/
theorem answer_literal {functions : CompilerFunctions} {target : Node}
    (htarget : target.isLiteral = true) (args : List Node) (w : World) :
    functions.answer target args w = (.ok (.invoke target args), w) := by
  rw [answer, bind_ok (Transforming.symbols_apply w), functionOf?,
    Node.identifier?_of_isLiteral htarget]
  rfl

/-- Calls of the functions in the table are answered, but for comparisons that are left. -/
theorem refits (hs : w.symbols.Sound) (hover : S.Over w.symbols)
    (hbare : ∀ {id}, S.bare id → S'.bare id) (htext : ∀ {value}, S.text value → S'.text value)
    (hname : ∀ {id}, S.name id → S'.name id)
    (hcall : ∀ {callee count s}, S.call callee count → w.symbols.get? callee = some s →
      s.name ≠ Lowering.settingName ∧
        ((standard tricks nightStart).find? s.name = none → S'.call callee count))
    (hscript : ∀ {callee}, S.script callee → S'.script callee)
    (hweigh : ∀ {callee code lhs rhs}, S.weigh callee code lhs rhs →
      (∃ s, w.symbols.get? callee = some s ∧ s.name = Lowering.settingName) ∧
        ((Comparison.ofCode? code.clampToByte).isSome = true →
          ((lhs.isLiteral && rhs.isLiteral) = true → ∀ value, S'.text value) ∧
          ((lhs.isLiteral && rhs.isLiteral) = false → S'.weigh callee code lhs rhs)))
    (scripts : Scripts) :
    ((Pass.compilerCalls (standard tricks nightStart)).rules scripts).Refits (· = w)
      (fun _ => True) S S' := by
  have hdefault : Rules.Builds (· = w) S' {} := Rules.rebuilds_default.builds
  have hanswer : ∀ {bare callee args s}, w.symbols.get? callee = some s →
      ((standard tricks nightStart).find? s.name = none → (Node.call callee args).Fits S' bare) →
      (s.name = Lowering.settingName →
        Upholds (· = w) (Node.Fits S' bare) (compareSetting args)) →
      Upholds (· = w) (Node.Fits S' bare)
        ((standard tricks nightStart).answer (.identifier callee) args) := by
    intro bare callee args s hget hleft hcompare
    refine .bind .symbols fun symbols hsymbols => ?_
    obtain ⟨w, rfl, rfl⟩ := hsymbols
    have hfound : (standard tricks nightStart).functionOf? w.symbols (.identifier callee) =
        (standard tricks nightStart).find? s.name := by
      show ((w.symbols.get? callee).map (·.name)).bind _ = _
      rw [hget]
      rfl
    rw [hfound]
    rcases hfind : (standard tricks nightStart).find? s.name with _ | function
    · exact .pure (hleft hfind)
    · obtain rfl | ⟨hname, rfl⟩ | ⟨value, rfl⟩ := standard_cases hfind
      · dsimp only
        unfold trickEnabled
        split
        · exact .pure (.boolean _)
        · exact .throw _
      · exact hcompare hname
      · exact .pure (.boolean value)
  refine Rules.refits_of_names (fun _ => True) { hdefault with } (fun _ => rfl)
    (fun _ => rfl) hbare htext hname (fun _ => .pure ⟨nofun, fun _ => trivial⟩)
    (fun _ => .pure rfl) (fun {bare callee args} _ hc hargs => ?_)
    (fun {bare callee args} _ hscript' hargs => ?_)
    (fun {bare callee code lhs rhs} _ hw hlhs hrhs hl hr => ?_)
    fun {bare target args} htarget hargs => ?_
  · obtain ⟨s, hget⟩ := hover.call hc
    obtain ⟨hne, hleft⟩ := hcall hc hget
    exact hanswer hget (fun hfind => .call (hleft hfind) hargs) fun hname => absurd hname hne
  · obtain ⟨s, hget, hkind⟩ := hover.script hscript'
    have hstays : (Node.call callee args).Fits S' bare := .script (hscript hscript') hargs
    refine hanswer hget (fun _ => hstays) fun hname => ?_
    refine compareSetting_upholds hs hget hkind hname fun heq _ => ⟨fun _ => ?_, fun _ => hstays⟩
    subst heq
    exact .compare _ (hargs _ (by simp)) (hargs _ (by simp))
  · obtain ⟨⟨s, hget, hname⟩, hcode⟩ := hweigh hw
    obtain ⟨s', hget', hkind⟩ := hover.weigh hw
    obtain rfl := Option.some.inj (hget.symm.trans hget')
    refine hanswer hget (fun hfind => ?_) fun _ => ?_
    · rw [hname] at hfind
      cases hfind
    · refine compareSetting_upholds hs hget hkind hname fun heq hop => ?_
      simp only [List.cons.injEq, Node.number.injEq, and_true] at heq
      obtain ⟨rfl, rfl, rfl⟩ := heq
      obtain ⟨hmade, hleft⟩ := hcode (by rw [hop]; rfl)
      refine ⟨fun hliteral => ?_, fun hliteral => .weigh (hleft hliteral) hlhs hrhs hl hr⟩
      obtain ⟨hlhs', hrhs'⟩ := Bool.and_eq_true_iff.mp hliteral
      exact .compare _ (.literal hlhs' fun _ => hmade hliteral)
        (.literal hrhs' fun _ => hmade hliteral)
  · exact .of_ok (answer_literal htarget args) (.idle htarget hargs)

end CompilerFunctions

end Passage

import Passage.Proofs.Collapsing
import Passage.Proofs.Normality
import Passage.Proofs.Schemes
import Passage.Proofs.Scoping

/-!
# Joining questions once and for all

A junction whose questions have been joined has its other items first and one question at most
behind them. Joining it again finds the same question, unless the junction got a further item
of its own in the meantime: a nested junction that comes down to a single item puts that item
into the outer one after the questions there have been joined. Nested junctions come down to
one item where calls of a joining function ask for nothing. So joining settles if in every
junction two items are no such calls (`Item.collapse_settles`).

The table changes on the way, but only by declarations of functions (`SymbolTable.Engages`).
What could be called before can still be called (`SymbolTable.Calls`), and a name that is bound
by them is bound to a symbol that no earlier node has.
-/

namespace Passage

/-! ## Tables in which functions are declared -/

namespace SymbolTable

/-- The name goes with the symbol, and may be declared as a function without effect. -/
def Calls (t : SymbolTable) (name : String) (id : SymbolId) : Prop :=
  ∃ kind, t.Knows name kind id ∧ kind.refine .function = some kind

/-- The second table has come from the first by declarations of functions. -/
abbrev Engages (t t' : SymbolTable) : Prop := t.DeclaredAs (fun _ kind => kind = .function) t'

variable {t t' t'' : SymbolTable} {name : String} {id : SymbolId}

theorem names_iff (hs : t.Sound) : (t.lookup? name).map (·.id) = some id ↔
    t.names[name]? = some id := by
  constructor
  · intro h
    obtain ⟨s, hlookup, rfl⟩ := Option.map_eq_some_iff.mp h
    exact (names_of_lookup? hs hlookup).1
  · intro h
    obtain ⟨s, hget⟩ := get?_of_lt (hs.bound h)
    rw [lookup?_of_names h hget, Option.map_some, hs.ids hget]

theorem Calls.names (h : t.Calls name id) (hs : t.Sound) : t.names[name]? = some id := by
  obtain ⟨_, ⟨s, hlookup, -, rfl⟩, -⟩ := h
  exact (names_of_lookup? hs hlookup).1

theorem Calls.declare (h : t.Calls name id) : t.declare name .function = (.ok id, t) := by
  obtain ⟨kind, hknows, hrefine⟩ := h
  exact hknows.declare_same hrefine

/-- All names of the symbol may be declared so. -/
theorem Calls.of_names (h : t.Calls name id) (hs : t.Sound) {name' : String}
    (hname : t.names[name']? = some id) : t.Calls name' id := by
  obtain ⟨kind, hknows, hrefine⟩ := h
  obtain ⟨s, hget, hkind, hid⟩ := hknows.get? hs
  exact ⟨kind, ⟨s, lookup?_of_names hname hget, hkind, hid⟩, hrefine⟩

/-- What has been declared as a function is one, or known to be more. -/
theorem calls_of_declare (hs : t.Sound) (h : t.declare name .function = (.ok id, t')) :
    t'.Calls name id := by
  obtain ⟨e, h'⟩ | ⟨s, hlookup, hrefine, h'⟩ | ⟨s, refined, hlookup, hrefine, -, h'⟩ |
    ⟨hname, -, h'⟩ := declare_cases hs name .function <;> rw [h'] at h <;> cases h
  · exact ⟨s.kind, ⟨s, hlookup, rfl, rfl⟩, hrefine⟩
  · obtain ⟨hbound, hget⟩ := names_of_lookup? hs hlookup
    refine ⟨refined, ⟨{ s with kind := refined }, lookup?_of_names hbound ?_, rfl, rfl⟩, ?_⟩
    · rw [get?_refined _ hget, if_pos rfl]
    · revert hrefine
      cases s.kind <;> cases refined <;> decide
  · have hbound : (t.appended name .function).names[name]? = some t.size :=
      Std.ExtTreeMap.getElem?_insert_self
    exact ⟨.function, ⟨⟨name, t.size, .function⟩,
      lookup?_of_names hbound Array.getElem?_push_size, rfl, rfl⟩, rfl⟩

theorem DeclaredAs.trans {may : String → Symbol.Kind → Prop} (h : t.DeclaredAs may t')
    (h' : t'.DeclaredAs may t'') : t.DeclaredAs may t'' := by
  induction h' with
  | nothing => exact h
  | declare name kind _ hmay ih => exact .declare name kind ih hmay

theorem DeclaredAs.grows {may : String → Symbol.Kind → Prop} (h : t.DeclaredAs may t')
    (hs : t.Sound) : t.Grows t' := by
  induction h with
  | nothing => exact .refl t
  | declare name kind _ _ ih => exact ih.trans (declare_grows (ih.sound hs) name kind)

theorem Engages.calls (h : t.Engages t') (hs : t.Sound) (hcalls : t.Calls name id) :
    t'.Calls name id := by
  induction h with
  | nothing => exact hcalls
  | @declare t' name' kind hengages hkind ih =>
    obtain ⟨known, hknows, hrefine⟩ := ih
    subst hkind
    have hknown : (t'.declare name' .function).2.Knows name known id :=
      hknows.declare_of ((hengages.grows hs).sound hs) fun refined hrefined =>
        Option.some.inj (hrefined.symm.trans hrefine)
    exact ⟨known, hknown, hrefine⟩

/-- A name that has become bound goes with a new symbol. -/
theorem Engages.names_of_lt (h : t.Engages t') (hs : t.Sound) (hname : t'.names[name]? = some id)
    (hlt : id < t.size) : t.names[name]? = some id := by
  induction h with
  | nothing => exact hname
  | @declare t' name' kind hengages _ ih =>
    have hgrows := hengages.grows hs
    obtain ⟨e, h'⟩ | ⟨s, -, -, h'⟩ | ⟨s, refined, -, -, -, h'⟩ | ⟨-, -, h'⟩ :=
      declare_cases (hgrows.sound hs) name' kind <;> rw [h'] at hname
    · exact ih hname
    · exact ih hname
    · exact ih hname
    · have hinsert : (t'.names.insert name' t'.size)[name]? = some id := hname
      rw [Std.ExtTreeMap.getElem?_insert] at hinsert
      split at hinsert
      · have hsize : t.size ≤ t'.size := hgrows.symbols
        obtain rfl := Option.some.inj hinsert
        exact absurd (Nat.lt_of_lt_of_le hlt hsize) (Nat.lt_irrefl _)
      · exact ih hinsert

end SymbolTable

/-! ## What a junction is left with -/

namespace Item

/-- What a node asks for one each of, where names are bound as in the table. -/
def asked (t : SymbolTable) (name : String) : Node → Option (List Node) :=
  subjects? ((t.lookup? Lowering.hasName).map (·.id)) ((t.lookup? name).map (·.id))

/-- The node is a call of the joining function, and asks for nothing. -/
def asksNothing (t : SymbolTable) (name : String) : Node → Bool
  | .invoke (.identifier callee) [] => t.names[name]? == some callee
  | _ => false

variable {t t' : SymbolTable} {name : String} {item : Node} {items : List Node}

/-- What a call has to be so as not to be taken for a question. -/
theorem subjects?_eq_none {has joined : Option SymbolId} {callee : SymbolId} {args : List Node} :
    subjects? has joined (.call callee args) = none ↔
      joined ≠ some callee ∧ ∀ subject, has = some callee → args ≠ [subject, .number one] := by
  show Option.or _ _ = none ↔ _
  rw [Option.or_eq_none_iff, and_comm]
  refine and_congr ?_ ?_
  · simp
  · constructor
    · rintro hnone subject rfl rfl
      simp [show one.same one = true by decide] at hnone
    · intro hargs
      split
      · next subject quantity =>
        split
        · next hcall =>
          obtain ⟨hcallee, hquantity⟩ := Bool.and_eq_true_iff.mp hcall
          obtain rfl := Number.eq_one_of_same_one hquantity
          exact absurd rfl (hargs subject (beq_iff_eq.mp hcallee))
        · rfl
      · rfl

theorem asked_of_ne (h : ∀ callee args, item ≠ .call callee args) : asked t name item = none := by
  unfold asked subjects?
  split
  · exact absurd rfl (h _ _)
  · rfl

/-- The item asks for nothing, and never will. -/
structure Quiet (t : SymbolTable) (name : String) (item : Node) : Prop where
  unasked : asked t name item = none
  numbered : ∀ callee args, item = .call callee args → callee < t.size

theorem Quiet.engaged (h : Quiet t name item) (hs : t.Sound) (hengages : t.Engages t') :
    Quiet t' name item := by
  have hgrows := hengages.grows hs
  refine ⟨?_, fun callee args heq => Nat.lt_of_lt_of_le (h.numbered callee args heq) hgrows.symbols⟩
  by_cases hcall : ∃ callee args, item = .call callee args
  · obtain ⟨callee, args, rfl⟩ := hcall
    have hlt := h.numbered callee args rfl
    have hbound : ∀ {name : String}, (t'.lookup? name).map (·.id) = some callee →
        (t.lookup? name).map (·.id) = some callee := fun hname =>
      (SymbolTable.names_iff hs).mpr (hengages.names_of_lt hs
        ((SymbolTable.names_iff (hgrows.sound hs)).mp hname) hlt)
    obtain ⟨hjoined, hhas⟩ := subjects?_eq_none.mp h.unasked
    exact subjects?_eq_none.mpr ⟨fun hname => hjoined (hbound hname),
      fun subject hname => hhas subject (hbound hname)⟩
  · exact asked_of_ne fun callee args heq => hcall ⟨callee, args, heq⟩

/-- The question for some subjects, as a junction is left with it. -/
inductive Question (t : SymbolTable) (name : String) : List Node → List Node → Prop
  | none : Question t name [] []
  | single {has : SymbolId} {subject : Node} : t.Calls Lowering.hasName has →
      Question t name [subject] [.call has [subject, .number one]]
  | joined {callee : SymbolId} {subjects : List Node} : t.Calls name callee →
      2 ≤ subjects.length → Question t name subjects [.call callee subjects]

/-- The items have been joined: no question is among them but the last item. -/
def Joined (t : SymbolTable) (name : String) (items : List Node) : Prop :=
  ∃ others subjects tail, items = others ++ tail ∧ (∀ item ∈ others, Quiet t name item) ∧
    Question t name subjects tail

theorem Question.engaged {subjects tail : List Node} (h : Question t name subjects tail)
    (hs : t.Sound) (hengages : t.Engages t') : Question t' name subjects tail := by
  cases h with
  | none => exact .none
  | single hhas => exact .single (hengages.calls hs hhas)
  | joined hcallee htwo => exact .joined (hengages.calls hs hcallee) htwo

theorem Joined.engaged (h : Joined t name items) (hs : t.Sound) (hengages : t.Engages t') :
    Joined t' name items := by
  obtain ⟨others, subjects, tail, heq, hothers, hquestion⟩ := h
  exact ⟨others, subjects, tail, heq, fun item hitem => (hothers item hitem).engaged hs hengages,
    hquestion.engaged hs hengages⟩

variable {w w' : World}

theorem join_eq (name : String) (items : List Node) (w : World) :
    join name items w = question name (items.filter fun item => (asked w.symbols name item).isNone)
      (items.filterMap (asked w.symbols name)).flatten w :=
  bind_ok (Transforming.symbols_apply w)

/-! ## Joining again -/

theorem subjects?_single {joined : Option SymbolId} {has : SymbolId} {subject : Node} :
    subjects? (some has) joined (.call has [subject, .number one]) = some [subject] := by
  show Option.or (if (some has == some has && one.same one) = true then some [subject] else none)
    _ = _
  rw [beq_self_eq_true, show one.same one = true by decide]
  rfl

theorem subjects?_joined {has : Option SymbolId} {callee : SymbolId} {args : List Node}
    (h : ∀ subject, has = some callee → args ≠ [subject, .number one]) :
    subjects? has (some callee) (.call callee args) = some args := by
  have hnone : subjects? has none (.call callee args) = none :=
    subjects?_eq_none.mpr ⟨nofun, h⟩
  show Option.or _ (if (some callee == some callee) = true then some args else none) = some args
  rw [(Option.or_eq_none_iff.mp hnone).1, beq_self_eq_true, if_pos rfl]
  rfl

theorem declare_calls {id : SymbolId} (h : w.symbols.Calls name id) :
    Transforming.declare name .function w = (.ok id, w) := by
  unfold Transforming.declare Transforming.onWorld World.onSymbols
  dsimp only
  rw [h.declare]
  rfl

/-- What a junction is left with asks for the subjects anew, and is asked in the same way. -/
theorem Question.again {subjects : List Node} {node : Node} (hs : w.symbols.Sound)
    (h : Question w.symbols name subjects [node]) (others : List Node) :
    ∃ subjects', asked w.symbols name node = some subjects' ∧
      question name others subjects' w = (.ok (others ++ [node]), w) := by
  have hsingle : ∀ {has subject}, w.symbols.Calls Lowering.hasName has →
      asked w.symbols name (.call has [subject, .number one]) = some [subject] ∧
        question name others [subject] w =
          (.ok (others ++ [.call has [subject, .number one]]), w) := by
    intro has subject hhas
    refine ⟨?_, bind_ok (declare_calls hhas)⟩
    rw [asked, (SymbolTable.names_iff hs).mpr (hhas.names hs)]
    exact subjects?_single
  cases h with
  | single hhas => exact ⟨_, hsingle hhas⟩
  | @joined callee subjects hcallee htwo =>
    by_cases hplain : ∀ subject, (w.symbols.lookup? Lowering.hasName).map (·.id) = some callee →
        subjects ≠ [subject, .number one]
    · refine ⟨subjects, ?_, ?_⟩
      · rw [asked, (SymbolTable.names_iff hs).mpr (hcallee.names hs)]
        exact subjects?_joined hplain
      · match subjects, htwo with
        | _ :: _ :: _, _ => exact bind_ok (declare_calls hcallee)
    · -- Both functions are one, and what was joined looks like a single question.
      push Not at hplain
      obtain ⟨subject, hhas, rfl⟩ := hplain
      exact ⟨_, hsingle (hcallee.of_names hs ((SymbolTable.names_iff hs).mp hhas))⟩

/-- Items that have been joined are joined. -/
theorem Joined.join (hs : w.symbols.Sound) (h : Joined w.symbols name items) :
    join name items w = (.ok items, w) := by
  obtain ⟨others, subjects, tail, rfl, hothers, hquestion⟩ := h
  have hunasked := fun item hitem => (hothers item hitem).unasked
  have hkept : (others.filter fun item => (asked w.symbols name item).isNone) = others :=
    List.filter_eq_self.mpr fun item hitem => by rw [hunasked item hitem]; rfl
  have hnone : others.filterMap (asked w.symbols name) = [] :=
    List.filterMap_eq_nil_iff.mpr hunasked
  rw [join_eq, List.filter_append, List.filterMap_append, hkept, hnone, List.nil_append]
  have hsole : ∀ {node}, Question w.symbols name subjects [node] →
      question name (others ++ [node].filter fun item => (asked w.symbols name item).isNone)
        ([node].filterMap (asked w.symbols name)).flatten w = (.ok (others ++ [node]), w) := by
    intro node hnode
    obtain ⟨subjects', hasked, hagain⟩ := hnode.again hs others
    rw [List.filterMap_cons_some hasked, List.filter_cons_of_neg (by rw [hasked]; nofun)]
    simpa using hagain
  cases hquestion with
  | none =>
    rw [List.filter_nil, List.append_nil]
    exact pure_apply _ _
  | single hhas => exact hsole (.single hhas)
  | joined hcallee htwo => exact hsole (.joined hcallee htwo)

/-! ## Joining at first -/

theorem declare_engages {id : SymbolId} (hs : w.symbols.Sound)
    (hok : Transforming.declare name .function w = (.ok id, w')) :
    w.symbols.Engages w'.symbols ∧ w'.symbols.Calls name id := by
  obtain ⟨symbols, hdeclare, rfl⟩ := Transforming.declare_eq_ok hok
  have hengages : w.symbols.Engages (w.symbols.declare name .function).2 :=
    .declare name .function .nothing rfl
  rw [hdeclare] at hengages
  exact ⟨hengages, SymbolTable.calls_of_declare hs hdeclare⟩

theorem question_ok {others subjects items' : List Node} (hs : w.symbols.Sound)
    (hok : question name others subjects w = (.ok items', w')) :
    w.symbols.Engages w'.symbols ∧
      ∃ tail, items' = others ++ tail ∧ Question w'.symbols name subjects tail := by
  match subjects with
  | [] =>
    obtain ⟨rfl, rfl⟩ := pure_eq_ok hok
    exact ⟨.nothing, [], (List.append_nil _).symm, .none⟩
  | [subject] =>
    obtain ⟨has, w₁, hdeclare, hpure⟩ := bind_eq_ok hok
    obtain ⟨hengages, hcalls⟩ := declare_engages hs hdeclare
    obtain ⟨rfl, rfl⟩ := pure_eq_ok hpure
    exact ⟨hengages, _, rfl, .single hcalls⟩
  | first :: second :: rest =>
    obtain ⟨callee, w₁, hdeclare, hpure⟩ := bind_eq_ok hok
    obtain ⟨hengages, hcalls⟩ := declare_engages hs hdeclare
    obtain ⟨rfl, rfl⟩ := pure_eq_ok hpure
    exact ⟨hengages, _, rfl, .joined hcalls (Nat.le_add_left 2 _)⟩

/-- What asks for no subject is a call of the joining function that asks for nothing. -/
theorem asksNothing_of_asked (hs : t.Sound) (h : asked t name item = some []) :
    asksNothing t name item = true := by
  have hasked : Asked t name [] item := asked_of_subjects?
    (fun _ => (SymbolTable.names_iff hs).mp) (fun _ => (SymbolTable.names_iff hs).mp) h
  cases hasked with
  | joined hname => exact beq_iff_eq.mpr hname

/-- All items but those that ask for nothing are left or ask for a subject. -/
theorem countP_le (hs : t.Sound) (items : List Node) :
    items.countP (fun item => !asksNothing t name item) ≤
      (items.filter fun item => (asked t name item).isNone).length +
        (items.filterMap (asked t name)).flatten.length := by
  induction items with
  | nil => exact Nat.le_refl 0
  | cons item rest ih =>
    rw [List.countP_cons]
    rcases hasked : asked t name item with _ | _ | ⟨subject, subjects⟩
    · rw [List.filterMap_cons_none hasked, List.filter_cons_of_pos (by rw [hasked]; rfl),
        List.length_cons]
      split <;> omega
    · rw [List.filterMap_cons_some hasked, List.filter_cons_of_neg (by rw [hasked]; nofun),
        asksNothing_of_asked hs hasked]
      simpa using ih
    · rw [List.filterMap_cons_some hasked, List.filter_cons_of_neg (by rw [hasked]; nofun),
        List.flatten_cons, List.length_append, List.length_cons]
      split <;> omega

end Item

/-! ## Trees -/

/-- The name of the function that joins the questions in a junction. -/
def Junction.joining : Junction → String
  | .every => Item.everyName
  | .anyOf => Item.anyName

namespace Node

/-- The node can be left: its symbol is in the table, and as a junction it is reduced and
joined. -/
structure Rests (t : SymbolTable) (part : Node) : Prop where
  numbered : part.Numbered t.size
  joined : ∀ (j : Junction) items, part = j.node items →
    j.Reduced items ∧ Item.Joined t j.joining items

/-- As a junction, the node has two items at least that are no calls without arguments of its
joining function. -/
def Busy (t : SymbolTable) (part : Node) : Prop :=
  ∀ (j : Junction) items, part = j.node items →
    2 ≤ items.countP fun item => !Item.asksNothing t j.joining item

/-- The node is one of the table, and as a junction it is reduced and busy. -/
structure Ready (t : SymbolTable) (part : Node) : Prop where
  numbered : part.Numbered t.size
  reduced : part.Reduced
  busy : part.Busy t

variable {t t' : SymbolTable} {node : Node}

theorem rests_of_ne {part : Node} (hnumbered : part.Numbered t.size)
    (hne : ∀ (j : Junction) items, part ≠ j.node items) : part.Rests t :=
  ⟨hnumbered, fun j items heq => absurd heq (hne j items)⟩

theorem Rests.engaged {part : Node} (h : part.Rests t) (hs : t.Sound) (hengages : t.Engages t') :
    part.Rests t' where
  numbered := h.numbered.mono (hengages.grows hs).symbols
  joined j items heq := by
    obtain ⟨hreduced, hjoined⟩ := h.joined j items heq
    exact ⟨hreduced, hjoined.engaged hs hengages⟩

/-- The symbol that is called in a node of the table is one of the table. -/
theorem Each.callee_lt {P : Node → Prop} (hP : ∀ {part}, P part → part.Numbered t.size)
    {callee : SymbolId} {args : List Node} (h : (Node.call callee args).Each P) :
    callee < t.size := by
  cases h with
  | invoke _ htarget _ => exact hP htarget.self callee rfl

end Node

namespace Item

variable {t : SymbolTable} {w w' : World} {node node' : Node} {items items' : List Node}

theorem transform_junction (j : Junction) (items : List Node) :
    rules.transform (j.node items) = (do
      let items ← rules.transformAll [] items
      let items ← join j.joining items
      pure (j.reduce items)) := by
  cases j
  · exact Rules.transform.eq_2 ..
  · exact Rules.transform.eq_1 ..

/-- Where all junctions can be left, they are. -/
theorem transform_rests (hs : w.symbols.Sound) (h : node.Each (Node.Rests w.symbols)) :
    rules.transform node w = (.ok node, w) := by
  have hjunction : ∀ (j : Junction) {items}, (j.node items).Rests w.symbols →
      (∀ item ∈ items, rules.transform item w = (.ok item, w)) →
      rules.transform (j.node items) w = (.ok (j.node items), w) := by
    intro j items hp ih
    obtain ⟨hreduced, hjoined⟩ := hp.joined j items rfl
    rw [transform_junction, bind_ok (Rules.transformAll_same ih []), List.reverse_nil,
      List.nil_append, bind_ok (hjoined.join hs), hreduced.reduce_eq]
    rfl
  induction h with
  | anyOf hp _ ih => exact hjunction .anyOf hp ih
  | every hp _ ih => exact hjunction .every hp ih
  | compare _ _ _ ihl ihr =>
    rw [Rules.transform, bind_ok ihl, bind_ok ihr]
    rfl
  | invert _ _ ih =>
    rw [Rules.transform, bind_ok ih]
    rfl
  | @invoke target args _ _ _ iht iha =>
    have hkept : rules.intercept target args w = (.ok none, w) := rfl
    rw [Rules.transform, bind_ok hkept]
    dsimp only
    rw [bind_ok iht, bind_ok (Rules.transformAll_same iha [])]
    rfl
  | boolean | identifier | number | string =>
    rw [Rules.transform]
    rfl

/-- What a node is made into is of its own form, or a question for two subjects at least. -/
structure Shape (node node' : Node) : Prop where
  call : ∀ callee, node' = .call callee [] → node = .call callee []
  junction : ∀ (j : Junction) items', node' = j.node items' → ∃ items, node = j.node items
  operand : node'.isOperand = true → node = node'

theorem Shape.refl (node : Node) : Shape node node :=
  ⟨fun _ h => h, fun _ items h => ⟨items, h⟩, fun _ => rfl⟩

/-- A node is made into one that can be left. -/
structure Settles (w w' : World) (node node' : Node) : Prop where
  engages : w.symbols.Engages w'.symbols
  rests : node'.Each (Node.Rests w'.symbols)
  shape : Shape node node'

/-- The same of nodes. -/
structure SettlesAll (w w' : World) (nodes nodes' : List Node) : Prop where
  engages : w.symbols.Engages w'.symbols
  rests : ∀ node ∈ nodes', node.Each (Node.Rests w'.symbols)
  shapes : List.Forall₂ Shape nodes nodes'

theorem transformAll_settles (hs : t.Sound) {nodes done nodes' : List Node}
    (h : ∀ node ∈ nodes, ∀ {w w' node'}, t.Engages w.symbols →
      rules.transform node w = (.ok node', w') → Settles w w' node node')
    (hengages : t.Engages w.symbols)
    (hok : rules.transformAll done nodes w = (.ok nodes', w')) :
    ∃ rest, nodes' = done.reverse ++ rest ∧ SettlesAll w w' nodes rest := by
  induction nodes generalizing done w with
  | nil =>
    rw [Rules.transformAll] at hok
    obtain ⟨rfl, rfl⟩ := pure_eq_ok hok
    exact ⟨[], (List.append_nil _).symm, .nothing, List.forall_mem_nil _, .nil⟩
  | cons node rest ih =>
    obtain ⟨hnode, hrest⟩ := List.forall_mem_cons.mp h
    rw [Rules.transformAll] at hok
    obtain ⟨node', w₁, hfirst, hok⟩ := bind_eq_ok hok
    have hsettles := hnode hengages hfirst
    have hengages₁ := hengages.trans hsettles.engages
    obtain ⟨rest', rfl, hall⟩ := ih hrest hengages₁ hok
    refine ⟨node' :: rest', by rw [List.reverse_cons, List.append_assoc]; rfl,
      hsettles.engages.trans hall.engages, List.forall_mem_cons.mpr ⟨?_, hall.rests⟩,
      .cons hsettles.shape hall.shapes⟩
    exact hsettles.rests.imp fun hpart =>
      hpart.engaged ((hengages₁.grows hs).sound hs) hall.engages

/-- Of the items that ask for nothing, none has come up. -/
theorem countP_le_of_shapes (hs : t.Sound) (j : Junction)
    (hitems : ∀ item ∈ items, item.Each (Node.Ready t)) (hengages : t.Engages w.symbols)
    (h : List.Forall₂ Shape items items') :
    items.countP (fun item => !asksNothing t j.joining item) ≤
      items'.countP (fun item => !asksNothing w.symbols j.joining item) := by
  induction h with
  | nil => exact Nat.le_refl 0
  | @cons item item' rest rest' hshape _ ih =>
    obtain ⟨hitem, hrest⟩ := List.forall_mem_cons.mp hitems
    rw [List.countP_cons, List.countP_cons]
    refine Nat.add_le_add (ih hrest) ?_
    have hnothing : asksNothing w.symbols j.joining item' = true →
        asksNothing t j.joining item = true := by
      unfold asksNothing
      intro hasks
      split at hasks
      · next callee =>
        obtain rfl := hshape.call callee rfl
        have hlt := hitem.callee_lt (·.numbered)
        exact beq_iff_eq.mpr (hengages.names_of_lt hs (beq_iff_eq.mp hasks) hlt)
      · exact absurd hasks nofun
    rcases hasks : asksNothing w.symbols j.joining item' with _ | _
    · simp only [Bool.not_false, if_true]
      split <;> omega
    · rw [hnothing hasks]

/-- What is no call of a name without arguments is nothing that such a call is made into. -/
theorem shape_call {callee : SymbolId} {args : List Node} (h : args ≠ []) :
    Shape node (.call callee args) where
  call _ heq := by cases heq; exact absurd rfl h
  junction j _ heq := by cases j <;> exact absurd heq nofun
  operand := nofun

theorem Question.rests {name : String} {subjects tail : List Node} (hs : t.Sound)
    (h : Question t name subjects tail)
    (hsubjects : ∀ subject ∈ subjects, subject.Each (Node.Rests t)) :
    ∀ item ∈ tail, item.Each (Node.Rests t) := by
  have hcall : ∀ {name callee} {args : List Node}, t.Calls name callee →
      (∀ arg ∈ args, arg.Each (Node.Rests t)) → (Node.call callee args).Each (Node.Rests t) := by
    intro name callee args hcallee hargs
    have hnumbered : (Node.identifier callee).Numbered t.size := by
      rintro id ⟨⟩
      exact hs.bound (hcallee.names hs)
    exact .invoke (Node.rests_of_ne (by rintro _ ⟨⟩) (Node.ne_junction rfl))
      (.identifier (Node.rests_of_ne hnumbered (Node.ne_junction rfl))) hargs
  cases h with
  | none => exact List.forall_mem_nil _
  | single hhas =>
    refine List.forall_mem_singleton.mpr (hcall hhas (List.forall_mem_cons.mpr
      ⟨hsubjects _ List.mem_cons_self, List.forall_mem_singleton.mpr ?_⟩))
    exact .number (Node.rests_of_ne (by rintro _ ⟨⟩) (Node.ne_junction rfl))
  | joined hcallee _ => exact List.forall_mem_singleton.mpr (hcall hcallee hsubjects)

/-- The question is neither a junction nor a boolean. -/
theorem Question.ne {name : String} {subjects tail : List Node} (h : Question t name subjects tail)
    (j : Junction) :
    ∀ item ∈ tail, (∀ inner, item ≠ j.node inner) ∧ ∀ value, item ≠ .boolean value := by
  have hcall : ∀ callee args, (∀ inner, Node.call callee args ≠ j.node inner) ∧
      ∀ value, Node.call callee args ≠ .boolean value :=
    fun _ _ => ⟨Node.ne_junction rfl j, by rintro _ ⟨⟩⟩
  cases h with
  | none => exact List.forall_mem_nil _
  | single _ => exact List.forall_mem_singleton.mpr (hcall _ _)
  | joined _ _ => exact List.forall_mem_singleton.mpr (hcall _ _)

/-- What is neither a junction of the kind nor a boolean is not made into one. -/
theorem Shape.ne {j : Junction} (h : List.Forall₂ Shape items items')
    (hne : ∀ item ∈ items, (∀ inner, item ≠ j.node inner) ∧ ∀ value, item ≠ .boolean value) :
    ∀ item ∈ items', (∀ inner, item ≠ j.node inner) ∧ ∀ value, item ≠ .boolean value := by
  induction h with
  | nil => exact List.forall_mem_nil _
  | cons hshape _ ih =>
    obtain ⟨⟨hflat, hundecided⟩, hrest⟩ := List.forall_mem_cons.mp hne
    refine List.forall_mem_cons.mpr ⟨⟨fun inner heq => ?_, fun value heq => ?_⟩, ih hrest⟩
    · obtain ⟨inner', hinner⟩ := hshape.junction j inner heq
      exact hflat inner' hinner
    · exact hundecided value ((hshape.operand (by rw [heq]; rfl)).trans heq)

/-- Joining the items of a junction that has been transformed leaves a junction that can be left,
or one question for two subjects at least. -/
theorem junction_settles (hs : t.Sound) (j : Junction) (hready : (j.node items).Ready t)
    (hitems : ∀ item ∈ items, item.Each (Node.Ready t)) (hengages : t.Engages w.symbols)
    (hshapes : List.Forall₂ Shape items items')
    (hrests : ∀ item ∈ items', item.Each (Node.Rests w.symbols)) {joined : List Node}
    (hok : join j.joining items' w = (.ok joined, w')) :
    Settles w w' (j.node items) (j.reduce joined) := by
  have hsound := (hengages.grows hs).sound hs
  rw [join_eq] at hok
  obtain ⟨hlater, tail, rfl, hquestion⟩ := question_ok hsound hok
  -- The items that are left, with the question behind them.
  have hothers : ∀ item ∈ items'.filter fun item => (asked w.symbols j.joining item).isNone,
      item ∈ items' ∧ Quiet w'.symbols j.joining item := by
    intro item hitem
    obtain ⟨hmem, hnone⟩ := List.mem_filter.mp hitem
    have hquiet : Quiet w.symbols j.joining item :=
      ⟨Option.isNone_iff_eq_none.mp hnone, fun callee args heq => by
        subst heq
        exact (hrests _ hmem).callee_lt (·.numbered)⟩
    exact ⟨hmem, hquiet.engaged hsound hlater⟩
  generalize hothers_eq : (items'.filter fun item => (asked w.symbols j.joining item).isNone) =
    others
    at hothers ⊢
  have hreduced := hready.reduced j items rfl
  have hne : ∀ item ∈ others ++ tail, (∀ inner, item ≠ j.node inner) ∧ ∀ value,
      item ≠ .boolean value :=
    List.forall_mem_append.mpr ⟨fun item hitem => Shape.ne hshapes
      (fun item hitem => ⟨hreduced.flat item hitem, hreduced.undecided item hitem⟩) item
        (hothers item hitem).1, hquestion.ne j⟩
  have hleft : ∀ item ∈ others ++ tail, item.Each (Node.Rests w'.symbols) := by
    have hkept : ∀ item ∈ items', item.Each (Node.Rests w'.symbols) := fun item hitem =>
      (hrests item hitem).imp fun hpart => hpart.engaged hsound hlater
    exact List.forall_mem_append.mpr ⟨fun item hitem => hkept item (hothers item hitem).1,
      hquestion.rests ((hlater.grows hsound).sound hsound) (flatten_subjects?_each hkept)⟩
  by_cases htwo : 2 ≤ (others ++ tail).length
  · have hjunction : j.Reduced (others ++ tail) :=
      ⟨htwo, fun item hitem => (hne item hitem).1, fun item hitem => (hne item hitem).2⟩
    rw [hjunction.reduce_eq]
    refine ⟨hlater, .junction ⟨?_, ?_⟩ hleft, ?_⟩
    · cases j <;> nofun
    · intro j' items'' heq
      obtain ⟨rfl, rfl⟩ := Junction.node_eq_node heq
      exact ⟨hjunction, others, _, tail, rfl, fun item hitem => (hothers item hitem).2, hquestion⟩
    · refine ⟨?_, ?_, ?_⟩
      · cases j <;> nofun
      · intro j' items'' heq
        obtain ⟨rfl, -⟩ := Junction.node_eq_node heq
        exact ⟨items, rfl⟩
      · cases j <;> nofun
  · -- Only a question is left, and it is one for two subjects.
    have hbusy :=
      (hready.busy j items rfl).trans ((countP_le_of_shapes hs j hitems hengages hshapes).trans
      (countP_le hsound items'))
    rw [hothers_eq] at hbusy
    rw [List.length_append] at htwo
    generalize (items'.filterMap (asked w.symbols j.joining)).flatten = subjects at hbusy hquestion
    cases hquestion with
    | none =>
      rw [List.length_nil] at hbusy
      omega
    | single _ =>
      rw [List.length_singleton] at hbusy htwo
      omega
    | @joined callee subjects hcallee hmany =>
      obtain rfl : others = [] :=
        List.length_eq_zero_iff.mp (by rw [List.length_singleton] at htwo; omega)
      have hcall := hne (.call callee subjects) List.mem_cons_self
      rw [List.nil_append, Junction.reduce_singleton hcall.1 hcall.2]
      refine ⟨hlater, hleft _ List.mem_cons_self, shape_call ?_⟩
      rintro rfl
      exact absurd hmany (by simp)

/-- Joining the questions in a tree leaves one that can be left. -/
theorem transform_settles (hs : t.Sound) (hnode : node.Each (Node.Ready t))
    (hengages : t.Engages w.symbols) (hok : rules.transform node w = (.ok node', w')) :
    Settles w w' node node' := by
  have hjunction : ∀ (j : Junction) {items : List Node} {node' w w'}, (j.node items).Ready t →
      (∀ item ∈ items, item.Each (Node.Ready t)) →
      (∀ item ∈ items, ∀ {w w' node'}, t.Engages w.symbols →
        rules.transform item w = (.ok node', w') → Settles w w' item node') →
      t.Engages w.symbols → rules.transform (j.node items) w = (.ok node', w') →
      Settles w w' (j.node items) node' := by
    intro j items node' w w' hp hitems ih hengages hok
    rw [transform_junction] at hok
    obtain ⟨items', w₁, hall, hok⟩ := bind_eq_ok hok
    obtain ⟨joined, w₂, hjoin, hpure⟩ := bind_eq_ok hok
    obtain ⟨rfl, rfl⟩ := pure_eq_ok hpure
    obtain ⟨_, rfl, hsettles⟩ := transformAll_settles hs ih hengages hall
    have hlast := junction_settles hs j hp hitems (hengages.trans hsettles.engages) hsettles.shapes
      hsettles.rests hjoin
    exact ⟨hsettles.engages.trans hlast.engages, hlast.rests, hlast.shape⟩
  have hsound : ∀ {w : World}, t.Engages w.symbols → w.symbols.Sound := fun h =>
    (h.grows hs).sound hs
  induction hnode generalizing w w' node' with
  | anyOf hp hitems ih => exact hjunction .anyOf hp hitems ih hengages hok
  | every hp hitems ih => exact hjunction .every hp hitems ih hengages hok
  | compare hp _ _ ihl ihr =>
    rw [Rules.transform] at hok
    obtain ⟨lhs', w₁, hlhs, hok⟩ := bind_eq_ok hok
    obtain ⟨rhs', w₂, hrhs, hpure⟩ := bind_eq_ok hok
    obtain ⟨rfl, rfl⟩ := pure_eq_ok hpure
    have hl := ihl hengages hlhs
    have hengages₁ := hengages.trans hl.engages
    have hr := ihr hengages₁ hrhs
    have hlhs' := hl.rests.imp fun hpart => hpart.engaged (hsound hengages₁) hr.engages
    exact ⟨hl.engages.trans hr.engages,
      .compare (Node.rests_of_ne nofun (Node.ne_junction rfl)) hlhs' hr.rests,
      ⟨nofun, by rintro ⟨⟩ <;> nofun, nofun⟩⟩
  | invert hp _ ih =>
    rw [Rules.transform] at hok
    obtain ⟨inner', w₁, hinner, hpure⟩ := bind_eq_ok hok
    obtain ⟨rfl, rfl⟩ := pure_eq_ok hpure
    have h := ih hengages hinner
    exact ⟨h.engages, .invert (Node.rests_of_ne nofun (Node.ne_junction rfl)) h.rests,
      ⟨nofun, by rintro ⟨⟩ <;> nofun, nofun⟩⟩
  | @invoke target args hp _ _ iht iha =>
    have hkept : rules.intercept target args w = (.ok none, w) := rfl
    rw [Rules.transform, bind_ok hkept] at hok
    dsimp only at hok
    obtain ⟨target', w₁, htarget, hok⟩ := bind_eq_ok hok
    obtain ⟨args', w₂, hargs, hpure⟩ := bind_eq_ok hok
    obtain ⟨rfl, rfl⟩ := pure_eq_ok hpure
    have ht := iht hengages htarget
    have hengages₁ := hengages.trans ht.engages
    obtain ⟨_, rfl, ha⟩ := transformAll_settles hs iha hengages₁ hargs
    have htarget' := ht.rests.imp fun hpart => hpart.engaged (hsound hengages₁) ha.engages
    refine ⟨ht.engages.trans ha.engages,
      .invoke (Node.rests_of_ne nofun (Node.ne_junction rfl)) htarget' ha.rests,
      ⟨fun callee heq => ?_, by rintro ⟨⟩ <;> nofun, nofun⟩⟩
    obtain ⟨rfl, hnil⟩ := Node.invoke.inj heq
    obtain rfl := ht.shape.operand rfl
    have hshapes := ha.shapes
    rw [show _ = [] from hnil] at hshapes
    cases hshapes
    rfl
  | boolean hp =>
    obtain ⟨rfl, rfl⟩ := pure_eq_ok (by rwa [Rules.transform] at hok)
    exact ⟨.nothing, .boolean (Node.rests_of_ne nofun (Node.ne_junction rfl)), .refl _⟩
  | identifier hp =>
    obtain ⟨rfl, rfl⟩ := pure_eq_ok (by rwa [Rules.transform] at hok)
    have hnumbered := hp.numbered.mono (hengages.grows hs).symbols
    exact ⟨.nothing, .identifier (Node.rests_of_ne hnumbered (Node.ne_junction rfl)), .refl _⟩
  | number hp =>
    obtain ⟨rfl, rfl⟩ := pure_eq_ok (by rwa [Rules.transform] at hok)
    exact ⟨.nothing, .number (Node.rests_of_ne nofun (Node.ne_junction rfl)), .refl _⟩
  | string hp =>
    obtain ⟨rfl, rfl⟩ := pure_eq_ok (by rwa [Rules.transform] at hok)
    exact ⟨.nothing, .string (Node.rests_of_ne nofun (Node.ne_junction rfl)), .refl _⟩

/-! ## Rules -/

/-- What a rule has been lowered to is joined once and for all, if in each of its junctions at
least two items are no calls without arguments of the joining function. -/
theorem collapse_settles {scripts : Scripts} {tree : Rule.Tree} {t : SymbolTable} (ht : t.Sound)
    (hlower : tree.lower t = (.ok node, w.symbols)) (hbusy : node.Each (Node.Busy w.symbols))
    (hok : Pass.collapseHas.apply scripts node w = (.ok node', w')) :
    Pass.collapseHas.apply scripts node' w' = (.ok node', w') := by
  have hleads : (Lowering.scope 0).Leads t (fun t node => node.Below t.size) tree.lower :=
    Rule.Tree.lower_leads tree
  obtain ⟨⟨hs, -⟩, -, hbelow⟩ := (hleads t ⟨ht, Nat.zero_le _⟩ (Nat.le_refl _)).2 _ _ hlower
  have hready : node.Each (Node.Ready w.symbols) :=
    ((hbelow.and (tree.lower_normal _ _ _ hlower)).and hbusy).imp fun h => ⟨h.1.1, h.1.2, h.2⟩
  have hsettles := transform_settles hs hready .nothing hok
  exact transform_rests ((hsettles.engages.grows hs).sound hs) hsettles.rests

/-! ### Rules in a table of the three functions -/

/-- The functions that ask. -/
def questions : SymbolTable :=
  (SymbolTable.empty.declareMany [Lowering.hasName, everyName, anyName] .builtInFunction).2

/-- A world in which a rule has been lowered. -/
def askedIn (tree : Rule.Tree) : World := ⟨(tree.lower questions).2, .empty, .empty⟩

/-- `has(a, 1) and b and has(c, 1)`. -/
def threeAsked : Rule.Tree :=
  .connect .and (.connect .and (.call (.identifier "has") [.identifier "a", .number one])
    (.identifier "b")) (.call (.identifier "has") [.identifier "c", .number one])

/-- A conjunction of a name and two questions is joined, and stays so. -/
theorem collapse_settles_three :
    (Pass.collapseHas.apply ⟨[]⟩ (.every [.has 0 3 one, .identifier 4, .has 0 5 one])
      (askedIn threeAsked)).1 =
        .ok (.every [.identifier 4, .call 1 [.identifier 3, .identifier 5]]) ∧
    Pass.collapseHas.apply ⟨[]⟩ (.every [.identifier 4, .call 1 [.identifier 3, .identifier 5]])
      (Pass.collapseHas.apply ⟨[]⟩ (.every [.has 0 3 one, .identifier 4, .has 0 5 one])
        (askedIn threeAsked)).2 =
      (.ok (.every [.identifier 4, .call 1 [.identifier 3, .identifier 5]]),
        (Pass.collapseHas.apply ⟨[]⟩ (.every [.has 0 3 one, .identifier 4, .has 0 5 one])
          (askedIn threeAsked)).2) := by
  have hlowered : (threeAsked.lower questions).1 =
      .ok (.every [.has 0 3 one, .identifier 4, .has 0 5 one]) := by cbv
  have hlower : threeAsked.lower questions =
      (.ok (.every [.has 0 3 one, .identifier 4, .has 0 5 one]), (askedIn threeAsked).symbols) :=
    Prod.ext hlowered rfl
  have hcollapse : (Pass.collapseHas.apply ⟨[]⟩ (.every [.has 0 3 one, .identifier 4, .has 0 5 one])
      (askedIn threeAsked)).1 =
        .ok (.every [.identifier 4, .call 1 [.identifier 3, .identifier 5]]) := by cbv
  refine ⟨hcollapse, collapse_settles ?_ hlower ?_ (Prod.ext hcollapse rfl)⟩
  · exact (SymbolTable.declareMany_grows SymbolTable.empty_sound _ _).sound SymbolTable.empty_sound
  · have hbusy : ∀ {part : Node}, part.isJunction = false →
        part.Busy (askedIn threeAsked).symbols :=
      fun hpart j items heq => absurd heq (Node.ne_junction hpart j items)
    have hcall : ∀ id, (Node.has 0 id one).Each (Node.Busy (askedIn threeAsked).symbols) :=
      fun id =>
      .invoke (hbusy rfl) (.identifier (hbusy rfl))
        (List.forall_mem_cons.mpr ⟨.identifier (hbusy rfl),
          List.forall_mem_singleton.mpr (.number (hbusy rfl))⟩)
    refine .every ?_ (List.forall_mem_cons.mpr ⟨hcall 3, List.forall_mem_cons.mpr
      ⟨.identifier (hbusy rfl), List.forall_mem_singleton.mpr (hcall 5)⟩⟩)
    intro j items heq
    cases j <;> cases heq
    decide

/-- `((c or has(b, 1)) and has_every()) or has(a, 1)`. -/
def idleAsked : Rule.Tree :=
  .connect .or (.connect .and (.connect .or (.identifier "c")
      (.call (.identifier "has") [.identifier "b", .number one]))
    (.call (.identifier "has_every") [])) (.call (.identifier "has") [.identifier "a", .number one])

/-- A conjunction with a question that asks for nothing comes down to its other item. That is a
disjunction, whose question is joined with that of the outer one only when this is done again. -/
theorem idle_question_joined_later :
    Rule.parse "((c or has(b, 1)) and has_every()) or has(a, 1)" = .ok idleAsked ∧
    (idleAsked.lower questions).1 = .ok (.anyOf
      [.every [.anyOf [.identifier 3, .has 0 4 one], .call 1 []], .has 0 5 one]) ∧
    (Pass.collapseHas.apply ⟨[]⟩ (.anyOf
      [.every [.anyOf [.identifier 3, .has 0 4 one], .call 1 []], .has 0 5 one])
        (askedIn idleAsked)).1 = .ok (.anyOf [.identifier 3, .has 0 4 one, .has 0 5 one]) ∧
    (Pass.collapseHas.apply ⟨[]⟩ (.anyOf [.identifier 3, .has 0 4 one, .has 0 5 one])
      (Pass.collapseHas.apply ⟨[]⟩ (.anyOf
        [.every [.anyOf [.identifier 3, .has 0 4 one], .call 1 []], .has 0 5 one])
          (askedIn idleAsked)).2).1 =
      .ok (.anyOf [.identifier 3, .call 2 [.identifier 4, .identifier 5]]) := by
  refine ⟨by cbv, by cbv, by cbv, by cbv⟩

end Item

end Passage

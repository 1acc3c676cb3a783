import Passage.Proofs.Atomicity
import Passage.Proofs.Joining
import Passage.Proofs.Verdicts

/-!
# Joined questions ask the same

In every junction, the questions for one each of some items are taken out, wherever they
stand, and asked as one behind the others. Whether a rule is met does not change with that,
whatever its other parts say, as long as the names of the three functions are read as what
they ask: `has` for one of an item, `has_every` for all of several items, `has_anyof` for one
of them (`Item.Reads`). The table grows on the way, since a function is declared where it is
used; a reading of the last table is one of all before it.

`Item.Asked` are the ways in which subjects are asked for. `Item.join_cases` says which
questions a junction is left with, and `Item.collapse_verdict` draws the conclusion for a tree.
-/

namespace Passage

/-- Only one is equal to one. -/
theorem Number.eq_one_of_same_one {x : Number} (h : x.same Item.one = true) : x = Item.one := by
  have hone : Item.one.rank = (1023 * hiddenBit : Nat) := by decide
  have hbits : Item.one.bits.toNat = 1023 * hiddenBit := by decide
  obtain ⟨-, hrank⟩ := Bool.and_eq_true_iff.mp h
  rw [beq_iff_eq, hone] at hrank
  have hlt := x.bits.toNat_lt
  unfold rank isNegative magnitude hiddenBit at hrank
  unfold hiddenBit at hbits
  have hsame : x.bits.toNat = Item.one.bits.toNat := by
    simp only [Nat.shiftRight_eq_div_pow, beq_iff_eq] at hrank
    split at hrank <;> omega
  cases x
  exact congrArg Number.mk (UInt64.toNat_inj.mp hsame)

/-! ## Rules that ask -/

namespace Node

/-- A name, a number or a text. -/
def isPlain : Node → Bool
  | .identifier _ | .number _ | .string _ => true
  | _ => false

/-- Calls are calls of names, and what they are given is plain, as is what is compared. -/
inductive Shallow : Node → Prop
  | anyOf {items : List Node} : (∀ item ∈ items, Shallow item) → Shallow (.anyOf items)
  | every {items : List Node} : (∀ item ∈ items, Shallow item) → Shallow (.every items)
  | boolean (value : Bool) : Shallow (.boolean value)
  | compare (op : Comparison) {lhs rhs : Node} : lhs.isPlain = true → rhs.isPlain = true →
      Shallow (.compare op lhs rhs)
  | identifier (id : SymbolId) : Shallow (.identifier id)
  | invert {inner : Node} : Shallow inner → Shallow (.invert inner)
  | call (callee : SymbolId) {args : List Node} : (∀ arg ∈ args, arg.isPlain = true) →
      Shallow (.invoke (.identifier callee) args)
  | number (value : Number) : Shallow (.number value)
  | string (value : String) : Shallow (.string value)

end Node

namespace Item

/-- The functions that go by the names of questions are read as these questions, where `held`
says of which items one is held. -/
structure Reads (t : SymbolTable) (held facts : Node → Bool) : Prop where
  has : ∀ {id subject}, t.names[Lowering.hasName]? = some id →
    facts (.call id [subject, .number one]) = held subject
  every : ∀ {id subjects}, t.names[everyName]? = some id →
    facts (.call id subjects) = subjects.all held
  any : ∀ {id subjects}, t.names[anyName]? = some id →
    facts (.call id subjects) = subjects.any held

/-- The ways in which one each of some subjects is asked for, where a joined question goes by
`name`. -/
inductive Asked (t : SymbolTable) (name : String) : List Node → Node → Prop
  | single {has : SymbolId} {subject : Node} : t.names[Lowering.hasName]? = some has →
      Asked t name [subject] (.call has [subject, .number one])
  | joined {callee : SymbolId} {subjects : List Node} : t.names[name]? = some callee →
      Asked t name subjects (.call callee subjects)

namespace Asked

variable {t t' : SymbolTable} {name : String} {subjects : List Node} {node : Node}
  {held facts : Node → Bool}

theorem grown (h : Asked t name subjects node) (hg : t.Grows t') : Asked t' name subjects node := by
  cases h with
  | single hhas => exact .single (hg.names hhas)
  | joined hname => exact .joined (hg.names hname)

theorem all (h : Asked t everyName subjects node) (hr : Reads t held facts) :
    node.verdict facts = subjects.all held := by
  cases h with
  | single hhas =>
    rw [List.all_cons, List.all_nil, Bool.and_true]
    exact hr.has hhas
  | joined hname => exact hr.every hname

theorem any (h : Asked t anyName subjects node) (hr : Reads t held facts) :
    node.verdict facts = subjects.any held := by
  cases h with
  | single hhas =>
    rw [List.any_cons, List.any_nil, Bool.or_false]
    exact hr.has hhas
  | joined hname => exact hr.any hname

end Asked

/-- What a node is taken to ask for, it asks for. -/
theorem asked_of_subjects? {t : SymbolTable} {name : String} {has joined : Option SymbolId}
    (hhas : ∀ id, has = some id → t.names[Lowering.hasName]? = some id)
    (hjoined : ∀ id, joined = some id → t.names[name]? = some id) {node : Node}
    {subjects : List Node} (h : subjects? has joined node = some subjects) :
    Asked t name subjects node := by
  unfold subjects? at h
  split at h
  · next callee args =>
    obtain hsingle | ⟨-, hmany⟩ := Option.or_eq_some_iff.mp h
    · split at hsingle
      · next subject quantity =>
        split at hsingle
        · next hcall =>
          obtain ⟨hcallee, hquantity⟩ := Bool.and_eq_true_iff.mp hcall
          obtain rfl := Number.eq_one_of_same_one hquantity
          obtain rfl := Option.some.inj hsingle
          exact .single (hhas callee (beq_iff_eq.mp hcallee))
        · exact absurd hsingle nofun
      · exact absurd hsingle nofun
    · split at hmany
      · next hcall =>
        obtain rfl := Option.some.inj hmany
        exact .joined (hjoined callee (beq_iff_eq.mp hcall))
      · exact absurd hmany nofun
  · exact absurd h nofun

variable {w w' : World} {items items' : List Node} {name : String} {held facts : Node → Bool}

/-- The question for some subjects is put behind the other items, unless there are none. -/
theorem question_cases {others subjects : List Node} (hw : w.Sound)
    (hok : question name others subjects w = (.ok items', w')) :
    subjects = [] ∧ items' = others ∨
      ∃ node, items' = others ++ [node] ∧ Asked w'.symbols name subjects node := by
  match subjects with
  | [] =>
    obtain ⟨rfl, -⟩ := pure_eq_ok hok
    exact .inl ⟨rfl, rfl⟩
  | [subject] =>
    obtain ⟨has, w₁, hdeclare, hpure⟩ := bind_eq_ok hok
    obtain ⟨symbols, hsymbols, rfl⟩ := Transforming.declare_eq_ok hdeclare
    obtain ⟨rfl, rfl⟩ := pure_eq_ok hpure
    exact .inr ⟨_, rfl, .single (SymbolTable.names_of_declare hw.symbols hsymbols)⟩
  | first :: second :: rest =>
    obtain ⟨callee, w₁, hdeclare, hpure⟩ := bind_eq_ok hok
    obtain ⟨symbols, hsymbols, rfl⟩ := Transforming.declare_eq_ok hdeclare
    obtain ⟨rfl, rfl⟩ := pure_eq_ok hpure
    exact .inr ⟨_, rfl, .joined (SymbolTable.names_of_declare hw.symbols hsymbols)⟩

/-- The passes keep a world sound, and it grows. -/
theorem sound_supports : Supports World.Sound World.Grows :=
  @Sustained.supports _ _ _ [] World.sound_maintained.sustained

theorem join_grows (hw : w.Sound) (hok : join name items w = (.ok items', w')) :
    w.Grows w' := by
  have hmove := (sound_supports.join name items w hw).1
  rwa [hok] at hmove

/-- A junction is left with the items that ask for nothing, and the one question. -/
theorem join_cases (hw : w.Sound) (hok : join name items w = (.ok items', w')) :
    ∃ asked : Node → Option (List Node),
      (∀ item subjects, asked item = some subjects → Asked w'.symbols name subjects item) ∧
      ((items.filterMap asked).flatten = [] ∧
          items' = items.filter (fun item => (asked item).isNone) ∨
        ∃ node, items' = items.filter (fun item => (asked item).isNone) ++ [node] ∧
          Asked w'.symbols name (items.filterMap asked).flatten node) := by
  have hgrows := (join_grows hw hok).symbols
  rw [join, bind_ok (Transforming.symbols_apply w)] at hok
  have hbound : ∀ name id, (w.symbols.lookup? name).map (·.id) = some id →
      w.symbols.names[name]? = some id := by
    intro name id hid
    obtain ⟨s, hlookup, rfl⟩ := Option.map_eq_some_iff.mp hid
    exact (SymbolTable.names_of_lookup? hw.symbols hlookup).1
  have hcases := question_cases hw hok
  refine ⟨_, fun item subjects h => ?_, hcases⟩
  exact (asked_of_subjects? (hbound _) (hbound _) h).grown hgrows

/-- Joining keeps what the items of a conjunction say together. -/
theorem all_join (hw : w.Sound) (hok : join everyName items w = (.ok items', w'))
    (hr : Reads w'.symbols held facts) :
    items'.all (Node.verdict facts) = items.all (Node.verdict facts) := by
  obtain ⟨asked, hmeans, hleft⟩ := join_cases hw hok
  have hasked : items.all (Node.verdict facts) = _ :=
    all_asked fun item _ subjects h => (hmeans item subjects h).all hr
  obtain ⟨hnone, rfl⟩ | ⟨node, rfl, hnode⟩ := hleft
  · rw [hasked, hnone, List.all_nil, Bool.and_true]
  · rw [hasked, List.all_append, List.all_cons, List.all_nil, Bool.and_true, hnode.all hr]

/-- Joining keeps what the items of a disjunction say together. -/
theorem any_join (hw : w.Sound) (hok : join anyName items w = (.ok items', w'))
    (hr : Reads w'.symbols held facts) :
    items'.any (Node.verdict facts) = items.any (Node.verdict facts) := by
  obtain ⟨asked, hmeans, hleft⟩ := join_cases hw hok
  have hasked : items.any (Node.verdict facts) = _ :=
    any_asked fun item _ subjects h => (hmeans item subjects h).any hr
  obtain ⟨hnone, rfl⟩ | ⟨node, rfl, hnode⟩ := hleft
  · rw [hasked, hnone, List.any_nil, Bool.or_false]
  · rw [hasked, List.any_append, List.any_cons, List.any_nil, Bool.or_false, hnode.any hr]

/-! ## Throughout a tree -/

/-- What is asked in a table, is asked in the tables behind it. -/
theorem Reads.of_grows {t t' : SymbolTable} (h : Reads t' held facts) (hg : t.Grows t') :
    Reads t held facts :=
  ⟨fun hid => h.has (hg.names hid), fun hid => h.every (hg.names hid),
    fun hid => h.any (hg.names hid)⟩

/-- The rules of the pass. -/
def rules : Rules Transforming := { anyOf := anyOf, every := every }

theorem rules_conduct : rules.Conduct World.Sound World.Grows :=
  have hR := sound_supports.advances
  { Rules.conduct_default hR with
    anyOf := fun items => .bind hR (sound_supports.join _ items) fun _ => .pure hR _
    every := fun items => .bind hR (sound_supports.join _ items) fun _ => .pure hR _ }

theorem rules_grows {node node' : Node} (hw : w.Sound)
    (hok : rules.transform node w = (.ok node', w')) : w.Grows w' ∧ w'.Sound := by
  obtain ⟨hmove, hsound⟩ := rules_conduct.transform World.grows_advances node w hw
  rw [hok] at hmove hsound
  exact ⟨hmove, hsound node' rfl⟩

/-- What is plain stays as it is. -/
theorem transform_plain {node : Node} (h : node.isPlain = true) :
    rules.transform node w = (.ok node, w) := by
  cases node with
  | identifier id => rw [Rules.transform]; rfl
  | number value => rw [Rules.transform]; rfl
  | string value => rw [Rules.transform]; rfl
  | _ => exact absurd h nofun

/-- Items of which each keeps its verdict. -/
theorem transformAll_verdict {items : List Node}
    (h : ∀ item ∈ items, ∀ {w w' node}, w.Sound → Reads w'.symbols held facts →
      rules.transform item w = (.ok node, w') → node.verdict facts = item.verdict facts)
    {done items' : List Node} (hw : w.Sound)
    (hok : rules.transformAll done items w = (.ok items', w')) :
    w'.Sound ∧ (Reads w'.symbols held facts →
      items'.map (Node.verdict facts) = (done.reverse ++ items).map (Node.verdict facts)) := by
  -- Every item leaves a table that may have grown, and the reading is one of the last table.
  induction items generalizing done w with
  | nil =>
    rw [Rules.transformAll] at hok
    obtain ⟨rfl, rfl⟩ := pure_eq_ok hok
    exact ⟨hw, fun _ => by rw [List.append_nil]⟩
  | cons item rest ih =>
    obtain ⟨hitem, hrest⟩ := List.forall_mem_cons.mp h
    rw [Rules.transformAll] at hok
    obtain ⟨node, w₁, hnode, hok⟩ := bind_eq_ok hok
    obtain ⟨-, hw₁⟩ := rules_grows hw hnode
    obtain ⟨hw', hverdicts⟩ := ih hrest hw₁ hok
    have hgrows : w₁.Grows w' := by
      have hmove := (rules_conduct.transformAll World.grows_advances (node :: done) rest w₁ hw₁).1
      rwa [hok] at hmove
    refine ⟨hw', fun hr => ?_⟩
    rw [hverdicts hr, List.reverse_cons, List.append_assoc, List.singleton_append,
      List.map_append, List.map_append, List.map_cons, List.map_cons,
      hitem hw (hr.of_grows hgrows.symbols) hnode]

/-- Where junctions have their questions joined, the verdict on the tree is kept. -/
theorem collapse_verdict {scripts : Scripts} {node node' : Node} (hnode : node.Shallow)
    (hw : w.Sound) (hok : Pass.collapseHas.apply scripts node w = (.ok node', w'))
    (hr : Reads w'.symbols held facts) : node'.verdict facts = node.verdict facts := by
  change rules.transform node w = (.ok node', w') at hok
  induction hnode generalizing node' w w' with
  | @anyOf items _ ih =>
    rw [Rules.transform] at hok
    obtain ⟨items', w₁, hitems, hok⟩ := bind_eq_ok hok
    obtain ⟨joined, w₂, hjoin, hpure⟩ := bind_eq_ok hok
    obtain ⟨rfl, rfl⟩ := pure_eq_ok hpure
    obtain ⟨hw₁, hverdicts⟩ := transformAll_verdict ih hw hitems
    have hgrows := join_grows hw₁ hjoin
    have hany := congrArg (List.any · id) (hverdicts (hr.of_grows hgrows.symbols))
    rw [List.any_map, List.any_map] at hany
    rw [Node.verdict_disjoin, any_join hw₁ hjoin hr, Node.verdict_anyOf]
    exact hany
  | @every items _ ih =>
    rw [Rules.transform] at hok
    obtain ⟨items', w₁, hitems, hok⟩ := bind_eq_ok hok
    obtain ⟨joined, w₂, hjoin, hpure⟩ := bind_eq_ok hok
    obtain ⟨rfl, rfl⟩ := pure_eq_ok hpure
    obtain ⟨hw₁, hverdicts⟩ := transformAll_verdict ih hw hitems
    have hgrows := join_grows hw₁ hjoin
    have hall := congrArg (List.all · id) (hverdicts (hr.of_grows hgrows.symbols))
    rw [List.all_map, List.all_map] at hall
    rw [Node.verdict_conjoin, all_join hw₁ hjoin hr, Node.verdict_every]
    exact hall
  | boolean value =>
    rw [Rules.transform] at hok
    obtain ⟨rfl, rfl⟩ := pure_eq_ok hok
    rfl
  | compare op hlhs hrhs =>
    rw [Rules.transform, bind_ok (transform_plain hlhs), bind_ok (transform_plain hrhs)] at hok
    obtain ⟨rfl, rfl⟩ := pure_eq_ok hok
    rfl
  | identifier id =>
    rw [Rules.transform] at hok
    obtain ⟨rfl, rfl⟩ := pure_eq_ok hok
    rfl
  | @invert inner _ ih =>
    rw [Rules.transform] at hok
    obtain ⟨inner', w₁, hinner, hpure⟩ := bind_eq_ok hok
    obtain ⟨rfl, rfl⟩ := pure_eq_ok hpure
    rw [Node.verdict_invert, Node.verdict_invert, ih hw hr hinner]
  | @call callee args hargs =>
    have hsame : rules.transformAll [] args w = (.ok args, w) :=
      Rules.transformAll_same (fun arg harg => transform_plain (hargs arg harg)) []
    have htarget : rules.transform (.identifier callee) w = (.ok (.identifier callee), w) :=
      transform_plain rfl
    have hkept : rules.intercept (.identifier callee) args w = (.ok none, w) := rfl
    rw [Rules.transform, bind_ok hkept] at hok
    dsimp only at hok
    rw [bind_ok htarget, bind_ok hsame] at hok
    obtain ⟨rfl, -⟩ := pure_eq_ok hok
    rfl
  | number value =>
    rw [Rules.transform] at hok
    obtain ⟨rfl, rfl⟩ := pure_eq_ok hok
    rfl
  | string value =>
    rw [Rules.transform] at hok
    obtain ⟨rfl, rfl⟩ := pure_eq_ok hok
    rfl

/-- A world that has the three functions. -/
def questioning : World :=
  ⟨(SymbolTable.empty.declareMany [Lowering.hasName, everyName, anyName] .builtInFunction).2,
    .empty, .empty⟩

/-- Reads the three functions there as questions, and everything else as true. -/
def answered (held : Node → Bool) : Node → Bool
  | .invoke (.identifier 0) (subject :: _) => held subject
  | .invoke (.identifier 1) subjects => subjects.all held
  | .invoke (.identifier 2) subjects => subjects.any held
  | _ => true

theorem answered_reads (held : Node → Bool) : Reads questioning.symbols held (answered held) := by
  have hhas : questioning.symbols.names[Lowering.hasName]? = some 0 := by cbv
  have hevery : questioning.symbols.names[everyName]? = some 1 := by cbv
  have hany : questioning.symbols.names[anyName]? = some 2 := by cbv
  refine ⟨fun hid => ?_, fun hid => ?_, fun hid => ?_⟩
  · obtain rfl := Option.some.inj (hhas.symm.trans hid)
    rfl
  · obtain rfl := Option.some.inj (hevery.symm.trans hid)
    rfl
  · obtain rfl := Option.some.inj (hany.symm.trans hid)
    rfl

/-- A rule that asks for two items, with another condition between. -/
def askingTwice : Node := .every [.has 0 3 one, .identifier 4, .has 0 5 one]

theorem askingTwice_shallow : askingTwice.Shallow := by
  have hhas : ∀ item, (Node.has 0 item one).Shallow := fun item =>
    .call 0 (List.forall_mem_cons.mpr ⟨rfl, List.forall_mem_singleton.mpr rfl⟩)
  refine .every fun item hitem => ?_
  simp only [List.mem_cons, List.not_mem_nil, or_false] at hitem
  obtain rfl | rfl | rfl := hitem
  · exact hhas 3
  · exact .identifier 4
  · exact hhas 5

/-- Who holds the first item but not the second fails, whether each is asked for by itself or
both are asked for behind the rest. -/
theorem askingTwice_verdict :
    questioning.Sound ∧
      Pass.collapseHas.apply .empty askingTwice questioning =
        (.ok (.every [.identifier 4, .call 1 [.identifier 3, .identifier 5]]), questioning) ∧
      askingTwice.verdict (answered fun item => item.identifier? == some 3) = false ∧
      (Node.every [.identifier 4, .call 1 [.identifier 3, .identifier 5]]).verdict
          (answered fun item => item.identifier? == some 3) =
        askingTwice.verdict (answered fun item => item.identifier? == some 3) := by
  have hsound : questioning.Sound :=
    ⟨(SymbolTable.declareMany_grows SymbolTable.empty_sound _ _).sound SymbolTable.empty_sound,
      ObjectPool.empty_sound⟩
  have hok : Pass.collapseHas.apply .empty askingTwice questioning =
      (.ok (.every [.identifier 4, .call 1 [.identifier 3, .identifier 5]]), questioning) := by
    cbv
  exact ⟨hsound, hok, by decide,
    collapse_verdict askingTwice_shallow hsound hok (answered_reads _)⟩

end Item

end Passage

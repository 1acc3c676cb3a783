import Passage.Proofs.Easing

/-!
# Joined questions keep within the reserve

A junction is left with the items that ask for nothing, and with one question about what the
others ask for, behind them (`Node.Gathers`). That question has as many operands as the questions
it takes the place of, and its function comes on top of them, which is what the reserve of the
junction counts on (`collapseHas_ease`).
-/

namespace Passage

section

variable {q : Askers} {IsItem : SymbolId → Prop}
  {quantityAsked? : Node → List Node → Option (SymbolId × UInt8)} {still : Prop} {w : World}
  {j : Junction} {items others : List Node} {ids : List SymbolId}

/-- An item that is asked for along with others gives its items to the question, and no numbers. -/
theorem Node.Asking.of_asked {t : SymbolTable} (hq : q.Of IsItem t)
    (hchecked : q.Checked quantityAsked? IsItem) {item : Node} (h : item.Asking q IsItem True)
    {subjects : List Node} (hasked : Item.asked t j.joining item = some subjects) :
    ∃ ids : List SymbolId, subjects = ids.map .identifier ∧ (∀ id ∈ ids, IsItem id) ∧
      1 ≤ ids.length ∧ item.breadth (q.joining j) = ids.length ∧
      item.numerals quantityAsked? = [] := by
  have hbound : ∀ {name id}, t.Knows name .builtInFunction id → ∀ {id'}, t.names[name]? = some id' →
      id' = id := by
    rintro name id ⟨s, hlookup, -, rfl⟩ id' hname
    exact Option.some.inj (hname.symm.trans (SymbolTable.names_of_lookup? hq.sound hlookup).1)
  have hasks : Item.Asked t j.joining subjects item := Item.asked_of_subjects?
    (fun _ => (SymbolTable.names_iff hq.sound).mp) (fun _ => (SymbolTable.names_iff hq.sound).mp)
      hasked
  generalize hitem : item = node at hasks
  cases hasks with
  | single hname =>
    obtain rfl := hbound hq.knows_has hname
    cases h with
    | @has id quantity hid =>
      obtain ⟨-, hargs⟩ := Node.invoke.inj hitem
      obtain ⟨rfl, hone⟩ := List.cons.inj hargs
      obtain rfl := Node.number.inj (List.cons.inj hone).1
      exact ⟨[id], rfl, List.forall_mem_singleton.mpr hid, Nat.le_refl 1,
        Node.breadth_has hq.apart j id Item.one, Node.numerals_one hchecked hid⟩
    | joined j' =>
      exact absurd (Node.identifier.inj (Node.invoke.inj hitem).1) (hq.apart.has j')
    | _ => exact absurd hitem nofun
  | joined hname =>
    obtain rfl := hbound (hq.knows_joining j) hname
    cases h with
    | has =>
      exact absurd (Node.identifier.inj (Node.invoke.inj hitem).1).symm (hq.apart.has j)
    | @joined j' items _ htwo hitems =>
      obtain ⟨htarget, rfl⟩ := Node.invoke.inj hitem
      obtain rfl := hq.apart.joining (Node.identifier.inj htarget)
      refine ⟨items, rfl, hitems, Nat.le_of_succ_le htwo, ?_,
        Node.numerals_joined hchecked j' items⟩
      rw [Node.breadth_joined hq.apart, if_pos rfl, List.length_map]
    | _ => exact absurd hitem nofun

variable (q quantityAsked? j) in
/-- The items of a junction come down to some of them, and to what the rest asks for. -/
structure Node.Gathers (items others : List Node) (ids : List SymbolId) : Prop where
  length : items.length ≤ others.length + ids.length
  breadths : breadths (q.joining j) items = breadths (q.joining j) others + ids.length
  reserve : reserveAll q quantityAsked? (q.joining j) others ≤
    reserveAll q quantityAsked? (q.joining j) items
  numerals : numeralsAll quantityAsked? others = numeralsAll quantityAsked? items

/-- What is asked for in a junction is put together. -/
theorem Node.gathers_asked {t : SymbolTable} (hq : q.Of IsItem t)
    (hchecked : q.Checked quantityAsked? IsItem)
    (hitems : ∀ item ∈ items, item.Asking q IsItem True) :
    ∃ ids : List SymbolId, (items.filterMap (Item.asked t j.joining)).flatten =
      ids.map .identifier ∧
      (∀ id ∈ ids, IsItem id) ∧
      Gathers q quantityAsked? j items
        (items.filter fun item => (Item.asked t j.joining item).isNone) ids := by
  induction items with
  | nil =>
    exact ⟨[], rfl, List.forall_mem_nil _, Nat.le_refl 0, rfl, Nat.le_refl 0, rfl⟩
  | cons item rest ih =>
    obtain ⟨hitem, hrest⟩ := List.forall_mem_cons.mp hitems
    obtain ⟨ids, hflatten, hids, hlength, hbreadths, hreserve, hnumerals⟩ := ih hrest
    rcases hasked : Item.asked t j.joining item with _ | subjects
    · rw [List.filterMap_cons_none hasked, List.filter_cons_of_pos (by rw [hasked]; rfl)]
      refine ⟨ids, hflatten, hids, ?_, ?_, ?_, ?_⟩
      · rw [List.length_cons, List.length_cons]
        omega
      · rw [breadths_cons, breadths_cons, hbreadths, Nat.add_assoc]
      · rw [reserveAll, reserveAll]
        omega
      · rw [numeralsAll, numeralsAll, hnumerals]
    · obtain ⟨first, rfl, hfirst, hone, hbreadth, hnone⟩ := hitem.of_asked hq hchecked hasked
      rw [List.filterMap_cons_some hasked,
        List.filter_cons_of_neg (by rw [hasked]; exact Bool.false_ne_true),
        List.flatten_cons, hflatten]
      refine ⟨first ++ ids, (List.map_append ..).symm, List.forall_mem_append.mpr ⟨hfirst, hids⟩,
        ?_, ?_, ?_, ?_⟩
      · rw [List.length_cons, List.length_append]
        omega
      · rw [breadths_cons, hbreadth, hbreadths, List.length_append, Nat.add_left_comm]
      · rw [reserveAll]
        omega
      · rw [numeralsAll, hnone, hnumerals, List.nil_append]

/-- One question takes the place of those that were gathered, behind the other items. -/
theorem Item.question_eq (hq : q.Of IsItem w.symbols) (j : Junction) (others : List Node)
    (ids : List SymbolId) :
    Item.question j.joining others (ids.map .identifier) w =
      (.ok (others ++ q.question j ids), w) := by
  rcases ids with _ | ⟨id, _ | ⟨second, rest⟩⟩
  · rw [Askers.question, List.append_nil]
    rfl
  · show Item.question j.joining others [.identifier id] w = _
    rw [Item.question, bind_ok (Transforming.declare_function hq.knows_has)]
    rfl
  · show Item.question j.joining others (.identifier id :: .identifier second :: _) w = _
    rw [Item.question, bind_ok (Transforming.declare_function (hq.knows_joining j))]
    · rfl
    · exact List.cons_ne_nil _ _
    · rintro _ ⟨⟩

/-- The question for some items, with what it takes. -/
theorem Askers.question_takes (hq : q.Apart) (hchecked : q.Checked quantityAsked? IsItem)
    (hids : ∀ id ∈ ids, IsItem id) :
    Node.breadths (q.joining j) (q.question j ids) = ids.length ∧
      Node.reserveAll q quantityAsked? (q.joining j) (q.question j ids) ≤ ids.length + 1 ∧
      Node.numeralsAll quantityAsked? (q.question j ids) = [] ∧
      ∀ item ∈ q.question j ids, item.Asking q IsItem True ∧ ∃ callee args,
        item = .call callee args := by
  rcases ids with _ | ⟨id, _ | ⟨second, rest⟩⟩
  · exact ⟨rfl, Nat.zero_le _, rfl, List.forall_mem_nil _⟩
  · have hid := List.forall_mem_singleton.mp hids
    have hbreadth := Node.breadth_has hq j id Item.one
    have hneed := Node.need_one hchecked hid
    rw [question]
    refine ⟨?_, ?_, ?_, List.forall_mem_singleton.mpr ⟨.has Item.one hid, _, _, rfl⟩⟩
    · rw [Node.breadths_cons, hbreadth]
      rfl
    · rw [Node.reserveAll, Node.reserveAll, hbreadth]
      show max (Node.need quantityAsked? (.has q.has id Item.one)) (1 + 0) ≤ 1 + 1
      omega
    · rw [Node.numeralsAll, Node.numerals_one hchecked hid]
      rfl
  · have hbreadth : Node.breadth (q.joining j)
        (.call (q.joining j) ((id :: second :: rest).map .identifier)) =
        (id :: second :: rest).length := by
      rw [Node.breadth_joined hq, if_pos rfl, List.length_map]
    have hneed := Node.need_joined hchecked j (id :: second :: rest)
    rw [question]
    · refine ⟨?_, ?_, ?_, List.forall_mem_singleton.mpr
        ⟨.joined j trivial (Nat.le_add_left 2 _) hids, _, _, rfl⟩⟩
      · rw [Node.breadths_cons, hbreadth]
        rfl
      · rw [Node.reserveAll, Node.reserveAll, hbreadth]
        show max (Node.need quantityAsked?
          (.call (q.joining j) ((id :: second :: rest).map .identifier))) _ ≤ _
        omega
      · rw [Node.numeralsAll, Node.numerals_joined hchecked]
        rfl
    · exact List.cons_ne_nil _ _
    · rintro _ ⟨⟩

/-- A junction whose questions are joined is eased, although the function comes on top. -/
theorem Node.Gathers.eases (h : Gathers q quantityAsked? j items others ids) (hstill : ¬ still)
    (hq : q.Apart)
    (hchecked : q.Checked quantityAsked? IsItem) (hids : ∀ id ∈ ids, IsItem id) :
    Eases q quantityAsked? still (j.node items) (j.node (others ++ q.question j ids)) := by
  obtain ⟨hbreadths, hreserve, hnumerals, -⟩ := Askers.question_takes hq hchecked hids (j := j)
  have hbefore := h.breadths
  have hothers := h.reserve
  refine ⟨?_, ?_, (absurd · hstill), (absurd · hstill), fun j' inner heq => ?_, fun j' _ => ?_⟩
  · rw [reserve_junction, reserve_junction, breadths_append, reserveAll_append]
    omega
  · rw [numerals_junction, numerals_junction, numeralsAll_append, hnumerals, List.append_nil,
      h.numerals]
  · obtain ⟨rfl, -⟩ := Junction.node_eq_node heq
    exact ⟨items, rfl⟩
  · rw [breadth_junction, breadth_junction]

/-- A junction of questions alone is eased by the joined question. -/
theorem Node.Gathers.eases_joined (h : Gathers q quantityAsked? j items [] ids) (hstill : ¬ still)
    (hq : q.Apart)
    (hchecked : q.Checked quantityAsked? IsItem) :
    Eases q quantityAsked? still (j.node items)
      (.call (q.joining j) (ids.map .identifier)) where
  reserve := by
    have hneed := need_joined hchecked j ids
    have hbefore := h.breadths
    rw [show Node.breadths (q.joining j) [] = 0 from rfl] at hbefore
    rw [reserve_junction]
    show need quantityAsked? _ ≤ _
    omega
  numerals := by
    rw [numerals_joined hchecked, numerals_junction, ← h.numerals]
    rfl
  need h := absurd h hstill
  items h := absurd h hstill
  junction j' inner heq := by cases j' <;> exact absurd heq nofun
  breadth j' hne := by
    rw [breadth_joined hq, breadth_junction, if_neg]
    rintro rfl
    exact hne items rfl

/-- Joining the questions in a junction eases it. -/
theorem collapseHas_ease (hstill : ¬ still) (hq : q.Of IsItem w.symbols)
    (hchecked : q.Checked quantityAsked? IsItem) (scripts : Scripts) :
    (Pass.collapseHas.rules scripts).Ease q IsItem quantityAsked? still w where
  junction j {items} hreduced hitems := by
    obtain ⟨ids, hflatten, hids, hgathers⟩ := Node.gathers_asked hq hchecked hitems (j := j)
    obtain ⟨-, -, -, htail⟩ := Askers.question_takes hq.apart hchecked hids (j := j)
    have hothers : ∀ item ∈ items.filter fun item => (Item.asked w.symbols j.joining item).isNone,
        item ∈ items := fun item hitem => (List.mem_filter.mp hitem).1
    generalize hleft : (items.filter fun item => (Item.asked w.symbols j.joining item).isNone) =
      others
      at hgathers hothers
    have hjoin : Item.join j.joining items w = (.ok (others ++ q.question j ids), w) := by
      rw [Item.join_eq, hflatten, hleft]
      exact Item.question_eq hq j others ids
    have hstep : (Pass.collapseHas.rules scripts).junction j items w =
        (.ok (j.reduce (others ++ q.question j ids)), w) := by
      cases j <;> exact bind_ok hjoin
    have hasking : ∀ item ∈ others ++ q.question j ids, item.Asking q IsItem True :=
      List.forall_mem_append.mpr
        ⟨fun item hitem => hitems item (hothers item hitem), fun item hitem => (htail item hitem).1⟩
    have hflat : ∀ item ∈ others ++ q.question j ids, ∀ inner, item ≠ j.node inner := by
      refine List.forall_mem_append.mpr
        ⟨fun item hitem => hreduced.flat item (hothers item hitem), fun item hitem inner heq => ?_⟩
      obtain ⟨-, callee, args, rfl⟩ := htail item hitem
      cases j <;> exact absurd heq nofun
    have hundecided := fun item hitem => (hasking item hitem).ne_boolean
    by_cases htwo : 2 ≤ (others ++ q.question j ids).length
    · have hjunction : j.Reduced (others ++ q.question j ids) := ⟨htwo, hflat, hundecided⟩
      rw [hjunction.reduce_eq] at hstep
      exact ⟨_, hstep, .junction hjunction hasking, hgathers.eases hstill hq.apart hchecked hids⟩
    · -- Only a question is left, and it is one for two items.
      have hlength := Nat.le_trans hreduced.two hgathers.length
      rw [List.length_append] at htwo
      match ids, hlength, htwo with
      | [], hlength, htwo => exact absurd hlength htwo
      | [_], hlength, htwo => exact absurd hlength htwo
      | first :: second :: rest, _, htwo =>
        have hquestion : q.question j (first :: second :: rest) =
            [.call (q.joining j) ((first :: second :: rest).map .identifier)] := rfl
        obtain rfl : others = [] := List.length_eq_zero_iff.mp (by
          rw [hquestion, List.length_singleton] at htwo
          omega)
        rw [List.nil_append, hquestion] at hstep hflat hasking hundecided
        rw [Junction.reduce_singleton (hflat _ List.mem_cons_self)
          (hundecided _ List.mem_cons_self)]
          at hstep
        exact ⟨_, hstep, hasking _ List.mem_cons_self,
          hgathers.eases_joined hstill hq.apart hchecked⟩
  invert _ := rfl
  name hid := .of_same (.name hid) rfl
  question h := Rules.transform_asking hq h rfl (fun _ _ => rfl) rfl

/-- A junction that asks for nothing but one of each item becomes one question. -/
theorem collapseHas_questions (hq : q.Of IsItem w.symbols) (scripts : Scripts) (j : Junction)
    (htwo : 2 ≤ ids.length) (hids : ∀ id ∈ ids, IsItem id) :
    (Pass.collapseHas.rules scripts).transform
      (j.node (ids.map fun id => .has q.has id Item.one)) w =
        (.ok (.call (q.joining j) (ids.map .identifier)), w) := by
  have hhas : (w.symbols.lookup? Lowering.hasName).map (·.id) = some q.has := by
    obtain ⟨s, hlookup, -, hid⟩ := hq.knows_has
    rw [hlookup, ← hid]
    rfl
  have hasked : ∀ id, Item.asked w.symbols j.joining (.has q.has id Item.one) =
      some [.identifier id] := by
    intro id
    rw [Item.asked, hhas]
    exact Item.subjects?_single
  have hitems : ∀ item ∈ ids.map fun id => Node.has q.has id Item.one,
      (Pass.collapseHas.rules scripts).transform item w = (.ok item, w) := by
    refine List.forall_mem_map.mpr fun id hid => ?_
    exact Rules.transform_asking hq (.has Item.one (hids id hid)) rfl (fun _ _ => rfl) rfl
  have hothers : ((ids.map fun id => Node.has q.has id Item.one).filter fun item =>
      (Item.asked w.symbols j.joining item).isNone) = [] := by
    refine List.filter_eq_nil_iff.mpr (List.forall_mem_map.mpr fun id _ => ?_)
    rw [hasked]
    exact Bool.false_ne_true
  have hgathered : ((ids.map fun id => Node.has q.has id Item.one).filterMap
      (Item.asked w.symbols j.joining)).flatten = ids.map .identifier := by
    rw [List.filterMap_map,
      show (Item.asked w.symbols j.joining ∘ fun id => .has q.has id Item.one) =
        (some ∘ fun id => [Node.identifier id]) from funext hasked, List.filterMap_eq_map,
      ← List.flatMap_def, ← List.map_eq_flatMap]
  have hquestion : q.question j ids = [.call (q.joining j) (ids.map .identifier)] := by
    rcases ids with _ | ⟨id, _ | ⟨second, rest⟩⟩
    · exact absurd htwo (Nat.not_succ_le_zero 1)
    · exact absurd htwo (Nat.not_succ_le_self 1)
    · rfl
  have hjoin : Item.join j.joining (ids.map fun id => .has q.has id Item.one) w =
      (.ok [.call (q.joining j) (ids.map .identifier)], w) := by
    rw [Item.join_eq, hothers, hgathered, Item.question_eq hq, hquestion]
    rfl
  have hsingle : j.reduce [.call (q.joining j) (ids.map .identifier)] =
      .call (q.joining j) (ids.map .identifier) :=
    Junction.reduce_singleton (Node.ne_junction rfl j) (by rintro _ ⟨⟩)
  have hstep :
      (Pass.collapseHas.rules scripts).junction j (ids.map fun id => .has q.has id Item.one) w =
      (.ok (j.reduce [.call (q.joining j) (ids.map .identifier)]), w) := by
    cases j <;> exact bind_ok hjoin
  rw [Rules.transform_junction, bind_ok (Rules.transformAll_same hitems []), List.reverse_nil,
    List.nil_append, hstep, hsingle]

end

end Passage

import Passage.Proofs.Numerals
import Passage.Proofs.Rewriting

/-!
# Joined questions keep the truth

The questions for single items among the items of a junction are replaced by one question
about all their subjects. `subjects_of_within` says what such a question is about and that
its answer is that of the joined function; the rest is about lists, and
`collapseHas_faithful` draws the conclusion.
-/

namespace Passage

variable {r : Reading} {w : World} {alone alone' alone'' : SymbolId → Prop}

section

variable {joined : SymbolId} {subjects : List Node}

/-- What is asked of a question that can be joined: its subjects are names of items, and its
answer is that of the joined question about them. -/
theorem subjects_of_within (hc : r.Coherent) (hj : joined = r.every ∨ joined = r.any) {item : Node}
    (h : item.Within r alone)
    (hasked : Item.subjects? (some r.has) (some joined) item = some subjects) :
    (∃ items : List SymbolId, subjects = items.map .identifier ∧ ∀ id ∈ items, r.IsItem id) ∧
      item.truth r = r.answer joined subjects := by
  have hhas : joined ≠ r.has := by
    obtain rfl | rfl := hj
    · exact hc.every
    · exact hc.any.1
  -- The name of an item is no numeral, so that no joined question looks like a single one.
  have hsingle : ∀ (items : List SymbolId) (callee : SymbolId),
      Item.subjects? (some r.has) (some joined) (.invoke (.identifier callee)
        (items.map .identifier)) =
      if some joined == some callee then some (items.map .identifier) else none := by
    intro items callee
    rcases items with _ | ⟨first, _ | ⟨second, _ | ⟨third, rest⟩⟩⟩ <;> rfl
  have hother : ∀ {callee : SymbolId}, joined ≠ callee → (some joined == some callee) = false :=
    fun hne => beq_false_of_ne fun heq => hne (Option.some.inj heq)
  cases h with
  | question hq =>
    cases hq with
    | @has id count hitem =>
      unfold Item.subjects? at hasked
      dsimp only at hasked
      rw [hother hhas, beq_self_eq_true, Bool.true_and] at hasked
      split at hasked
      · rename_i hsame
        obtain rfl := Number.eq_one_of_same hsame
        obtain rfl : [Node.identifier id] = subjects := Option.some.inj hasked
        refine ⟨⟨[id], rfl, List.forall_mem_singleton.mpr hitem⟩, ?_⟩
        rw [hc.answer_single hj]
        exact Reading.Coherent.answer_has id Item.one
      · exact absurd hasked nofun
    | @every items hitems =>
      rw [hsingle] at hasked
      by_cases hsame : joined = r.every
      · rw [hsame, beq_self_eq_true, if_pos rfl] at hasked
        obtain rfl := Option.some.inj hasked
        exact ⟨⟨items, rfl, hitems⟩, by rw [hsame, Node.truth_call]⟩
      · rw [hother hsame] at hasked
        exact absurd hasked nofun
    | @any items hitems =>
      rw [hsingle] at hasked
      by_cases hsame : joined = r.any
      · rw [hsame, beq_self_eq_true, if_pos rfl] at hasked
        obtain rfl := Option.some.inj hasked
        exact ⟨⟨items, rfl, hitems⟩, by rw [hsame, Node.truth_call]⟩
      · rw [hother hsame] at hasked
        exact absurd hasked nofun
    | @fact id hfact =>
      obtain ⟨-, hevery, hany⟩ := hc.fact hfact
      have hne : joined ≠ id := by
        obtain rfl | rfl := hj
        · exact hevery.symm
        · exact hany.symm
      have hnone := hsingle [] id
      rw [hother hne] at hnone
      rw [show ([] : List SymbolId).map Node.identifier = [] from rfl] at hnone
      rw [hnone] at hasked
      exact absurd hasked nofun
  | _ => exact absurd hasked nofun

/-- All that is asked by questions that can be joined is about items. -/
theorem subjects_flatten {items : List Node} {asked : Node → Option (List Node)}
    (h : ∀ item ∈ items, ∀ subjects, asked item = some subjects →
      ∃ ids : List SymbolId, subjects = ids.map .identifier ∧ ∀ id ∈ ids, r.IsItem id) :
    ∃ ids : List SymbolId, (items.filterMap asked).flatten = ids.map .identifier ∧
      ∀ id ∈ ids, r.IsItem id := by
  induction items with
  | nil => exact ⟨[], rfl, List.forall_mem_nil _⟩
  | cons node rest ih =>
    obtain ⟨hnode, hrest⟩ := List.forall_mem_cons.mp h
    obtain ⟨ids, hids, hitems⟩ := ih hrest
    rcases hasked : asked node with _ | subjects
    · rw [List.filterMap_cons_none hasked]
      exact ⟨ids, hids, hitems⟩
    · obtain ⟨first, hfirst, hitems'⟩ := hnode subjects hasked
      refine ⟨first ++ ids, ?_, List.forall_mem_append.mpr ⟨hitems', hitems⟩⟩
      rw [List.filterMap_cons_some hasked, List.flatten_cons, hids, hfirst, List.map_append]

theorem all_asked {items : List Node} {asked : Node → Option (List Node)} {p q : Node → Bool}
    (h : ∀ item ∈ items, ∀ subjects, asked item = some subjects → p item = subjects.all q) :
    items.all p =
      ((items.filter fun item => (asked item).isNone).all p &&
        (items.filterMap asked).flatten.all q) := by
  induction items with
  | nil => rfl
  | cons node rest ih =>
    obtain ⟨hnode, hrest⟩ := List.forall_mem_cons.mp h
    rcases hasked : asked node with _ | subjects
    · rw [List.filterMap_cons_none hasked, List.filter_cons_of_pos (by rw [hasked]; rfl),
        List.all_cons, List.all_cons, ih hrest, Bool.and_assoc]
    · rw [List.filterMap_cons_some hasked,
        List.filter_cons_of_neg (by rw [hasked]; exact Bool.false_ne_true),
        List.all_cons, List.flatten_cons, List.all_append, ih hrest, hnode subjects hasked,
        Bool.and_left_comm]

theorem any_asked {items : List Node} {asked : Node → Option (List Node)} {p q : Node → Bool}
    (h : ∀ item ∈ items, ∀ subjects, asked item = some subjects → p item = subjects.any q) :
    items.any p =
      ((items.filter fun item => (asked item).isNone).any p ||
        (items.filterMap asked).flatten.any q) := by
  induction items with
  | nil => rfl
  | cons node rest ih =>
    obtain ⟨hnode, hrest⟩ := List.forall_mem_cons.mp h
    rcases hasked : asked node with _ | subjects
    · rw [List.filterMap_cons_none hasked, List.filter_cons_of_pos (by rw [hasked]; rfl),
        List.any_cons, List.any_cons, ih hrest, Bool.or_assoc]
    · rw [List.filterMap_cons_some hasked,
        List.filter_cons_of_neg (by rw [hasked]; exact Bool.false_ne_true),
        List.any_cons, List.flatten_cons, List.any_append, ih hrest, hnode subjects hasked,
        Bool.or_left_comm]

/-- One question about items takes the place of several, behind the other items of the
junction. -/
theorem question_rewrites (hr : r.Of w.symbols) (hc : r.Coherent)
    (hj : joined = r.every ∨ joined = r.any) {name : String}
    (hname : Transforming.declare name .function w = (.ok joined, w)) {others : List Node}
    (hothers : ∀ item ∈ others, item.Within r alone) {ids : List SymbolId}
    (hids : ∀ id ∈ ids, r.IsItem id) :
    ∃ items, Item.question name others (ids.map .identifier) w = (.ok items, w) ∧
      (∀ item ∈ items, item.Within r alone) ∧
      items.map (Node.truth r) = others.map (Node.truth r) ++
        if ids = [] then [] else [r.answer joined (ids.map .identifier)] := by
  match ids, hids with
  | [], _ => exact ⟨others, rfl, hothers, by rw [if_pos rfl, List.append_nil]⟩
  | [id], hids =>
    have hitem := List.forall_mem_singleton.mp hids
    refine ⟨others ++ [.has r.has id Item.one], ?_, ?_, ?_⟩
    · show Item.question name others [.identifier id] w = _
      rw [Item.question, bind_ok (Transforming.declare_function hr.has)]
      rfl
    · exact List.forall_mem_append.mpr ⟨hothers, List.forall_mem_singleton.mpr
        (.question (.has 1 hitem))⟩
    · rw [List.map_append, if_neg (List.cons_ne_nil _ _), List.map_singleton, List.map_singleton,
        hc.answer_single hj]
      exact congrArg (_ ++ [·]) (Reading.Coherent.answer_has id Item.one)
  | first :: second :: rest, hids =>
    have hquestion : r.IsQuestion (.identifier joined)
        ((first :: second :: rest).map .identifier) := by
      obtain rfl | rfl := hj
      · exact .every hids
      · exact .any hids
    refine ⟨others ++ [.call joined ((first :: second :: rest).map .identifier)], ?_, ?_, ?_⟩
    · show Item.question name others (.identifier first :: .identifier second :: _) w = _
      rw [Item.question, bind_ok hname]
      · rfl
      · exact nofun
      · exact nofun
    · exact List.forall_mem_append.mpr ⟨hothers, List.forall_mem_singleton.mpr
        (.question hquestion)⟩
    · rw [List.map_append, if_neg (List.cons_ne_nil _ _), List.map_singleton]
      rfl

end

/-- The items of a junction, of which the questions are joined. -/
theorem join_rewrites (hr : r.Of w.symbols) (hc : r.Coherent) {joined : SymbolId} {name : String}
    (hname : w.symbols.Knows name .builtInFunction joined) (hj : joined = r.every ∨ joined = r.any)
    {items : List Node} (h : ∀ item ∈ items, item.Within r alone) :
    ∃ items' ids, Item.join name items w = (.ok items', w) ∧
      (∀ item ∈ items', item.Within r alone) ∧
      (items.filterMap (Item.subjects? (some r.has) (some joined))).flatten =
        ids.map Node.identifier ∧
      items'.map (Node.truth r) =
        (items.filter fun item =>
          (Item.subjects? (some r.has) (some joined) item).isNone).map (Node.truth r) ++
          if ids = [] then [] else [r.answer joined (ids.map .identifier)] := by
  obtain ⟨ids, hflatten, hids⟩ := subjects_flatten fun item hitem subjects hasked =>
    (subjects_of_within hc hj (h item hitem) hasked).1
  obtain ⟨items', hquestion, hwithin, htruth⟩ := question_rewrites hr hc hj
    (Transforming.declare_function hname)
    (fun item hitem => h item (List.mem_filter.mp hitem).1) hids
  obtain ⟨has, hhas, _, hhasId⟩ := hr.has
  obtain ⟨s, hlookup, _, hid⟩ := hname
  refine ⟨items', ids, ?_, hwithin, hflatten, htruth⟩
  rw [Item.join, bind_ok (Transforming.symbols_apply w), hhas, hlookup]
  dsimp only [Option.map]
  rw [hhasId, hid, hflatten]
  exact hquestion

/-- Joining the questions of junctions keeps their truth. -/
theorem collapseHas_faithful (hr : r.Of w.symbols) (hc : r.Coherent) (scripts : Scripts)
    (alone : SymbolId → Prop) : (Pass.collapseHas.rules scripts).Faithful r w alone alone where
  anyOf {items} h := by
    obtain ⟨items', ids, hjoin, hwithin, hflatten, htruth⟩ :=
      join_rewrites hr hc hr.any (.inr rfl) h
    refine ⟨.disjoin items', ?_, Node.within_disjoin hwithin, ?_⟩
    · show Item.anyOf items w = _
      rw [Item.anyOf, bind_ok hjoin]
      rfl
    · have hasked := any_asked fun item hitem subjects hasked =>
        (subjects_of_within hc (.inr rfl) (h item hitem) hasked).2.trans (hc.answer_any subjects)
      have hany := congrArg (List.any · id) htruth
      rw [List.any_append, List.any_map, List.any_map] at hany
      rw [Node.truth_disjoin, hasked, hflatten]
      refine hany.trans (congrArg _ ?_)
      by_cases hnil : ids = []
      · rw [if_pos hnil, hnil]
        rfl
      · rw [if_neg hnil, hc.answer_any, List.any_cons, List.any_nil, Bool.or_false]
        rfl
  every {items} h := by
    obtain ⟨items', ids, hjoin, hwithin, hflatten, htruth⟩ :=
      join_rewrites hr hc hr.every (.inl rfl) h
    refine ⟨.conjoin items', ?_, Node.within_conjoin hwithin, ?_⟩
    · show Item.every items w = _
      rw [Item.every, bind_ok hjoin]
      rfl
    · have hasked := all_asked fun item hitem subjects hasked =>
        (subjects_of_within hc (.inl rfl) (h item hitem) hasked).2.trans (hc.answer_every subjects)
      have hall := congrArg (List.all · id) htruth
      rw [List.all_append, List.all_map, List.all_map] at hall
      rw [Node.truth_conjoin, hasked, hflatten]
      refine hall.trans (congrArg _ ?_)
      by_cases hnil : ids = []
      · rw [if_pos hnil, hnil]
        rfl
      · rw [if_neg hnil, hc.answer_every, List.all_cons, List.all_nil, Bool.and_true]
        rfl
  invert h := .pure (.invert h)
  identifier h := .pure (.identifier h)
  question hq := Rules.transform_question hq rfl (fun _ => rfl) rfl

end Passage

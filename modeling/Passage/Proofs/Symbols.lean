import Mathlib
import Passage.Symbol.Table

/-!
# Growth of the symbol table

`Step` says once what an operation on the table can do: nothing, a new symbol, a
refined kind, or a further name. `Grows` is what undoing relies on: however the
table has grown, rolling back to a mark from before is rolling back the table
as it was. It follows that `rollback` to the mark of a sound table restores that
table (`Grows.rollback_eq`): symbols, aliases, bound names and the log of
refinements.
-/

namespace Passage

namespace SymbolTable

/-- A table whose symbols stand at their numbers, and whose names are bound to
symbols of the table, each canonical name to its own. -/
structure Sound (t : SymbolTable) : Prop where
  ids : ∀ {i : SymbolId} {s : Symbol}, t.get? i = some s → s.id = i
  bound : ∀ {name : String} {id : SymbolId}, t.names[name]? = some id → id < t.size
  canonical : ∀ {i : SymbolId} {s : Symbol}, t.get? i = some s → t.names[s.name]? = some i

theorem get?_eq_some_lt {t : SymbolTable} {id : SymbolId} {s : Symbol} (h : t.get? id = some s) :
    id < t.size :=
  (Array.getElem?_eq_some_iff.mp h).1

theorem get?_of_lt {t : SymbolTable} {id : SymbolId} (h : id < t.size) :
    ∃ s, t.get? id = some s :=
  ⟨t.symbols[id], Array.getElem?_eq_getElem h⟩

/-- A name that finds a symbol is bound to the number of that symbol. -/
theorem names_of_lookup? {t : SymbolTable} {name : String} {s : Symbol} (hs : t.Sound)
    (h : t.lookup? name = some s) : t.names[name]? = some s.id ∧ t.get? s.id = some s := by
  obtain ⟨id, hid, hget⟩ := Option.bind_eq_some_iff.mp h
  rw [hs.ids hget]
  exact ⟨hid, hget⟩

/-- In a sound table, a name that finds nothing is not bound. -/
theorem names_of_lookup?_none {t : SymbolTable} {name : String} (hs : t.Sound)
    (h : t.lookup? name = none) : t.names[name]? = none := by
  rcases hid : t.names[name]? with _ | id
  · rfl
  · obtain ⟨s, hget⟩ := get?_of_lt (hs.bound hid)
    rw [lookup?, hid] at h
    exact absurd (show t.get? id = none from h) (by rw [hget]; simp)

theorem lookup?_of_names {t : SymbolTable} {name : String} {id : SymbolId} {s : Symbol}
    (hid : t.names[name]? = some id) (hget : t.get? id = some s) : t.lookup? name = some s := by
  rw [lookup?, hid]
  exact hget

theorem empty_sound : empty.Sound where
  ids h := absurd (get?_eq_some_lt h) (Nat.not_lt_zero _)
  bound h := by simp [empty] at h
  canonical h := absurd (get?_eq_some_lt h) (Nat.not_lt_zero _)

/-! ## What an operation can do -/

/-- The table with a new symbol. -/
def appended (t : SymbolTable) (name : String) (kind : Symbol.Kind) : SymbolTable :=
  { t with
    symbols := t.symbols.push ⟨name, t.symbols.size, kind⟩
    names := t.names.insert name t.symbols.size }

/-- The table with another kind for a symbol. -/
def refined (t : SymbolTable) (s : Symbol) (kind : Symbol.Kind) : SymbolTable :=
  { t with
    symbols := t.symbols.setIfInBounds s.id { s with kind }
    refinements := t.refinements.push (s.id, s.kind) }

/-- The table with a further name for a symbol. -/
def aliased (t : SymbolTable) (name : String) (id : SymbolId) : SymbolTable :=
  { t with
    aliases := t.aliases.push ⟨name, id, .byname⟩
    names := t.names.insert name id }

/-- What one operation can do to a table. -/
inductive Step (t : SymbolTable) : SymbolTable → Prop
  | same : Step t t
  | append {name : String} {kind : Symbol.Kind} :
      t.names[name]? = none → Step t (t.appended name kind)
  | refine {name : String} {s : Symbol} {incoming kind : Symbol.Kind} :
      t.names[name]? = some s.id → t.get? s.id = some s → s.kind.refine incoming = some kind →
      Step t (t.refined s kind)
  | byname {name target : String} {id : SymbolId} :
      t.names[name]? = none → t.names[target]? = some id → Step t (t.aliased name id)

/-- Declaring a name fails and changes nothing, finds a symbol whose kind agrees,
refines one, or adds one. -/
theorem declare_cases {t : SymbolTable} (hs : t.Sound) (name : String) (kind : Symbol.Kind) :
    (∃ e, t.declare name kind = (.error e, t)) ∨
    (∃ s, t.lookup? name = some s ∧ s.kind.refine kind = some s.kind ∧
      t.declare name kind = (.ok s.id, t)) ∨
    (∃ s refined, t.lookup? name = some s ∧ s.kind.refine kind = some refined ∧
      refined ≠ s.kind ∧ t.declare name kind = (.ok s.id, t.refined s refined)) ∨
    (t.names[name]? = none ∧ t.size < capacity ∧
      t.declare name kind = (.ok t.size, t.appended name kind)) := by
  rcases hl : t.lookup? name with _ | s
  · simp only [declare, hl, append]
    by_cases hc : t.symbols.size < capacity
    · exact .inr (.inr (.inr ⟨names_of_lookup?_none hs hl, hc, by rw [if_pos hc]; rfl⟩))
    · exact .inl ⟨_, by rw [if_neg hc]⟩
  · simp only [declare, hl, SymbolTable.refine]
    rcases hr : s.kind.refine kind with _ | refined
    · exact .inl ⟨_, rfl⟩
    · by_cases he : refined = s.kind
      · subst he
        exact .inr (.inl ⟨s, rfl, hr, by simp⟩)
      · exact .inr (.inr (.inl ⟨s, refined, rfl, hr, he, by simp [he, SymbolTable.refined]⟩))

theorem declare_step {t : SymbolTable} (hs : t.Sound) (name : String) (kind : Symbol.Kind) :
    t.Step (t.declare name kind).2 := by
  obtain ⟨e, h⟩ | ⟨s, -, -, h⟩ | ⟨s, refined, hl, hr, -, h⟩ | ⟨hn, -, h⟩ :=
    declare_cases hs name kind <;> rw [h]
  · exact .same
  · exact .same
  · obtain ⟨hname, hget⟩ := names_of_lookup? hs hl
    exact .refine hname hget hr
  · exact .append hn

/-- A declaration that fails changes nothing. -/
theorem declare_error {t : SymbolTable} (hs : t.Sound) {name : String} {kind : Symbol.Kind}
    {e : SymbolError} (h : (t.declare name kind).1 = .error e) : (t.declare name kind).2 = t := by
  obtain ⟨e, h'⟩ | ⟨s, -, -, h'⟩ | ⟨s, refined, -, -, -, h'⟩ | ⟨-, -, h'⟩ :=
    declare_cases hs name kind <;> rw [h'] at h ⊢ <;> simp at h

theorem bindAlias_step (t : SymbolTable) (target name : String) :
    t.Step (t.bindAlias target name).2 := by
  unfold bindAlias
  rcases ht : t.names[target]? with _ | id
  · exact .same
  · rcases hn : t.names[name]? with _ | existing
    · exact .byname hn ht
    · by_cases he : existing = id
      · simp only [he]
        exact .same
      · simp only [if_neg he]
        exact .same

/-! ## Undoing -/

@[simp] theorem restoreKind_size (symbols : Array Symbol) (entry : SymbolId × Symbol.Kind) :
    (restoreKind symbols entry).size = symbols.size := by
  simp [restoreKind]

theorem foldl_restoreKind_size (log : List (SymbolId × Symbol.Kind)) (symbols : Array Symbol) :
    (log.foldl restoreKind symbols).size = symbols.size := by
  induction log generalizing symbols with
  | nil => rfl
  | cons entry log ih => rw [List.foldl_cons, ih, restoreKind_size]

/-- Restoring kinds reaches a symbol at the end only to change its kind. -/
theorem foldl_restoreKind_push (log : List (SymbolId × Symbol.Kind)) (symbols : Array Symbol)
    (s : Symbol) :
    ∃ s' : Symbol, s'.name = s.name ∧
      log.foldl restoreKind (symbols.push s) = (log.foldl restoreKind symbols).push s' := by
  induction log generalizing symbols s with
  | nil => exact ⟨s, rfl, rfl⟩
  | cons entry log ih =>
    let s₁ : Symbol := if entry.1 = symbols.size then { s with kind := entry.2 } else s
    have hstep : restoreKind (symbols.push s) entry = (restoreKind symbols entry).push s₁ := by
      apply Array.ext_getElem?
      intro i
      simp only [restoreKind, Array.getElem?_modify, Array.getElem?_push, Array.size_modify, s₁]
      by_cases hi : i = symbols.size
      · subst hi
        by_cases he : entry.1 = symbols.size <;> simp [he]
      · by_cases he : entry.1 = i <;> simp [hi, he]
    have hname : s₁.name = s.name := by
      by_cases he : entry.1 = symbols.size <;> simp [s₁, he]
    obtain ⟨s', hs', hfold⟩ := ih (restoreKind symbols entry) s₁
    refine ⟨s', hs'.trans hname, ?_⟩
    rw [List.foldl_cons, hstep, hfold, List.foldl_cons]

/-- Taking back a refinement gives back the symbols. -/
theorem restoreKind_refined {t : SymbolTable} {s : Symbol} (kind : Symbol.Kind)
    (hget : t.get? s.id = some s) :
    restoreKind (t.refined s kind).symbols (s.id, s.kind) = t.symbols := by
  apply Array.ext_getElem?
  intro i
  simp only [restoreKind, refined, Array.getElem?_modify, Array.getElem?_setIfInBounds]
  by_cases hi : s.id = i
  · subst hi
    rw [show t.symbols[s.id]? = some s from hget]
    simp [show s.id < t.symbols.size from get?_eq_some_lt hget]
  · simp [hi]

/-- A name is unbound if one of the entries has it. -/
theorem getElem?_unbind (names : Std.ExtTreeMap String SymbolId) (entries : Array Symbol)
    (start : Nat) (name : String) :
    (unbind names entries start)[name]? =
      if name ∈ (entries.toList.drop start).map (·.name) then none else names[name]? := by
  unfold unbind
  induction entries.toList.drop start generalizing names with
  | nil => simp
  | cons entry rest ih =>
    rw [List.foldl_cons, ih]
    simp only [Std.ExtTreeMap.getElem?_erase, Std.LawfulEqCmp.compare_eq_iff_eq, List.map_cons,
      List.mem_cons]
    by_cases he : entry.name = name
    · simp [he]
    · simp [he, Ne.symm he]

theorem map_name_drop_push {entries : Array Symbol} {start : Nat} (s : Symbol)
    (h : start ≤ entries.size) :
    ((entries.push s).toList.drop start).map (·.name) =
      (entries.toList.drop start).map (·.name) ++ [s.name] := by
  rw [Array.toList_push, List.drop_append_of_le_length (by simpa using h), List.map_append]
  rfl

/-- How far undoing may go: not beyond what the table holds. -/
structure Checkpoint.Within (mark : Checkpoint) (t : SymbolTable) : Prop where
  symbols : mark.symbols ≤ t.symbols.size
  aliases : mark.aliases ≤ t.aliases.size
  refinements : mark.refinements ≤ t.refinements.size

theorem checkpoint_within (t : SymbolTable) : t.checkpoint.Within t :=
  ⟨Nat.le_refl _, Nat.le_refl _, Nat.le_refl _⟩

/-- Undoing to the present changes nothing. -/
theorem rollback_checkpoint (t : SymbolTable) : t.rollback t.checkpoint = t := by
  have hs : t.symbols.toList.drop t.symbols.size = [] := by simp
  have ha : t.aliases.toList.drop t.aliases.size = [] := by simp
  have hr : t.refinements.toList.drop t.refinements.size = [] := by simp
  simp [rollback, checkpoint, unbind, hs, ha, hr]

theorem rollback_appended {t : SymbolTable} {mark : Checkpoint} {name : String}
    (kind : Symbol.Kind) (hn : t.names[name]? = none) (hm : mark.Within t) :
    (t.appended name kind).rollback mark = t.rollback mark := by
  obtain ⟨s', hs', hfold⟩ := foldl_restoreKind_push
    (t.refinements.toList.drop mark.refinements).reverse t.symbols ⟨name, t.symbols.size, kind⟩
  have hsize := foldl_restoreKind_size
    (t.refinements.toList.drop mark.refinements).reverse t.symbols
  have hle := Nat.le_trans hm.symbols (Nat.le_of_eq hsize.symm)
  simp only [rollback, appended, hfold, SymbolTable.mk.injEq, true_and, and_true]
  refine ⟨Array.extract_push_of_le hle, Std.ExtTreeMap.ext_getElem? fun k => ?_⟩
  simp only [getElem?_unbind, map_name_drop_push s' hle, hs', Std.ExtTreeMap.getElem?_insert,
    Std.LawfulEqCmp.compare_eq_iff_eq]
  by_cases hk : name = k
  · subst hk
    simp [hn]
  · simp [hk, Ne.symm hk]

theorem rollback_refined {t : SymbolTable} {mark : Checkpoint} {s : Symbol} (kind : Symbol.Kind)
    (hget : t.get? s.id = some s) (hm : mark.Within t) :
    (t.refined s kind).rollback mark = t.rollback mark := by
  have hlog : ((t.refined s kind).refinements.toList.drop mark.refinements).reverse =
      (s.id, s.kind) :: (t.refinements.toList.drop mark.refinements).reverse := by
    rw [refined, Array.toList_push,
      List.drop_append_of_le_length (by simpa using hm.refinements), List.reverse_append]
    rfl
  have htake : (t.refined s kind).refinements.take mark.refinements =
      t.refinements.take mark.refinements :=
    Array.extract_push_of_le hm.refinements
  simp only [rollback, hlog, htake, List.foldl_cons, restoreKind_refined kind hget]
  rfl

theorem rollback_aliased {t : SymbolTable} {mark : Checkpoint} {name : String} (id : SymbolId)
    (hn : t.names[name]? = none) (hm : mark.Within t) :
    (t.aliased name id).rollback mark = t.rollback mark := by
  simp only [rollback, aliased, SymbolTable.mk.injEq, true_and, and_true]
  refine ⟨Array.extract_push_of_le hm.aliases, Std.ExtTreeMap.ext_getElem? fun k => ?_⟩
  simp only [getElem?_unbind, map_name_drop_push _ hm.aliases, Std.ExtTreeMap.getElem?_insert,
    Std.LawfulEqCmp.compare_eq_iff_eq]
  by_cases hk : name = k
  · subst hk
    simp [hn]
  · simp [hk, Ne.symm hk]

/-! ## Growth -/

theorem appended_sound {t : SymbolTable} (hs : t.Sound) {name : String} (kind : Symbol.Kind)
    (hn : t.names[name]? = none) : (t.appended name kind).Sound where
  ids := by
    intro i s h
    simp only [get?, appended, Array.getElem?_push] at h
    by_cases hi : i = t.symbols.size
    · rw [if_pos hi] at h
      rw [← Option.some.inj h, hi]
    · rw [if_neg hi] at h
      exact hs.ids h
  bound := by
    intro k id h
    simp only [appended, Std.ExtTreeMap.getElem?_insert, Std.LawfulEqCmp.compare_eq_iff_eq] at h
    simp only [size, appended, Array.size_push]
    by_cases hk : name = k
    · rw [if_pos hk] at h
      rw [← Option.some.inj h]
      exact Nat.lt_succ_self _
    · rw [if_neg hk] at h
      exact Nat.lt_succ_of_lt (hs.bound h)
  canonical := by
    intro i s h
    simp only [get?, appended, Array.getElem?_push] at h
    simp only [appended, Std.ExtTreeMap.getElem?_insert, Std.LawfulEqCmp.compare_eq_iff_eq]
    by_cases hi : i = t.symbols.size
    · rw [if_pos hi] at h
      rw [← Option.some.inj h, if_pos rfl, hi]
    · rw [if_neg hi] at h
      have hbound := hs.canonical h
      rw [if_neg, hbound]
      rintro rfl
      rw [hn] at hbound
      exact absurd hbound (by simp)

/-- A refined table has the same symbols but for a kind. -/
theorem get?_refined {t : SymbolTable} {s : Symbol} (kind : Symbol.Kind)
    (hget : t.get? s.id = some s) (i : SymbolId) :
    (t.refined s kind).get? i = if i = s.id then some { s with kind } else t.get? i := by
  simp only [get?, refined, Array.getElem?_setIfInBounds]
  by_cases hi : i = s.id
  · subst hi
    simp [show s.id < t.symbols.size from get?_eq_some_lt hget]
  · simp [hi, Ne.symm hi]

theorem refined_sound {t : SymbolTable} (hs : t.Sound) {s : Symbol} (kind : Symbol.Kind)
    (hget : t.get? s.id = some s) : (t.refined s kind).Sound where
  ids := by
    intro i s' h
    rw [get?_refined kind hget] at h
    by_cases hi : i = s.id
    · rw [if_pos hi] at h
      rw [← Option.some.inj h, hi]
    · rw [if_neg hi] at h
      exact hs.ids h
  bound := by
    intro k id h
    have := hs.bound h
    simpa [size, refined] using this
  canonical := by
    intro i s' h
    rw [get?_refined kind hget] at h
    by_cases hi : i = s.id
    · rw [if_pos hi] at h
      rw [hi, ← Option.some.inj h]
      exact hs.canonical (s := s) hget
    · rw [if_neg hi] at h
      exact hs.canonical h

theorem aliased_sound {t : SymbolTable} (hs : t.Sound) {name target : String} {id : SymbolId}
    (hn : t.names[name]? = none) (ht : t.names[target]? = some id) : (t.aliased name id).Sound where
  ids h := hs.ids h
  bound := by
    intro k i h
    simp only [aliased, Std.ExtTreeMap.getElem?_insert, Std.LawfulEqCmp.compare_eq_iff_eq] at h
    by_cases hk : name = k
    · rw [if_pos hk] at h
      rw [← Option.some.inj h]
      exact hs.bound ht
    · rw [if_neg hk] at h
      exact hs.bound h
  canonical := by
    intro i s h
    have hbound := hs.canonical h
    simp only [aliased, Std.ExtTreeMap.getElem?_insert, Std.LawfulEqCmp.compare_eq_iff_eq]
    rw [if_neg, hbound]
    rintro rfl
    rw [hn] at hbound
    exact absurd hbound (by simp)

theorem Step.sound {t t' : SymbolTable} (hs : t.Sound) (h : t.Step t') : t'.Sound := by
  cases h with
  | same => exact hs
  | append hn => exact appended_sound hs _ hn
  | refine _ hget _ => exact refined_sound hs _ hget
  | byname hn ht => exact aliased_sound hs hn ht

/-- The second table has grown from the first: it is as sound, it has kept every
name with its number, and what undoing gives is not changed by the growth. -/
structure Grows (t t' : SymbolTable) : Prop where
  sound : t.Sound → t'.Sound
  symbols : t.symbols.size ≤ t'.symbols.size
  aliases : t.aliases.size ≤ t'.aliases.size
  refinements : t.refinements.size ≤ t'.refinements.size
  undo : ∀ {mark : Checkpoint}, mark.Within t → t'.rollback mark = t.rollback mark
  names : ∀ {name : String} {id : SymbolId}, t.names[name]? = some id → t'.names[name]? = some id

theorem Grows.refl (t : SymbolTable) : t.Grows t :=
  ⟨id, Nat.le_refl _, Nat.le_refl _, Nat.le_refl _, fun _ => rfl, id⟩

theorem Grows.within {t t' : SymbolTable} (h : t.Grows t') {mark : Checkpoint}
    (hm : mark.Within t) : mark.Within t' :=
  ⟨Nat.le_trans hm.symbols h.symbols, Nat.le_trans hm.aliases h.aliases,
    Nat.le_trans hm.refinements h.refinements⟩

theorem Grows.trans {t u v : SymbolTable} (h : t.Grows u) (h' : u.Grows v) : t.Grows v where
  sound hs := h'.sound (h.sound hs)
  symbols := Nat.le_trans h.symbols h'.symbols
  aliases := Nat.le_trans h.aliases h'.aliases
  refinements := Nat.le_trans h.refinements h'.refinements
  undo hm := (h'.undo (h.within hm)).trans (h.undo hm)
  names hn := h'.names (h.names hn)

theorem Step.grows {t t' : SymbolTable} (h : t.Step t') : t.Grows t' := by
  have hsound (hs : t.Sound) := h.sound hs
  cases h with
  | same => exact .refl t
  | @append name kind hn =>
    refine ⟨hsound, by simp [appended], Nat.le_refl _, Nat.le_refl _,
      fun hm => rollback_appended kind hn hm, fun {k id} hk => ?_⟩
    simp only [appended, Std.ExtTreeMap.getElem?_insert, Std.LawfulEqCmp.compare_eq_iff_eq]
    rw [if_neg, hk]
    rintro rfl
    rw [hn] at hk
    exact absurd hk (by simp)
  | @refine name s incoming kind _ hget _ =>
    exact ⟨hsound, by simp [refined], Nat.le_refl _, by simp [refined],
      fun hm => rollback_refined kind hget hm, id⟩
  | @byname name target i hn ht =>
    refine ⟨hsound, Nat.le_refl _, by simp [aliased], Nat.le_refl _,
      fun hm => rollback_aliased i hn hm, fun {k id} hk => ?_⟩
    simp only [aliased, Std.ExtTreeMap.getElem?_insert, Std.LawfulEqCmp.compare_eq_iff_eq]
    rw [if_neg, hk]
    rintro rfl
    rw [hn] at hk
    exact absurd hk (by simp)

/-- Rolling back a table that has grown gives back the table that it grew from. -/
theorem Grows.rollback_eq {t t' : SymbolTable} (h : t.Grows t') :
    t'.rollback t.checkpoint = t := by
  rw [h.undo (checkpoint_within t), rollback_checkpoint]

theorem declare_grows {t : SymbolTable} (hs : t.Sound) (name : String) (kind : Symbol.Kind) :
    t.Grows (t.declare name kind).2 :=
  (declare_step hs name kind).grows

theorem bindAlias_grows (t : SymbolTable) (target name : String) :
    t.Grows (t.bindAlias target name).2 :=
  (bindAlias_step t target name).grows

theorem declareMany_grows {t : SymbolTable} (hs : t.Sound) (names : List String)
    (kind : Symbol.Kind) : t.Grows (t.declareMany names kind).2 := by
  induction names generalizing t with
  | nil => exact .refl t
  | cons name rest ih =>
    have hstep := declare_grows hs name kind
    rw [declareMany]
    rcases h : t.declare name kind with ⟨e | id, t'⟩ <;> rw [h] at hstep
    · exact hstep
    · exact hstep.trans (ih (hstep.sound hs))

end SymbolTable

end Passage

import Passage.Proofs.Histories
import Passage.Proofs.Symbols

/-!
# What names are bound to

The names of a table are those of its symbols and aliases, and the map of names is to agree with
the two lists that they stand in, although a refinement rewrites a symbol in place and undoing
removes symbols whose numbers are given again. `SymbolTable.Tidy` is the invariant: every entry is
bound to its number under a name of its own, nothing else is bound, and aliases have the numbers of
symbols. It is kept by what one operation can do (`Step.tidy`), and undoing gives a table that was
tidy before, so that it holds after every history (`integrity_of_history`).
-/

namespace Passage

namespace SymbolTable

/-! ## Names and the entries that have them -/

/-- The names of symbols and aliases, with their numbers. -/
def bindings (t : SymbolTable) : List (String × SymbolId) :=
  (t.symbols.toList ++ t.aliases.toList).map fun entry => (entry.name, entry.id)

/-- A map binds the names of a list, each of which stands there once, and no others. -/
structure Binds (names : Std.ExtTreeMap String SymbolId) (bindings : List (String × SymbolId)) :
    Prop where
  bound : ∀ {name : String} {id : SymbolId}, names[name]? = some id ↔ (name, id) ∈ bindings
  once : (bindings.map (·.1)).Nodup

section

variable {names : Std.ExtTreeMap String SymbolId} {known known' : List (String × SymbolId)}
  {name : String}

theorem Binds.notMem (h : Binds names known) (hn : names[name]? = none) :
    name ∉ known.map (·.1) := by
  intro hmem
  obtain ⟨⟨_, id⟩, hentry, rfl⟩ := List.mem_map.mp hmem
  rw [h.bound.mpr hentry] at hn
  exact absurd hn (by simp)

/-- A name that was not bound is bound beside the others, wherever its entry is put. -/
theorem Binds.insert (h : Binds names known) (hn : names[name]? = none) {id : SymbolId}
    (hperm : known'.Perm ((name, id) :: known)) : Binds (names.insert name id) known' where
  bound := by
    intro k i
    simp only [hperm.mem_iff, List.mem_cons, ← h.bound, Std.ExtTreeMap.getElem?_insert,
      Std.LawfulEqCmp.compare_eq_iff_eq, Prod.mk.injEq]
    by_cases hk : name = k
    · subst hk
      simp [hn, eq_comm]
    · simp [hk, Ne.symm hk]
  once := by
    rw [(hperm.map _).nodup_iff, List.map_cons, List.nodup_cons]
    exact ⟨h.notMem hn, h.once⟩

end

/-- A table whose symbols stand at their numbers, whose aliases have the numbers of symbols, and
whose map of names tells both. -/
structure Tidy (t : SymbolTable) : Prop where
  ids : ∀ {i : SymbolId} {s : Symbol}, t.get? i = some s → s.id = i
  targets : ∀ {entry : Symbol}, entry ∈ t.aliases → entry.id < t.size
  names : Binds t.names t.bindings

section

variable {t t' : SymbolTable}

theorem Tidy.mem_bindings (h : t.Tidy) {i : SymbolId} {s : Symbol} (hs : t.get? i = some s) :
    (s.name, i) ∈ t.bindings :=
  List.mem_map.mpr ⟨s, List.mem_append_left _ (Array.mem_toList_iff.mpr
    (Array.mem_of_getElem? hs)), by rw [h.ids hs]⟩

theorem Tidy.sound (h : t.Tidy) : t.Sound where
  ids := h.ids
  bound := by
    intro name id hname
    obtain ⟨entry, hentry, heq⟩ := List.mem_map.mp (h.names.bound.mp hname)
    obtain ⟨rfl, rfl⟩ := Prod.mk.inj heq
    obtain hsymbol | halias := List.mem_append.mp hentry
    · obtain ⟨i, hi⟩ := Array.getElem?_of_mem (Array.mem_toList_iff.mp hsymbol)
      rw [h.ids hi]
      exact get?_eq_some_lt hi
    · exact h.targets (Array.mem_toList_iff.mp halias)
  canonical hs := h.names.bound.mpr (h.mem_bindings hs)

theorem empty_tidy : empty.Tidy where
  ids h := absurd (get?_eq_some_lt h) (Nat.not_lt_zero _)
  targets h := by simp [empty] at h
  names := ⟨by simp [empty, bindings], by simp [empty, bindings]⟩

/-- A refinement changes neither names nor numbers. -/
theorem bindings_refined {s : Symbol} (kind : Symbol.Kind) (hget : t.get? s.id = some s) :
    (t.refined s kind).bindings = t.bindings := by
  have hsymbols : (t.refined s kind).symbols.toList.map (fun entry => (entry.name, entry.id)) =
      t.symbols.toList.map fun entry => (entry.name, entry.id) := by
    apply List.ext_getElem?
    intro i
    have hi := get?_refined kind hget i
    simp only [get?, ← Array.getElem?_toList] at hi
    rw [List.getElem?_map, List.getElem?_map, hi]
    split
    · next h =>
      rw [h, show t.symbols.toList[s.id]? = some s from Array.getElem?_toList.trans hget]
      rfl
    · rfl
  rw [bindings, bindings, List.map_append, List.map_append, hsymbols]
  rfl

theorem bindings_appended (t : SymbolTable) (name : String) (kind : Symbol.Kind) :
    (t.appended name kind).bindings.Perm ((name, t.size) :: t.bindings) := by
  simp only [bindings, appended, Array.toList_push, List.append_assoc, List.singleton_append]
  exact List.perm_middle.map _

theorem bindings_aliased (t : SymbolTable) (name : String) (id : SymbolId) :
    (t.aliased name id).bindings.Perm ((name, id) :: t.bindings) := by
  simp only [bindings, aliased, Array.toList_push, ← List.append_assoc]
  exact List.perm_append_singleton _ _ |>.map _

theorem Step.tidy (h : t.Tidy) (hstep : t.Step t') : t'.Tidy := by
  have hsound := hstep.sound h.sound
  cases hstep with
  | same => exact h
  | append hn =>
    refine ⟨hsound.ids, fun hentry => ?_, h.names.insert hn (bindings_appended t _ _)⟩
    simp only [size, appended, Array.size_push]
    exact Nat.lt_succ_of_lt (h.targets hentry)
  | refine _ hget _ =>
    refine ⟨hsound.ids, fun hentry => ?_, ?_⟩
    · simp only [size, refined, Array.size_setIfInBounds]
      exact h.targets hentry
    · rw [bindings_refined _ hget]
      exact h.names
  | byname hn ht =>
    refine ⟨hsound.ids, fun hentry => ?_, h.names.insert hn (bindings_aliased t _ _)⟩
    obtain hold | rfl := Array.mem_push.mp hentry
    · exact h.targets hold
    · exact h.sound.bound ht

/-! ## Calls, and their undoing -/

/-- What a table is asked for. -/
inductive Op where
  | declare (name : String) (kind : Symbol.Kind)
  | bindAlias (target name : String)

def answer (t : SymbolTable) : Op → Except SymbolError SymbolId × SymbolTable
  | .declare name kind => t.declare name kind
  | .bindAlias target name => t.bindAlias target name

/-- The table with its calls, marks and undoing; a call that fails leaves what it leaves. -/
def undoable : Undoable SymbolTable Op Checkpoint where
  call t op := (t.answer op).2
  mark := checkpoint
  back := rollback

theorem answer_step (h : t.Tidy) (op : Op) : t.Step (t.answer op).2 := by
  cases op with
  | declare name kind => exact declare_step h.sound name kind
  | bindAlias target name => exact bindAlias_step t target name

theorem bindAlias_error (t : SymbolTable) {target name : String} {e : SymbolError}
    (h : (t.bindAlias target name).1 = .error e) : (t.bindAlias target name).2 = t := by
  revert h
  unfold bindAlias
  rcases t.names[target]? with _ | id
  · exact fun _ => rfl
  · rcases t.names[name]? with _ | existing
    · exact fun h => absurd h (by simp)
    · by_cases he : existing = id <;> simp [he]

theorem answer_error (h : t.Tidy) {op : Op} {e : SymbolError} (he : (t.answer op).1 = .error e) :
    (t.answer op).2 = t := by
  cases op with
  | declare name kind => exact declare_error h.sound he
  | bindAlias target name => exact bindAlias_error t he

/-- Undoing gives back the very table, for a table only grows. -/
theorem undoable_lawful :
    undoable.Lawful Grows (fun t u => t = u ∧ u.Tidy) (fun m u => m = u.checkpoint ∧ u.Tidy) where
  refl := .refl
  trans := .trans
  call := by
    rintro t _ ⟨rfl, h⟩ op
    have hstep := answer_step h op
    exact ⟨_, hstep.grows, rfl, hstep.tidy h⟩
  mark := by
    rintro t _ ⟨rfl, h⟩
    exact ⟨rfl, h⟩
  -- Only the mark says which table it was; the table undone is any that has grown from it.
  back := by
    rintro _ _ t t' ⟨rfl, -⟩ ⟨rfl, h⟩ hgrows
    exact ⟨hgrows.rollback_eq, h⟩

theorem run_tidy (h : t.Tidy) (deeds : List (Deed Op)) :
    (undoable.run t deeds).Tidy ∧ t.Grows (undoable.run t deeds) := by
  obtain ⟨u, hgrows, rfl, htidy⟩ := undoable_lawful.run ⟨rfl, h⟩ deeds
  exact ⟨htidy, hgrows⟩

/-! ## After every history -/

/-- What holds of a table's names. -/
structure Integrity (t : SymbolTable) : Prop where
  /-- A symbol stands at its number. -/
  ids : ∀ (i : SymbolId) (s : Symbol), t.symbols[i]? = some s → s.id = i
  /-- The names of symbols and aliases are bound to their numbers, and no others are. -/
  bound : ∀ (name : String) (id : SymbolId), t.names[name]? = some id ↔
    (∃ s ∈ t.symbols, s.name = name ∧ s.id = id) ∨ ∃ a ∈ t.aliases, a.name = name ∧ a.id = id
  /-- No two symbols or aliases have one name. -/
  once : ((t.symbols.toList ++ t.aliases.toList).map (·.name)).Nodup
  /-- An alias has the number of a symbol, which is found and declared through it. -/
  aliases : ∀ a ∈ t.aliases, ∃ s, t.get? a.id = some s ∧ t.lookup? a.name = some s ∧
    ∀ kind, t.declare a.name kind = t.refine s kind ∧
      t.declare a.name kind = t.declare s.name kind
  /-- What fails changes nothing. -/
  fails : ∀ (op : Op) (e : SymbolError), (t.answer op).1 = .error e → (t.answer op).2 = t

theorem declare_of_lookup? {name : String} {s : Symbol} (h : t.lookup? name = some s)
    (kind : Symbol.Kind) : t.declare name kind = t.refine s kind := by
  rw [declare, h]

theorem Tidy.integrity (h : t.Tidy) : t.Integrity where
  ids _ _ := h.ids
  bound name id := by
    rw [h.names.bound, bindings, List.map_append, List.mem_append]
    simp
  once := by
    have := h.names.once
    rwa [bindings, List.map_map] at this
  aliases a ha := by
    obtain ⟨s, hs⟩ := get?_of_lt (h.targets ha)
    have hname : t.names[a.name]? = some a.id :=
      h.names.bound.mpr (List.mem_map.mpr
        ⟨a, List.mem_append_right _ (Array.mem_toList_iff.mpr ha), rfl⟩)
    have hfound := lookup?_of_names hname hs
    have hcanonical := lookup?_of_names (h.sound.canonical hs) hs
    refine ⟨s, hs, hfound, fun kind => ⟨declare_of_lookup? hfound kind, ?_⟩⟩
    rw [declare_of_lookup? hfound, declare_of_lookup? hcanonical]
  fails _ _ := answer_error h

/-- Whatever is declared, aliased and undone, the names of the table are in order, and after any
further history it can be rolled back to the very table that it was. -/
theorem integrity_of_history (before after : List (Deed Op)) :
    (undoable.run empty before).Integrity ∧
    (undoable.run (undoable.run empty before) after).rollback
        (undoable.run empty before).checkpoint = undoable.run empty before := by
  have htidy := (run_tidy empty_tidy before).1
  exact ⟨htidy.integrity, (run_tidy htidy after).2.rollback_eq⟩

end

end SymbolTable

end Passage

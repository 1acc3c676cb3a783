import Passage.Proofs.Symbols

/-!
# Names that a table knows

A table knows a name by the kind and the number of its symbol. Names of built-in functions,
compiler functions and tokens are settled: while further names are given pointers, they stay
known (`Knows.declare`), and using such a name in a rule changes nothing
(`Knows.declare_unknown`, `Knows.declare_function`).
-/

namespace Passage

namespace SymbolTable

/-- The name is bound to a symbol of the kind and the number. -/
def Knows (t : SymbolTable) (name : String) (kind : Symbol.Kind) (id : SymbolId) : Prop :=
  ∃ s, t.lookup? name = some s ∧ s.kind = kind ∧ s.id = id

namespace Knows

variable {t t' : SymbolTable} {name : String} {kind : Symbol.Kind} {id : SymbolId}

theorem get? (h : t.Knows name kind id) (hs : t.Sound) :
    ∃ s, t.get? id = some s ∧ s.kind = kind ∧ s.id = id := by
  obtain ⟨s, hlookup, hkind, rfl⟩ := h
  exact ⟨s, (names_of_lookup? hs hlookup).2, hkind, rfl⟩

theorem kindOf? (h : t.Knows name kind id) (hs : t.Sound) : t.kindOf? id = some kind := by
  obtain ⟨s, hget, hkind, -⟩ := h.get? hs
  rw [SymbolTable.kindOf?, hget, ← hkind]
  rfl

/-- A name is known in one way only. -/
theorem unique {kind' : Symbol.Kind} {id' : SymbolId} (h : t.Knows name kind id)
    (h' : t.Knows name kind' id') : kind = kind' ∧ id = id' := by
  obtain ⟨s, hlookup, rfl, rfl⟩ := h
  obtain ⟨s', hlookup', rfl, rfl⟩ := h'
  obtain rfl := Option.some.inj (hlookup.symm.trans hlookup')
  exact ⟨rfl, rfl⟩

/-- A symbol of the table is known by its own name. -/
theorem of_get? (hs : t.Sound) {s : Symbol} (h : t.get? id = some s) : t.Knows s.name s.kind id :=
  ⟨s, lookup?_of_names (hs.canonical h) h, rfl, hs.ids h⟩

/-- A known name may be declared again under a kind that says no more. -/
theorem declare_same (h : t.Knows name kind id) {incoming : Symbol.Kind}
    (hrefine : kind.refine incoming = some kind) : t.declare name incoming = (.ok id, t) := by
  obtain ⟨s, hlookup, rfl, rfl⟩ := h
  rw [declare, hlookup]
  dsimp only
  rw [refine, hrefine]
  dsimp only
  rw [if_pos rfl]

/-- A known name may be used without a kind. -/
theorem declare_unknown (h : t.Knows name kind id) : t.declare name .unknown = (.ok id, t) :=
  h.declare_same (by cases kind <;> rfl)

/-- A built-in function may be used as a function. -/
theorem declare_function (h : t.Knows name .builtInFunction id) :
    t.declare name .function = (.ok id, t) :=
  h.declare_same rfl

end Knows

/-! ## Settled kinds -/

/-- The kinds of names that the rules of a world may rely on. -/
def IsSettled (kind : Symbol.Kind) : Prop :=
  kind = .builtInFunction ∨ kind = .compilerFunction ∨ kind = .token

/-- The kinds of names whose symbols are given pointers. -/
def IsGiven (kind : Symbol.Kind) : Prop :=
  kind = .builtInFunction ∨ kind = .token ∨ kind = .setting

/-- Declared as what is given a pointer, a name is just that. -/
theorem refine_eq {known incoming refined : Symbol.Kind} (hincoming : IsGiven incoming)
    (h : known.refine incoming = some refined) :
    refined = incoming ∧ (IsSettled known → known = incoming) := by
  unfold IsSettled
  obtain rfl | rfl | rfl := hincoming <;> revert h <;> cases known <;> cases refined <;> decide

/-- A declaration that succeeds makes the name known under the kind that all kinds are
refined to. -/
theorem declare_knows_of {t t' : SymbolTable} (hs : t.Sound) {name : String} {kind : Symbol.Kind}
    {id : SymbolId}
    (hkind : ∀ {known refined : Symbol.Kind}, known.refine kind = some refined → refined = kind)
    (h : t.declare name kind = (.ok id, t')) : t'.Knows name kind id := by
  obtain ⟨e, h'⟩ | ⟨s, hlookup, hrefine, h'⟩ | ⟨s, refined, hlookup, hrefine, -, h'⟩ |
    ⟨hname, -, h'⟩ := declare_cases hs name kind <;> rw [h'] at h <;> cases h
  · exact ⟨s, hlookup, hkind hrefine, rfl⟩
  · obtain ⟨hbound, hget⟩ := names_of_lookup? hs hlookup
    obtain rfl := hkind hrefine
    refine ⟨{ s with kind := refined }, lookup?_of_names hbound ?_, rfl, rfl⟩
    rw [get?_refined _ hget, if_pos rfl]
  · have hbound : (t.appended name kind).names[name]? = some t.size :=
      Std.ExtTreeMap.getElem?_insert_self
    exact ⟨⟨name, t.size, kind⟩, lookup?_of_names hbound Array.getElem?_push_size, rfl, rfl⟩

/-- A declaration that succeeds makes the name known. -/
theorem declare_knows {t t' : SymbolTable} (hs : t.Sound) {name : String} {kind : Symbol.Kind}
    {id : SymbolId} (hkind : IsGiven kind)
    (h : t.declare name kind = (.ok id, t')) : t'.Knows name kind id :=
  declare_knows_of hs (fun hrefine => (refine_eq hkind hrefine).1) h

/-- A known name stays known while another one is declared, under a kind that would not refine
its own. -/
theorem Knows.declare_of {t : SymbolTable} (hs : t.Sound) {name name' : String}
    {kind kind' : Symbol.Kind} {id : SymbolId} (h : t.Knows name kind id)
    (hkeeps : ∀ refined, kind.refine kind' = some refined → refined = kind) :
    (t.declare name' kind').2.Knows name kind id := by
  obtain ⟨s, hlookup, rfl, rfl⟩ := h
  obtain ⟨hbound, hget⟩ := names_of_lookup? hs hlookup
  refine ⟨s, lookup?_of_names ((declare_grows hs name' kind').names hbound) ?_, rfl, rfl⟩
  obtain ⟨e, h'⟩ | ⟨_, -, -, h'⟩ | ⟨s', refined, hlookup', hrefine, hne, h'⟩ | ⟨-, -, h'⟩ :=
    declare_cases hs name' kind' <;> rw [h']
  · exact hget
  · exact hget
  · obtain ⟨-, hget'⟩ := names_of_lookup? hs hlookup'
    rw [get?_refined _ hget']
    by_cases hid : s.id = s'.id
    · -- The symbol itself would have been refined to what it is.
      obtain rfl : s = s' := by
        rw [hid, hget'] at hget
        exact (Option.some.inj hget).symm
      exact absurd (hkeeps refined hrefine) hne
    · rw [if_neg hid, hget]
  · show (t.symbols.push _)[s.id]? = some s
    rw [Array.getElem?_push_lt (get?_eq_some_lt hget)]
    exact (Array.getElem?_eq_getElem _).symm.trans hget

/-- Settled names stay known while names that are given pointers are declared. -/
theorem Knows.declare {t t' : SymbolTable} (hs : t.Sound) {name name' : String}
    {kind kind' : Symbol.Kind} {id id' : SymbolId} (h : t.Knows name kind id)
    (hsettled : IsSettled kind) (hkind : IsGiven kind')
    (hdeclare : t.declare name' kind' = (.ok id', t')) : t'.Knows name kind id := by
  have hknown : (t.declare name' kind').2.Knows name kind id := by
    refine h.declare_of hs fun refined hrefine => ?_
    obtain ⟨hrefined, hsame⟩ := refine_eq hkind hrefine
    exact hrefined.trans (hsame hsettled).symm
  rwa [hdeclare] at hknown

end SymbolTable

end Passage

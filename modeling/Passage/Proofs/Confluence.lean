import Passage.Proofs.Lasting

/-!
# Declarations in any order

What a declaration comes to depends on what is known of the name, and not all declarations
commute: a token may be declared as a scripted function, but not the other way round. Among
declarations under some kinds this does not happen (`Symbol.Kind.Confluent`): what a name can come
to be it can also come to be later.

`SymbolTable.Precedes` compares tables by what they know of each name, not by their numbers. All
tables of a run of declarations precede the last one, and a declaration of that run succeeds on
every table that precedes it, and leaves one that does (`SymbolTable.declare_again`). So the
declarations may be made in any order.
-/

namespace Passage

/-! ## Kinds -/

namespace Symbol.Kind

variable {may : Symbol.Kind → Prop}

/-- A symbol of one kind stays or comes to be one of the other under some declaration. -/
inductive Leads (may : Symbol.Kind → Prop) : Symbol.Kind → Symbol.Kind → Prop
  | same (kind : Symbol.Kind) : Leads may kind kind
  | refined {known incoming kind : Symbol.Kind} : may incoming →
      known.refine incoming = some kind → Leads may known kind

/-- The order of declarations under these kinds does not matter. -/
structure Confluent (may : Symbol.Kind → Prop) : Prop where
  trans : ∀ {kind kind' last : Symbol.Kind}, kind.Leads may kind' → kind'.Leads may last →
    kind.Leads may last
  antisymm : ∀ {kind kind' : Symbol.Kind}, kind.Leads may kind' → kind'.Leads may kind →
    kind = kind'
  /-- A name without a kind may be declared. -/
  fresh : ∀ {incoming : Symbol.Kind}, may incoming → refine .unknown incoming = some incoming
  /-- What was declared once may be declared again at last, and changes nothing. -/
  settled : ∀ {known incoming kind last : Symbol.Kind}, may incoming →
    known.refine incoming = some kind → kind.Leads may last → last.refine incoming = some last
  /-- What changes nothing at last may be declared before. -/
  before : ∀ {known incoming last : Symbol.Kind}, may incoming → known.Leads may last →
    last.refine incoming = some last →
    ∃ kind, known.refine incoming = some kind ∧ kind.Leads may last

/-- The kinds under which headers of scripted functions declare names. -/
def OfHeader (kind : Symbol.Kind) : Prop := kind = .scriptedFunction ∨ kind = .parameter

/-- The kinds under which rules declare names. -/
def OfRule (kind : Symbol.Kind) : Prop := kind = .unknown ∨ kind = .function

namespace OfHeader

/-- A header makes a name just what it declares it as. -/
theorem eq_of_refine {known incoming kind : Symbol.Kind} (h : OfHeader incoming)
    (hrefine : known.refine incoming = some kind) : kind = incoming := by
  obtain rfl | rfl := h <;> cases known <;> cases hrefine <;> rfl

theorem refine_self {kind : Symbol.Kind} (h : OfHeader kind) : kind.refine kind = some kind := by
  obtain rfl | rfl := h <;> rfl

/-- What a header has declared is not declared as anything else. -/
theorem eq_of_leads {kind last : Symbol.Kind} (h : OfHeader kind) (hl : kind.Leads OfHeader last) :
    kind = last := by
  obtain _ | ⟨hincoming, hrefine⟩ := hl
  · rfl
  · obtain rfl | rfl := h <;> obtain rfl | rfl := hincoming <;> cases hrefine <;> rfl

theorem leads {known last : Symbol.Kind} (h : known.Leads OfHeader last) :
    known = last ∨ OfHeader last ∧ known.refine last = some last := by
  obtain _ | ⟨hincoming, hrefine⟩ := h
  · exact .inl rfl
  · obtain rfl := hincoming.eq_of_refine hrefine
    exact .inr ⟨hincoming, hrefine⟩

theorem confluent : Confluent OfHeader where
  trans h h' := by
    obtain rfl | ⟨hkind, -⟩ := leads h
    · exact h'
    · exact hkind.eq_of_leads h' ▸ h
  antisymm h h' := by
    obtain rfl | ⟨hkind, -⟩ := leads h
    · rfl
    · exact (hkind.eq_of_leads h').symm
  fresh := by
    rintro _ (rfl | rfl) <;> rfl
  settled hincoming hrefine hl := by
    obtain rfl := hincoming.eq_of_refine hrefine
    obtain rfl := hincoming.eq_of_leads hl
    exact hincoming.refine_self
  before {known incoming last} hincoming hl hrefine := by
    obtain rfl := hincoming.eq_of_refine hrefine
    obtain rfl | ⟨-, hfirst⟩ := leads hl
    · exact ⟨known, hrefine, .same _⟩
    · exact ⟨last, hfirst, .same _⟩

end OfHeader

namespace OfRule

theorem refine_unknown (kind : Symbol.Kind) : kind.refine .unknown = some kind := by
  cases kind <;> rfl

/-- Rules find out of names that nothing is known of that they name functions. -/
theorem leads {known last : Symbol.Kind} (h : known.Leads OfRule last) :
    known = last ∨ known = .unknown ∧ last = .function := by
  obtain _ | ⟨rfl | rfl, hrefine⟩ := h
  · exact .inl rfl
  · exact .inl (Option.some.inj ((refine_unknown known).symm.trans hrefine))
  · cases known <;> cases hrefine <;> first | exact .inl rfl | exact .inr ⟨rfl, rfl⟩

theorem confluent : Confluent OfRule where
  trans h h' := by
    obtain rfl | ⟨rfl, rfl⟩ := leads h
    · exact h'
    · obtain rfl | ⟨hkind, -⟩ := leads h'
      · exact h
      · cases hkind
  antisymm h h' := by
    obtain rfl | ⟨rfl, rfl⟩ := leads h
    · rfl
    · obtain hkind | ⟨hkind, -⟩ := leads h' <;> cases hkind
  fresh := by
    rintro _ (rfl | rfl) <;> rfl
  settled {known incoming kind last} hincoming hrefine hl := by
    obtain rfl | rfl := hincoming
    · exact refine_unknown last
    · obtain rfl | ⟨rfl, rfl⟩ := leads hl
      · cases known <;> cases hrefine <;> rfl
      · rfl
  before {known incoming last} hincoming hl hrefine := by
    obtain rfl | rfl := hincoming
    · exact ⟨known, refine_unknown known, hl⟩
    · obtain rfl | ⟨rfl, rfl⟩ := leads hl
      · exact ⟨known, hrefine, .same _⟩
      · exact ⟨.function, rfl, .same _⟩

end OfRule

end Symbol.Kind

/-! ## What is known of a name -/

namespace SymbolTable

variable {t t' u T : SymbolTable} {name : String} {kind : Symbol.Kind} {s : Symbol}

/-- The name of the symbol that a name is bound to. A name that is not bound stands for itself. -/
def title (t : SymbolTable) (name : String) : String :=
  match t.lookup? name with
  | some s => s.name
  | none => name

/-- The kind of the symbol that a name is bound to. Of other names nothing is known. -/
def standing (t : SymbolTable) (name : String) : Symbol.Kind :=
  match t.lookup? name with
  | some s => s.kind
  | none => .unknown

@[simp] theorem title_some (h : t.lookup? name = some s) : t.title name = s.name := by
  rw [title, h]

@[simp] theorem title_none (h : t.lookup? name = none) : t.title name = name := by
  rw [title, h]

@[simp] theorem standing_some (h : t.lookup? name = some s) : t.standing name = s.kind := by
  rw [standing, h]

@[simp] theorem standing_none (h : t.lookup? name = none) : t.standing name = .unknown := by
  rw [standing, h]

theorem lookup?_of_get? (ht : t.Sound) {id : SymbolId} (h : t.get? id = some s) :
    t.lookup? s.name = some s :=
  lookup?_of_names (ht.canonical h) h

/-- A name and that of its symbol are bound to the same. -/
theorem lookup?_title (ht : t.Sound) (name : String) :
    t.lookup? (t.title name) = t.lookup? name := by
  rcases hl : t.lookup? name with _ | s
  · rw [title_none hl, hl]
  · rw [title_some hl]
    exact lookup?_of_get? ht (names_of_lookup? ht hl).2

/-- Names with one title stand for one symbol. -/
theorem lookup?_eq_of_title (ht : t.Sound) {other : String} (h : t.title other = t.title name) :
    t.lookup? other = t.lookup? name := by
  rw [← lookup?_title ht, h, lookup?_title ht]

theorem standing_eq_of_title (ht : t.Sound) {other : String} (h : t.title other = t.title name) :
    t.standing other = t.standing name := by
  rw [standing, standing, lookup?_eq_of_title ht h]

/-! ## What a declaration comes to -/

theorem lookup?_refined (ht : t.Sound) (kind : Symbol.Kind) (hget : t.get? s.id = some s)
    (other : String) :
    (t.refined s kind).lookup? other =
      if t.title other = s.name then some { s with kind } else t.lookup? other := by
  have hown := lookup?_of_get? ht hget
  by_cases htitle : t.title other = s.name
  · have hother : t.lookup? other = some s := by rw [← lookup?_title ht, htitle, hown]
    rw [if_pos htitle]
    have hbound := (names_of_lookup? ht hother).1
    refine lookup?_of_names (t := t.refined s kind) hbound ?_
    rw [get?_refined kind hget, if_pos rfl]
  · rw [if_neg htitle, lookup?, lookup?]
    show t.names[other]?.bind (t.refined s kind).get? = _
    refine Option.bind_congr fun id hid => ?_
    rw [get?_refined kind hget, if_neg]
    rintro rfl
    exact htitle (title_some (lookup?_of_names hid hget))

theorem lookup?_appended (ht : t.Sound) (name : String) (kind : Symbol.Kind) (other : String) :
    (t.appended name kind).lookup? other =
      if other = name then some ⟨name, t.size, kind⟩ else t.lookup? other := by
  have hnames : (t.appended name kind).names[other]? =
      if name = other then some t.size else t.names[other]? := by
    simp only [appended, Std.ExtTreeMap.getElem?_insert, Std.LawfulEqCmp.compare_eq_iff_eq]
    rfl
  rw [lookup?, hnames]
  by_cases hother : other = name
  · rw [if_pos hother.symm, if_pos hother]
    exact Array.getElem?_push_size
  · rw [if_neg (Ne.symm hother), if_neg hother, lookup?]
    refine Option.bind_congr fun id hid => ?_
    have hlt : id < t.symbols.size := ht.bound hid
    show (t.symbols.push _)[id]? = t.symbols[id]?
    rw [Array.getElem?_push_lt hlt]
    exact (Array.getElem?_eq_getElem hlt).symm

/-- What a declaration that succeeds comes to: the name, and every other name of its symbol, is
found to be of a kind, and nothing else is. -/
structure Declares (t : SymbolTable) (name : String) (kind : Symbol.Kind) (id : SymbolId)
    (t' : SymbolTable) (found : Symbol.Kind) : Prop where
  refine : (t.standing name).refine kind = some found
  standing : ∀ other,
    t'.standing other = if t.title other = t.title name then found else t.standing other
  title : ∀ other, t'.title other = t.title other
  bound : ∀ other, (t'.lookup? other).isSome ↔ (t.lookup? other).isSome ∨ other = name
  named : t'.nameOf? id = some (t.title name)
  room : t'.size ≤ max t.size capacity

theorem declare_declares (ht : t.Sound) (hkind : Symbol.Kind.refine .unknown kind = some kind)
    {id : SymbolId} (h : t.declare name kind = (.ok id, t')) :
    ∃ found, Declares t name kind id t' found := by
  obtain ⟨e, hd⟩ | ⟨s, hlookup, hrefine, hd⟩ | ⟨s, found, hlookup, hrefine, -, hd⟩ |
    ⟨hname, hroom, hd⟩ := declare_cases ht name kind <;> rw [hd] at h <;> cases h
  · have htitle := title_some hlookup
    refine ⟨s.kind, ?_, fun other => ?_, fun _ => rfl, fun other => ?_, ?_, Nat.le_max_left _ _⟩
    · rwa [standing_some hlookup]
    · split
      · next hsame => rw [standing_eq_of_title ht hsame, standing_some hlookup]
      · rfl
    · refine ⟨.inl, fun hbound => hbound.elim id fun hother => ?_⟩
      rw [hother, hlookup]
      rfl
    · rw [nameOf?, (names_of_lookup? ht hlookup).2, htitle]
      rfl
  · have htitle := title_some hlookup
    have hget := (names_of_lookup? ht hlookup).2
    have hafter := lookup?_refined ht found hget
    refine ⟨found, ?_, fun other => ?_, fun other => ?_, fun other => ?_, ?_, ?_⟩
    · rwa [standing_some hlookup]
    · rw [htitle, SymbolTable.standing, hafter]
      by_cases hsame : t.title other = s.name
      · rw [if_pos hsame, if_pos hsame]
      · rw [if_neg hsame, if_neg hsame]
        rfl
    · rw [SymbolTable.title, hafter]
      by_cases hsame : t.title other = s.name
      · rw [if_pos hsame, hsame]
      · rw [if_neg hsame]
        rfl
    · rw [hafter]
      by_cases hsame : t.title other = s.name
      · rw [if_pos hsame, lookup?_eq_of_title ht (hsame.trans htitle.symm), hlookup]
        exact ⟨fun _ => .inl rfl, fun _ => rfl⟩
      · rw [if_neg hsame]
        refine ⟨.inl, fun hbound => hbound.elim id fun heq => absurd ?_ hsame⟩
        rw [heq, htitle]
    · rw [nameOf?, get?_refined _ hget, if_pos rfl, htitle]
      rfl
    · rw [size, refined, Array.size_setIfInBounds]
      exact Nat.le_max_left _ _
  · have hlookup : t.lookup? name = none := by rw [lookup?, hname, Option.bind_none]
    have htitle := title_none hlookup
    have hafter := lookup?_appended ht name kind
    -- No symbol has the name.
    have hother : ∀ {other}, other ≠ name → t.title other ≠ name := by
      intro other hne htitle
      rcases hl : t.lookup? other with _ | s
      · exact hne ((title_none hl).symm.trans htitle)
      · have hown := lookup?_title ht other
        rw [htitle, hlookup, hl] at hown
        cases hown
    refine ⟨kind, ?_, fun other => ?_, fun other => ?_, fun other => ?_, ?_, ?_⟩
    · rwa [standing_none hlookup]
    · rw [htitle, SymbolTable.standing, hafter]
      by_cases heq : other = name
      · rw [if_pos heq, heq, if_pos htitle]
      · rw [if_neg heq, if_neg (hother heq)]
        rfl
    · rw [SymbolTable.title, hafter]
      by_cases heq : other = name
      · rw [if_pos heq, heq, htitle]
      · rw [if_neg heq]
        rfl
    · rw [hafter]
      by_cases heq : other = name
      · rw [if_pos heq]
        exact ⟨fun _ => .inr heq, fun _ => rfl⟩
      · rw [if_neg heq]
        exact ⟨.inl, fun hbound => hbound.resolve_right heq⟩
    · rw [htitle, nameOf?]
      show (Option.map _ ((t.symbols.push _)[t.symbols.size]?)) = _
      rw [Array.getElem?_push_size]
      rfl
    · rw [size, appended, Array.size_push]
      exact Nat.le_trans hroom (Nat.le_max_right _ _)

/-- A declaration succeeds where the kinds agree and there is room. -/
theorem declare_of_refine {found : Symbol.Kind} (hkind : (t.standing name).refine kind = some found)
    (hroom : t.lookup? name = none → t.size < capacity) :
    ∃ id t', t.declare name kind = (.ok id, t') := by
  rcases hlookup : t.lookup? name with _ | s
  · refine ⟨t.size, t.appended name kind, ?_⟩
    rw [declare, hlookup]
    exact if_pos (hroom hlookup)
  · rw [standing_some hlookup] at hkind
    rw [declare, hlookup]
    dsimp only
    rw [SymbolTable.refine, hkind]
    dsimp only
    split <;> exact ⟨_, _, rfl⟩

/-! ## Tables of one run -/

/-- All that is known from the first table is known from the second one, where kinds may have been
refined and names may have been added. -/
structure Precedes (may : Symbol.Kind → Prop) (t T : SymbolTable) : Prop where
  title : ∀ name, T.title name = t.title name
  standing : ∀ name, (t.standing name).Leads may (T.standing name)
  bound : ∀ name, (t.lookup? name).isSome → (T.lookup? name).isSome
  room : T.size ≤ max t.size capacity

variable {may : Symbol.Kind → Prop}

namespace Precedes

theorem refl (may : Symbol.Kind → Prop) (t : SymbolTable) : t.Precedes may t :=
  ⟨fun _ => rfl, fun _ => .same _, fun _ => id, Nat.le_max_left _ _⟩

theorem trans (hmay : Symbol.Kind.Confluent may) (h : t.Precedes may u) (h' : u.Precedes may T) :
    t.Precedes may T where
  title name := (h'.title name).trans (h.title name)
  standing name := hmay.trans (h.standing name) (h'.standing name)
  bound name hname := h'.bound name (h.bound name hname)
  room := by
    have hroom := h.room
    have hroom' := h'.room
    omega

/-- Tables that precede each other know the same. -/
theorem standing_eq (hmay : Symbol.Kind.Confluent may) (h : t.Precedes may u)
    (h' : u.Precedes may t) (name : String) : t.standing name = u.standing name :=
  hmay.antisymm (h.standing name) (h'.standing name)

/-- As much is known in one as in the other, whatever may be declared next. -/
theorem of_both (hmay : Symbol.Kind.Confluent may) (h : u.Precedes may T) (h' : T.Precedes may u)
    (may' : Symbol.Kind → Prop) : u.Precedes may' T where
  title := h.title
  standing name := by
    rw [h.standing_eq hmay h']
    exact .same _
  bound := h.bound
  room := h.room

theorem kind_eq (hmay : Symbol.Kind.Confluent may) (h : t.Precedes may u) (h' : u.Precedes may t)
    (name : String) : (t.lookup? name).map (·.kind) = (u.lookup? name).map (·.kind) := by
  have hstanding := h.standing_eq hmay h' name
  have hbound := h.bound name
  have hbound' := h'.bound name
  rcases hl : t.lookup? name with _ | s <;> rcases hl' : u.lookup? name with _ | s'
  · rfl
  · rw [hl, hl'] at hbound'
    cases hbound' rfl
  · rw [hl, hl'] at hbound
    cases hbound rfl
  · rw [standing_some hl, standing_some hl'] at hstanding
    exact congrArg some hstanding

end Precedes

/-- The names of the symbols. -/
def titles (t : SymbolTable) : List String := t.symbols.toList.map (·.name)

theorem mem_titles_iff (ht : t.Sound) :
    name ∈ t.titles ↔ (t.lookup? name).isSome ∧ t.title name = name := by
  rw [titles, List.mem_map]
  constructor
  · rintro ⟨s, hs, rfl⟩
    obtain ⟨id, hid⟩ := Array.mem_iff_getElem?.mp (Array.mem_toList_iff.mp hs)
    have hlookup := lookup?_of_get? ht hid
    exact ⟨by rw [hlookup]; rfl, title_some hlookup⟩
  · rintro ⟨hsome, htitle⟩
    obtain ⟨s, hlookup⟩ := Option.isSome_iff_exists.mp hsome
    rw [title_some hlookup] at htitle
    have hmem := Array.mem_of_getElem? (names_of_lookup? ht hlookup).2
    exact ⟨s, Array.mem_toList_iff.mpr hmem, htitle⟩

theorem titles_nodup (ht : t.Sound) : t.titles.Nodup := by
  have hname : ∀ i, t.titles[i]? = t.nameOf? i := fun i => by
    rw [titles, List.getElem?_map, Array.getElem?_toList]
    rfl
  refine List.nodup_iff_getElem?_ne_getElem?.mpr fun i j hij hj heq => ?_
  rw [titles, List.length_map, Array.length_toList] at hj
  obtain ⟨s, hget⟩ := get?_of_lt hj
  have hown : t.nameOf? j = some s.name := by rw [nameOf?, hget]; rfl
  rw [hname, hname, hown] at heq
  obtain ⟨s', hget', hsame⟩ := Option.map_eq_some_iff.mp heq
  -- The name is bound to the number of its symbol.
  have hbound := ht.canonical hget'
  rw [hsame, ht.canonical hget] at hbound
  exact Nat.ne_of_gt hij (Option.some.inj hbound)

/-- A name that is still to come has room. -/
theorem Precedes.size_lt (hu : u.Sound) (hT : T.Sound) (h : u.Precedes may T)
    (hnew : u.lookup? name = none) (hbound : (T.lookup? name).isSome) : u.size < capacity := by
  have hnodup : (name :: u.titles).Nodup := by
    refine List.nodup_cons.mpr ⟨fun hmem => ?_, titles_nodup hu⟩
    have hsome := ((mem_titles_iff hu).mp hmem).1
    rw [hnew] at hsome
    cases hsome
  have hsub : name :: u.titles ⊆ T.titles := by
    refine List.cons_subset.mpr ⟨?_, fun other hother => ?_⟩
    · exact (mem_titles_iff hT).mpr ⟨hbound, (h.title name).trans (title_none hnew)⟩
    · obtain ⟨hsome, htitle⟩ := (mem_titles_iff hu).mp hother
      exact (mem_titles_iff hT).mpr ⟨h.bound other hsome, (h.title other).trans htitle⟩
  have hlength := (List.subperm_of_subset hnodup hsub).length_le
  simp only [titles, List.length_cons, List.length_map, Array.length_toList] at hlength
  have hroom := h.room
  rw [size, size] at *
  omega

/-! ## Declaring again -/

/-- The second table has come from the first by declarations under some kinds. -/
structure Onward (may : Symbol.Kind → Prop) (t t' : SymbolTable) : Prop
    extends t.Grows t', Precedes may t t' where
  persists : t.Persists t'

theorem onward_advances (hmay : Symbol.Kind.Confluent may) : Advances (Onward may) where
  refl t := ⟨.refl t, .refl may t, .refl t⟩
  trans h h' := ⟨h.toGrows.trans h'.toGrows, h.toPrecedes.trans hmay h'.toPrecedes,
    h.persists.trans h'.persists⟩

theorem Declares.precedes {id : SymbolId} {found : Symbol.Kind}
    (h : Declares t name kind id t' found)
    (ht : t.Sound) (hkind : may kind) : t.Precedes may t' where
  title := h.title
  standing other := by
    rw [h.standing]
    by_cases hsame : t.title other = t.title name
    · rw [if_pos hsame, standing_eq_of_title ht hsame]
      exact .refined hkind h.refine
    · rw [if_neg hsame]
      exact .same _
  bound other hother := (h.bound other).mpr (.inl hother)
  room := h.room

theorem declare_onward (hmay : Symbol.Kind.Confluent may) (hkind : may kind) (ht : t.Sound) :
    t.Onward may (t.declare name kind).2 := by
  rcases h : t.declare name kind with ⟨e | id, t'⟩
  · obtain rfl : t' = t := by
      have hsame := declare_error ht (congrArg Prod.fst h)
      rwa [h] at hsame
    exact (onward_advances hmay).refl t'
  · obtain ⟨found, hd⟩ := declare_declares ht (hmay.fresh hkind) h
    have hgrows := declare_grows ht name kind
    have hpersists : t.Persists (t.declare name kind).2 :=
      (persists_lasting t).declare name ht (.refl t) trivial
    rw [h] at hgrows hpersists
    exact ⟨hgrows, hd.precedes ht hkind, hpersists⟩

/-- A step from the table `u` succeeds and leaves one that precedes `T`. With it, the step comes to
what is related to `a` with `t'`, to which it came from another table. -/
def Again (may : Symbol.Kind → Prop) (T u t' : SymbolTable) {ε α β : Type}
    (R : SymbolTable → SymbolTable → α → β → Prop) (a : α) (outcome : Except ε β × SymbolTable) :
    Prop :=
  ∃ b u', outcome = (.ok b, u') ∧ u.Onward may u' ∧ u'.Precedes may T ∧ R t' u' a b

/-- The symbols have the same name. -/
def Namesakes (t u : SymbolTable) (id id' : SymbolId) : Prop :=
  ∃ name, t.nameOf? id = some name ∧ u.nameOf? id' = some name

/-- What is declared on the way to a table may be declared in every table that precedes it. -/
theorem declare_again (hmay : Symbol.Kind.Confluent may) (hkind : may kind) (ht : t.Sound)
    (hu : u.Sound) (hT : T.Sound) {id : SymbolId} (h : t.declare name kind = (.ok id, t'))
    (ht' : t'.Precedes may T) (huT : u.Precedes may T) :
    Again may T u t' Namesakes id (u.declare name kind) := by
  obtain ⟨found, hd⟩ := declare_declares ht (hmay.fresh hkind) h
  -- At last, the declaration changes nothing.
  have hlast : (T.standing name).refine kind = some (T.standing name) := by
    have hfound := ht'.standing name
    rw [hd.standing, if_pos rfl] at hfound
    exact hmay.settled hkind hd.refine hfound
  have hbound : (T.lookup? name).isSome := ht'.bound name ((hd.bound name).mpr (.inr rfl))
  obtain ⟨found', hrefine, hleads⟩ := hmay.before hkind (huT.standing name) hlast
  obtain ⟨id', u', h'⟩ := declare_of_refine hrefine fun hnew => huT.size_lt hu hT hnew hbound
  obtain ⟨_, hd'⟩ := declare_declares hu (hmay.fresh hkind) h'
  obtain rfl := Option.some.inj (hd'.refine.symm.trans hrefine)
  have honward : u.Onward may (u.declare name kind).2 := declare_onward hmay hkind hu
  rw [h'] at honward
  refine ⟨id', u', h', honward, ⟨fun other => ?_, fun other => ?_, fun other hother => ?_, ?_⟩,
    t.title name, hd.named, ?_⟩
  · rw [huT.title, hd'.title]
  · rw [hd'.standing]
    by_cases hsame : u.title other = u.title name
    · have hlate : T.title other = T.title name := by rw [huT.title, huT.title, hsame]
      rw [if_pos hsame, standing_eq_of_title hT hlate]
      exact hleads
    · rw [if_neg hsame]
      exact huT.standing other
  · obtain hold | rfl := (hd'.bound other).mp hother
    · exact huT.bound other hold
    · exact hbound
  · have hroom := huT.room
    have hsize : u.size ≤ u'.size := honward.symbols
    omega
  · rw [hd'.named, ← huT.title, ht'.title, hd.title]

end SymbolTable

end Passage

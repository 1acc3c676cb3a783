import Passage.Proofs.Relowering
import Passage.Proofs.Scripting

/-!
# Scripted functions in any order

Scripted functions may refer to functions that are declared after them: all headers are declared
before any body is lowered. But a declaration finds what those before it have made of the table,
and headers and bodies share their names. It is proved here that the order of declarations with
names of their own makes no difference (`Scripts.build_perm`): they are built in all orders or in
none, to the same definitions but for the numbers of symbols, and every name ends up with the same
kind.

The argument goes through the last table of one run. What was declared on the way to it can be
declared from every table that precedes it, in any order (`Scripts.declareHeaders_again`,
`Scripts.lowerBodies_again`). So the other run succeeds and ends with a table that precedes this
one. The same holds the other way round, and tables that precede each other know the same.
-/

namespace Passage

open Symbol.Kind (OfHeader OfRule)

namespace SymbolTable

variable {may : Symbol.Kind → Prop} {t t' u T : SymbolTable} {kind : Symbol.Kind}

theorem declareMany_eq_ok {name : String} {rest : List String} {ids : List SymbolId}
    (h : t.declareMany (name :: rest) kind = (.ok ids, t')) :
    ∃ id t₁ ids', t.declare name kind = (.ok id, t₁) ∧
      t₁.declareMany rest kind = (.ok ids', t') ∧ ids = id :: ids' := by
  rw [declareMany] at h
  rcases hd : t.declare name kind with ⟨e | id, t₁⟩ <;> rw [hd] at h
  · cases h
  · rcases hr : t₁.declareMany rest kind with ⟨e | ids', t₂⟩ <;> simp only [hr] at h
    · cases h
    · cases h
      exact ⟨id, t₁, ids', rfl, hr, rfl⟩

theorem declareMany_onward (hmay : Symbol.Kind.Confluent may) (hkind : may kind) (ht : t.Sound)
    (names : List String) : t.Onward may (t.declareMany names kind).2 := by
  induction names generalizing t with
  | nil => exact (onward_advances hmay).refl t
  | cons name rest ih =>
    have hstep : t.Onward may (t.declare name kind).2 := declare_onward hmay hkind ht
    rw [declareMany]
    rcases h : t.declare name kind with ⟨e | id, t₁⟩ <;> rw [h] at hstep
    · exact hstep
    · exact (onward_advances hmay).trans hstep (ih (hstep.sound ht))

theorem declareMany_again (hmay : Symbol.Kind.Confluent may) (hkind : may kind) (hT : T.Sound)
    (ht : t.Sound) (hu : u.Sound) {names : List String} {ids : List SymbolId}
    (h : t.declareMany names kind = (.ok ids, t')) (ht' : t'.Precedes may T)
    (huT : u.Precedes may T) :
    Again may T u t' (fun t u => List.Forall₂ (t.Namesakes u)) ids (u.declareMany names kind) := by
  induction names generalizing t u ids with
  | nil =>
    cases h
    exact ⟨[], u, rfl, (onward_advances hmay).refl u, huT, .nil⟩
  | cons name rest ih =>
    obtain ⟨id, t₁, ids, hd, hr, rfl⟩ := declareMany_eq_ok h
    have ht₁ : t.Onward may t₁ := by
      have honward : t.Onward may (t.declare name kind).2 := declare_onward hmay hkind ht
      rwa [hd] at honward
    have ht₂ : t₁.Onward may t' := by
      have honward := declareMany_onward hmay hkind (ht₁.sound ht) rest
      rwa [hr] at honward
    obtain ⟨id', u₁, hd', hu₁, huT₁, hid⟩ :=
      declare_again hmay hkind ht hu hT hd (ht₂.toPrecedes.trans hmay ht') huT
    obtain ⟨ids', u₂, hr', hu₂, huT₂, hids⟩ := ih (ht₁.sound ht) (hu₁.sound hu) hr huT₁
    refine ⟨id' :: ids', u₂, ?_, (onward_advances hmay).trans hu₁ hu₂, huT₂,
      .cons (hid.mono ht₂.persists hu₂.persists) hids⟩
    rw [declareMany, hd']
    dsimp only
    rw [hr']
    rfl

end SymbolTable

/-! ## Headers -/

namespace Symbol.Kind.OfHeader

/-- Headers make no name one of a built-in function, and leave it one if it is. -/
theorem builtIn_iff {known last : Symbol.Kind} (h : known.Leads OfHeader last) :
    known = .builtInFunction ↔ last = .builtInFunction := by
  obtain rfl | ⟨rfl | rfl, hrefine⟩ := leads h
  · rfl
  all_goals cases known <;> cases hrefine <;> constructor <;> intro hkind <;> cases hkind

end Symbol.Kind.OfHeader

/-- The scripts are the same but for the numbers of symbols. -/
structure Script.Alike (t u : SymbolTable) (script script' : Script) : Prop where
  symbol : t.Namesakes u script.symbol script'.symbol
  params : List.Forall₂ (t.Namesakes u) script.params script'.params
  body : script.body.Matches (t.Namesakes u) script'.body

namespace Scripts

open SymbolTable

variable {t t' u u' T : SymbolTable}

/-- The headers declare the same but for the numbers of symbols. -/
structure Declared.Alike (t u : SymbolTable) (declared declared' : Declared) : Prop where
  name : declared'.name = declared.name
  symbol : t.Namesakes u declared.symbol declared'.symbol
  params : List.Forall₂ (t.Namesakes u) declared.params declared'.params
  body : declared'.body = declared.body

theorem Declared.Alike.mono {declared declared' : Declared} (h : declared.Alike t u declared')
    (ht : t.Persists t') (hu : u.Persists u') : declared.Alike t' u' declared' where
  name := h.name
  symbol := h.symbol.mono ht hu
  params := h.params.imp fun _ _ hid => hid.mono ht hu
  body := h.body

theorem builtIn_iff_standing {name : String} :
    ((t.lookup? name).map (·.kind) == some .builtInFunction) = true ↔
      t.standing name = .builtInFunction := by
  rcases hl : t.lookup? name with _ | s
  · rw [standing_none hl]
    constructor <;> intro hkind <;> cases hkind
  · rw [standing_some hl, Option.map_some, beq_iff_eq, Option.some.injEq]

theorem onSymbols_ok {ε α : Type} {fault : ε → StageError}
    {op : SymbolTable → Except ε α × SymbolTable} {a : α} (h : op t = (.ok a, t')) :
    onSymbols fault op t = (.ok a, t') := by
  show ((op t).1.mapError fault, (op t).2) = _
  rw [h]
  rfl

theorem parsed_ok {text : String} {tree : Rule.Tree} (h : Rule.parse text = .ok tree) :
    parsed text t = (.ok tree, t) := by
  rw [parsed, h]
  rfl

/-- A header that is declared names a built-in function, or has all its names declared. -/
theorem declareHeader_eq_ok {header body : String} {declared : Option Declared}
    (h : declareHeader header body t = (.ok declared, t')) :
    ∃ tree head, Rule.parse header = .ok tree ∧ Header.ofTree? tree = some head ∧
      ((t.standing head.name = .builtInFunction ∧ declared = none ∧ t' = t) ∨
        t.standing head.name ≠ .builtInFunction ∧ ∃ id t₁ params,
          t.declare head.name .scriptedFunction = (.ok id, t₁) ∧
          t₁.declareMany head.params .parameter = (.ok params, t') ∧
          declared = some ⟨head.name, id, params, body⟩) := by
  unfold declareHeader at h
  obtain ⟨tree, t₀, htree, hhead⟩ := bind_eq_ok h
  obtain ⟨hparse, rfl⟩ := parsed_eq_ok htree
  rcases hof : Header.ofTree? tree with _ | head <;> rw [hof] at hhead
  · cases hhead
  · dsimp only at hhead
    rw [bind_ok (get_apply _)] at hhead
    refine ⟨tree, head, hparse, hof, ?_⟩
    split at hhead
    · next hbuiltIn =>
      obtain ⟨rfl, rfl⟩ := pure_eq_ok hhead
      exact .inl ⟨builtIn_iff_standing.mp hbuiltIn, rfl, rfl⟩
    · next hbuiltIn =>
      obtain ⟨id, t₁, hname, hrest⟩ := bind_eq_ok hhead
      obtain ⟨params, t₂, hparams, hpure⟩ := bind_eq_ok hrest
      obtain ⟨rfl, rfl⟩ := pure_eq_ok hpure
      exact .inr ⟨fun hkind => hbuiltIn (builtIn_iff_standing.mpr hkind), id, t₁, params,
        onSymbols_eq_ok hname, onSymbols_eq_ok hparams, rfl⟩

theorem declareHeader_of_builtIn {header body : String} {tree : Rule.Tree} {head : Header}
    (hparse : Rule.parse header = .ok tree) (hof : Header.ofTree? tree = some head)
    (hkind : t.standing head.name = .builtInFunction) :
    declareHeader header body t = (.ok none, t) := by
  rw [declareHeader, bind_ok (parsed_ok hparse), hof]
  dsimp only
  rw [bind_ok (get_apply t), if_pos (builtIn_iff_standing.mpr hkind), pure_apply]

theorem declareHeader_of_names {header body : String} {tree : Rule.Tree} {head : Header}
    {id : SymbolId} {params : List SymbolId} {t₁ : SymbolTable}
    (hparse : Rule.parse header = .ok tree) (hof : Header.ofTree? tree = some head)
    (hkind : t.standing head.name ≠ .builtInFunction)
    (hname : t.declare head.name .scriptedFunction = (.ok id, t₁))
    (hparams : t₁.declareMany head.params .parameter = (.ok params, t')) :
    declareHeader header body t = (.ok (some ⟨head.name, id, params, body⟩), t') := by
  rw [declareHeader, bind_ok (parsed_ok hparse), hof]
  dsimp only
  rw [bind_ok (get_apply t), if_neg fun hbuiltIn => hkind (builtIn_iff_standing.mp hbuiltIn),
    bind_ok (onSymbols_ok hname), bind_ok (onSymbols_ok hparams), pure_apply]

theorem declareHeader_onward (ht : t.Sound) {header body : String} {declared : Option Declared}
    (h : declareHeader header body t = (.ok declared, t')) : t.Onward OfHeader t' := by
  obtain ⟨tree, head, -, -, ⟨-, -, rfl⟩ | ⟨-, id, t₁, params, hname, hparams, -⟩⟩ :=
    declareHeader_eq_ok h
  · exact (onward_advances OfHeader.confluent).refl t'
  · have ht₁ : t.Onward OfHeader (t.declare head.name .scriptedFunction).2 :=
      declare_onward OfHeader.confluent (.inl rfl) ht
    rw [hname] at ht₁
    have ht₂ := declareMany_onward OfHeader.confluent (.inr rfl) (ht₁.sound ht) head.params
    rw [hparams] at ht₂
    exact (onward_advances OfHeader.confluent).trans ht₁ ht₂

/-- A header that is declared on the way to a table is declared on every table that precedes it. -/
theorem declareHeader_again (hT : T.Sound) (ht : t.Sound) (hu : u.Sound) {header body : String}
    {declared : Option Declared} (h : declareHeader header body t = (.ok declared, t'))
    (ht' : t'.Precedes OfHeader T) (huT : u.Precedes OfHeader T) :
    Again OfHeader T u t' (fun t u => Option.Rel (Declared.Alike t u)) declared
      (declareHeader header body u) := by
  have htT := (declareHeader_onward ht h).toPrecedes.trans OfHeader.confluent ht'
  obtain ⟨tree, head, hparse, hof, hcases⟩ := declareHeader_eq_ok h
  have hkind : t.standing head.name = .builtInFunction ↔ u.standing head.name = .builtInFunction :=
    (OfHeader.builtIn_iff (htT.standing head.name)).trans
      (OfHeader.builtIn_iff (huT.standing head.name)).symm
  obtain ⟨hbuiltIn, rfl, rfl⟩ | ⟨hbuiltIn, id, t₁, params, hname, hparams, rfl⟩ := hcases
  · exact ⟨none, u, declareHeader_of_builtIn hparse hof (hkind.mp hbuiltIn),
      (onward_advances OfHeader.confluent).refl u, huT, .none⟩
  · have ht₁ : t.Onward OfHeader (t.declare head.name .scriptedFunction).2 :=
      declare_onward OfHeader.confluent (.inl rfl) ht
    rw [hname] at ht₁
    have ht₂ := declareMany_onward OfHeader.confluent (.inr rfl) (ht₁.sound ht) head.params
    rw [hparams] at ht₂
    obtain ⟨id', u₁, hname', hu₁, huT₁, hid⟩ := declare_again OfHeader.confluent (.inl rfl) ht hu hT
      hname (ht₂.toPrecedes.trans OfHeader.confluent ht') huT
    obtain ⟨params', u₂, hparams', hu₂, huT₂, hids⟩ := declareMany_again OfHeader.confluent
      (.inr rfl) hT (ht₁.sound ht) (hu₁.sound hu) hparams ht' huT₁
    exact ⟨some ⟨head.name, id', params', body⟩, u₂,
      declareHeader_of_names hparse hof (fun heq => hbuiltIn (hkind.mpr heq)) hname' hparams',
      (onward_advances OfHeader.confluent).trans hu₁ hu₂, huT₂,
      .some ⟨rfl, hid.mono ht₂.persists hu₂.persists, hids, rfl⟩⟩

/-! ## Declarations -/

/-- The name for which a declaration has a header. -/
def headName? (declaration : String × String) : Option String :=
  match Rule.parse declaration.1 with
  | .ok tree => (Header.ofTree? tree).map (·.name)
  | .error _ => none

theorem headName?_of_declareHeader {header body : String} {declared : Declared}
    (h : declareHeader header body t = (.ok (some declared), t')) :
    headName? (header, body) = some declared.name := by
  obtain ⟨tree, head, hparse, hof, ⟨-, hnone, -⟩ | ⟨-, id, t₁, params, -, -, hsome⟩⟩ :=
    declareHeader_eq_ok h
  · cases hnone
  · obtain rfl := Option.some.inj hsome
    rw [headName?, hparse]
    dsimp only
    rw [hof]
    rfl

/-- The declaration was made on the way from one table to the other. -/
def Made (t T : SymbolTable) (declaration : String × String) (declared : Option Declared) : Prop :=
  ∃ t₁ t₂, t.Onward OfHeader t₁ ∧
    declareHeader declaration.1 declaration.2 t₁ = (.ok declared, t₂) ∧ t₂.Onward OfHeader T

theorem declareHeaders_onward (ht : t.Sound) {done headers : List Declared}
    {declarations : List (String × String)}
    (h : declareHeaders done declarations t = (.ok headers, t')) : t.Onward OfHeader t' := by
  induction declarations generalizing t done with
  | nil =>
    obtain ⟨-, rfl⟩ := pure_eq_ok h
    exact (onward_advances OfHeader.confluent).refl t
  | cons declaration rest ih =>
    obtain ⟨header, body⟩ := declaration
    rw [declareHeaders] at h
    obtain ⟨declared, t₁, hheader, hrest⟩ := bind_eq_ok h
    have ht₁ := declareHeader_onward ht hheader
    refine (onward_advances OfHeader.confluent).trans ht₁ ?_
    cases declared <;> exact ih (ht₁.sound ht) hrest

/-- The headers of declarations that succeed, each from its declaration. -/
theorem declareHeaders_eq_ok (ht : t.Sound) {done headers : List Declared}
    {declarations : List (String × String)}
    (h : declareHeaders done declarations t = (.ok headers, T)) :
    ∃ found : List (Option Declared), headers = done.reverse ++ found.filterMap id ∧
      List.Forall₂ (Made t T) declarations found := by
  induction declarations generalizing t done with
  | nil =>
    obtain ⟨rfl, rfl⟩ := pure_eq_ok h
    exact ⟨[], (List.append_nil _).symm, .nil⟩
  | cons declaration rest ih =>
    obtain ⟨header, body⟩ := declaration
    rw [declareHeaders] at h
    obtain ⟨declared, t₁, hheader, hrest⟩ := bind_eq_ok h
    have ht₁ := declareHeader_onward ht hheader
    have hadvances := onward_advances OfHeader.confluent
    have hlast : t₁.Onward OfHeader T := by
      cases declared <;> exact declareHeaders_onward (ht₁.sound ht) hrest
    have hmade : Made t T (header, body) declared := ⟨t, t₁, hadvances.refl t, hheader, hlast⟩
    have hlater : ∀ {found : List (Option Declared)}, List.Forall₂ (Made t₁ T) rest found →
        List.Forall₂ (Made t T) rest found := fun hfound => hfound.imp fun _ _ hmade => by
      obtain ⟨t₂, t₃, ht₂, hmade⟩ := hmade
      exact ⟨t₂, t₃, hadvances.trans ht₁ ht₂, hmade⟩
    rcases declared with _ | declared
    · obtain ⟨found, rfl, hfound⟩ := ih (ht₁.sound ht) hrest
      exact ⟨none :: found, rfl, .cons hmade (hlater hfound)⟩
    · obtain ⟨found, rfl, hfound⟩ := ih (ht₁.sound ht) hrest
      refine ⟨some declared :: found, ?_, .cons hmade (hlater hfound)⟩
      rw [List.reverse_cons, List.append_assoc]
      rfl

/-- Declarations that were made on the way to a table can be made from every table that precedes
it, in any order. -/
theorem declareHeaders_again (hT : T.Sound) (ht : t.Sound) (hu : u.Sound)
    {declarations : List (String × String)}
    (hmade : ∀ declaration ∈ declarations, ∃ declared, Made t T declaration declared)
    (huT : u.Precedes OfHeader T) (done : List Declared) :
    ∃ headers u', declareHeaders done declarations u = (.ok headers, u') ∧
      u'.Precedes OfHeader T := by
  induction declarations generalizing u done with
  | nil => exact ⟨done.reverse, u, rfl, huT⟩
  | cons declaration rest ih =>
    obtain ⟨header, body⟩ := declaration
    obtain ⟨⟨declared, t₁, t₂, ht₁, hheader, ht₂⟩, hrest⟩ := List.forall_mem_cons.mp hmade
    obtain ⟨declared', u₁, hheader', hu₁, huT₁, -⟩ :=
      declareHeader_again hT (ht₁.sound ht) hu hheader ht₂.toPrecedes huT
    rw [declareHeaders, bind_ok hheader']
    cases declared' <;> exact ih (hu₁.sound hu) hrest huT₁ _

/-- Headers of one declaration are alike. -/
theorem Made.alike {U : SymbolTable} (hT : T.Sound) (ht : t.Sound) (hu : u.Sound)
    {declaration : String × String} {declared declared' : Option Declared}
    (h : Made t T declaration declared) (h' : Made u U declaration declared')
    (hUT : U.Precedes OfHeader T) : Option.Rel (Declared.Alike T U) declared declared' := by
  obtain ⟨t₁, t₂, ht₁, hheader, ht₂⟩ := h
  obtain ⟨u₁, u₂, hu₁, hheader', hu₂⟩ := h'
  have hu₁' := declareHeader_onward (hu₁.sound hu) hheader'
  have huT₁ :=
    hu₁'.toPrecedes.trans OfHeader.confluent (hu₂.toPrecedes.trans OfHeader.confluent hUT)
  obtain ⟨_, _, hagain, -, -, hrel⟩ :=
    declareHeader_again hT (ht₁.sound ht) (hu₁.sound hu) hheader ht₂.toPrecedes huT₁
  cases hheader'.symm.trans hagain
  cases hrel with
  | none => exact .none
  | some halike => exact .some (halike.mono ht₂.persists hu₂.persists)

/-- What is listed on one side is related to something on the other. -/
theorem exists_related {α β : Type} {R : α → β → Prop} {xs : List α} {ys : List β}
    (h : List.Forall₂ R xs ys) {x : α} (hx : x ∈ xs) : ∃ y ∈ ys, R x y := by
  induction h with
  | nil => cases hx
  | cons hxy _ ih =>
    obtain rfl | hx := List.mem_cons.mp hx
    · exact ⟨_, List.mem_cons_self, hxy⟩
    · obtain ⟨y, hy, hrel⟩ := ih hx
      exact ⟨y, List.mem_cons_of_mem _ hy, hrel⟩

/-- Each header of one run is like one of the other, which has its declaration as well. -/
theorem exists_alike {U : SymbolTable} (hT : T.Sound) (ht : t.Sound) (hu : u.Sound)
    {declarations declarations' : List (String × String)} {found found' : List (Option Declared)}
    (h : List.Forall₂ (Made t T) declarations found)
    (h' : List.Forall₂ (Made u U) declarations' found') (hsub : declarations' ⊆ declarations)
    (hUT : U.Precedes OfHeader T) {declared' : Declared} (hmem : declared' ∈ found'.filterMap id) :
    ∃ declared ∈ found.filterMap id, declared.Alike T U declared' := by
  have hfound : some declared' ∈ found' := by
    obtain ⟨_, hmem, rfl⟩ := List.mem_filterMap.mp hmem
    exact hmem
  obtain ⟨declaration, hdeclaration, hmade'⟩ := exists_related h'.flip hfound
  obtain ⟨declared, hdeclared, hmade⟩ := exists_related h (hsub hdeclaration)
  cases hmade.alike hT ht hu hmade' hUT with
  | some halike => exact ⟨_, List.mem_filterMap.mpr ⟨_, hdeclared, rfl⟩, halike⟩

/-- Headers have the names of their declarations. -/
theorem names_sublist {declarations : List (String × String)} {found : List (Option Declared)}
    (h : List.Forall₂ (Made t T) declarations found) :
    ((found.filterMap id).map (·.name)).Sublist (declarations.filterMap headName?) := by
  induction h with
  | nil => exact .slnil
  | @cons declaration declared _ _ hmade _ ih =>
    obtain ⟨t₁, t₂, -, hheader, -⟩ := hmade
    rcases declared with _ | declared
    · rw [List.filterMap_cons_none rfl]
      rcases hname : headName? declaration with _ | name
      · rwa [List.filterMap_cons_none hname]
      · rw [List.filterMap_cons_some hname]
        exact ih.cons name
    · rw [List.filterMap_cons_some (headName?_of_declareHeader hheader)]
      exact ih.cons_cons declared.name

/-! ## Bodies -/

/-- The text was lowered on the way from one table to the other. -/
def Lowered (t T : SymbolTable) (text : String) (node : Node) : Prop :=
  ∃ tree t₁ t₂, Rule.parse text = .ok tree ∧ t.Onward OfRule t₁ ∧
    tree.lower t₁ = (.ok node, t₂) ∧ t₂.Onward OfRule T

theorem lowerBodies_cons {scripts all : Scripts} {declared : Declared} {rest : List Declared}
    (hnew : scripts.contains declared.name = false)
    (h : lowerBodies scripts (declared :: rest) t = (.ok all, T)) :
    ∃ tree node t₁, Rule.parse declared.body = .ok tree ∧ tree.lower t = (.ok node, t₁) ∧
      lowerBodies (scripts.insert declared.name ⟨declared.symbol, declared.params, node⟩) rest t₁ =
        (.ok all, T) := by
  rw [lowerBodies, if_neg (by rw [hnew]; exact Bool.false_ne_true)] at h
  obtain ⟨tree, t₀, htree, hbody⟩ := bind_eq_ok h
  obtain ⟨hparse, rfl⟩ := parsed_eq_ok htree
  obtain ⟨node, t₁, hlower, hrest⟩ := bind_eq_ok hbody
  exact ⟨tree, node, t₁, hparse, onSymbols_eq_ok hlower, hrest⟩

theorem lowerBodies_onward (ht : t.Sound) {scripts all : Scripts} {headers : List Declared}
    (h : lowerBodies scripts headers t = (.ok all, t')) : t.Onward OfRule t' := by
  induction headers generalizing t scripts with
  | nil =>
    obtain ⟨-, rfl⟩ := pure_eq_ok h
    exact (onward_advances OfRule.confluent).refl t
  | cons declared rest ih =>
    rcases hnew : scripts.contains declared.name
    · obtain ⟨tree, node, t₁, -, hlower, hrest⟩ := lowerBodies_cons hnew h
      have ht₁ := Rule.Tree.lower_onward ht hlower
      exact (onward_advances OfRule.confluent).trans ht₁ (ih (ht₁.sound ht) hrest)
    · rw [lowerBodies, if_pos hnew] at h
      exact ih ht h

/-- A script that is listed stays listed. -/
theorem lowerBodies_keeps {scripts all : Scripts} {headers : List Declared}
    (h : lowerBodies scripts headers t = (.ok all, t')) {name : String} {script : Script}
    (hget : scripts.get? name = some script) : all.get? name = some script := by
  induction headers generalizing t scripts with
  | nil =>
    obtain ⟨rfl, -⟩ := pure_eq_ok h
    exact hget
  | cons declared rest ih =>
    rcases hnew : scripts.contains declared.name
    · obtain ⟨tree, node, t₁, -, -, hrest⟩ := lowerBodies_cons hnew h
      refine ih hrest ?_
      rw [get?_insert, hget]
      rfl
    · rw [lowerBodies, if_pos hnew] at h
      exact ih h hget

/-- Of headers with names of their own, each is listed with its body. -/
theorem lowerBodies_eq_ok (ht : t.Sound) {scripts all : Scripts} {headers : List Declared}
    (hnames : (headers.map (·.name)).Nodup)
    (hnew : ∀ declared ∈ headers, scripts.get? declared.name = none)
    (h : lowerBodies scripts headers t = (.ok all, T)) :
    ∀ declared ∈ headers, ∃ node, Lowered t T declared.body node ∧
      all.get? declared.name = some ⟨declared.symbol, declared.params, node⟩ := by
  induction headers generalizing t scripts with
  | nil => exact List.forall_mem_nil _
  | cons declared rest ih =>
    obtain ⟨hown, hnames⟩ := List.nodup_cons.mp hnames
    obtain ⟨hfirst, hnew⟩ := List.forall_mem_cons.mp hnew
    obtain ⟨tree, node, t₁, hparse, hlower, hrest⟩ :=
      lowerBodies_cons (by rw [contains, hfirst]; rfl) h
    have hadvances := onward_advances OfRule.confluent
    have ht₁ := Rule.Tree.lower_onward ht hlower
    refine List.forall_mem_cons.mpr ⟨⟨node, ?_, ?_⟩, fun other hother => ?_⟩
    · exact ⟨tree, t, t₁, hparse, hadvances.refl t, hlower, lowerBodies_onward (ht₁.sound ht) hrest⟩
    · refine lowerBodies_keeps hrest ?_
      rw [get?_insert, hfirst, if_pos rfl]
      rfl
    · have hlater : ∀ other ∈ rest, (scripts.insert declared.name
          ⟨declared.symbol, declared.params, node⟩).get? other.name = none := by
        intro other hother
        rw [get?_insert, hnew other hother, if_neg]
        · rfl
        · exact fun heq => hown (List.mem_map.mpr ⟨other, hother, heq⟩)
      obtain ⟨node', ⟨tree', t₂, t₃, hparse', ht₂, hlowered⟩, hget⟩ :=
        ih (ht₁.sound ht) hnames hlater hrest other hother
      exact ⟨node', ⟨tree', t₂, t₃, hparse', hadvances.trans ht₁ ht₂, hlowered⟩, hget⟩

/-- What is listed in the end was listed before or has a header. -/
theorem mem_of_lowerBodies {scripts all : Scripts} {headers : List Declared}
    (h : lowerBodies scripts headers t = (.ok all, t')) {name : String} {script : Script}
    (hget : all.get? name = some script) :
    scripts.get? name = some script ∨ ∃ declared ∈ headers, declared.name = name := by
  induction headers generalizing t scripts with
  | nil =>
    obtain ⟨rfl, -⟩ := pure_eq_ok h
    exact .inl hget
  | cons declared rest ih =>
    rcases hnew : scripts.contains declared.name
    · obtain ⟨tree, node, t₁, -, -, hrest⟩ := lowerBodies_cons hnew h
      obtain hlisted | ⟨other, hother, hname⟩ := ih hrest
      · rw [get?_insert] at hlisted
        by_cases hname : name = declared.name
        · exact .inr ⟨declared, List.mem_cons_self, hname.symm⟩
        · rw [if_neg hname, Option.or_none] at hlisted
          exact .inl hlisted
      · exact .inr ⟨other, List.mem_cons_of_mem _ hother, hname⟩
    · rw [lowerBodies, if_pos hnew] at h
      obtain hlisted | ⟨other, hother, hname⟩ := ih h
      · exact .inl hlisted
      · exact .inr ⟨other, List.mem_cons_of_mem _ hother, hname⟩

/-- Bodies that were lowered on the way to a table can be lowered from every table that precedes
it, in any order. -/
theorem lowerBodies_again (hT : T.Sound) (ht : t.Sound) (hu : u.Sound) {headers : List Declared}
    (hlowered : ∀ declared ∈ headers, ∃ node, Lowered t T declared.body node)
    (huT : u.Precedes OfRule T) (scripts : Scripts) :
    ∃ all u', lowerBodies scripts headers u = (.ok all, u') ∧ u'.Precedes OfRule T := by
  induction headers generalizing u scripts with
  | nil => exact ⟨scripts, u, rfl, huT⟩
  | cons declared rest ih =>
    obtain ⟨⟨node, tree, t₁, t₂, hparse, ht₁, hlower, ht₂⟩, hrest⟩ :=
      List.forall_mem_cons.mp hlowered
    rw [lowerBodies]
    split
    · exact ih hu hrest huT scripts
    · obtain ⟨node', u₁, hlower', hu₁, huT₁, -⟩ :=
        Rule.Tree.lower_again hT (ht₁.sound ht) hu tree hlower ht₂.toPrecedes huT
      have hbody : onSymbols .lowering tree.lower.run.run u = (.ok node', u₁) :=
        onSymbols_ok hlower'
      rw [bind_ok (parsed_ok hparse), bind_ok hbody]
      exact ih (hu₁.sound hu) hrest huT₁ _

/-- Bodies of one text read alike. -/
theorem Lowered.corresponds {U : SymbolTable} (hT : T.Sound) (ht : t.Sound) (hu : u.Sound)
    {text : String} {node node' : Node} (h : Lowered t T text node) (h' : Lowered u U text node')
    (hUT : U.Precedes OfRule T) : Lowering.Corresponds T U node node' := by
  obtain ⟨tree, t₁, t₂, hparse, ht₁, hlower, ht₂⟩ := h
  obtain ⟨tree', u₁, u₂, hparse', hu₁, hlower', hu₂⟩ := h'
  obtain rfl := Except.ok.inj (hparse.symm.trans hparse')
  have hu₁' := Rule.Tree.lower_onward (hu₁.sound hu) hlower'
  have huT₁ := hu₁'.toPrecedes.trans OfRule.confluent (hu₂.toPrecedes.trans OfRule.confluent hUT)
  obtain ⟨_, _, hagain, -, -, hcorresponds⟩ :=
    Rule.Tree.lower_again hT (ht₁.sound ht) (hu₁.sound hu) tree hlower ht₂.toPrecedes huT₁
  cases hlower'.symm.trans hagain
  exact Rule.Tree.corresponds_mono ht₂ hu₂ hcorresponds

/-! ## Building -/

theorem build_eq_ok {declarations : List (String × String)} {scripts : Scripts}
    (h : build declarations t = (.ok scripts, T)) :
    ∃ headers T₁, declareHeaders [] declarations t = (.ok headers, T₁) ∧
      lowerBodies empty headers T₁ = (.ok scripts, T) := by
  obtain ⟨headers, T₁, hheaders, hbodies⟩ := bind_eq_ok h
  exact ⟨headers, T₁, hheaders, hbodies⟩

/-- Declarations that are built are built in any other order as well. No more is known of a name
then, and what is defined then is defined alike. -/
theorem build_again (ht : t.Sound) {declarations declarations' : List (String × String)}
    (hperm : declarations.Perm declarations') (hnames : (declarations.filterMap headName?).Nodup)
    {scripts : Scripts} (h : build declarations t = (.ok scripts, T)) :
    ∃ scripts' U, build declarations' t = (.ok scripts', U) ∧ U.Precedes OfRule T ∧
      ∀ name script', scripts'.get? name = some script' →
        ∃ script, scripts.get? name = some script ∧ script.Alike T U script' := by
  obtain ⟨_, T₁, hheaders, hbodies⟩ := build_eq_ok h
  obtain ⟨found, rfl, hfound⟩ := declareHeaders_eq_ok ht hheaders
  have hT₁ := declareHeaders_onward ht hheaders
  -- The headers, in the other order.
  obtain ⟨_, U₁, hheaders', hUT₁⟩ := declareHeaders_again (hT₁.sound ht) ht ht
    (fun declaration hmem => (exists_related hfound (hperm.mem_iff.mpr hmem)).imp fun _ h => h.2)
    hT₁.toPrecedes []
  obtain ⟨found', rfl, hfound'⟩ := declareHeaders_eq_ok ht hheaders'
  have hU₁ := declareHeaders_onward ht hheaders'
  -- And back again: so as much is known after both.
  obtain ⟨_, _, hback, hTU₁⟩ := declareHeaders_again (hU₁.sound ht) ht ht
    (fun declaration hmem => (exists_related hfound' (hperm.mem_iff.mp hmem)).imp fun _ h => h.2)
    hU₁.toPrecedes []
  cases hheaders.symm.trans hback
  have hT := lowerBodies_onward (hT₁.sound ht) hbodies
  have hUT : U₁.Precedes OfRule T :=
    (hUT₁.of_both OfHeader.confluent hTU₁ OfRule).trans OfRule.confluent hT.toPrecedes
  -- The bodies, in the other order.
  have hsound := hT.sound (hT₁.sound ht)
  have heach := lowerBodies_eq_ok (hT₁.sound ht) ((names_sublist hfound).nodup hnames)
    (fun _ _ => rfl) hbodies
  have halike : ∀ declared' ∈ found'.filterMap id, ∃ declared ∈ found.filterMap id,
      declared.Alike T₁ U₁ declared' := fun _ hmem =>
    exists_alike (hT₁.sound ht) ht ht hfound hfound' (fun _ hmem => hperm.mem_iff.mpr hmem) hUT₁
      hmem
  obtain ⟨scripts', U, hbodies', hUT'⟩ := lowerBodies_again hsound (hT₁.sound ht) (hU₁.sound ht)
    (fun declared' hmem => by
      obtain ⟨declared, hdeclared, hsame⟩ := halike declared' hmem
      obtain ⟨node, hlowered, -⟩ := heach declared hdeclared
      exact ⟨node, hsame.body ▸ hlowered⟩) hUT empty
  have hU := lowerBodies_onward (hU₁.sound ht) hbodies'
  have heach' := lowerBodies_eq_ok (hU₁.sound ht)
    ((names_sublist hfound').nodup ((hperm.filterMap headName?).nodup_iff.mp hnames))
    (fun _ _ => rfl) hbodies'
  refine ⟨scripts', U, (bind_ok hheaders').trans hbodies', hUT', fun name script' hget => ?_⟩
  obtain hnone | ⟨declared', hmem, rfl⟩ := mem_of_lowerBodies hbodies' hget
  · cases hnone
  · obtain ⟨declared, hdeclared, hsame⟩ := halike declared' hmem
    obtain ⟨node, hlowered, hscript⟩ := heach declared hdeclared
    obtain ⟨node', hlowered', hscript'⟩ := heach' declared' hmem
    obtain rfl := Option.some.inj (hget.symm.trans hscript')
    refine ⟨_, hsame.name ▸ hscript, ?_⟩
    have hlast := hsame.mono hT.persists hU.persists
    exact ⟨hlast.symbol, hlast.params, hlowered.corresponds hsound (hT₁.sound ht) (hU₁.sound ht)
      (hsame.body ▸ hlowered') hUT'⟩

/-- Two outcomes of building that differ in errors or in the numbers of symbols only: both failed,
or both define the same names alike, and every name is of the same kind in both tables. -/
inductive SameOutcome : Except StageError Scripts × SymbolTable →
    Except StageError Scripts × SymbolTable → Prop
  | failed {e e' : StageError} {t u : SymbolTable} : SameOutcome (.error e, t) (.error e', u)
  | built {scripts scripts' : Scripts} {t u : SymbolTable} :
      (∀ name, Option.Rel (Script.Alike t u) (scripts.get? name) (scripts'.get? name)) →
      (∀ name, (t.lookup? name).map (·.kind) = (u.lookup? name).map (·.kind)) →
      SameOutcome (.ok scripts, t) (.ok scripts', u)

/-- Scripted functions with names of their own may be declared in any order. -/
theorem build_perm (ht : t.Sound) {declarations declarations' : List (String × String)}
    (hperm : declarations.Perm declarations')
    (hnames : (declarations.filterMap headName?).Nodup) :
    SameOutcome (build declarations t) (build declarations' t) := by
  have hnames' := (hperm.filterMap headName?).nodup_iff.mp hnames
  rcases h : build declarations t with ⟨e | scripts, T⟩
  · rcases h' : build declarations' t with ⟨e' | scripts', U⟩
    · exact .failed
    · obtain ⟨_, _, hback, -⟩ := build_again ht hperm.symm hnames' h'
      cases h.symm.trans hback
  · obtain ⟨scripts', U, h', hUT, hthen⟩ := build_again ht hperm hnames h
    obtain ⟨_, _, hback, hTU, hfirst⟩ := build_again ht hperm.symm hnames' h'
    cases h.symm.trans hback
    rw [h']
    refine .built (fun name => ?_) (fun name => hTU.kind_eq OfRule.confluent hUT name)
    rcases hget : scripts.get? name with _ | script <;>
      rcases hget' : scripts'.get? name with _ | script'
    · exact .none
    · obtain ⟨_, hsome, -⟩ := hthen name script' hget'
      cases hget.symm.trans hsome
    · obtain ⟨_, hsome, -⟩ := hfirst name script hget
      cases hget'.symm.trans hsome
    · obtain ⟨_, hsome, halike⟩ := hthen name script' hget'
      cases hget.symm.trans hsome
      exact .some halike

/-- Two functions that call each other. -/
def turns : List (String × String) :=
  [("near(far)", "deep(far) or far"), ("deep(item)", "near(item) and not chest")]

theorem build_perm_turns :
    turns.filterMap headName? = ["near", "deep"] ∧
      (build turns .empty).1.toOption.isSome = true ∧
      SameOutcome (build turns .empty) (build turns.reverse .empty) := by
  have hnames : turns.filterMap headName? = ["near", "deep"] := by decide +kernel
  refine ⟨hnames, by decide +kernel, build_perm SymbolTable.empty_sound turns.reverse_perm.symm ?_⟩
  rw [hnames]
  decide

end Scripts

end Passage

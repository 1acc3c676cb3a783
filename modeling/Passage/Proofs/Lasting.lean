import Passage.Proofs.Pointers

/-!
# What lasts in the symbol table

Much of what is true of the symbol table has nothing to do with objects, regions or
connections. Such an assertion only has to survive declarations and written forms of names
(`SymbolTable.Lasting`), and is then left true by whatever an environment is asked to do
(`Lasting.respond`). Two of them are proved here: symbols keep their numbers and names
(`SymbolTable.Persists`), and a name that is bound is the name of its symbol or listed among
the further names (`SymbolTable.Listed`).
-/

namespace Passage

/-! ## What may be declared -/

theorem SymbolTable.DeclaredAs.mono {may may' : String → Symbol.Kind → Prop} {t t' : SymbolTable}
    (h : t.DeclaredAs may t') (hmay : ∀ {name kind}, may name kind → may' name kind) :
    t.DeclaredAs may' t' := by
  induction h with
  | nothing => exact .nothing
  | declare name kind _ hdeclared ih => exact .declare name kind ih (hmay hdeclared)

/-- Compiler functions that declare names under some kinds, enter objects, and do nothing else
to the world. -/
def CompilerFunctions.Declare (may : Symbol.Kind → Prop) (functions : CompilerFunctions) : Prop :=
  ∀ name function, functions.find? name = some function → ∀ args w, w.Sound → ∃ symbols pool,
    w.symbols.DeclaredAs (fun _ kind => may kind) symbols ∧ w.pool.Grows pool ∧
      (function args w).2 = { w with symbols, pool }

theorem CompilerFunctions.DeclareOnly.declare {plain : String → Prop}
    {functions : CompilerFunctions} (h : functions.DeclareOnly plain) :
    functions.Declare fun _ => True := by
  intro name function hfind args w _
  obtain ⟨symbols, pool, hdeclared, hpool, heq⟩ := h name function hfind args w
  exact ⟨symbols, pool, hdeclared.declaredAs.mono fun _ => trivial, hpool, heq⟩

/-- A request that brings no compiler functions but such as declare names under some kinds. -/
def Request.Declare (may : Symbol.Kind → Prop) : Request → Prop
  | .functions table => table.Declare may
  | _ => True

theorem Request.Declare.anything {may : Symbol.Kind → Prop} {request : Request}
    (h : request.Declare may) : request.Declare fun _ => True := by
  cases request with
  | functions table =>
    intro name function hfind args w hw
    obtain ⟨symbols, pool, hdeclared, hrest⟩ := h name function hfind args w hw
    exact ⟨symbols, pool, hdeclared.mono fun _ => trivial, hrest⟩
  | _ => trivial

theorem Request.Plain.declare {plain : String → Prop} {request : Request}
    (h : request.Plain plain) : request.Declare fun _ => True := by
  cases request with
  | functions table => exact h.2.declare
  | _ => trivial

/-- What conversations of some requests reach is reached by more liberal ones. -/
theorem Environment.Reached.mono {allowed allowed' : Request → Prop} {answers : List Answer}
    {env : Environment} (hr : Reached allowed answers env)
    (h : ∀ {request}, allowed request → allowed' request) : Reached allowed' answers env := by
  induction hr with
  | start config => exact .start config
  | step request _ hallowed ih => exact .step request ih (h hallowed)

/-! ## What is given pointers -/

namespace Environment

/-- A name was declared under a kind, objects may have been entered, and functions and settings
may have been counted. -/
def Supplies (name : String) (kind : Symbol.Kind) (env env' : Environment) : Prop :=
  ∃ pool functions settings, pool.Sound ∧
    env' = { env.supplied (env.world.symbols.declare name kind).2 pool with
      builtInCount := functions, settingCount := settings }

variable {env : Environment} (hw : env.world.Sound)

include hw

theorem addBuiltIn_supplies (signature : Signature) :
    env.Supplies signature.name .builtInFunction (addBuiltIn signature env).2 := by
  obtain ⟨e, hadd⟩ | ⟨id, symbols, index, pool, hd, hp, hadd⟩ :=
    addBuiltIn_cases hw.pool signature <;> rw [hadd]
  · exact ⟨env.world.pool, _, _, hw.pool, rfl⟩
  · have hsound := (ObjectPool.define_retains hw.pool id (functionPointer env.builtInCount)
      signature).sound
    rw [hp] at hsound
    refine ⟨pool, env.builtInCount + 1, env.settingCount, hsound, ?_⟩
    rw [hd]
    rfl

theorem addToken_supplies (name : String) : env.Supplies name .token (addToken name env).2 := by
  obtain ⟨e, hadd⟩ | ⟨id, symbols, index, pool, hd, hp, hadd⟩ :=
    addToken_cases hw.pool name <;> rw [hadd]
  · exact ⟨env.world.pool, _, _, hw.pool, rfl⟩
  · have hsound := (ObjectPool.associate_step hw.pool id
      (Elsewhere.tokenPointer id)).grows.sound hw.pool
    rw [hp] at hsound
    refine ⟨pool, env.builtInCount, env.settingCount, hsound, ?_⟩
    rw [hd]
    rfl

theorem addSetting_supplies (name : String) :
    env.Supplies name .setting (addSetting name env).2 := by
  obtain ⟨e, hadd⟩ | ⟨id, symbols, index, pool, hd, hp, hadd⟩ :=
    addSetting_cases hw.pool name <;> rw [hadd]
  · exact ⟨env.world.pool, _, _, hw.pool, rfl⟩
  · have hsound := (ObjectPool.associate_step hw.pool id
      (settingPointer env.settingCount)).grows.sound hw.pool
    rw [hp] at hsound
    refine ⟨pool, env.builtInCount, env.settingCount + 1, hsound, ?_⟩
    rw [hd]
    rfl

end Environment

/-! ## Assertions about the table -/

/-- A sound world of whose symbol table an assertion is true. -/
structure World.Lasts (T : SymbolTable → Prop) (w : World) : Prop extends World.Sound w where
  table : T w.symbols

namespace SymbolTable

/-- An assertion about the table that survives declarations under some kinds, and the written
forms of names. -/
structure Lasting (may : Symbol.Kind → Prop) (T : SymbolTable → Prop) : Prop where
  declare : ∀ {t} name {kind}, t.Sound → T t → may kind → T (t.declare name kind).2
  byname : ∀ {t name}, t.Sound → T t → T (t.bindAlias name (Environment.escapeName name)).2

namespace Lasting

open Environment (Holds)

variable {may : Symbol.Kind → Prop} {T : SymbolTable → Prop} {w : World}

theorem grown (hw : w.Lasts T) {symbols : SymbolTable} (hg : w.symbols.Grows symbols)
    (ht : T symbols) : World.Lasts T { w with symbols } :=
  ⟨⟨hg.sound hw.symbols, hw.pool⟩, ht⟩

theorem declared (h : Lasting may T) (hw : w.Lasts T) (name : String) {kind : Symbol.Kind}
    (hkind : may kind) :
    World.Lasts T { w with symbols := (w.symbols.declare name kind).2 } :=
  grown hw (declare_grows hw.symbols name kind) (h.declare name hw.symbols hw.table hkind)

theorem declaredAs (h : Lasting may T) (hw : w.Lasts T) {symbols : SymbolTable}
    (hd : w.symbols.DeclaredAs (fun _ kind => may kind) symbols) :
    w.symbols.Grows symbols ∧ World.Lasts T { w with symbols } :=
  hd.conducted (fun hw => hw.toSound) (fun hw hkind => h.declared hw _ hkind) hw

theorem declareMany (h : Lasting may T) {t : SymbolTable} (hs : t.Sound) (ht : T t)
    (names : List String) {kind : Symbol.Kind} (hkind : may kind) :
    T (t.declareMany names kind).2 := by
  induction names generalizing t with
  | nil => exact ht
  | cons name rest ih =>
    have hstep := h.declare name hs ht hkind
    have hsound := (declare_grows hs name kind).sound hs
    rw [SymbolTable.declareMany]
    rcases hd : t.declare name kind with ⟨e | id, t'⟩ <;> rw [hd] at hstep hsound
    · exact hstep
    · exact ih hsound hstep

/-- What is true of the empty table is true of the symbols that every environment starts
with. -/
theorem initial (h : Lasting may T) (hglobal : may .global) (hfunction : may .compilerFunction)
    (hempty : T .empty) : T Environment.initialSymbols :=
  have hfirst := (declareMany_grows empty_sound Environment.globalNames .global).sound empty_sound
  h.declareMany hfirst (h.declareMany empty_sound hempty _ hglobal) _ hfunction

variable (h : Lasting may T) (hmay : ∀ kind, kind ≠ .scriptedFunction → may kind)

include h hmay

/-- The token of a rule about a region is a name like others. -/
theorem generate (hw : w.Lasts T) {origin : String} {rule node : Node} {w' : World}
    (hok : Elsewhere.generate origin rule w = (.ok node, w')) : w'.Lasts T := by
  obtain ⟨symbols, hdeclared, hrest⟩ := Elsewhere.generate_eq_ok hw.toSound hok
  obtain ⟨-, hnext⟩ := h.declaredAs hw (hdeclared.mono fun hkind => hmay _ (by
    obtain rfl | rfl := hkind <;> exact nofun))
  obtain rfl | ⟨token, symbols', index, pool, -, htoken, hindex, rfl⟩ := hrest
  · exact hnext
  · have hlast := h.declared hnext (Elsewhere.tokenName origin rule.hash) (hmay .token nofun)
    have hgrows := (ObjectPool.associate_step hw.pool token (Elsewhere.tokenPointer token)).grows
    rw [hindex] at hgrows
    dsimp only at hlast
    rw [htoken] at hlast
    exact ⟨⟨hlast.symbols, hgrows.sound hw.pool⟩, hlast.table⟩

/-- What lasts in the table is sustained while rules are compiled. -/
theorem sustained :
    Sustained (fun _ kind => may kind) (CompilerFunctions.Declare may) fun _ w => w.Lasts T where
  sound hw := hw.toSound
  ordinary := by
    rintro _ _ (rfl | rfl | rfl) <;> exact hmay _ nofun
  declare hw hkind := h.declared hw _ hkind
  byname hw := grown hw (bindAlias_grows _ _ _) (h.byname hw.symbols hw.table)
  literals hw hi := ⟨⟨hw.symbols, hi.sound hw.pool⟩, hw.table⟩
  functions := by
    intro _ functions hdeclare name function hfind args w hw
    obtain ⟨symbols, pool, hdeclared, hpool, heq⟩ :=
      hdeclare name function hfind args w hw.toSound
    obtain ⟨hgrows, hnext⟩ := h.declaredAs hw hdeclared
    rw [heq]
    exact ⟨⟨hgrows, hpool, .refl _⟩, fun _ _ =>
      ⟨⟨hnext.symbols, hpool.sound hw.pool⟩, hnext.table⟩⟩
  region _ hw := ⟨⟨hw.symbols, hw.pool⟩, hw.table⟩
  take hw := ⟨⟨hw.symbols, hw.pool⟩, hw.table⟩
  generate origin rule w hw :=
    ⟨(Elsewhere.generate_conducts origin rule w hw.toSound).1, fun _ hok =>
      h.generate hmay hw (Prod.ext hok rfl)⟩

/-- What lasts in the table lasts where a name is given a pointer. -/
theorem supplies_keeps {allowed : CompilerFunctions → Prop} {name : String} (kind : Symbol.Kind)
    (hkind : kind ≠ .scriptedFunction) {action : Compiling StageError Unit}
    (haction : ∀ {env : Environment}, env.world.Sound → env.Supplies name kind (action env).2) :
    Keeps (Holds allowed (World.Lasts T)) action := by
  intro env henv
  obtain ⟨pool, functions, settings, hpool, heq⟩ := haction henv.world.toSound
  have hdeclared := h.declared henv.world name (hmay kind hkind)
  rw [heq]
  exact ⟨⟨⟨hdeclared.symbols, hpool⟩, hdeclared.table⟩, henv.ready.functions,
    henv.ready.pipeline, henv.ready.fastOps⟩

/-- What lasts in the table is left true by every answer, but that scripts are declared only
if the kind may be. -/
theorem respond {env : Environment}
    (henv : Holds (CompilerFunctions.Declare may) (World.Lasts T) env) {request : Request}
    (hrequest : request.Declare may)
    (hscripts : ∀ declarations, request = .scripts declarations → may .scriptedFunction) :
    Holds (CompilerFunctions.Declare may) (World.Lasts T) (env.respond request).2 := by
  have hrules := fun hordinary =>
    @Sustained.respond _ _ _ [] (h.sustained hmay) env henv request hordinary
  cases request with
  | builtIns signatures =>
    exact Keeps.forM_of_mem (fun signature _ =>
      h.supplies_keeps hmay .builtInFunction (by decide)
        fun hw => Environment.addBuiltIn_supplies hw signature) env henv
  | tokens names =>
    exact Keeps.forM_of_mem (fun name _ =>
      h.supplies_keeps hmay .token (by decide)
        fun hw => Environment.addToken_supplies hw name) env henv
  | settings names =>
    exact Keeps.forM_of_mem (fun name _ =>
      h.supplies_keeps hmay .setting (by decide)
        fun hw => Environment.addSetting_supplies hw name) env henv
  | scripts declarations => exact hrules fun _ _ _ _ _ _ => hscripts declarations rfl
  | functions functions => exact hrules ⟨fun _ _ => hmay _ nofun, hrequest⟩
  | _ => exact hrules trivial

end Lasting

/-- What lasts under all kinds is true in every environment that is reached. -/
theorem Lasting.reached {T : SymbolTable → Prop} (h : Lasting (fun _ => True) T)
    (hinitial : T Environment.initialSymbols) {answers : List Answer} {env : Environment}
    (hr : Environment.Reached (Request.Declare fun _ => True) answers env) :
    Environment.Holds (CompilerFunctions.Declare fun _ => True) (World.Lasts T) env := by
  induction hr with
  | start config =>
    exact ⟨⟨⟨initial_sound, ObjectPool.empty_sound⟩, hinitial⟩,
      Environment.ofConfig_ready config⟩
  | step request _ hrequest ih =>
    exact h.respond (fun _ _ => trivial) ih hrequest fun _ _ => trivial

/-! ## Symbols that stay -/

/-- A symbol keeps its name when another name is declared, and its kind is at most refined. -/
theorem get?_declare_of_get? {t : SymbolTable} (ht : t.Sound) (name : String) (kind : Symbol.Kind)
    {id : SymbolId} {known : Symbol} (h : t.get? id = some known) :
    ∃ s, (t.declare name kind).2.get? id = some s ∧ s.name = known.name ∧
      (s.kind = known.kind ∨ known.kind.refine kind = some s.kind) := by
  obtain ⟨e, hd⟩ | ⟨_, -, -, hd⟩ | ⟨found, refined, hl, hr, -, hd⟩ | ⟨-, -, hd⟩ :=
    declare_cases ht name kind <;> rw [hd]
  · exact ⟨known, h, rfl, .inl rfl⟩
  · exact ⟨known, h, rfl, .inl rfl⟩
  · obtain ⟨-, hget⟩ := names_of_lookup? ht hl
    dsimp only
    rw [get?_refined _ hget]
    by_cases hid : id = found.id
    · rw [hid] at h
      obtain rfl := Option.some.inj (h.symm.trans hget)
      exact ⟨{ known with kind := refined }, if_pos hid, rfl, .inr hr⟩
    · exact ⟨known, (if_neg hid).trans h, rfl, .inl rfl⟩
  · refine ⟨known, ?_, rfl, .inl rfl⟩
    have hlt : id < t.symbols.size := get?_eq_some_lt h
    show (t.symbols.push _)[id]? = some known
    rw [Array.getElem?_push_lt hlt]
    exact (Array.getElem?_eq_getElem _).symm.trans h

/-- A further name changes no symbol. -/
theorem get?_bindAlias (t : SymbolTable) (target name : String) (id : SymbolId) :
    (t.bindAlias target name).2.get? id = t.get? id := by
  unfold bindAlias
  split
  · rfl
  · split
    · split <;> rfl
    · rfl

/-- The symbols of the first table are symbols of the second one, under the same names. -/
def Persists (before t : SymbolTable) : Prop :=
  ∀ (id : SymbolId) (known : Symbol), before.get? id = some known →
    ∃ s, t.get? id = some s ∧ s.name = known.name

theorem Persists.refl (t : SymbolTable) : t.Persists t := fun _ known h => ⟨known, h, rfl⟩

theorem Persists.trans {t u v : SymbolTable} (h : t.Persists u) (h' : u.Persists v) :
    t.Persists v := by
  intro id known hknown
  obtain ⟨s, hs, hname⟩ := h id known hknown
  obtain ⟨s', hs', hname'⟩ := h' id s hs
  exact ⟨s', hs', hname'.trans hname⟩

theorem persists_lasting (before : SymbolTable) : Lasting (fun _ => True) before.Persists where
  declare := by
    intro t name kind ht h _ id known hknown
    obtain ⟨s, hs, hname⟩ := h id known hknown
    obtain ⟨s', hs', hname', -⟩ := get?_declare_of_get? ht name kind hs
    exact ⟨s', hs', hname'.trans hname⟩
  byname := by
    intro t name _ h id known hknown
    rw [get?_bindAlias]
    exact h id known hknown

/-! ## Names that are listed -/

/-- A bound name is that of its symbol, or one of its further names. -/
def Listed (t : SymbolTable) : Prop :=
  ∀ (name : String) (id : SymbolId), t.names[name]? = some id →
    (∃ s, t.get? id = some s ∧ s.name = name) ∨ ∃ a ∈ t.aliases, a.name = name ∧ a.id = id

theorem Step.listed {t t' : SymbolTable} (h : t.Step t') (ht : t.Listed) :
    t'.Listed := by
  cases h with
  | same => exact ht
  | @append name kind hn =>
    intro name' id hname
    simp only [appended, Std.ExtTreeMap.getElem?_insert, Std.LawfulEqCmp.compare_eq_iff_eq]
      at hname
    split at hname
    · next heq =>
      obtain rfl := Option.some.inj hname
      exact .inl ⟨_, Array.getElem?_push_size, heq⟩
    · obtain ⟨s, hget, hsname⟩ | hlisted := ht name' id hname
      · refine .inl ⟨s, ?_, hsname⟩
        have hlt : id < t.symbols.size := get?_eq_some_lt hget
        show (t.symbols.push _)[id]? = some s
        rw [Array.getElem?_push_lt hlt]
        exact (Array.getElem?_eq_getElem _).symm.trans hget
      · exact .inr hlisted
  | @refine name s incoming kind _ hget _ =>
    intro name' id hname
    obtain ⟨known, hknown, hkname⟩ | hlisted := ht name' id hname
    · by_cases hid : id = s.id
      · rw [hid] at hknown
        obtain rfl := Option.some.inj (hknown.symm.trans hget)
        exact .inl ⟨{ known with kind }, by rw [get?_refined kind hget, if_pos hid], hkname⟩
      · exact .inl ⟨known, by rw [get?_refined kind hget, if_neg hid, hknown], hkname⟩
    · exact .inr hlisted
  | @byname name target i hn htarget =>
    intro name' id hname
    simp only [aliased, Std.ExtTreeMap.getElem?_insert, Std.LawfulEqCmp.compare_eq_iff_eq]
      at hname
    split at hname
    · next heq =>
      exact .inr ⟨⟨name, i, .byname⟩, Array.mem_push_self, heq, Option.some.inj hname⟩
    · obtain hown | ⟨a, ha, hsame⟩ := ht name' id hname
      · exact .inl hown
      · exact .inr ⟨a, Array.mem_push_of_mem _ ha, hsame⟩

theorem listed_lasting : Lasting (fun _ => True) Listed where
  declare _ _ hs ht _ := (declare_step hs _ _).listed ht
  byname _ ht := (bindAlias_step _ _ _).listed ht

theorem listed_initial : Environment.initialSymbols.Listed := by
  refine listed_lasting.initial trivial trivial fun name id h => ?_
  exact absurd h (by simp [empty])

end SymbolTable

end Passage

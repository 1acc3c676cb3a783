import Passage.Proofs.Coherence
import Passage.Proofs.Framing
import Passage.Proofs.Lasting

/-!
# Scripted functions and their definitions

A name that heads a script becomes the name of a scripted function, and the script is listed
under that name. Whoever calls the function looks the script up under the name of the symbol.
The two are the same unless the script is headed by a further name of the symbol.

`SymbolTable.Defines` is the invariant: definitions are listed under names of their symbols,
and no symbol is a scripted function without a definition. Scripts are the only way to become
one, so the invariant lasts where no script is declared (`Defines.lasting`), and is made good
when scripts are (`withScripts_defines`).
-/

namespace Passage

/-! ## Looking up scripts -/

namespace Scripts

theorem get?_insert (scripts : Scripts) (name : String) (script : Script) (other : String) :
    (scripts.insert name script).get? other =
      (scripts.get? other).or (if other = name then some script else none) := by
  have happend : (⟨scripts.entries ++ [(name, script)]⟩ : Scripts).get? other =
      (scripts.get? other).or (if other = name then some script else none) := by
    simp only [get?]
    induction scripts.entries with
    | nil =>
      rw [List.nil_append, List.lookup_cons]
      by_cases h : other = name
      · simp [h]
      · simp [h, beq_false_of_ne h]
    | cons entry rest ih =>
      rw [List.cons_append, List.lookup_cons, List.lookup_cons]
      by_cases h : other == entry.1 <;> simp [h, ih]
  unfold insert contains
  by_cases h : (scripts.get? name).isSome
  · rw [if_pos h]
    by_cases hname : other = name
    · rw [hname, Option.or_of_isSome h]
    · rw [if_neg hname, Option.or_none]
  · rw [if_neg h, happend]

theorem get?_insertAll (scripts other : Scripts) (name : String) :
    (scripts.insertAll other).get? name = (scripts.get? name).or (other.get? name) := by
  obtain ⟨entries⟩ := other
  induction entries generalizing scripts with
  | nil => exact (Option.or_none).symm
  | cons entry rest ih =>
    have hstep := ih (scripts.insert entry.1 entry.2)
    rw [get?_insert, Option.or_assoc] at hstep
    refine hstep.trans (congrArg _ ?_)
    show _ = List.lookup name ((entry.1, entry.2) :: rest)
    rw [List.lookup_cons]
    by_cases h : name = entry.1
    · simp [h]
    · simp [h, beq_false_of_ne h, get?]

end Scripts

/-! ## Kinds of functions -/

/-- The kinds of functions whose provenance is known. -/
def Symbol.Kind.IsResolved (kind : Symbol.Kind) : Prop :=
  kind = .scriptedFunction ∨ kind = .builtInFunction ∨ kind = .compilerFunction

theorem Symbol.Kind.IsResolved.refine {known incoming refined : Symbol.Kind}
    (h : known.IsResolved) (hr : known.refine incoming = some refined) : refined.IsResolved := by
  unfold IsResolved at h ⊢
  obtain rfl | rfl | rfl := h <;> revert hr <;> cases incoming <;> cases refined <;> decide

/-- Declared as a scripted function, a name is just that. -/
theorem Symbol.Kind.refine_scripted {known refined : Symbol.Kind}
    (h : known.refine .scriptedFunction = some refined) : refined = .scriptedFunction := by
  revert h
  cases known <;> cases refined <;> decide

/-! ## Definitions -/

namespace SymbolTable

/-- Definitions are listed under names of their symbols, which are functions, and every
scripted function has one. Only the name and the symbol of a definition matter. -/
structure Defines (defined : String → SymbolId → Prop) (t : SymbolTable) : Prop where
  bound : ∀ {name id}, defined name id → t.names[name]? = some id
  resolved : ∀ {name id s}, defined name id → t.get? id = some s → s.kind.IsResolved
  every : ∀ {id s}, t.get? id = some s → s.kind = .scriptedFunction → ∃ name, defined name id

namespace Defines

variable {defined : String → SymbolId → Prop} {t : SymbolTable}

/-- The kind of a symbol with a definition was known before a declaration. -/
theorem resolved_declare (h : t.Defines defined) (ht : t.Sound) {name : String}
    {kind : Symbol.Kind} {name' : String} {id : SymbolId} {s : Symbol} (hd : defined name' id)
    (hget : (t.declare name kind).2.get? id = some s) : s.kind.IsResolved := by
  obtain ⟨known, hknown⟩ := get?_of_lt (ht.bound (h.bound hd))
  obtain ⟨s', hget', -, hkind⟩ := get?_declare_of_get? ht name kind hknown
  obtain rfl := Option.some.inj (hget'.symm.trans hget)
  obtain hsame | hrefined := hkind
  · rw [hsame]
    exact h.resolved hd hknown
  · exact (h.resolved hd hknown).refine hrefined

/-- Definitions last while no script is declared. -/
theorem lasting (defined : String → SymbolId → Prop) :
    Lasting (· ≠ .scriptedFunction) (Defines defined) where
  declare := by
    intro t name kind ht h hkind
    refine ⟨fun hd => (declare_grows ht name kind).names (h.bound hd),
      fun hd hget => h.resolved_declare ht hd hget, fun hget hscripted => ?_⟩
    obtain ⟨known, hknown, hsame⟩ | ⟨-, hdeclared⟩ := get?_declare ht rfl hget
    · exact h.every hknown (hsame.trans hscripted)
    · exact absurd (hdeclared.symm.trans hscripted) hkind
  byname := by
    intro t name ht h
    refine ⟨fun hd => (bindAlias_grows t name _).names (h.bound hd), fun hd hget => ?_,
      fun hget => ?_⟩
    · rw [get?_bindAlias] at hget
      exact h.resolved hd hget
    · rw [get?_bindAlias] at hget
      exact h.every hget

/-- A name that is declared as that of a scripted function is one for which a definition is
due. -/
theorem declared (h : t.Defines defined) (ht : t.Sound) {t' : SymbolTable} {name : String}
    {id : SymbolId} (hd : t.declare name .scriptedFunction = (.ok id, t')) :
    t'.Defines fun name' id' => defined name' id' ∨ name' = name ∧ id' = id := by
  have hgrows := declare_grows ht name .scriptedFunction
  have hresolved : ∀ {name' id' s}, defined name' id' →
      (t.declare name .scriptedFunction).2.get? id' = some s → s.kind.IsResolved :=
    h.resolved_declare ht
  rw [hd] at hgrows hresolved
  have hknows := declare_knows_of ht Symbol.Kind.refine_scripted hd
  obtain ⟨s, hget, hkind, -⟩ := hknows.get? (hgrows.sound ht)
  refine ⟨?_, ?_, fun {id' s'} hget' hscripted => ?_⟩
  · rintro name' id' (hold | ⟨rfl, rfl⟩)
    · exact hgrows.names (h.bound hold)
    · obtain ⟨s', hlookup, -, rfl⟩ := hknows
      exact (names_of_lookup? (hgrows.sound ht) hlookup).1
  · rintro name' id' s' (hold | ⟨rfl, rfl⟩) hget'
    · exact hresolved hold hget'
    · obtain rfl := Option.some.inj (hget.symm.trans hget')
      exact .inl hkind
  · obtain ⟨known, hknown, hsame⟩ | ⟨hid, -⟩ := get?_declare ht hd hget'
    · obtain ⟨name', hd'⟩ := h.every hknown (hsame.trans hscripted)
      exact ⟨name', .inl hd'⟩
    · exact ⟨name, .inr ⟨rfl, (Except.ok.inj hid).symm⟩⟩

/-- Definitions may be replaced by others under the same names. -/
theorem replaced (h : t.Defines defined) {defined' : String → SymbolId → Prop}
    (hsome : ∀ {name id}, defined' name id → defined name id)
    (hall : ∀ {name id}, defined name id → ∃ id', defined' name id') : t.Defines defined' where
  bound hd := h.bound (hsome hd)
  resolved hd := h.resolved (hsome hd)
  every hget hscripted := by
    obtain ⟨name, hd⟩ := h.every hget hscripted
    obtain ⟨id', hd'⟩ := hall hd
    -- Both are bound to the name.
    obtain rfl := Option.some.inj ((h.bound hd).symm.trans (h.bound (hsome hd')))
    exact ⟨name, hd'⟩

end Defines

end SymbolTable

/-! ## Declaring scripts -/

namespace Scripts

/-- The symbol of a definition by its name. -/
def Lists (scripts : Scripts) (name : String) (id : SymbolId) : Prop :=
  ∃ script, scripts.get? name = some script ∧ script.symbol = id

/-- The names for which headers are declared, with their symbols. -/
def Due (headers : List Declared) (name : String) (id : SymbolId) : Prop :=
  ∃ header ∈ headers, header.name = name ∧ header.symbol = id

/-- A table that defines what it should, in a world. -/
abbrev Holding (defined : String → SymbolId → Prop) (w : World) : SymbolTable → Prop :=
  w.At (World.Lasts (SymbolTable.Defines defined))

variable {w : World} {defined : String → SymbolId → Prop}

theorem sustained_defines (defined : String → SymbolId → Prop) :
    Sustained (fun _ kind => kind ≠ .scriptedFunction)
      (CompilerFunctions.Declare (· ≠ .scriptedFunction))
      fun _ w => w.Lasts (SymbolTable.Defines defined) :=
  (SymbolTable.Defines.lasting defined).sustained fun _ h => h

theorem onSymbols_eq_ok {ε α : Type} {fault : ε → StageError}
    {op : SymbolTable → Except ε α × SymbolTable} {t t' : SymbolTable} {a : α}
    (h : Scripts.onSymbols fault op t = (.ok a, t')) : op t = (.ok a, t') := by
  have hvalue : (op t).1.mapError fault = .ok a := congrArg Prod.fst h
  have hafter : (op t).2 = t' := congrArg Prod.snd h
  exact Prod.ext (ok_of_mapError hvalue) hafter

theorem parsed_eq_ok {text : String} {tree : Rule.Tree} {t t' : SymbolTable}
    (h : parsed text t = (.ok tree, t')) : Rule.parse text = .ok tree ∧ t' = t := by
  unfold parsed at h
  rcases hparse : Rule.parse text with e | tree' <;> rw [hparse] at h
  · exact absurd (congrArg Prod.fst h) nofun
  · dsimp only at h
    rw [pure_apply] at h
    cases h
    exact ⟨rfl, rfl⟩

/-- A header that is declared is one for which a definition is due; of a built-in function
there is none. -/
theorem declareHeader_defines {header body : String} {declared : Option Declared}
    {t t' : SymbolTable} (ht : Holding defined w t)
    (h : declareHeader header body t = (.ok declared, t')) :
    Holding (fun name id => defined name id ∨ Due declared.toList name id) w t' := by
  unfold declareHeader at h
  obtain ⟨tree, t₁, htree, hhead⟩ := bind_eq_ok h
  clear h
  obtain ⟨-, rfl⟩ := parsed_eq_ok htree
  rcases hof : Header.ofTree? tree with _ | head <;> rw [hof] at hhead
  · exact absurd (congrArg Prod.fst hhead) nofun
  · dsimp only at hhead
    rw [bind_ok (get_apply _)] at hhead
    split at hhead
    · -- A built-in function keeps its name to itself.
      obtain ⟨rfl, rfl⟩ : none = declared ∧ t₁ = t' :=
        ⟨Except.ok.inj (congrArg Prod.fst hhead), congrArg Prod.snd hhead⟩
      refine ⟨ht.toSound, ht.table.replaced ?_ fun hd => ⟨_, .inl hd⟩⟩
      rintro name id (hd | ⟨header, hmem, -⟩)
      · exact hd
      · exact absurd hmem List.not_mem_nil
    · obtain ⟨id, t₂, hname, hrest⟩ := bind_eq_ok hhead
      obtain ⟨params, t₃, hparams, hpure⟩ := bind_eq_ok hrest
      have hname := onSymbols_eq_ok hname
      have hparams := onSymbols_eq_ok hparams
      obtain ⟨rfl, rfl⟩ : some ⟨head.name, id, params, body⟩ = declared ∧ t₃ = t' :=
        ⟨Except.ok.inj (congrArg Prod.fst hpure), congrArg Prod.snd hpure⟩
      have hgrows := SymbolTable.declare_grows ht.symbols head.name .scriptedFunction
      rw [hname] at hgrows
      have hdefines : Holding (fun name' id' => defined name' id' ∨ name' = head.name ∧ id' = id)
          w t₂ :=
        ⟨⟨hgrows.sound ht.symbols, ht.pool⟩, ht.table.declared ht.symbols hname⟩
      have hafter := @Sustained.declareMany_keeps _ _ _ [] (sustained_defines _) w
        head.params t₂ hdefines
      rw [hparams] at hafter
      refine ⟨hafter.toSound, hafter.table.replaced ?_ ?_⟩
      · rintro name' id' (hd | ⟨header, hmem, hsame⟩)
        · exact .inl hd
        · obtain rfl := List.mem_singleton.mp hmem
          exact .inr ⟨hsame.1.symm, hsame.2.symm⟩
      · rintro name' id' (hd | ⟨rfl, rfl⟩)
        · exact ⟨_, .inl hd⟩
        · exact ⟨_, .inr ⟨_, List.mem_singleton.mpr rfl, rfl, rfl⟩⟩

/-- Definitions are due for all headers that are declared. -/
theorem declareHeaders_defines {declarations : List (String × String)}
    {done headers : List Declared}
    {t t' : SymbolTable} (ht : Holding (fun name id => defined name id ∨ Due done name id) w t)
    (h : declareHeaders done declarations t = (.ok headers, t')) :
    Holding (fun name id => defined name id ∨ Due headers name id) w t' := by
  induction declarations generalizing done t with
  | nil =>
    obtain ⟨rfl, rfl⟩ : done.reverse = headers ∧ t = t' :=
      ⟨Except.ok.inj (congrArg Prod.fst h), congrArg Prod.snd h⟩
    simpa only [Due, List.mem_reverse] using ht
  | cons declaration rest ih =>
    obtain ⟨header, body⟩ := declaration
    rw [declareHeaders] at h
    obtain ⟨declared, t₁, hheader, h⟩ := bind_eq_ok h
    have hafter := declareHeader_defines ht hheader
    cases declared with
    | none => exact ih (by simpa [Due] using hafter) h
    | some declared =>
      refine ih ⟨hafter.toSound, hafter.table.replaced ?_ ?_⟩ h
      · rintro name id (hd | ⟨header, hmem, hsame⟩)
        · exact .inl (.inl hd)
        · obtain rfl | hmem := List.mem_cons.mp hmem
          · exact .inr ⟨_, List.mem_singleton.mpr rfl, hsame⟩
          · exact .inl (.inr ⟨header, hmem, hsame⟩)
      · rintro name id ((hd | ⟨header, hmem, hsame⟩) | ⟨header, hmem, hsame⟩)
        · exact ⟨id, .inl hd⟩
        · exact ⟨id, .inr ⟨header, List.mem_cons_of_mem _ hmem, hsame⟩⟩
        · obtain rfl := List.mem_singleton.mp hmem
          exact ⟨id, .inr ⟨_, List.mem_cons_self, hsame⟩⟩

/-- What is built from headers are definitions that were due, one for each of them. -/
theorem lowerBodies_lists {headers : List Declared} {scripts built : Scripts} {t t' : SymbolTable}
    (h : lowerBodies scripts headers t = (.ok built, t')) :
    (∀ {name id}, built.Lists name id → scripts.Lists name id ∨ Due headers name id) ∧
      (∀ {name}, scripts.contains name → built.contains name) ∧
      ∀ header ∈ headers, built.contains header.name := by
  induction headers generalizing scripts t with
  | nil =>
    obtain rfl : scripts = built := Except.ok.inj (congrArg Prod.fst h)
    exact ⟨.inl, id, fun _ hmem => absurd hmem List.not_mem_nil⟩
  | cons header rest ih =>
    rw [lowerBodies] at h
    split at h
    · next hcontains =>
      obtain ⟨hfrom, hkept, hrest⟩ := ih h
      refine ⟨fun {name id} hlists => ?_, hkept, fun header' hmem => ?_⟩
      · obtain hold | ⟨header', hmem, hsame⟩ := hfrom hlists
        · exact .inl hold
        · exact .inr ⟨header', List.mem_cons_of_mem _ hmem, hsame⟩
      · obtain rfl | hmem := List.mem_cons.mp hmem
        · exact hkept hcontains
        · exact hrest header' hmem
    · obtain ⟨tree, t₁, -, h⟩ := bind_eq_ok h
      obtain ⟨body, t₂, -, h⟩ := bind_eq_ok h
      obtain ⟨hfrom, hkept, hrest⟩ := ih h
      refine ⟨fun {name id} hlists => ?_, fun {name} hcontains => hkept ?_, fun header' hmem => ?_⟩
      · obtain ⟨script, hget, hsymbol⟩ | ⟨header', hmem, hsame⟩ := hfrom hlists
        · rw [get?_insert, Option.or_eq_some_iff] at hget
          obtain hget | ⟨-, hget⟩ := hget
          · exact .inl ⟨script, hget, hsymbol⟩
          · split at hget
            · next hname =>
              obtain rfl := Option.some.inj hget
              exact .inr ⟨header, List.mem_cons_self, hname.symm, hsymbol⟩
            · simp at hget
        · exact .inr ⟨header', List.mem_cons_of_mem _ hmem, hsame⟩
      · rw [contains, get?_insert, Option.isSome_or, show (scripts.get? name).isSome = true from
          hcontains]
        rfl
      · obtain rfl | hmem := List.mem_cons.mp hmem
        · refine hkept ?_
          rw [contains, get?_insert, if_pos rfl, Option.isSome_or, Option.isSome_some,
            Bool.or_true]
        · exact hrest header' hmem

/-- Building scripts leaves a table in which all that was due is defined, if what is built is
added to what was there. -/
theorem build_defines {declarations : List (String × String)} {scripts built : Scripts}
    {t t' : SymbolTable} (ht : Holding scripts.Lists w t)
    (h : build declarations t = (.ok built, t')) :
    Holding (scripts.insertAll built).Lists w t' := by
  unfold build at h
  obtain ⟨headers, t₁, hheaders, hbodies⟩ := bind_eq_ok h
  have hnone : Holding (fun name id => scripts.Lists name id ∨ Due [] name id) w t := by
    simpa [Due] using ht
  have hdue := declareHeaders_defines hnone hheaders
  have hafter := @Sustained.lowerBodies_keeps _ _ _ [] (sustained_defines _) w empty headers t₁ hdue
  rw [hbodies] at hafter
  obtain ⟨hfrom, -, hall⟩ := lowerBodies_lists hbodies
  refine ⟨hafter.toSound, hafter.table.replaced ?_ ?_⟩
  · rintro name id ⟨script, hget, hsymbol⟩
    rw [get?_insertAll, Option.or_eq_some_iff] at hget
    obtain hold | ⟨-, hnew⟩ := hget
    · exact .inl ⟨script, hold, hsymbol⟩
    · obtain ⟨script', hempty, -⟩ | hdue := hfrom ⟨script, hnew, hsymbol⟩
      · exact absurd hempty nofun
      · exact .inr hdue
  · intro name id hd
    have hlisted : ((scripts.insertAll built).get? name).isSome := by
      rw [get?_insertAll, Option.isSome_or, Bool.or_eq_true]
      obtain ⟨script, hget, -⟩ | ⟨header, hmem, rfl, -⟩ := hd
      · exact .inl (by rw [hget]; rfl)
      · exact .inr (hall header hmem)
    obtain ⟨script, hget⟩ := Option.isSome_iff_exists.mp hlisted
    exact ⟨script.symbol, script, hget, rfl⟩

end Scripts

/-! ## Environments -/

namespace Environment

/-- Compiler functions that make no scripted functions. -/
def Unscripted (functions : CompilerFunctions) : Prop :=
  functions.Declare (· ≠ .scriptedFunction)

/-- An environment whose scripted functions have definitions. -/
def Scripted (env : Environment) : Prop :=
  Holds Unscripted (World.Lasts (SymbolTable.Defines env.scripts.Lists)) env

theorem Scripted.start (config : Config) : (ofConfig config).Scripted := by
  refine ⟨⟨⟨SymbolTable.initial_sound, ObjectPool.empty_sound⟩, ?_⟩, ofConfig_ready config⟩
  refine (SymbolTable.Defines.lasting _).initial nofun nofun ⟨?_, ?_, ?_⟩
  · rintro name id ⟨script, hget, -⟩
    exact absurd hget nofun
  · rintro name id s ⟨script, hget, -⟩
    exact absurd hget nofun
  · intro id s hget
    exact absurd (SymbolTable.get?_eq_some_lt hget) (Nat.not_lt_zero _)

/-- Scripts that are taken have definitions, for all scripted functions that they make. -/
theorem withScripts_defines {declarations : List (String × String)} {env env' : Environment}
    (henv : env.Scripted) (h : withScripts declarations env = (.ok (), env')) :
    env'.Scripted := by
  unfold withScripts at h
  obtain ⟨built, env₁, hbuilt, h⟩ := bind_eq_ok h
  obtain ⟨symbols, hbuild, rfl⟩ : ∃ symbols,
      Scripts.build declarations env.world.symbols = (.ok built, symbols) ∧
        env₁ = { env with world := { env.world with symbols } } :=
    ⟨_, Prod.ext (ok_of_mapError (congrArg Prod.fst hbuilt)) rfl, (congrArg Prod.snd hbuilt).symm⟩
  rw [modify_apply] at h
  cases h
  have hdefines := Scripts.build_defines (w := env.world) henv.world hbuild
  exact ⟨hdefines, henv.ready.functions, henv.ready.pipeline, henv.ready.fastOps⟩

/-- The functions that are brought leave the scripts. -/
theorem withFunctions_scripts (env : Environment) (functions : CompilerFunctions) :
    (withFunctions functions env).2.scripts = env.scripts := by
  have hkeeps : Keeps (fun e : Environment => e.scripts = env.scripts) (withFunctions functions) :=
    .bind (.forM_of_mem fun _ _ => .bind (fun _ h => h) fun _ => .pure _) fun _ =>
      .modify fun _ h => h
  exact hkeeps env rfl

/-- Scripts are declared by the request to do so, and by no other one. -/
theorem respond_scripts {may : String → Symbol.Kind → Prop} {allowed : CompilerFunctions → Prop}
    {P : List String → World → Prop} {delivered : List String} (h : Sustained may allowed P)
    {env : Environment} (henv : Holds allowed (P delivered) env) {request : Request}
    (hother : ∀ declarations, request ≠ .scripts declarations) :
    (env.respond request).2.scripts = env.scripts := by
  by_cases hfunctions : ∃ functions, request = .functions functions
  · obtain ⟨functions, rfl⟩ := hfunctions
    exact withFunctions_scripts env functions
  · by_cases hvalues : ∃ values, request = .settingValues values
    · obtain ⟨values, rfl⟩ := hvalues
      rfl
    · have hgiven := respond_resembles h henv hother (fun _ h => hfunctions ⟨_, h⟩)
        fun _ h => hvalues ⟨_, h⟩
      exact congrArg (·.2.2.1) hgiven

/-- Unless it refuses something, an answer leaves all scripted functions with definitions. -/
theorem Scripted.respond {env : Environment} (h : env.Scripted) {request : Request}
    (hrequest : request.Declare (· ≠ .scriptedFunction))
    (htaken : (env.respond request).1.refuses = false) : (env.respond request).2.Scripted := by
  by_cases hscripts : ∃ declarations, request = .scripts declarations
  · obtain ⟨declarations, rfl⟩ := hscripts
    have htold : env.respond (.scripts declarations) =
      (.done (withScripts declarations env).1, (withScripts declarations env).2) := rfl
    rw [htold] at htaken ⊢
    rcases hres : withScripts declarations env with ⟨e | ⟨⟩, env'⟩ <;> rw [hres] at htaken
    · exact absurd htaken nofun
    · exact withScripts_defines h hres
  · have hother : ∀ declarations, request ≠ .scripts declarations :=
      fun declarations heq => hscripts ⟨declarations, heq⟩
    have hafter := (SymbolTable.Defines.lasting env.scripts.Lists).respond (fun _ h => h) h
      hrequest fun declarations heq => absurd heq (hother declarations)
    have hsame := @respond_scripts _ _ _ [] (Scripts.sustained_defines env.scripts.Lists) env h
      request hother
    unfold Scripted
    rw [hsame]
    exact hafter

/-- All scripted functions have definitions where nothing was refused. -/
theorem scripted_of_reached {answers : List Answer} {env : Environment}
    (hr : Reached (Request.Declare (· ≠ .scriptedFunction)) answers env)
    (htaken : ∀ answer ∈ answers, answer.refuses = false) : env.Scripted := by
  induction hr with
  | start config => exact .start config
  | step request _ hrequest ih =>
    obtain ⟨hlast, hbefore⟩ := List.forall_mem_cons.mp htaken
    exact (ih hbefore).respond hrequest hlast

/-- A scripted function is found under its own name, with its own symbol, unless a further name
of the symbol heads a script: so it is where nothing was refused and compiler functions make no
scripted functions. -/
theorem scripted_found {answers : List Answer} {env : Environment}
    (hr : Reached (Request.Declare (· ≠ .scriptedFunction)) answers env)
    (htaken : ∀ answer ∈ answers, answer.refuses = false) {s : Symbol}
    (hs : s ∈ env.world.symbols.ofKind .scriptedFunction)
    (hbyname : ∀ a ∈ env.world.symbols.aliases, a.id = s.id → env.scripts.get? a.name = none) :
    ∃ script, env.scripts.get? s.name = some script ∧ script.symbol = s.id := by
  have hscripted := (scripted_of_reached hr htaken).world
  have hlisted := (SymbolTable.listed_lasting.reached SymbolTable.listed_initial
    (hr.mono Request.Declare.anything)).world.table
  obtain ⟨hmem, hkind⟩ := List.mem_filter.mp hs
  obtain ⟨id, hid⟩ := List.mem_iff_getElem?.mp hmem
  have hget : env.world.symbols.get? id = some s := by
    rw [← hid]
    exact (Array.getElem?_toList).symm
  obtain ⟨name, script, hscript, hsymbol⟩ := hscripted.table.every hget (beq_iff_eq.mp hkind)
  obtain rfl := hscripted.symbols.ids hget
  obtain ⟨s', hget', rfl⟩ | ⟨a, ha, rfl, haid⟩ :=
    hlisted _ _ (hscripted.table.bound ⟨script, hscript, hsymbol⟩)
  · obtain rfl := Option.some.inj (hget.symm.trans hget')
    exact ⟨script, hscript, hsymbol⟩
  · rw [hbyname a ha haid] at hscript
    exact absurd hscript nofun

/-! ### A token and scripts -/

/-- A token, its written form, and scripts. -/
def swordRequests (declarations : List (String × String)) : List Request :=
  [.tokens ["Kokiri Sword"], .aliases, .scripts declarations]

/-- The answers to them, last first. -/
def swordAnswers (declarations : List (String × String)) : List Answer :=
  ((ofConfig .standard).answers (swordRequests declarations)).reverse ++ []

/-- What they lead to. -/
def swordScripts (declarations : List (String × String)) : Environment :=
  (ofConfig .standard).after (swordRequests declarations)

theorem reached_swordScripts (declarations : List (String × String)) :
    Reached (Request.Declare (· ≠ .scriptedFunction)) (swordAnswers declarations)
      (swordScripts declarations) := by
  refine (Reached.start .standard).after fun request hmem => ?_
  simp only [swordRequests, List.mem_cons, List.not_mem_nil, or_false] at hmem
  obtain rfl | rfl | rfl := hmem <;> trivial

theorem swordScripts_taken {declarations : List (String × String)}
    (h : ((ofConfig .standard).answers (swordRequests declarations)).map Answer.refuses =
      [false, false, false]) : ∀ answer ∈ swordAnswers declarations, answer.refuses = false := by
  intro answer hmem
  have hrefuses : answer.refuses ∈ [false, false, false] := by
    rw [← h]
    refine List.mem_map_of_mem ?_
    simpa [swordAnswers] using hmem
  simpa using hrefuses

/-- A script that uses a token by its written form is found under its own name. -/
theorem armed_found :
    ⟨"armed", 14, .scriptedFunction⟩ ∈
        (swordScripts [("armed", "Kokiri_Sword")]).world.symbols.ofKind .scriptedFunction ∧
      (swordScripts [("armed", "Kokiri_Sword")]).world.symbols.aliases.toList =
        [⟨"Kokiri_Sword", 13, .byname⟩] ∧
      ∃ script, (swordScripts [("armed", "Kokiri_Sword")]).scripts.get? "armed" = some script ∧
        script.symbol = 14 := by
  have hall : ((swordScripts [("armed", "Kokiri_Sword")]).world.symbols.ofKind .scriptedFunction,
      (swordScripts [("armed", "Kokiri_Sword")]).world.symbols.aliases.toList,
      ((ofConfig .standard).answers (swordRequests [("armed", "Kokiri_Sword")])).map
        Answer.refuses) =
      ([⟨"armed", 14, .scriptedFunction⟩], [⟨"Kokiri_Sword", 13, .byname⟩],
        [false, false, false]) := by decide +kernel
  obtain ⟨hkind, hrest⟩ := Prod.mk.inj hall
  obtain ⟨haliases, htaken⟩ := Prod.mk.inj hrest
  have hmem : ⟨"armed", 14, .scriptedFunction⟩ ∈
      (swordScripts [("armed", "Kokiri_Sword")]).world.symbols.ofKind .scriptedFunction := by
    rw [hkind]
    exact List.mem_cons_self
  refine ⟨hmem, haliases, scripted_found (reached_swordScripts [("armed", "Kokiri_Sword")])
    (swordScripts_taken htaken) hmem fun a ha hid => ?_⟩
  rw [← Array.mem_toList_iff, haliases, List.mem_singleton] at ha
  rw [ha] at hid
  exact absurd hid (by decide)

/-- A script that is headed by the written form of a token makes the token a scripted function,
which is not found under its name. -/
theorem renamed_script_missing :
    Reached (Request.Declare (· ≠ .scriptedFunction)) (swordAnswers [("Kokiri_Sword", "True")])
        (swordScripts [("Kokiri_Sword", "True")]) ∧
      (∀ answer ∈ swordAnswers [("Kokiri_Sword", "True")], answer.refuses = false) ∧
      ⟨"Kokiri Sword", 13, .scriptedFunction⟩ ∈
        (swordScripts [("Kokiri_Sword", "True")]).world.symbols.ofKind .scriptedFunction ∧
      (swordScripts [("Kokiri_Sword", "True")]).scripts.get? "Kokiri Sword" = none := by
  have hall : ((swordScripts [("Kokiri_Sword", "True")]).world.symbols.ofKind .scriptedFunction,
      ((ofConfig .standard).answers (swordRequests [("Kokiri_Sword", "True")])).map Answer.refuses,
      ((swordScripts [("Kokiri_Sword", "True")]).scripts.get? "Kokiri Sword").isNone) =
      ([⟨"Kokiri Sword", 13, .scriptedFunction⟩], [false, false, false], true) := by decide +kernel
  obtain ⟨hkind, hrest⟩ := Prod.mk.inj hall
  obtain ⟨htaken, hmissing⟩ := Prod.mk.inj hrest
  refine ⟨reached_swordScripts _, swordScripts_taken htaken, ?_,
    Option.isNone_iff_eq_none.mp hmissing⟩
  rw [hkind]
  exact List.mem_cons_self

end Environment

end Passage

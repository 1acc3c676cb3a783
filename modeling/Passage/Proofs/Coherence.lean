import Passage.Proofs.Correctness
import Passage.Proofs.Framing
import Passage.Proofs.Names
import Passage.Proofs.Pointers

/-!
# Symbols and their pointers

A symbol gets its kind in the symbol table and its pointer in the pool, in two steps that
know nothing of each other, and either may be undone. `World.Coherent` is the invariant that
both agree: tokens, settings and built-in functions have the pointers of their kind, no two
symbols share a pointer, and functions are defined in the order of their addresses. It is
kept by everything that rules do, also where they fail, and by filling an environment as
long as nothing is refused.
-/

namespace Passage

open SymbolTable (IsGiven)

namespace ObjectPool

/-- A symbol of the kind has the pointer that it should have; a function is also defined. -/
inductive Provides (p : ObjectPool) (id : SymbolId) : Symbol.Kind → Prop
  | token : p.pointer? id = some (Elsewhere.tokenPointer id) → Provides p id .token
  | setting {address : Nat} : p.pointer? id = some (settingPointer address) →
      Provides p id .setting
  | function {address : Nat} {signature : Signature} :
      p.pointer? id = some (functionPointer address) →
      p.definitions.lookup id = some signature → Provides p id .builtInFunction

theorem Provides.continued {p p' : ObjectPool} (h : p.Continues p') {id : SymbolId}
    {kind : Symbol.Kind} (hp : p.Provides id kind) : p'.Provides id kind := by
  cases hp with
  | token hpointer => exact .token (h.pointer? hpointer)
  | setting hpointer => exact .setting (h.pointer? hpointer)
  | function hpointer hlookup => exact .function (h.pointer? hpointer) (h.lookup hlookup)

theorem Provides.pointer? {p : ObjectPool} {id : SymbolId} {kind : Symbol.Kind}
    (h : p.Provides id kind) : ∃ o, p.pointer? id = some o := by
  cases h with
  | token hpointer => exact ⟨_, hpointer⟩
  | setting hpointer => exact ⟨_, hpointer⟩
  | function hpointer _ => exact ⟨_, hpointer⟩

end ObjectPool

/-! ## Pointers that tell symbols apart -/

/-- The pointers that symbols have, where `functions` and `settings` are the addresses given
so far. -/
def Given (functions settings : Nat) (id : SymbolId) (o : Object) : Prop :=
  o = Elsewhere.tokenPointer id ∨ (∃ address < settings, o = settingPointer address) ∨
    ∃ address < functions, o = functionPointer address

namespace Given

variable {b s : Nat} {id id' : SymbolId} {o : Object}

theorem mono {b' s' : Nat} (hb : b ≤ b') (hs : s ≤ s') (h : Given b s id o) : Given b' s' id o := by
  obtain h | ⟨address, hlt, h⟩ | ⟨address, hlt, h⟩ := h
  · exact .inl h
  · exact .inr (.inl ⟨address, Nat.lt_of_lt_of_le hlt hs, h⟩)
  · exact .inr (.inr ⟨address, Nat.lt_of_lt_of_le hlt hb, h⟩)

/-- The pointer of a token is given to no other symbol. -/
theorem token (hid : id < 2 ^ 32) (hid' : id' < 2 ^ 32)
    (hs : s < 2 ^ 32) (hb : b < 2 ^ 32) (h : Given b s id' (Elsewhere.tokenPointer id)) :
    id' = id := by
  obtain h | ⟨address, hlt, h⟩ | ⟨address, hlt, h⟩ := h
  · exact (Object.ofPointer_tag_address hid hid' h).2.symm
  · exact absurd (Object.ofPointer_tag_address hid (Nat.lt_trans hlt hs) h).1 nofun
  · exact absurd (Object.ofPointer_tag_address hid (Nat.lt_trans hlt hb) h).1 nofun

/-- The pointer of the next setting is not given yet. -/
theorem not_setting (hid : id < 2 ^ 32) (hs : s < 2 ^ 32) (hb : b < 2 ^ 32) :
    ¬ Given b s id (settingPointer s) := by
  rintro (h | ⟨address, hlt, h⟩ | ⟨address, hlt, h⟩)
  · exact absurd (Object.ofPointer_tag_address hs hid h).1 nofun
  · exact Nat.ne_of_gt hlt (Object.ofPointer_tag_address hs (Nat.lt_trans hlt hs) h).2
  · exact absurd (Object.ofPointer_tag_address hs (Nat.lt_trans hlt hb) h).1 nofun

/-- The pointer of the next function is not given yet. -/
theorem not_function (hid : id < 2 ^ 32) (hs : s < 2 ^ 32) (hb : b < 2 ^ 32) :
    ¬ Given b s id (functionPointer b) := by
  rintro (h | ⟨address, hlt, h⟩ | ⟨address, hlt, h⟩)
  · exact absurd (Object.ofPointer_tag_address hb hid h).1 nofun
  · exact absurd (Object.ofPointer_tag_address hb (Nat.lt_trans hlt hs) h).1 nofun
  · exact Nat.ne_of_gt hlt (Object.ofPointer_tag_address hb (Nat.lt_trans hlt hb) h).2

/-- The pointer of a setting is one of those that were given. -/
theorem setting {address : Nat} (h : Given b s id (settingPointer address)) :
    ∃ given < s, settingPointer address = settingPointer given := by
  obtain h | h | ⟨given, -, h⟩ := h
  · exact absurd (congrArg Pointer.tag (Object.ofPointer_injective h)) nofun
  · exact h
  · exact absurd (congrArg Pointer.tag (Object.ofPointer_injective h)) nofun

/-- The pointer of a function is one of those that were given. -/
theorem function {address : Nat} (h : Given b s id (functionPointer address)) :
    ∃ given < b, functionPointer address = functionPointer given := by
  obtain h | ⟨given, -, h⟩ | h := h
  · exact absurd (congrArg Pointer.tag (Object.ofPointer_injective h)) nofun
  · exact absurd (congrArg Pointer.tag (Object.ofPointer_injective h)) nofun
  · exact h

end Given

namespace ObjectPool

/-- No two symbols share a pointer, and functions are defined in the order of their
addresses. -/
structure Orderly (functions settings : Nat) (p : ObjectPool) : Prop where
  apart : ∀ {id id' o}, p.pointer? id = some o → p.pointer? id' = some o → id = id'
  functions : p.Functions functions
  defined : ∀ {i entry}, p.definitions[i]? = some entry →
    p.pointer? entry.1 = some (functionPointer i)
  /-- Each setting has an entry of its own. -/
  settings : settings ≤ p.size

theorem pointer?_empty (id : SymbolId) : empty.pointer? id = none := by
  simp [ObjectPool.pointer?, empty]

theorem empty_orderly : empty.Orderly 0 0 where
  apart h := absurd ((pointer?_empty _).symm.trans h) nofun
  functions := empty_functions
  defined h := absurd h nofun
  settings := Nat.zero_le _

namespace Orderly

variable {b s : Nat} {p p' : ObjectPool} {id : SymbolId} {pointer : Object} {index : ObjectIndex}

theorem bounds (h : p.Orderly b s) (hp : p.Sound) : b < 2 ^ 32 ∧ s < 2 ^ 32 := by
  have hb : b ≤ 65536 := h.functions.count_le hp
  have hs : s ≤ 65536 := Nat.le_trans h.settings hp.size
  omega

/-- Further objects, none of them a pointer of a symbol. -/
theorem entered (h : p.Orderly b s) (hg : p.Grows p')
    (hpointers : ∀ {id o}, p'.pointer? id = some o → p.pointer? id = some o) :
    p'.Orderly b s where
  apart ho ho' := h.apart (hpointers ho) (hpointers ho')
  functions := h.functions.grown hg
  defined hentry := hg.pointer? (h.defined (hg.definitions ▸ hentry))
  settings := Nat.le_trans h.settings hg.size

/-- A pointer that no other symbol has. -/
theorem associate (h : p.Orderly b s) (hp : p.Sound)
    (ha : p.associate id pointer = (.ok index, p'))
    (hfresh : ∀ {id'}, p.pointer? id' = some pointer → id' = id) : p'.Orderly b s := by
  have hgrows := (associate_step hp id pointer).grows
  rw [ha] at hgrows
  refine ⟨fun ho ho' => ?_, h.functions.grown hgrows,
    fun hentry => hgrows.pointer? (h.defined (hgrows.definitions ▸ hentry)),
    Nat.le_trans h.settings hgrows.size⟩
  obtain hold | ⟨rfl, rfl⟩ := pointer?_of_associate hp ha ho <;>
    obtain hold' | ⟨rfl, heq⟩ := pointer?_of_associate hp ha ho'
  · exact h.apart hold hold'
  · exact hfresh (heq ▸ hold)
  · exact (hfresh hold').symm
  · rfl

/-- The pointer of the next setting. -/
theorem setting (h : p.Orderly b s) (hp : p.Sound)
    (ha : p.associate id (settingPointer s) = (.ok index, p'))
    (hfresh : ∀ id', p.pointer? id' ≠ some (settingPointer s)) : p'.Orderly b (s + 1) := by
  obtain ⟨hapart, hfunctions, hdefined, -⟩ := h.associate hp ha fun ho => absurd ho (hfresh _)
  refine ⟨hapart, hfunctions, hdefined, ?_⟩
  have hnone : p.pointer? id = none := by
    rcases ho : p.pointer? id with _ | o
    · rfl
    · have hgrows := (associate_step hp id (settingPointer s)).grows
      rw [ha] at hgrows
      have hsame := (hgrows.pointer? ho).symm.trans (pointer?_associate hp ha)
      exact absurd (ho.trans hsame) (hfresh id)
  rw [size_associate hp hnone ha]
  exact Nat.succ_le_succ h.settings

/-- The pointer and the signature of the next function. -/
theorem define (h : p.Orderly b s) (hp : p.Sound) {signature : Signature}
    (hd : p.define id (functionPointer b) signature = (.ok index, p'))
    (hfresh : ∀ id', p.pointer? id' ≠ some (functionPointer b)) : p'.Orderly (b + 1) s := by
  have hfunctions := h.functions.define hp hd
  obtain ⟨p₁, ha, -, hnew, -, rfl⟩ := h.functions.define_eq hp hd
  have hbefore := h.associate hp ha fun ho => absurd ho (hfresh _)
  refine ⟨hbefore.apart, hfunctions, fun {i entry} hentry => ?_, hbefore.settings⟩
  rw [List.getElem?_append, hbefore.functions.length] at hentry
  split at hentry
  · exact hbefore.defined hentry
  · next hi =>
    rw [List.getElem?_singleton] at hentry
    split at hentry
    · next hzero =>
      obtain rfl := Option.some.inj hentry
      rw [show i = b by omega]
      exact hnew
    · exact absurd hentry nofun

end Orderly

end ObjectPool

/-! ## Kinds in declarations -/

/-- A refined kind is one of the two that it was made of. -/
theorem Symbol.Kind.refine_either {known incoming refined : Symbol.Kind}
    (h : known.refine incoming = some refined) : refined = known ∨ refined = incoming := by
  unfold refine at h
  split at h
  all_goals try
    first
      | exact .inl (Option.some.inj h).symm
      | exact .inr (Option.some.inj h).symm
  split at h
  · exact .inl (Option.some.inj h).symm
  · exact absurd h nofun

/-- A symbol had its kind before a declaration, or is the one that was declared, under
this kind. -/
theorem SymbolTable.get?_declare {t t' : SymbolTable} (ht : t.Sound) {name : String}
    {kind : Symbol.Kind} {result : Except SymbolError SymbolId}
    (hd : t.declare name kind = (result, t')) {i : SymbolId} {s : Symbol}
    (h : t'.get? i = some s) :
    (∃ known, t.get? i = some known ∧ known.kind = s.kind) ∨ result = .ok i ∧ s.kind = kind := by
  obtain ⟨e, h'⟩ | ⟨_, -, -, h'⟩ | ⟨known, refined, hl, hr, -, h'⟩ | ⟨-, -, h'⟩ :=
    declare_cases ht name kind <;> rw [h'] at hd <;> cases hd
  · exact .inl ⟨s, h, rfl⟩
  · exact .inl ⟨s, h, rfl⟩
  · obtain ⟨-, hget⟩ := names_of_lookup? ht hl
    rw [get?_refined _ hget] at h
    by_cases hid : i = known.id
    · rw [if_pos hid] at h
      obtain rfl := Option.some.inj h
      obtain rfl | rfl := Symbol.Kind.refine_either hr
      · exact .inl ⟨known, hid ▸ hget, rfl⟩
      · exact .inr ⟨by rw [hid], rfl⟩
    · rw [if_neg hid] at h
      exact .inl ⟨s, h, rfl⟩
  · simp only [get?, appended, Array.getElem?_push] at h
    split at h
    · next hi =>
      obtain rfl := Option.some.inj h
      exact .inr ⟨by rw [hi]; rfl, rfl⟩
    · exact .inl ⟨s, h, rfl⟩

theorem SymbolTable.declare_capacity {t t' : SymbolTable} (ht : t.Sound) {name : String}
    {kind : Symbol.Kind} {result : Except SymbolError SymbolId}
    (hd : t.declare name kind = (result, t')) (h : t.size ≤ capacity) : t'.size ≤ capacity := by
  obtain ⟨e, h'⟩ | ⟨_, -, -, h'⟩ | ⟨known, refined, -, -, -, h'⟩ | ⟨-, hc, h'⟩ :=
    declare_cases ht name kind <;> rw [h'] at hd <;> cases hd
  · exact h
  · exact h
  · show (t.symbols.setIfInBounds _ _).size ≤ capacity
    rw [Array.size_setIfInBounds]
    exact h
  · show (t.symbols.push _).size ≤ capacity
    rw [Array.size_push]
    exact hc

/-! ## Coherent worlds -/

/-- Symbols and their pointers agree. -/
structure World.Coherent (functions settings : Nat) (w : World) : Prop
    extends World.Pointed (Given functions settings) w where
  orderly : w.pool.Orderly functions settings
  capacity : w.symbols.size ≤ SymbolTable.capacity
  /-- Tokens, settings and built-in functions have their pointers. -/
  provided : ∀ {id s}, w.symbols.get? id = some s → IsGiven s.kind → w.pool.Provides id s.kind
  /-- Functions are defined under names of their own. -/
  named : ∀ entry ∈ w.pool.definitions, w.symbols.names[entry.2.name]? = some entry.1

namespace World.Coherent

variable {b s : Nat} {w : World}

/-- Further symbols, none of a kind that is given pointers. -/
theorem grown (h : w.Coherent b s) {symbols : SymbolTable} (hg : w.symbols.Grows symbols)
    (hcapacity : symbols.size ≤ SymbolTable.capacity)
    (hkinds : ∀ {id sym}, symbols.get? id = some sym → IsGiven sym.kind →
      ∃ known, w.symbols.get? id = some known ∧ known.kind = sym.kind) :
    World.Coherent b s { w with symbols } where
  toPointed := h.declared hg
  orderly := h.orderly
  capacity := hcapacity
  provided hget hgiven := by
    obtain ⟨known, hknown, hkind⟩ := hkinds hget hgiven
    rw [← hkind] at hgiven ⊢
    exact h.provided hknown hgiven
  named entry hentry := hg.names (h.named entry hentry)

theorem declare (h : w.Coherent b s) (name : String) {kind : Symbol.Kind}
    (hkind : ¬ IsGiven kind) :
    World.Coherent b s { w with symbols := (w.symbols.declare name kind).2 } := by
  refine h.grown (SymbolTable.declare_grows h.symbols name kind)
    (SymbolTable.declare_capacity h.symbols rfl h.capacity) fun hget hgiven => ?_
  obtain hold | ⟨-, hsame⟩ := SymbolTable.get?_declare h.symbols rfl hget
  · exact hold
  · exact absurd (hsame ▸ hgiven) hkind

theorem declareMany (h : w.Coherent b s) (names : List String) {kind : Symbol.Kind}
    (hkind : ¬ IsGiven kind) :
    World.Coherent b s { w with symbols := (w.symbols.declareMany names kind).2 } := by
  induction names generalizing w with
  | nil => exact h
  | cons name rest ih =>
    have hstep := h.declare name hkind
    rw [SymbolTable.declareMany]
    rcases hd : w.symbols.declare name kind with ⟨e | id, t⟩ <;> rw [hd] at hstep
    · exact hstep
    · exact ih hstep

theorem start (config : Config) : (Environment.ofConfig config).world.Coherent 0 0 := by
  have hempty : World.empty.Coherent 0 0 :=
    { symbols := SymbolTable.empty_sound
      pool := ObjectPool.empty_sound
      given := fun h => absurd ((ObjectPool.pointer?_empty _).symm.trans h) nofun
      orderly := ObjectPool.empty_orderly
      capacity := Nat.zero_le _
      provided := fun h => absurd (SymbolTable.get?_eq_some_lt h) (Nat.not_lt_zero _)
      named := fun _ h => absurd h List.not_mem_nil }
  have hglobals := hempty.declareMany Environment.globalNames
    (show ¬ IsGiven .global by unfold IsGiven; decide)
  exact hglobals.declareMany [Elsewhere.atName, Elsewhere.hereName]
    (show ¬ IsGiven .compilerFunction by unfold IsGiven; decide)

theorem byname (h : w.Coherent b s) (target name : String) :
    World.Coherent b s { w with symbols := (w.symbols.bindAlias target name).2 } := by
  have hsymbols : (w.symbols.bindAlias target name).2.symbols = w.symbols.symbols := by
    unfold SymbolTable.bindAlias
    split
    · rfl
    · split
      · split <;> rfl
      · rfl
  refine h.grown (SymbolTable.bindAlias_grows _ _ _) ?_ fun {id sym} hget hgiven => ⟨sym, ?_, rfl⟩
  · rw [SymbolTable.size, hsymbols]
    exact h.capacity
  · rw [SymbolTable.get?, hsymbols] at hget
    exact hget

/-- Further objects, none of them a pointer of a symbol. -/
theorem entered (h : w.Coherent b s) {pool : ObjectPool} (hg : w.pool.Grows pool)
    (hpointers : ∀ {id o}, pool.pointer? id = some o → w.pool.pointer? id = some o) :
    World.Coherent b s { w with pool } where
  toPointed := h.toPointed.entered (hg.sound h.pool) fun ho => .inl (hpointers ho)
  orderly := h.orderly.entered hg hpointers
  capacity := h.capacity
  provided hget hgiven := (h.provided hget hgiven).continued hg.continues
  named entry hentry := h.named entry (hg.definitions ▸ hentry)

theorem context (h : w.Coherent b s) (context : Context) :
    World.Coherent b s { w with context } :=
  ⟨h.toPointed.context context, h.orderly, h.capacity, h.provided, h.named⟩

/-! ### Names with pointers -/

variable {b' s' : Nat} {name : String} {kind : Symbol.Kind} {id : SymbolId}
  {symbols : SymbolTable} {pointer : Object} {pool : ObjectPool} {index : ObjectIndex}

theorem lt (h : w.Coherent b s) {o : Object} (ho : w.pool.pointer? id = some o) : id < 2 ^ 32 :=
  Nat.lt_of_lt_of_le (h.given ho).1 h.capacity

/-- A symbol is declared under a kind that is given pointers, and has its pointer. -/
theorem supplied (h : w.Coherent b s) (hd : w.symbols.declare name kind = (.ok id, symbols))
    (hpointed : World.Pointed (Given b' s') { w with symbols, pool })
    (horderly : pool.Orderly b' s') (hcontinues : w.pool.Continues pool)
    (hprovides : pool.Provides id kind)
    (hnamed : ∀ entry ∈ pool.definitions, symbols.names[entry.2.name]? = some entry.1) :
    World.Coherent b' s' { w with symbols, pool } where
  toPointed := hpointed
  orderly := horderly
  capacity := SymbolTable.declare_capacity h.symbols hd h.capacity
  provided hget hgiven := by
    obtain ⟨known, hknown, hkind⟩ | ⟨hid, hkind⟩ := SymbolTable.get?_declare h.symbols hd hget
    · rw [← hkind] at hgiven ⊢
      exact (h.provided hknown hgiven).continued hcontinues
    · obtain rfl := Except.ok.inj hid
      rw [hkind]
      exact hprovides
  named := hnamed

theorem token (h : w.Coherent b s) (hd : w.symbols.declare name .token = (.ok id, symbols))
    (ha : w.pool.associate id (Elsewhere.tokenPointer id) = (.ok index, pool)) :
    World.Coherent b s { w with symbols, pool } := by
  have hgrows := (ObjectPool.associate_step h.pool id (Elsewhere.tokenPointer id)).grows
  rw [ha] at hgrows
  have hlt := SymbolTable.lt_of_declare h.symbols hd
  have hcapacity := SymbolTable.declare_capacity h.symbols hd h.capacity
  obtain ⟨hb, hs⟩ := h.orderly.bounds h.pool
  have hsymbols := SymbolTable.declare_grows h.symbols name .token
  rw [hd] at hsymbols
  refine h.supplied hd ((h.declared hsymbols).associated ha hlt (.inl rfl))
    (h.orderly.associate h.pool ha fun {id'} ho => ?_) hgrows.continues
    (.token (ObjectPool.pointer?_associate h.pool ha)) fun entry hentry => ?_
  · exact (h.given ho).2.token (Nat.lt_of_lt_of_le hlt hcapacity) (h.lt ho) hs hb
  · exact hsymbols.names (h.named entry (hgrows.definitions ▸ hentry))

theorem setting (h : w.Coherent b s) (hd : w.symbols.declare name .setting = (.ok id, symbols))
    (ha : w.pool.associate id (settingPointer s) = (.ok index, pool)) :
    World.Coherent b (s + 1) { w with symbols, pool } := by
  have hgrows := (ObjectPool.associate_step h.pool id (settingPointer s)).grows
  rw [ha] at hgrows
  have hlt := SymbolTable.lt_of_declare h.symbols hd
  obtain ⟨hb, hs⟩ := h.orderly.bounds h.pool
  have hsymbols := SymbolTable.declare_grows h.symbols name .setting
  rw [hd] at hsymbols
  have hpointed :=
    ((h.declared hsymbols).mono (Given.mono (Nat.le_refl _) (Nat.le_succ s))).associated ha
    hlt (.inr (.inl ⟨s, Nat.lt_succ_self s, rfl⟩))
  refine h.supplied hd hpointed (h.orderly.setting h.pool ha fun id' ho => ?_) hgrows.continues
    (.setting (ObjectPool.pointer?_associate h.pool ha)) fun entry hentry => ?_
  · exact Given.not_setting (h.lt ho) hs hb (h.given ho).2
  · exact hsymbols.names (h.named entry (hgrows.definitions ▸ hentry))

theorem function (h : w.Coherent b s) {signature : Signature}
    (hd : w.symbols.declare signature.name .builtInFunction = (.ok id, symbols))
    (ha : w.pool.define id (functionPointer b) signature = (.ok index, pool)) :
    World.Coherent (b + 1) s { w with symbols, pool } := by
  have hlt := SymbolTable.lt_of_declare h.symbols hd
  obtain ⟨hb, hs⟩ := h.orderly.bounds h.pool
  have hsymbols := SymbolTable.declare_grows h.symbols signature.name .builtInFunction
  rw [hd] at hsymbols
  have hpointed :=
    ((h.declared hsymbols).mono (Given.mono (Nat.le_succ b) (Nat.le_refl _))).defined ha
    hlt (.inr (.inr ⟨b, Nat.lt_succ_self b, rfl⟩))
  have horderly := h.orderly.define h.pool ha fun id' ho =>
    Given.not_function (h.lt ho) hs hb (h.given ho).2
  have hcontinues := h.orderly.functions.define_continues h.pool ha
  obtain ⟨hlookup, -⟩ := h.orderly.functions.lookup_define h.pool ha
  obtain ⟨sym, hname, -, rfl⟩ := SymbolTable.declare_knows h.symbols (.inl rfl) hd
  obtain ⟨p₁, hassociate, hgrows, hnew, -, rfl⟩ := h.orderly.functions.define_eq h.pool ha
  refine h.supplied hd hpointed horderly hcontinues (.function hnew hlookup) fun entry hentry => ?_
  obtain hentry | hentry := List.mem_append.mp hentry
  · exact hsymbols.names (h.named entry (hgrows.definitions ▸ hentry))
  · obtain rfl := List.mem_singleton.mp hentry
    exact (SymbolTable.names_of_lookup? hpointed.symbols hname).1

end World.Coherent

/-! ## Rules -/

/-- What has come to a world: names of kinds without pointers, further names of symbols, objects
that are no pointers of symbols, tokens together with their pointers, and connections. -/
inductive World.Equipped (w : World) : World → Prop
  | nothing : Equipped w w
  | declare {w' : World} (name : String) {kind : Symbol.Kind} : Equipped w w' → ¬ IsGiven kind →
      Equipped w { w' with symbols := (w'.symbols.declare name kind).2 }
  | byname {w' : World} (target name : String) : Equipped w w' →
      Equipped w { w' with symbols := (w'.symbols.bindAlias target name).2 }
  | enter {w' : World} {pool : ObjectPool} : Equipped w w' → w'.pool.Grows pool →
      (∀ {id o}, pool.pointer? id = some o → w'.pool.pointer? id = some o) →
      Equipped w { w' with pool }
  | token {w' : World} {name : String} {id : SymbolId} {symbols : SymbolTable}
      {index : ObjectIndex} {pool : ObjectPool} : Equipped w w' →
      w'.symbols.declare name .token = (.ok id, symbols) →
      w'.pool.associate id (Elsewhere.tokenPointer id) = (.ok index, pool) →
      Equipped w { w' with symbols, pool }
  | record {w' : World} {context : Context} : Equipped w w' → w'.context.Grows context →
      Equipped w { w' with context }

/-- Compiler functions that leave settings and built-in functions to the environment, and declare
no token without its pointer. -/
def CompilerFunctions.Equip (functions : CompilerFunctions) : Prop :=
  ∀ name function, functions.find? name = some function → ∀ args (w : World), w.Sound →
    w.Equipped (function args w).2

/-- The functions of the standard table declare one name at most, and no token. -/
theorem CompilerFunctions.standard_equip (tricks : List String) (nightStart : Bool) :
    (standard tricks nightStart).Equip := by
  intro name function h args w _
  obtain hsame | hdeclared := standard_snd h args w
  · rw [hsame]
    exact .nothing
  · rw [hdeclared]
    refine .declare _ .nothing ?_
    rintro (h | h | h) <;> exact absurd h nofun

/-- A request that brings no compiler functions but such as equip what they declare. -/
def Request.Equips : Request → Prop
  | .functions table => table.Equip
  | _ => True

/-- What comes to a coherent world so, leaves it coherent. -/
theorem World.Coherent.equipped {b s : Nat} {w w' : World} (h : w.Coherent b s)
    (hf : w.Equipped w') : w.Grows w' ∧ w'.Coherent b s := by
  induction hf with
  | nothing => exact ⟨grows_advances.refl w, h⟩
  | declare name _ hkind ih =>
    obtain ⟨hgrows, hw'⟩ := ih
    refine ⟨grows_advances.trans hgrows ⟨?_, .refl _, .refl _⟩, hw'.declare name hkind⟩
    exact SymbolTable.declare_grows hw'.symbols name _
  | byname target name _ ih =>
    obtain ⟨hgrows, hw'⟩ := ih
    refine ⟨grows_advances.trans hgrows ⟨?_, .refl _, .refl _⟩, hw'.byname target name⟩
    exact SymbolTable.bindAlias_grows _ target name
  | enter _ hpool hpointers ih =>
    obtain ⟨hgrows, hw'⟩ := ih
    exact ⟨grows_advances.trans hgrows ⟨.refl _, hpool, .refl _⟩, hw'.entered hpool hpointers⟩
  | @token _ name id _ _ _ _ hd ha ih =>
    obtain ⟨hgrows, hw'⟩ := ih
    have hsymbols := SymbolTable.declare_grows hw'.symbols name .token
    have hpool := (ObjectPool.associate_step hw'.pool id (Elsewhere.tokenPointer id)).grows
    rw [hd] at hsymbols
    rw [ha] at hpool
    exact ⟨grows_advances.trans hgrows ⟨hsymbols, hpool, .refl _⟩, hw'.token hd ha⟩
  | record _ hcontext ih =>
    obtain ⟨hgrows, hw'⟩ := ih
    exact ⟨grows_advances.trans hgrows ⟨.refl _, .refl _, hcontext⟩, hw'.context _⟩

/-- The token of a rule about a region comes with its pointer. -/
theorem World.Coherent.generate {b s : Nat} {w w' : World} (h : w.Coherent b s) {origin : String}
    {rule node : Node} (hok : Elsewhere.generate origin rule w = (.ok node, w')) :
    w'.Coherent b s := by
  obtain ⟨symbols, hdeclared, hrest⟩ := Elsewhere.generate_eq_ok h.toSound hok
  have hordinary : ∀ {kind : Symbol.Kind}, kind = .function ∨ kind = .region → ¬ IsGiven kind := by
    rintro _ (rfl | rfl) (h | h | h) <;> exact absurd h nofun
  obtain ⟨-, hnext⟩ := hdeclared.conducted (fun h => h.toSound)
    (fun h hkind => h.declare _ (hordinary hkind)) h
  obtain rfl | ⟨token, symbols', index, pool, -, htoken, hindex, rfl⟩ := hrest
  · exact hnext
  · exact (hnext.token htoken hindex).context _

/-- Symbols and their pointers agree whatever rules declare, and whichever tokens they
generate. -/
theorem World.Coherent.sustained (b s : Nat) :
    Sustained (fun _ kind => ¬ IsGiven kind) CompilerFunctions.Equip
      fun _ w => w.Coherent b s where
  sound h := h.toSound
  ordinary := by
    rintro _ _ (rfl | rfl | rfl) (h | h | h) <;> exact absurd h nofun
  declare h hkind := h.declare _ hkind
  byname h := h.byname _ _
  literals h hi := h.entered hi.toGrows (hi.pointer? h.pool)
  functions := by
    intro _ functions hequip name function hfind args w h
    obtain ⟨hgrows, hafter⟩ := h.equipped (hequip name function hfind args w h.toSound)
    exact ⟨hgrows, fun _ _ => hafter⟩
  region _ h := h.context _
  take h := h.context _
  generate origin rule w h :=
    ⟨(Elsewhere.generate_conducts origin rule w h.toSound).1, fun _ hok =>
      h.generate (Prod.ext hok rfl)⟩

/-! ## Environments -/

/-- Whether the answer refuses what was to come in. -/
def Answer.refuses : Answer → Bool
  | .done (.error _) => true
  | _ => false

namespace Environment

/-- Symbols and their pointers agree, as many as were given. -/
structure Coherent (env : Environment) : Prop where
  holds : Holds CompilerFunctions.Equip
    (World.Coherent env.builtInCount env.settingCount) env
  configured : env.Configured

namespace Coherent

variable {env : Environment}

theorem start (config : Config) : (ofConfig config).Coherent where
  holds := ⟨World.Coherent.start config, ofConfig_ready config⟩
  configured := rfl

/-- A relation that says nothing: what fails to come in leaves the environment as it may. -/
theorem anyhow_advances : Advances fun _ _ : Environment => True :=
  ⟨fun _ => trivial, fun _ _ => trivial⟩

theorem addToken (name : String) : Conducts Coherent (fun _ _ => True) (addToken name) := by
  refine fun env h => ⟨trivial, fun ⟨⟩ hok => ?_⟩
  obtain ⟨e, hadd⟩ | ⟨id, symbols, index, pool, hd, ha, hadd⟩ :=
    addToken_cases h.holds.world.pool name <;> rw [hadd] at hok ⊢
  · exact absurd hok nofun
  · exact ⟨⟨h.holds.world.token hd ha, h.holds.ready.functions, h.holds.ready.pipeline,
      h.holds.ready.fastOps⟩, h.configured⟩

theorem addSetting (name : String) : Conducts Coherent (fun _ _ => True) (addSetting name) := by
  refine fun env h => ⟨trivial, fun ⟨⟩ hok => ?_⟩
  obtain ⟨e, hadd⟩ | ⟨id, symbols, index, pool, hd, ha, hadd⟩ :=
    addSetting_cases h.holds.world.pool name <;> rw [hadd] at hok ⊢
  · exact absurd hok nofun
  · exact ⟨⟨h.holds.world.setting hd ha, h.holds.ready.functions, h.holds.ready.pipeline,
      h.holds.ready.fastOps⟩, h.configured⟩

theorem addBuiltIn (signature : Signature) :
    Conducts Coherent (fun _ _ => True) (addBuiltIn signature) := by
  refine fun env h => ⟨trivial, fun ⟨⟩ hok => ?_⟩
  obtain ⟨e, hadd⟩ | ⟨id, symbols, index, pool, hd, ha, hadd⟩ :=
    addBuiltIn_cases h.holds.world.pool signature <;> rw [hadd] at hok ⊢
  · exact absurd hok nofun
  · exact ⟨⟨h.holds.world.function hd ha, h.holds.ready.functions, h.holds.ready.pipeline,
      h.holds.ready.fastOps⟩, h.configured⟩

/-- An environment that stands as a coherent one does, and holds what it relies on. -/
theorem of_standing {env' : Environment} (h : env.Coherent) (hs : env'.standing = env.standing)
    (hholds : Holds CompilerFunctions.Equip
      (World.Coherent env.builtInCount env.settingCount) env') : env'.Coherent := by
  have hfunctions : env'.builtInCount = env.builtInCount := congrArg (·.2.2.1) hs
  have hsettings : env'.settingCount = env.settingCount := congrArg (·.2.2.2) hs
  refine ⟨?_, h.configured.of_standing hs⟩
  rw [hfunctions, hsettings]
  exact hholds

theorem ordinary (h : env.Coherent) {request : Request}
    (hordinary : request.Ordinary (fun _ kind => ¬ IsGiven kind)
      CompilerFunctions.Equip) : (env.respond request).2.Coherent :=
  h.of_standing (respond_standing env hordinary) (@Sustained.respond _ _ _ []
    (World.Coherent.sustained env.builtInCount env.settingCount) _ h.holds _ hordinary)

/-- Unless it refuses something, an answer leaves symbols and pointers in agreement. -/
theorem respond (h : env.Coherent) {request : Request} (hwithin : request.Equips)
    (htaken : (env.respond request).1.refuses = false) : (env.respond request).2.Coherent := by
  have hfilled : ∀ action : Compiling StageError Unit, Conducts Coherent (fun _ _ => True) action →
      (told .done action env).1.refuses = false → (told .done action env).2.Coherent := by
    intro action haction htaken
    refine (haction env h).2 () ?_
    have htold : (told .done action env).1 = .done (action env).1 := rfl
    rw [htold] at htaken
    rcases hres : (action env).1 with e | ⟨⟩
    · rw [hres] at htaken
      exact absurd htaken nofun
    · rfl
  cases request with
  | builtIns signatures =>
    exact hfilled _ (.forM_of_mem anyhow_advances fun _ _ => addBuiltIn _) htaken
  | tokens names => exact hfilled _ (.forM_of_mem anyhow_advances fun _ _ => addToken _) htaken
  | settings names => exact hfilled _ (.forM_of_mem anyhow_advances fun _ _ => addSetting _) htaken
  | scripts declarations =>
    exact h.ordinary fun _ _ _ _ _ _ => by rintro (h | h | h) <;> exact absurd h nofun
  | functions functions =>
    exact h.ordinary ⟨fun _ _ => by rintro (h | h | h) <;> exact absurd h nofun, hwithin⟩
  | _ => exact h.ordinary trivial

end Coherent

/-- Symbols and their pointers agree in every environment in which nothing was refused. -/
theorem coherent_of_reached {answers : List Answer} {env : Environment}
    (hr : Reached Request.Equips answers env)
    (htaken : ∀ answer ∈ answers, answer.refuses = false) : env.Coherent := by
  induction hr with
  | start config => exact .start config
  | step request _ hwithin ih =>
    obtain ⟨hlast, hbefore⟩ := List.forall_mem_cons.mp htaken
    exact (ih hbefore).respond hwithin hlast

end Environment

end Passage

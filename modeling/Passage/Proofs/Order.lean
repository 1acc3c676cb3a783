import Passage.Proofs.Dereferencing

/-!
# Environments in order

What an environment has that refused nothing: each token, setting and built-in function has
a pointer of its own, the frozen table lists the functions in the order of their addresses,
and under different names. So no code generation fails for want of a pointer, and a machine
calls behind each pointer the function of its own name, unless the host lacks one
(`Environment.symbols_in_order`). Compiler functions have to equip the tokens that they declare:
one that declares a token and leaves it at that is enough for a rule to fail for want of a
pointer (`Environment.cobbler_lacks_pointer`).
-/

namespace Passage

/-! ## Frozen tables -/

theorem ObjectPool.definitionOf_eq_ok {p : ObjectPool} {id : SymbolId} {signature : Signature}
    (h : p.definitions.lookup id = some signature) : p.definitionOf id = .ok signature := by
  rw [definitionOf, h]

namespace ObjectPool.Orderly

variable {b s : Nat} {p : ObjectPool}

theorem builtIns_eq (h : p.Orderly b s) : p.freeze.builtIns =
    p.definitions.map fun entry => ((p.pointer? entry.1).getD .null, entry.2) := by
  rw [freeze_builtIns, ← List.filterMap_eq_map]
  refine List.filterMap_congr fun entry hentry => ?_
  obtain ⟨address, -, hpointer⟩ := h.functions.defined entry hentry
  rw [Function.comp_apply, hpointer]
  rfl

/-- The frozen table lists the functions in the order of their addresses. -/
theorem getElem?_builtIns (h : p.Orderly b s) (i : Nat) :
    p.freeze.builtIns[i]? = p.definitions[i]?.map fun entry => (functionPointer i, entry.2) := by
  rw [h.builtIns_eq, List.getElem?_map]
  rcases hentry : p.definitions[i]? with _ | entry
  · rfl
  · rw [Option.map_some, Option.map_some, h.defined hentry]
    rfl

/-- Each symbol is defined once. -/
theorem lookup_of_mem (h : p.Orderly b s) {entry : SymbolId × Signature}
    (hentry : entry ∈ p.definitions) : p.definitions.lookup entry.1 = some entry.2 := by
  obtain ⟨before, after, hsplit⟩ := List.append_of_mem hentry
  refine List.lookup_eq_some_iff.mpr ⟨before, after, hsplit, fun known hknown => ?_⟩
  have hapart := h.functions.apart
  rw [hsplit] at hapart
  have hne := (List.pairwise_append.mp hapart).2.2 known hknown entry List.mem_cons_self
  exact bne_iff_ne.mpr fun heq => hne (by rw [heq])

theorem length_builtIns (h : p.Orderly b s) : p.freeze.builtIns.length = b := by
  rw [h.builtIns_eq, List.length_map, h.functions.length]

end ObjectPool.Orderly

namespace World.Coherent

variable {b s : Nat} {w : World}

/-- Functions of one name are defined at one address. -/
theorem address_unique (h : w.Coherent b s) {i j : Nat} {entry entry' : SymbolId × Signature}
    (hi : w.pool.definitions[i]? = some entry) (hj : w.pool.definitions[j]? = some entry')
    (hname : entry.2.name = entry'.2.name) : i = j := by
  obtain ⟨hb, -⟩ := h.orderly.bounds h.pool
  have hlength := h.orderly.functions.length
  have hi' : i < b := hlength ▸ (List.getElem?_eq_some_iff.mp hi).1
  have hj' : j < b := hlength ▸ (List.getElem?_eq_some_iff.mp hj).1
  have hsymbol : entry.1 = entry'.1 := by
    have hnamed := h.named entry (List.mem_of_getElem? hi)
    rw [hname, h.named entry' (List.mem_of_getElem? hj)] at hnamed
    exact (Option.some.inj hnamed).symm
  have hpointer := h.orderly.defined hi
  rw [hsymbol, h.orderly.defined hj] at hpointer
  exact (functionPointer_injective (Nat.lt_trans hj' hb) (Nat.lt_trans hi' hb)
    (Option.some.inj hpointer)).symm

/-- No two functions of the frozen table have one name. -/
theorem nodup_builtIns (h : w.Coherent b s) :
    (w.pool.freeze.builtIns.map (·.2.name)).Nodup := by
  have hnames : w.pool.freeze.builtIns.map (·.2.name) =
      w.pool.definitions.map (·.2.name) := by
    rw [h.orderly.builtIns_eq, List.map_map]
    rfl
  rw [hnames]
  refine List.pairwise_map.mpr (List.pairwise_iff_getElem.mpr fun i j hi hj hij hname => ?_)
  exact absurd (h.address_unique (List.getElem?_eq_getElem hi) (List.getElem?_eq_getElem hj) hname)
    (Nat.ne_of_lt hij)

end World.Coherent

/-! ## Order -/

namespace Environment

/-- Symbols, objects and functions agree, and all that relies on that works. -/
structure InOrder (env : Environment) : Prop where
  /-- The pointer of a token is made of its number. -/
  tokens : ∀ {id s}, env.world.symbols.get? id = some s → s.kind = .token →
    env.world.pool.pointer? id = some (Elsewhere.tokenPointer id)
  settings : ∀ {id s}, env.world.symbols.get? id = some s → s.kind = .setting →
    ∃ address < env.settingCount, env.world.pool.pointer? id = some (settingPointer address)
  builtIns : ∀ {id s}, env.world.symbols.get? id = some s → s.kind = .builtInFunction →
    ∃ address < env.builtInCount, env.world.pool.pointer? id = some (functionPointer address) ∧
      ∃ signature, env.world.pool.definitionOf id = .ok signature
  /-- Different symbols have different pointers. -/
  apart : ∀ {id id' o o'}, env.world.pool.pointer? id = some o →
    env.world.pool.pointer? id' = some o' → id ≠ id' → o ≠ o'
  /-- The frozen table has an entry for each address, with the definition of its symbol. -/
  length : env.freeze.builtIns.length = env.builtInCount
  table : ∀ {i entry}, env.freeze.builtIns[i]? = some entry →
    entry.1 = functionPointer i ∧ ∃ id, env.world.pool.pointer? id = some (functionPointer i) ∧
      env.world.pool.definitionOf id = .ok entry.2
  names : (env.freeze.builtIns.map (·.2.name)).Nodup
  /-- No answer tells that code generation wanted a pointer. -/
  answers : ∀ request, ¬ (env.respond request).1.DereferencesNull
  /-- A host that has all functions makes a machine, which calls each under its own name. -/
  binds : ∀ {host : Host}, (∀ entry ∈ env.freeze.builtIns, (host.find? entry.2.name).isSome) →
    ∃ m, Machine.ofTable env.freeze host = .ok m ∧ ∀ entry ∈ env.freeze.builtIns,
      ∃ function, host.find? entry.2.name = some function ∧
        m.functions.lookup entry.1 = some ⟨entry.2, function⟩
  /-- A host that lacks one makes none. -/
  unmapped : ∀ {host : Host},
    (∃ name, Machine.ofTable env.freeze host = .error (.unmapped name)) ↔
      ∃ entry ∈ env.freeze.builtIns, host.find? entry.2.name = none

theorem Coherent.inOrder {env : Environment} (h : env.Coherent) : env.InOrder where
  tokens hget hkind := by
    have hprovides := h.holds.world.provided hget (.inr (.inl hkind))
    rw [hkind] at hprovides
    cases hprovides with
    | token hpointer => exact hpointer
  settings hget hkind := by
    have hprovides := h.holds.world.provided hget (.inr (.inr hkind))
    rw [hkind] at hprovides
    cases hprovides with
    | setting hpointer =>
      obtain ⟨given, hlt, heq⟩ := (h.holds.world.given hpointer).2.setting
      exact ⟨given, hlt, heq ▸ hpointer⟩
  builtIns hget hkind := by
    have hprovides := h.holds.world.provided hget (.inl hkind)
    rw [hkind] at hprovides
    cases hprovides with
    | function hpointer hlookup =>
      obtain ⟨given, hlt, heq⟩ := (h.holds.world.given hpointer).2.function
      exact ⟨given, hlt, heq ▸ hpointer, _, ObjectPool.definitionOf_eq_ok hlookup⟩
  apart ho ho' hne heq := hne (h.holds.world.orderly.apart ho (heq ▸ ho'))
  length := h.holds.world.orderly.length_builtIns
  table {i entry} hentry := by
    have hworld := h.holds.world
    have hdefined : (env.world.pool.definitions[i]?.map fun entry =>
        (functionPointer i, entry.2)) = some entry :=
      (hworld.orderly.getElem?_builtIns i).symm.trans hentry
    obtain ⟨⟨id, signature⟩, hget, rfl⟩ := Option.map_eq_some_iff.mp hdefined
    exact ⟨rfl, id, hworld.orderly.defined hget, ObjectPool.definitionOf_eq_ok
      (hworld.orderly.lookup_of_mem (List.mem_of_getElem? hget))⟩
  names := h.holds.world.nodup_builtIns
  answers := h.answers
  binds {host} hhost := by
    rcases hm : Machine.ofTable env.freeze host with ⟨⟨name⟩⟩ | m
    · obtain ⟨entry, hentry, hnone⟩ :=
        (Machine.ofTable_unmapped_iff h.holds.world.nodup_builtIns).mp ⟨name, hm⟩
      have hsome := hhost entry hentry
      rw [hnone] at hsome
      exact absurd hsome nofun
    · obtain ⟨-, hbind⟩ := Machine.ofTable_eq_ok hm
      have hnodup := h.holds.world.orderly.functions.nodup_freeze
      exact ⟨m, rfl, (Machine.functions_of_bind hbind hnodup).2⟩
  unmapped := Machine.ofTable_unmapped_iff h.holds.world.nodup_builtIns

/-- Symbols, objects and functions are in order in every environment that refused nothing,
whatever it compiled or failed to compile, if compiler functions equip what they declare. -/
theorem symbols_in_order {answers : List Answer} {env : Environment}
    (hr : Reached Request.Equips answers env)
    (htaken : ∀ answer ∈ answers, answer.refuses = false) : env.InOrder :=
  (coherent_of_reached hr htaken).inOrder

/-- What fills the forge, with a rule that fails and one that generates a connection. -/
def forgeRequests : List Request :=
  [.builtIns [⟨"has", 2⟩], .tokens ["Sword"], .settings ["open_forest"],
    .functions (.standard [] false), .compile "has(Sword, 300) and Boots",
    .compile "at('Lake', True)"]

def forge : Environment := (ofConfig .standard).after forgeRequests

theorem reached_forge : Reached Request.Equips
    (((ofConfig .standard).answers forgeRequests).reverse ++ []) forge := by
  refine Reached.after (.start .standard) fun request hrequest => ?_
  have hstandard := CompilerFunctions.standard_equip [] false
  simp only [forgeRequests, List.mem_cons, List.not_mem_nil, or_false] at hrequest
  obtain rfl | rfl | rfl | rfl | rfl | rfl := hrequest
  all_goals first
    | exact hstandard
    | exact trivial

/-- The forge takes all that comes in. -/
theorem forge_takes : ∀ answer ∈ ((ofConfig .standard).answers forgeRequests).reverse ++ [],
    answer.refuses = false := by
  intro answer hanswer
  rw [List.append_nil, List.mem_reverse] at hanswer
  simp only [forgeRequests, answers, List.mem_cons, List.not_mem_nil, or_false] at hanswer
  obtain rfl | rfl | rfl | rfl | rfl | rfl := hanswer
  · decide +kernel
  · decide +kernel
  · decide +kernel
  · decide +kernel
  · rfl
  · rfl

set_option maxRecDepth 4000 in
/-- The hidden token behind the lake has its pointer in the forge, and one function is
called. -/
theorem forge_in_order :
    forge.InOrder ∧ forge.freeze.builtIns = [(functionPointer 0, ⟨"has", 2⟩)] ∧
      forge.world.pool.pointer? 25 = some (Elsewhere.tokenPointer 25) := by
  have hforge : (forge.world.symbols.get? 25, forge.freeze.builtIns) =
      (some ⟨"Token#Lake#199f31e8c07878fd", 25, .token⟩, [(functionPointer 0, ⟨"has", 2⟩)]) := by
    cbv
  obtain ⟨htoken, htable⟩ := Prod.mk.inj hforge
  have horder : forge.InOrder := symbols_in_order reached_forge forge_takes
  exact ⟨horder, htable, horder.tokens htoken rfl⟩

/-! ### A token without its pointer -/

/-- Declares the boots a token, and leaves it at that. -/
def nameBoots : CompilerFunction := fun _ => do
  let _ ← Transforming.declare "Boots" .token
  pure (.boolean true)

/-- What fills the cobbler's shop, with a rule that calls the function. -/
def cobblerRequests : List Request :=
  [.builtIns [⟨"has", 2⟩], .functions ⟨[("boots", nameBoots)]⟩, .compile "boots()"]

def cobbler : Environment := (ofConfig .standard).after cobblerRequests

theorem dereferencesNull_of_compile {env : Environment} {text : String} {e : StageError}
    (h : (compile text env).1 = .error e) (he : e.DereferencesNull) :
    (env.respond (.compile text)).1.DereferencesNull := by
  show (Answer.code (compile text env).1).DereferencesNull
  rw [h]
  exact .code he

/-- Nothing was refused at the cobbler's, but the token has no pointer, and a rule about it fails
for want of one. -/
theorem cobbler_lacks_pointer :
    (∃ answers, Reached (fun _ => True) answers cobbler ∧
      ∀ answer ∈ answers, answer.refuses = false) ∧
    cobbler.world.symbols.get? 15 = some ⟨"Boots", 15, .token⟩ ∧
    cobbler.world.pool.pointer? 15 = none ∧
    (cobbler.respond (.compile "Boots")).1.DereferencesNull := by
  have hreached : Reached (fun _ => True)
      (((ofConfig .standard).answers cobblerRequests).reverse ++ []) cobbler :=
    .after (.start .standard) fun _ _ => trivial
  have hall : (((ofConfig .standard).answers cobblerRequests).reverse.map Answer.refuses,
      cobbler.world.symbols.get? 15, cobbler.world.pool.pointer? 15,
      (compile "Boots" cobbler).1) =
      ([false, false, false], some ⟨"Boots", 15, .token⟩, none,
        .error (.compilation (.pool (.nullDereference 15)))) := by
    decide +kernel
  obtain ⟨hrefuses, hrest⟩ := Prod.mk.inj hall
  obtain ⟨hget, hrest⟩ := Prod.mk.inj hrest
  obtain ⟨hpointer, hcompile⟩ := Prod.mk.inj hrest
  refine ⟨⟨_, hreached, fun answer hanswer => ?_⟩, hget, hpointer, ?_⟩
  · rw [List.append_nil] at hanswer
    have hmem := List.mem_map_of_mem (f := Answer.refuses) hanswer
    rw [hrefuses] at hmem
    simpa using hmem
  · exact dereferencesNull_of_compile hcompile (.compilation (.pool 15))

end Environment

end Passage

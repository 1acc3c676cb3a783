import Passage.Proofs.Atomicity

/-!
# Every connection is accounted for

A hidden token is declared together with the connection that leads to it, and it
is never declared again: where its name is found, the token is used as it is. A
token whose connection were lost could never be reached, and one with two would be
reached twice.

`Accounted` is the invariant behind this. Of all connections, those that wait and
those that were delivered, exactly one leads to each hidden token, and each leads
to a token with its pointer. The invariant holds between the steps of compilation
but not within `Elsewhere.generate`, which declares the token before it records
the connection; that is made good by undoing what fails (`generate_accounted`).
-/

namespace Passage

/-- Whether a name is one of those that hidden tokens have. -/
def IsHidden (name : String) : Prop := ∃ rest, name = "Token#" ++ rest

theorem isHidden_tokenName (origin : String) (digest : UInt64) :
    IsHidden (Elsewhere.tokenName origin digest) :=
  ⟨origin ++ "#" ++ Text.hexPadded 16 digest.toNat, by
    rw [Elsewhere.tokenName, String.append_assoc, String.append_assoc, String.append_assoc]⟩

/-- The written form of a hidden name is hidden. -/
theorem IsHidden.escapeName {name : String} (h : IsHidden name) :
    IsHidden (Environment.escapeName name) := by
  obtain ⟨rest, rfl⟩ := h
  refine ⟨Environment.escapeName rest, ?_⟩
  unfold Environment.escapeName
  rw [String.toList_append, List.filter_append, List.map_append, String.ofList_append]
  rfl

/-- Of two kinds, neither a token nor the kind of a script, a refinement makes no
token and takes none. -/
theorem Symbol.Kind.refine_not_token {known incoming refined : Symbol.Kind}
    (hr : known.refine incoming = some refined) (hne : refined ≠ known)
    (hi : incoming ≠ .token ∧ incoming ≠ .scriptedFunction) :
    known ≠ .token ∧ refined ≠ .token := by
  cases known <;> cases incoming <;> simp_all [Symbol.Kind.refine] <;> subst hr <;> simp_all

/-- The symbol of a token that is declared with its pointer. -/
structure World.HasToken (w : World) (name : String) (s : Symbol) (index : ObjectIndex) :
    Prop where
  get : w.symbols.get? s.id = some s
  name : s.name = name
  kind : s.kind = .token
  pointer : w.pool.pointers[s.id]? = some index
  object : w.pool.get? index = some (Elsewhere.tokenPointer s.id)

/-- The destinations of all connections, delivered or waiting. -/
def World.allDestinations (delivered : List String) (w : World) : List String :=
  delivered ++ destinations w.context.pending

/-- Of all connections exactly one leads to each hidden token, and each leads to a
token with its pointer. -/
structure Accounted (delivered : List String) (w : World) : Prop where
  sound : w.Sound
  /-- A hidden token goes by hidden names only. -/
  names : ∀ {name : String} {id : SymbolId} {s : Symbol}, w.symbols.names[name]? = some id →
    w.symbols.get? id = some s → IsHidden s.name → IsHidden name
  once : ∀ {id : SymbolId} {s : Symbol}, w.symbols.get? id = some s → s.kind = .token →
    IsHidden s.name → (w.allDestinations delivered).count s.name = 1
  reached : ∀ name ∈ w.allDestinations delivered,
    IsHidden name ∧ ∃ s index, w.HasToken name s index

/-! ## Steps that succeed -/

/-- A symbol of the table with a new one: an earlier symbol, or the new one. -/
theorem SymbolTable.get?_appended {t : SymbolTable} {name : String} {kind : Symbol.Kind}
    {i : SymbolId} {s : Symbol} (h : (t.appended name kind).get? i = some s) :
    t.get? i = some s ∨ i = t.size ∧ s = ⟨name, t.size, kind⟩ := by
  simp only [get?, appended, Array.getElem?_push] at h
  split at h
  · next hi => exact .inr ⟨hi, (Option.some.inj h).symm⟩
  · exact .inl h

/-- A token keeps its pointer while symbols are added and objects are kept. -/
theorem World.HasToken.appended {w w' : World} {name name' : String} {s : Symbol}
    {kind : Symbol.Kind} {index : ObjectIndex} (h : w.HasToken name s index)
    (hsymbols : w'.symbols = w.symbols.appended name' kind) (hpool : w.pool.Retains w'.pool) :
    w'.HasToken name s index where
  get := by
    have hget := h.get
    have hlt : s.id < w.symbols.symbols.size := SymbolTable.get?_eq_some_lt hget
    rw [hsymbols, SymbolTable.get?, SymbolTable.appended, Array.getElem?_push,
      if_neg (Nat.ne_of_lt hlt)]
    exact hget
  name := h.name
  kind := h.kind
  pointer := hpool.pointers h.pointer
  object := hpool.values h.object

namespace Accounted

variable {delivered : List String} {w : World}

/-- The destination of a connection is a bound name. -/
theorem bound (h : Accounted delivered w) {name : String}
    (hn : name ∈ w.allDestinations delivered) : w.symbols.names[name]? ≠ none := by
  obtain ⟨-, s, index, htoken⟩ := h.reached name hn
  rw [← htoken.name, h.sound.symbols.canonical htoken.get]
  simp

theorem retains (h : Accounted delivered w) : w.pool.Retains w.pool :=
  (ObjectPool.Grows.refl _).retains h.sound.pool

/-! ### Declarations -/

/-- A new symbol goes by its own name only, and takes no name from another one. -/
theorem names_appended (h : Accounted delivered w) {name name' : String} {kind : Symbol.Kind}
    {id : SymbolId} {s : Symbol}
    (hname : (w.symbols.appended name kind).names[name']? = some id)
    (hs : (w.symbols.appended name kind).get? id = some s) (hhidden : IsHidden s.name) :
    IsHidden name' := by
  simp only [SymbolTable.appended, Std.ExtTreeMap.getElem?_insert,
    Std.LawfulEqCmp.compare_eq_iff_eq] at hname
  obtain hold | ⟨hid, rfl⟩ := SymbolTable.get?_appended hs
  · have hlt := SymbolTable.get?_eq_some_lt hold
    split at hname
    · rw [← Option.some.inj hname] at hlt
      exact absurd hlt (Nat.lt_irrefl _)
    · exact h.names hname hold hhidden
  · split at hname
    · next heq => exact heq ▸ hhidden
    · have hlt := h.sound.symbols.bound hname
      rw [hid] at hlt
      exact absurd hlt (Nat.lt_irrefl _)

/-- A further symbol, unless it is a hidden token. -/
theorem appended (h : Accounted delivered w) {name : String} {kind : Symbol.Kind}
    (hn : w.symbols.names[name]? = none) (hk : IsHidden name → kind ≠ .token) :
    Accounted delivered { w with symbols := w.symbols.appended name kind } where
  sound := ⟨SymbolTable.appended_sound h.sound.symbols kind hn, h.sound.pool⟩
  names := h.names_appended
  once := by
    intro id s hs hkind hhidden
    obtain hold | ⟨-, rfl⟩ := SymbolTable.get?_appended hs
    · exact h.once hold hkind hhidden
    · exact absurd hkind (hk hhidden)
  reached := by
    intro name' hname'
    obtain ⟨hhidden, s, index, htoken⟩ := h.reached name' hname'
    exact ⟨hhidden, s, index, htoken.appended rfl h.retains⟩

/-- A symbol of another kind, unless it is or becomes a hidden token. -/
theorem refined (h : Accounted delivered w) {s : Symbol} {kind : Symbol.Kind}
    (hget : w.symbols.get? s.id = some s)
    (hk : IsHidden s.name → s.kind ≠ .token ∧ kind ≠ .token) :
    Accounted delivered { w with symbols := w.symbols.refined s kind } where
  sound := ⟨SymbolTable.refined_sound h.sound.symbols kind hget, h.sound.pool⟩
  names := by
    intro name id s' hname hs' hhidden
    rw [SymbolTable.get?_refined kind hget] at hs'
    by_cases hid : id = s.id
    · subst hid
      rw [if_pos rfl] at hs'
      obtain rfl := Option.some.inj hs'
      exact h.names (s := s) hname hget hhidden
    · rw [if_neg hid] at hs'
      exact h.names hname hs' hhidden
  once := by
    intro id s' hs' hkind hhidden
    rw [SymbolTable.get?_refined kind hget] at hs'
    by_cases hid : id = s.id
    · rw [if_pos hid] at hs'
      obtain rfl := Option.some.inj hs'
      exact absurd hkind (hk hhidden).2
    · rw [if_neg hid] at hs'
      exact h.once hs' hkind hhidden
  reached := by
    intro name hname
    obtain ⟨hhidden, s', index, htoken⟩ := h.reached name hname
    refine ⟨hhidden, s', index, ?_, htoken.name, htoken.kind, htoken.pointer, htoken.object⟩
    rw [SymbolTable.get?_refined kind hget, if_neg, htoken.get]
    -- The symbol that is refined is no hidden token, and so not this one.
    intro hid
    obtain rfl := Option.some.inj ((hid ▸ htoken.get).symm.trans hget)
    exact (hk (htoken.name ▸ hhidden)).1 htoken.kind

/-- Declaring a name, unless it is hidden and the kind is that of a token or script. -/
theorem declare (h : Accounted delivered w) {name : String} {kind : Symbol.Kind}
    (hk : IsHidden name → kind ≠ .token ∧ kind ≠ .scriptedFunction) :
    Accounted delivered { w with symbols := (w.symbols.declare name kind).2 } := by
  obtain ⟨e, heq⟩ | ⟨s, -, -, heq⟩ | ⟨s, refined, hl, hr, hne, heq⟩ | ⟨hn, -, heq⟩ :=
    SymbolTable.declare_cases h.sound.symbols name kind <;> rw [heq]
  · exact h
  · exact h
  · obtain ⟨hname, hget⟩ := SymbolTable.names_of_lookup? h.sound.symbols hl
    exact h.refined hget fun hhidden =>
      Symbol.Kind.refine_not_token hr hne (hk (h.names hname hget hhidden))
  · exact h.appended hn fun hhidden => (hk hhidden).1

theorem declarable (h : Accounted delivered w) {name : String} {kind : Symbol.Kind}
    (hd : Declarable (fun name => ¬ IsHidden name) name kind) :
    Accounted delivered { w with symbols := (w.symbols.declare name kind).2 } := by
  refine h.declare fun hhidden => ?_
  obtain hplain | rfl | rfl | rfl := hd
  · exact absurd hhidden hplain
  all_goals exact ⟨nofun, nofun⟩

theorem declareMany (h : Accounted delivered w) (names : List String) {kind : Symbol.Kind}
    (hk : kind ≠ .token ∧ kind ≠ .scriptedFunction) :
    Accounted delivered { w with symbols := (w.symbols.declareMany names kind).2 } := by
  induction names generalizing w with
  | nil => exact h
  | cons name rest ih =>
    have hstep := h.declare fun _ : IsHidden name => hk
    rw [SymbolTable.declareMany]
    rcases hd : w.symbols.declare name kind with ⟨e | id, t⟩ <;> rw [hd] at hstep
    · exact hstep
    · exact ih hstep

/-- A further name for a symbol, which is hidden if the name it is made from is. -/
theorem byname (h : Accounted delivered w) (name : String) :
    Accounted delivered { w with
      symbols := (w.symbols.bindAlias name (Environment.escapeName name)).2 } := by
  have hkeep : ∀ id, w.symbols.names[name]? = some id →
      w.symbols.names[Environment.escapeName name]? = none →
      Accounted delivered { w with
        symbols := w.symbols.aliased (Environment.escapeName name) id } := by
    intro id hname hn
    refine ⟨⟨SymbolTable.aliased_sound h.sound.symbols hn hname, h.sound.pool⟩, ?_, h.once, ?_⟩
    · intro name' id' s hname' hs hhidden
      simp only [SymbolTable.aliased, Std.ExtTreeMap.getElem?_insert,
        Std.LawfulEqCmp.compare_eq_iff_eq] at hname'
      split at hname'
      · next heq =>
        rw [← Option.some.inj hname'] at hs
        exact heq ▸ (h.names hname hs hhidden).escapeName
      · exact h.names hname' hs hhidden
    · intro name' hname'
      obtain ⟨hhidden, s, index, htoken⟩ := h.reached name' hname'
      exact ⟨hhidden, s, index, htoken.get, htoken.name, htoken.kind, htoken.pointer,
        htoken.object⟩
  unfold SymbolTable.bindAlias
  rcases ht : w.symbols.names[name]? with _ | id
  · exact h
  · rcases hn : w.symbols.names[Environment.escapeName name]? with _ | existing
    · exact hkeep id ht hn
    · dsimp only
      split <;> exact h

/-! ### Other steps -/

theorem objects (h : Accounted delivered w) {pool : ObjectPool} (hp : w.pool.Retains pool) :
    Accounted delivered { w with pool } where
  sound := ⟨h.sound.symbols, hp.sound⟩
  names := h.names
  once := h.once
  reached := by
    intro name hname
    obtain ⟨hhidden, s, index, htoken⟩ := h.reached name hname
    exact ⟨hhidden, s, index, htoken.get, htoken.name, htoken.kind, hp.pointers htoken.pointer,
      hp.values htoken.object⟩

/-- A step that leaves symbols, objects and the list of all connections alone. -/
theorem context (h : Accounted delivered w) {delivered' : List String} {context : Context}
    (hall : World.allDestinations delivered' { w with context } = w.allDestinations delivered) :
    Accounted delivered' { w with context } where
  sound := ⟨h.sound.symbols, h.sound.pool⟩
  names := h.names
  once := by
    intro id s hs hkind hhidden
    rw [hall]
    exact h.once hs hkind hhidden
  reached := by
    intro name hname
    rw [hall] at hname
    obtain ⟨hhidden, s, index, htoken⟩ := h.reached name hname
    exact ⟨hhidden, s, index, htoken.get, htoken.name, htoken.kind, htoken.pointer, htoken.object⟩

theorem take (h : Accounted delivered w) :
    Accounted (delivered ++ destinations w.context.pending)
      { w with context := w.context.take.2 } :=
  h.context (List.append_nil _)

theorem start (config : Config) : Accounted [] (Environment.ofConfig config).world := by
  have hempty : Accounted [] World.empty := by
    refine ⟨World.empty_sound, ?_, ?_, ?_⟩
    · intro name id s hname
      exact absurd hname (by simp [World.empty, SymbolTable.empty])
    · intro id s hs
      exact absurd (SymbolTable.get?_eq_some_lt hs) (Nat.not_lt_zero _)
    · intro name hname
      exact absurd hname (by simp [World.allDestinations, destinations, World.empty,
        Context.empty])
  have hglobals := hempty.declareMany Environment.globalNames
    (show Symbol.Kind.global ≠ .token ∧ _ from ⟨by decide, by decide⟩)
  exact hglobals.declareMany [Elsewhere.atName, Elsewhere.hereName]
    (show Symbol.Kind.compilerFunction ≠ .token ∧ _ from ⟨by decide, by decide⟩)

/-! ### Generating a connection -/

/-- A new token with its pointer, and the connection that leads to it. -/
theorem recorded (h : Accounted delivered w) {destination : String}
    (hn : w.symbols.names[destination]? = none) (hhidden : IsHidden destination)
    {pool : ObjectPool} (hpool : w.pool.Retains pool) {index : ObjectIndex}
    (hpointer : pool.pointers[w.symbols.size]? = some index)
    (hobject : pool.get? index = some (Elsewhere.tokenPointer w.symbols.size))
    (origin placement : String) (rule : Node) :
    Accounted delivered ⟨w.symbols.appended destination .token, pool,
      w.context.record origin destination placement rule⟩ := by
  have hall : World.allDestinations delivered ⟨w.symbols.appended destination .token, pool,
      w.context.record origin destination placement rule⟩ =
      w.allDestinations delivered ++ [destination] := by
    simp [World.allDestinations, destinations, Context.record]
  have hfresh : destination ∉ w.allDestinations delivered := fun hmem => h.bound hmem hn
  refine ⟨⟨SymbolTable.appended_sound h.sound.symbols .token hn, hpool.sound⟩, h.names_appended,
    ?_, ?_⟩
  · intro id s hs hkind hs'
    rw [hall, List.count_append]
    obtain hold | ⟨-, rfl⟩ := SymbolTable.get?_appended hs
    · have hne : destination ≠ s.name := by
        intro heq
        rw [heq, h.sound.symbols.canonical hold] at hn
        exact absurd hn (by simp)
      rw [h.once hold hkind hs', List.count_singleton, beq_false_of_ne hne]
      rfl
    · rw [List.count_eq_zero_of_not_mem hfresh, List.count_singleton_self]
  · intro name hname
    rw [hall] at hname
    obtain hold | hnew := List.mem_append.mp hname
    · obtain ⟨hhidden', s, i, htoken⟩ := h.reached name hold
      exact ⟨hhidden', s, i, htoken.appended rfl hpool⟩
    · obtain rfl := List.mem_singleton.mp hnew
      exact ⟨hhidden, ⟨name, w.symbols.size, .token⟩, index,
        Array.getElem?_push_size, rfl, rfl, hpointer, hobject⟩

/-- What a rule about a region does to the world: its connection is recorded together
with its token, or was so before. -/
theorem generate (h : Accounted delivered w) {origin : String} {rule node : Node} {w' : World}
    (hok : Elsewhere.generate origin rule w = (.ok node, w')) : Accounted delivered w' := by
  obtain ⟨symbols, hdeclared, hrest⟩ := Elsewhere.generate_eq_ok h.sound hok
  obtain ⟨-, hnext⟩ := hdeclared.conducted (fun h => h.sound)
    (fun h hkind => h.declare fun _ : IsHidden _ => by obtain rfl | rfl := hkind <;> decide) h
  obtain rfl | ⟨token, symbols', index, pool, hn, htoken, hindex, rfl⟩ := hrest
  · exact hnext
  · obtain ⟨rfl, rfl⟩ := SymbolTable.declare_fresh hn htoken
    obtain ⟨hpointer, hobject⟩ := ObjectPool.hasPointer_associate h.sound.pool hindex
    have hgrows := (ObjectPool.associate_step h.sound.pool symbols.size
      (Elsewhere.tokenPointer symbols.size)).grows
    rw [hindex] at hgrows
    exact hnext.recorded hn (isHidden_tokenName origin rule.hash) (hgrows.retains h.sound.pool)
      hpointer hobject origin (Elsewhere.placeName origin rule.hash) rule

end Accounted

/-- Every connection is accounted for throughout a conversation whose hosts declare no
hidden name. -/
theorem accounted_maintained : Maintained (fun name => ¬ IsHidden name) Accounted where
  sound h := h.sound
  start := Accounted.start
  declare h hd := h.declarable hd
  byname h := h.byname _
  objects h hp := h.objects hp
  region _ h := h.context rfl
  take h := h.take
  generate origin rule w h := by
    refine ⟨(Elsewhere.generate_conducts origin rule w h.sound).1, fun node hnode => ?_⟩
    exact h.generate (Prod.ext hnode rfl)

namespace Environment

end Environment

end Passage

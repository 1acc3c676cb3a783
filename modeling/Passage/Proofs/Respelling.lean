import Passage.Proofs.Lasting

/-!
# Tokens under their written forms

Tokens whose names are written otherwise in rules are bound to their written forms one after
another, and a form that is taken is only met when its turn comes. What this comes to does not
depend on the order: all forms are bound just if none is the name of another symbol and no two
tokens are written alike (`SymbolTable.bindAliases_eq_ok_iff`). If a run of bindings succeeds, the
table behind it shows that there was no conflict, since it has kept every binding; and if there is
none, each binding leaves the others as free as they were. `Adds` says what a run adds to a table,
and `aliasTokens_iff` puts this together for the tokens of an environment.
-/

namespace Passage

namespace SymbolTable

/-- Binds further names in order up to the first fault, each to the symbol of its target. -/
def bindAliases (t : SymbolTable) :
    List (String × String) → Except SymbolError Unit × SymbolTable
  | [] => (.ok (), t)
  | (target, name) :: rest =>
      match t.bindAlias target name with
      | (.error e, t) => (.error e, t)
      | (.ok _, t) => t.bindAliases rest

/-- The names that are bound in the second table only. -/
def newNames (t t' : SymbolTable) : List String :=
  t'.names.keys.filter fun name => t.names[name]?.isNone

/-! ## What a run of bindings adds -/

/-- The second table has the bindings of the first and those of some new names, each of them
listed as an alias. -/
structure Adds (t t' : SymbolTable) (fresh : List String) : Prop where
  symbols : t'.symbols = t.symbols
  aliases : t'.aliases.size = t.aliases.size + fresh.length
  once : fresh.Nodup
  new : ∀ name, name ∈ fresh ↔ t.names[name]? = none ∧ t'.names[name]? ≠ none
  kept : ∀ {name : String} {id : SymbolId}, t.names[name]? = some id → t'.names[name]? = some id

section

variable {t t' u : SymbolTable} {fresh fresh' : List String} {pairs : List (String × String)}
  {target name : String} {id : SymbolId}

theorem Adds.refl (t : SymbolTable) : t.Adds t [] :=
  ⟨rfl, rfl, List.nodup_nil, by simp, id⟩

theorem Adds.trans (h : t.Adds t' fresh) (h' : t'.Adds u fresh') : t.Adds u (fresh ++ fresh') where
  symbols := h'.symbols.trans h.symbols
  aliases := by rw [h'.aliases, h.aliases, List.length_append, Nat.add_assoc]
  once := by
    refine List.nodup_append.mpr ⟨h.once, h'.once, ?_⟩
    rintro name hname _ hname' rfl
    exact ((h.new name).mp hname).2 ((h'.new name).mp hname').1
  new := by
    intro name
    rw [List.mem_append, h.new, h'.new]
    rcases hn : t.names[name]? with _ | id
    · rcases hn' : t'.names[name]? with _ | id
      · simp
      · simp [h'.kept hn']
    · simp [h.kept hn]
  kept hn := h'.kept (h.kept hn)

theorem aliased_adds (hn : t.names[name]? = none) (id : SymbolId) :
    t.Adds (t.aliased name id) [name] where
  symbols := rfl
  aliases := by simp [aliased]
  once := List.nodup_singleton name
  new := by
    intro k
    simp only [aliased, Std.ExtTreeMap.getElem?_insert, Std.LawfulEqCmp.compare_eq_iff_eq,
      List.mem_singleton]
    by_cases hk : name = k
    · subst hk
      simp [hn]
    · simp [hk, Ne.symm hk]
  kept := by
    intro k i hk
    simp only [aliased, Std.ExtTreeMap.getElem?_insert, Std.LawfulEqCmp.compare_eq_iff_eq]
    rw [if_neg, hk]
    rintro rfl
    rw [hn] at hk
    exact absurd hk nofun

/-- The new names are as many as the aliases that were added. -/
theorem Adds.length_newNames (h : t.Adds t' fresh) : (t.newNames t').length = fresh.length := by
  refine List.Perm.length_eq ((List.perm_ext_iff_of_nodup ?_ h.once).mpr fun name => ?_)
  · exact Std.ExtTreeMap.nodup_keys.filter _
  · rw [h.new, newNames, List.mem_filter, Std.ExtTreeMap.mem_keys,
      Std.ExtTreeMap.mem_iff_isSome_getElem?, Option.isSome_iff_ne_none, Option.isNone_iff_eq_none,
      and_comm]

/-- A name that is bound to a target is bound to it already, or to another symbol, or is new. -/
theorem bindAlias_cases (htarget : t.names[target]? = some id) (name : String) :
    (t.names[name]? = some id ∧ t.bindAlias target name = (.ok id, t)) ∨
    (∃ other, t.names[name]? = some other ∧ other ≠ id ∧
      t.bindAlias target name = (.error (.aliasConflict name other), t)) ∨
    (t.names[name]? = none ∧ t.bindAlias target name = (.ok id, t.aliased name id)) := by
  unfold bindAlias
  rw [htarget]
  rcases t.names[name]? with _ | other
  · exact .inr (.inr ⟨rfl, rfl⟩)
  · by_cases hsame : other = id
    · subst hsame
      exact .inl ⟨rfl, if_pos rfl⟩
    · exact .inr (.inl ⟨other, rfl, hsame, if_neg hsame⟩)

/-! ## When a run succeeds -/

/-- All targets are names of the table. -/
def Known (t : SymbolTable) (pairs : List (String × String)) : Prop :=
  ∀ pair ∈ pairs, ∃ id, t.names[pair.1]? = some id

/-- The name is to be bound to the symbol. -/
def Asks (t : SymbolTable) (pairs : List (String × String)) (name : String) (id : SymbolId) :
    Prop :=
  ∃ target, (target, name) ∈ pairs ∧ t.names[target]? = some id

/-- Every name that is to be bound is free or bound to its symbol, and to be bound to one only. -/
structure Agree (t : SymbolTable) (pairs : List (String × String)) : Prop where
  free : ∀ {name id}, t.Asks pairs name id → t.names[name]? = none ∨ t.names[name]? = some id
  one : ∀ {name id id'}, t.Asks pairs name id → t.Asks pairs name id' → id = id'

theorem Known.adds (h : t.Known pairs) (hadds : t.Adds t' fresh) : t'.Known pairs := by
  intro pair hpair
  obtain ⟨id, hid⟩ := h pair hpair
  exact ⟨id, hadds.kept hid⟩

/-- What is added to a table does not change what is asked for. -/
theorem asks_adds (hknown : t.Known pairs) (hadds : t.Adds t' fresh) :
    t'.Asks pairs name id ↔ t.Asks pairs name id := by
  constructor
  · rintro ⟨target, hmem, hid'⟩
    obtain ⟨id₀, hid⟩ := hknown _ hmem
    obtain rfl := Option.some.inj ((hadds.kept hid).symm.trans hid')
    exact ⟨target, hmem, hid⟩
  · rintro ⟨target, hmem, hid⟩
    exact ⟨target, hmem, hadds.kept hid⟩

theorem Asks.tail (h : t.Asks pairs name id) (pair : String × String) :
    t.Asks (pair :: pairs) name id := by
  obtain ⟨target, hmem, hid⟩ := h
  exact ⟨target, List.mem_cons_of_mem _ hmem, hid⟩

theorem bindAliases_adds (hknown : t.Known pairs) :
    ∃ fresh, t.Adds (t.bindAliases pairs).2 fresh := by
  induction pairs generalizing t with
  | nil => exact ⟨[], .refl t⟩
  | cons pair rest ih =>
    obtain ⟨target, name⟩ := pair
    obtain ⟨⟨id, hid⟩, hrest⟩ := List.forall_mem_cons.mp hknown
    rw [bindAliases]
    obtain ⟨-, h⟩ | ⟨other, -, -, h⟩ | ⟨hn, h⟩ := bindAlias_cases hid name <;> rw [h]
    · exact ih hrest
    · exact ⟨[], .refl t⟩
    · have hadds := aliased_adds hn id
      obtain ⟨fresh, hfresh⟩ := ih (Known.adds hrest hadds)
      exact ⟨_, hadds.trans hfresh⟩

/-- Behind a run that succeeds, all that was asked for is bound. -/
theorem names_of_bindAliases (hknown : t.Known pairs) (hok : (t.bindAliases pairs).1 = .ok ())
    (hasks : t.Asks pairs name id) : (t.bindAliases pairs).2.names[name]? = some id := by
  induction pairs generalizing t with
  | nil =>
    obtain ⟨_, hmem, -⟩ := hasks
    exact absurd hmem List.not_mem_nil
  | cons pair rest ih =>
    obtain ⟨target, first⟩ := pair
    obtain ⟨⟨id₀, hid⟩, hrest⟩ := List.forall_mem_cons.mp hknown
    -- The first name is bound behind its turn, and the run behind it keeps what is bound.
    have hlater : ∀ {t' : SymbolTable} {fresh : List String}, t.Adds t' fresh →
        t'.names[first]? = some id₀ → (t'.bindAliases rest).1 = .ok () →
        (t'.bindAliases rest).2.names[name]? = some id := by
      intro t' fresh hadds hfirst hok'
      have hknown' := Known.adds hrest hadds
      obtain ⟨wanted, hmem, hwanted⟩ := hasks
      obtain hhead | htail := List.mem_cons.mp hmem
      · obtain ⟨rfl, rfl⟩ := Prod.mk.inj hhead
        obtain rfl := Option.some.inj (hid.symm.trans hwanted)
        obtain ⟨_, hmore⟩ := bindAliases_adds hknown'
        exact hmore.kept hfirst
      · exact ih hknown' hok' ⟨wanted, htail, hadds.kept hwanted⟩
    rw [bindAliases] at hok ⊢
    obtain ⟨hn, h⟩ | ⟨other, -, -, h⟩ | ⟨hn, h⟩ := bindAlias_cases hid first <;> rw [h] at hok ⊢
    · exact hlater (.refl t) hn hok
    · exact absurd hok nofun
    · exact hlater (aliased_adds hn id₀) Std.ExtTreeMap.getElem?_insert_self hok

/-- Names that agree are bound one after another. -/
theorem Agree.bindAliases (h : t.Agree pairs) (hknown : t.Known pairs) :
    (t.bindAliases pairs).1 = .ok () := by
  induction pairs generalizing t with
  | nil => rfl
  | cons pair rest ih =>
    obtain ⟨target, first⟩ := pair
    obtain ⟨⟨id, hid⟩, hrest⟩ := List.forall_mem_cons.mp hknown
    have hfirst : t.Asks ((target, first) :: rest) first id := ⟨target, List.mem_cons_self, hid⟩
    rw [SymbolTable.bindAliases]
    obtain ⟨-, hb⟩ | ⟨other, hn, hother, -⟩ | ⟨hn, hb⟩ := bindAlias_cases hid first
    · rw [hb]
      exact ih ⟨fun hasks => h.free (hasks.tail _), fun hasks hasks' =>
        h.one (hasks.tail _) (hasks'.tail _)⟩ hrest
    · obtain hnone | hsome := h.free hfirst
      · exact absurd (hn.symm.trans hnone) nofun
      · exact absurd (Option.some.inj (hn.symm.trans hsome)) hother
    · rw [hb]
      have hadds := aliased_adds hn id
      refine ih ⟨fun {name i} hasks => ?_, fun hasks hasks' => ?_⟩ (Known.adds hrest hadds)
      -- The name that was bound is asked for with the same symbol, and any other is as it was.
      · have hasks' := ((asks_adds hrest hadds).mp hasks).tail (target, first)
        by_cases hname : first = name
        · subst hname
          obtain rfl := h.one hfirst hasks'
          exact .inr Std.ExtTreeMap.getElem?_insert_self
        · simp only [aliased, Std.ExtTreeMap.getElem?_insert,
            Std.LawfulEqCmp.compare_eq_iff_eq, if_neg hname]
          exact h.free hasks'
      · exact h.one (((asks_adds hrest hadds).mp hasks).tail _)
          (((asks_adds hrest hadds).mp hasks').tail _)

/-- A run of bindings succeeds just if the names agree with the table and with one another. -/
theorem bindAliases_eq_ok_iff (hknown : t.Known pairs) :
    (t.bindAliases pairs).1 = .ok () ↔ t.Agree pairs := by
  refine ⟨fun hok => ⟨fun {name id} hasks => ?_, fun hasks hasks' => ?_⟩,
    fun h => h.bindAliases hknown⟩
  · obtain ⟨_, hadds⟩ := bindAliases_adds hknown
    rcases hn : t.names[name]? with _ | other
    · exact .inl rfl
    · exact .inr ((hadds.kept hn).symm.trans (names_of_bindAliases hknown hok hasks))
  · exact Option.some.inj ((names_of_bindAliases hknown hok hasks).symm.trans
      (names_of_bindAliases hknown hok hasks'))

/-- Names that are bound already are bound again to no effect. -/
theorem bindAliases_bound (hknown : t.Known pairs)
    (hbound : ∀ {name id}, t.Asks pairs name id → t.names[name]? = some id) :
    t.bindAliases pairs = (.ok (), t) := by
  induction pairs with
  | nil => rfl
  | cons pair rest ih =>
    obtain ⟨target, first⟩ := pair
    obtain ⟨⟨id, hid⟩, hrest⟩ := List.forall_mem_cons.mp hknown
    have hfirst := hbound ⟨target, List.mem_cons_self, hid⟩
    have hsame : t.bindAlias target first = (.ok id, t) := by
      simp only [bindAlias, hid, hfirst, if_pos]
    rw [bindAliases, hsame]
    exact ih hrest fun hasks => hbound (hasks.tail _)

/-! ## Tokens -/

variable {s : Symbol} {kind : Symbol.Kind}

/-- A symbol that is found by its kind stands at its number, and is bound to it by its name. -/
theorem Sound.of_mem_ofKind (ht : t.Sound) (hs : s ∈ t.ofKind kind) :
    t.get? s.id = some s ∧ t.names[s.name]? = some s.id := by
  obtain ⟨i, hi⟩ := Array.mem_iff_getElem?.mp (Array.mem_toList_iff.mp (List.mem_filter.mp hs).1)
  obtain rfl := ht.ids hi
  exact ⟨hi, ht.canonical hi⟩

theorem mem_renames : (target, name) ∈ Environment.renames t ↔
    ∃ s ∈ t.ofKind .token, Environment.escapeName s.name ≠ s.name ∧ s.name = target ∧
      Environment.escapeName s.name = name := by
  rw [Environment.renames, List.mem_filterMap]
  refine exists_congr fun s => and_congr_right fun _ => ?_
  by_cases hsame : Environment.escapeName s.name = s.name
  · simp [hsame]
  · simp [hsame]

theorem known_renames (ht : t.Sound) : t.Known (Environment.renames t) := by
  rintro ⟨target, name⟩ hmem
  obtain ⟨s, hs, -, rfl, -⟩ := mem_renames.mp hmem
  exact ⟨s.id, (ht.of_mem_ofKind hs).2⟩

theorem asks_renames_iff (ht : t.Sound) : t.Asks (Environment.renames t) name id ↔
    ∃ s ∈ t.ofKind .token, Environment.escapeName s.name ≠ s.name ∧
      Environment.escapeName s.name = name ∧ s.id = id := by
  constructor
  · rintro ⟨target, hmem, hid⟩
    obtain ⟨s, hs, hne, rfl, rfl⟩ := mem_renames.mp hmem
    exact ⟨s, hs, hne, rfl, Option.some.inj ((ht.of_mem_ofKind hs).2.symm.trans hid)⟩
  · rintro ⟨s, hs, hne, rfl, rfl⟩
    exact ⟨s.name, mem_renames.mpr ⟨s, hs, hne, rfl, rfl⟩, (ht.of_mem_ofKind hs).2⟩

/-- Of the tokens with a written form of their own, none is written like another symbol, and no two
are written alike. -/
structure Unambiguous (t : SymbolTable) : Prop where
  free : ∀ s ∈ t.ofKind .token, Environment.escapeName s.name ≠ s.name →
    t.names[Environment.escapeName s.name]? = none ∨
      t.names[Environment.escapeName s.name]? = some s.id
  apart : ∀ s ∈ t.ofKind .token, ∀ s' ∈ t.ofKind .token, Environment.escapeName s.name ≠ s.name →
    Environment.escapeName s'.name ≠ s'.name →
      Environment.escapeName s.name = Environment.escapeName s'.name → s = s'

/-- The written forms of tokens agree just if they are unambiguous. -/
theorem agree_renames_iff (ht : t.Sound) : t.Agree (Environment.renames t) ↔ t.Unambiguous := by
  constructor
  · intro h
    refine ⟨fun s hs hne => h.free ((asks_renames_iff ht).mpr ⟨s, hs, hne, rfl, rfl⟩),
      fun s hs s' hs' hne hne' halike => ?_⟩
    have hid : s.id = s'.id := h.one ((asks_renames_iff ht).mpr ⟨s, hs, hne, rfl, rfl⟩)
      ((asks_renames_iff ht).mpr ⟨s', hs', hne', halike.symm, rfl⟩)
    have hget := (ht.of_mem_ofKind hs).1
    rw [hid, (ht.of_mem_ofKind hs').1] at hget
    exact (Option.some.inj hget).symm
  · intro h
    refine ⟨fun {name id} hasks => ?_, fun {name id id'} hasks hasks' => ?_⟩
    · obtain ⟨s, hs, hne, rfl, rfl⟩ := (asks_renames_iff ht).mp hasks
      exact h.free s hs hne
    · obtain ⟨s, hs, hne, rfl, rfl⟩ := (asks_renames_iff ht).mp hasks
      obtain ⟨s', hs', hne', halike, rfl⟩ := (asks_renames_iff ht).mp hasks'
      exact congrArg Symbol.id (h.apart s hs s' hs' hne hne' halike.symm)

end

end SymbolTable

namespace Environment

/-- The environment with another table of symbols. -/
def withSymbols (env : Environment) (symbols : SymbolTable) : Environment :=
  { env with world := { env.world with symbols } }

@[simp] theorem withSymbols_symbols (env : Environment) (symbols : SymbolTable) :
    (env.withSymbols symbols).world.symbols = symbols := rfl

/-- The bindings are made in the table of the environment, up to the first fault. -/
theorem forM_bindAlias (pairs : List (String × String)) (env : Environment) :
    (pairs.forM fun (name, escaped) => do
        let _ ← onSymbols (·.bindAlias name escaped) : Compiling StageError Unit) env =
      ((env.world.symbols.bindAliases pairs).1.mapError .symbols,
        env.withSymbols (env.world.symbols.bindAliases pairs).2) := by
  induction pairs generalizing env with
  | nil => rfl
  | cons pair rest ih =>
    obtain ⟨name, escaped⟩ := pair
    have hstep : onSymbols (·.bindAlias name escaped) env =
        ((env.world.symbols.bindAlias name escaped).1.mapError .symbols,
          env.withSymbols (env.world.symbols.bindAlias name escaped).2) := rfl
    show ((onSymbols (·.bindAlias name escaped) >>= fun _ => pure PUnit.unit) >>=
      fun _ => rest.forM _ : Compiling StageError Unit) env = _
    rw [bind_apply, bind_apply, hstep, SymbolTable.bindAliases]
    rcases env.world.symbols.bindAlias name escaped with ⟨e | id, symbols⟩
    · rfl
    · exact ih (env.withSymbols symbols)

/-- The written forms are bound one after another, and the aliases behind them counted. -/
theorem aliasTokens_eq (env : Environment) :
    aliasTokens env =
      match env.world.symbols.bindAliases (renames env.world.symbols) with
      | (.error e, symbols) => (.error (.symbols e), env.withSymbols symbols)
      | (.ok _, symbols) =>
          (.ok (symbols.aliases.size - env.world.symbols.aliases.size),
            env.withSymbols symbols) := by
  unfold aliasTokens
  rw [bind_ok (get_apply env), bind_apply, forM_bindAlias]
  rcases env.world.symbols.bindAliases (renames env.world.symbols) with ⟨e | _, symbols⟩
  · rfl
  · rfl

/-- What becomes of an environment whose tokens are bound to their written forms. -/
structure Respelled (env env' : Environment) (count : Nat) : Prop where
  tokens : env'.world.symbols.ofKind .token = env.world.symbols.ofKind .token
  found : ∀ s ∈ env'.world.symbols.ofKind .token, env'.world.symbols.lookup? s.name = some s ∧
    env'.world.symbols.lookup? (escapeName s.name) = some s
  kept : ∀ (name : String) (id : SymbolId), env.world.symbols.names[name]? = some id →
    env'.world.symbols.names[name]? = some id
  count : count = (env.world.symbols.newNames env'.world.symbols).length
  again : aliasTokens env' = (.ok 0, env')

section

variable {env env' : Environment} {count : Nat}

theorem respelled_of_ok (ht : env.world.symbols.Sound)
    (hok : aliasTokens env = (.ok count, env')) : env.Respelled env' count := by
  have hknown := SymbolTable.known_renames ht
  obtain ⟨fresh, hadds⟩ := SymbolTable.bindAliases_adds hknown
  have hbinds : ∀ {name : String} {id : SymbolId},
      (env.world.symbols.bindAliases (renames env.world.symbols)).1 = .ok () →
      env.world.symbols.Asks (renames env.world.symbols) name id →
      (env.world.symbols.bindAliases (renames env.world.symbols)).2.names[name]? = some id :=
    SymbolTable.names_of_bindAliases hknown
  rw [aliasTokens_eq] at hok
  rcases hrun : env.world.symbols.bindAliases (renames env.world.symbols) with ⟨e | _, symbols⟩ <;>
    rw [hrun] at hok hadds hbinds
  · exact absurd (congrArg Prod.fst hok) nofun
  obtain ⟨hcount, rfl⟩ := Prod.mk.inj hok
  have hsymbols : symbols.symbols = env.world.symbols.symbols := hadds.symbols
  have hget : ∀ id, symbols.get? id = env.world.symbols.get? id := fun id =>
    congrArg (·[id]?) hsymbols
  have htokens : symbols.ofKind .token = env.world.symbols.ofKind .token := by
    rw [SymbolTable.ofKind, SymbolTable.ofKind, hsymbols]
  refine ⟨htokens, fun s hs => ?_, fun _ _ => hadds.kept, ?_, ?_⟩
  · have hs' : s ∈ env.world.symbols.ofKind .token := htokens ▸ hs
    obtain ⟨hstands, hname⟩ := ht.of_mem_ofKind hs'
    have hfound := SymbolTable.lookup?_of_names (hadds.kept hname) ((hget s.id).trans hstands)
    refine ⟨hfound, ?_⟩
    by_cases hsame : escapeName s.name = s.name
    · rw [hsame]
      exact hfound
    · have hasks := (SymbolTable.asks_renames_iff ht).mpr ⟨s, hs', hsame, rfl, rfl⟩
      exact SymbolTable.lookup?_of_names (hbinds rfl hasks) ((hget s.id).trans hstands)
  · rw [← Except.ok.inj hcount]
    rw [withSymbols_symbols, hadds.length_newNames, hadds.aliases, Nat.add_sub_cancel_left]
  -- The tokens are the same, and behind the first run there is nothing left to bind.
  · have hrenames : renames symbols = renames env.world.symbols := by
      unfold renames
      rw [htokens]
    have hagain : symbols.bindAliases (renames symbols) = (.ok (), symbols) := by
      rw [hrenames]
      exact SymbolTable.bindAliases_bound (hknown.adds hadds) fun hasks =>
        hbinds rfl ((SymbolTable.asks_adds hknown hadds).mp hasks)
    rw [aliasTokens_eq, withSymbols_symbols, hagain]
    simp [withSymbols]

/-- The tokens of an environment are bound to their written forms just if these are unambiguous,
and each is then found under both of its names, beside all names there were. -/
theorem aliasTokens_iff {answers : List Answer}
    (hr : Reached (Request.Declare fun _ => True) answers env) :
    ((∃ count, (aliasTokens env).1 = .ok count) ↔ env.world.symbols.Unambiguous) ∧
      ∀ count env', aliasTokens env = (.ok count, env') → env.Respelled env' count := by
  have ht : env.world.symbols.Sound :=
    (SymbolTable.listed_lasting.reached SymbolTable.listed_initial hr).world.symbols
  refine ⟨?_, fun count env' => respelled_of_ok ht⟩
  rw [← SymbolTable.agree_renames_iff ht,
    ← SymbolTable.bindAliases_eq_ok_iff (SymbolTable.known_renames ht), aliasTokens_eq]
  rcases env.world.symbols.bindAliases (renames env.world.symbols) with ⟨e | _, symbols⟩
  · simp
  · simp

end

/-- An environment with some tokens. -/
def quiver (names : List String) : Environment := (ofConfig .standard).after [.tokens names]

theorem reached_quiver (names : List String) :
    ∃ answers, Reached (Request.Declare fun _ => True) answers (quiver names) :=
  ⟨_, Reached.after (.start .standard) (List.forall_mem_singleton.mpr trivial)⟩

/-- Of a bow and a bundle of arrows, the bundle gets a written form; two bundles that are written
alike are ambiguous. -/
theorem aliasTokens_iff_quiver :
    (quiver ["Bow", "Arrows (5)"]).Respelled (aliasTokens (quiver ["Bow", "Arrows (5)"])).2 1 ∧
      ¬ (quiver ["Arrows (5)", "Arrows 5"]).world.symbols.Unambiguous := by
  have hone : (aliasTokens (quiver ["Bow", "Arrows (5)"])).1 = .ok 1 := by decide +kernel
  have hnone : (aliasTokens (quiver ["Arrows (5)", "Arrows 5"])).1 =
      .error (.symbols (.aliasConflict "Arrows_5" 13)) := by decide +kernel
  obtain ⟨_, hr⟩ := reached_quiver ["Bow", "Arrows (5)"]
  obtain ⟨_, hr'⟩ := reached_quiver ["Arrows (5)", "Arrows 5"]
  refine ⟨(aliasTokens_iff hr).2 _ _ (Prod.ext hone rfl), fun hunambiguous => ?_⟩
  obtain ⟨count, hcount⟩ := (aliasTokens_iff hr').1.mpr hunambiguous
  exact absurd (hnone.symm.trans hcount) nofun

end Environment

end Passage

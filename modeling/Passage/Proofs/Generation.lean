import Passage.Pass.Connection
import Passage.Proofs.Conversation
import Passage.Proofs.Fallible
import Passage.Proofs.Growth

/-!
# What a rule about a region does to the world

`Elsewhere.generate` declares two names, and then either finds the hidden token of the rule,
or declares it, gives it a pointer and records the connection to it. `generate_eq_ok` says
so once; on the way the world only grows (`generate_conducts`).
-/

namespace Passage

/-- What declarations keep, a sequence of them keeps. -/
theorem SymbolTable.DeclaredAs.conducted {may : String → Symbol.Kind → Prop}
    {Q : World → Prop} {w : World} {symbols : SymbolTable}
    (h : w.symbols.DeclaredAs may symbols) (hsound : ∀ {w}, Q w → w.Sound)
    (hdeclare : ∀ {w name kind}, Q w → may name kind →
      Q { w with symbols := (w.symbols.declare name kind).2 }) (hw : Q w) :
    w.symbols.Grows symbols ∧ Q { w with symbols } := by
  induction h with
  | nothing => exact ⟨.refl _, hw⟩
  | @declare t name kind _ hmay ih =>
    obtain ⟨hgrows, ht⟩ := ih
    exact ⟨hgrows.trans (declare_grows (hsound ht).symbols name kind), hdeclare ht hmay⟩

/-- What declarations, pointers and recording conduct, generating a connection conducts. -/
theorem Elsewhere.generate_conducts_of {P : World → Prop} {R : World → World → Prop}
    (hR : Advances R)
    (hdeclare : ∀ name kind, Conducts P R (Transforming.declare name kind))
    (hassociate : ∀ symbol pointer, Conducts P R (Transforming.associate symbol pointer))
    (hrecord : ∀ origin destination placement rule,
      Conducts P R (Transforming.record origin destination placement rule))
    (origin : String) (rule : Node) : Conducts P R (Elsewhere.generate origin rule) := by
  refine .bind hR (hdeclare _ _) fun has => .bind hR (hdeclare _ _) fun _ => ?_
  dsimp only
  refine .bind hR (.bind hR (.get hR) fun _ => .pure hR _) fun symbols => ?_
  split
  · exact .pure hR _
  · exact .bind hR (hdeclare _ _) fun token => .bind hR (hassociate _ _) fun _ =>
      .bind hR (hrecord _ _ _ _) fun _ => .pure hR _

/-- The steps of generating a connection let the world grow. -/
theorem Elsewhere.generate_conducts (origin : String) (rule : Node) :
    Conducts World.Sound World.Grows (Elsewhere.generate origin rule) := by
  refine generate_conducts_of World.grows_advances ?declare ?associate ?record origin rule
  case declare =>
    intro name kind w hw
    have hmove : w.Grows (Transforming.declare name kind w).2 :=
      ⟨SymbolTable.declare_grows hw.symbols name kind, .refl _, .refl _⟩
    exact ⟨hmove, fun _ _ => hmove.sound hw⟩
  case associate =>
    intro symbol pointer w hw
    have hmove : w.Grows (Transforming.associate symbol pointer w).2 :=
      ⟨.refl _, (ObjectPool.associate_step hw.pool symbol pointer).grows, .refl _⟩
    exact ⟨hmove, fun _ _ => hmove.sound hw⟩
  case record =>
    intro origin destination placement rule w hw
    have hmove : w.Grows (Transforming.record origin destination placement rule w).2 :=
      ⟨.refl _, .refl _, w.context.record_grows origin destination placement rule⟩
    exact ⟨hmove, fun _ _ => hmove.sound hw⟩

theorem Transforming.declare_eq_ok {w w' : World} {name : String} {kind : Symbol.Kind}
    {id : SymbolId} (h : Transforming.declare name kind w = (.ok id, w')) :
    ∃ symbols, w.symbols.declare name kind = (.ok id, symbols) ∧ w' = { w with symbols } := by
  have hvalue : ((w.symbols.declare name kind).1.mapError PassError.symbol) = .ok id :=
    congrArg Prod.fst h
  exact ⟨(w.symbols.declare name kind).2, Prod.ext (ok_of_mapError hvalue) rfl,
    (congrArg Prod.snd h).symm⟩

theorem Transforming.associate_eq_ok {w w' : World} {symbol : SymbolId} {pointer : Object}
    {index : ObjectIndex} (h : Transforming.associate symbol pointer w = (.ok index, w')) :
    ∃ pool, w.pool.associate symbol pointer = (.ok index, pool) ∧ w' = { w with pool } := by
  have hvalue : ((w.pool.associate symbol pointer).1.mapError PassError.pool) = .ok index :=
    congrArg Prod.fst h
  exact ⟨(w.pool.associate symbol pointer).2, Prod.ext (ok_of_mapError hvalue) rfl,
    (congrArg Prod.snd h).symm⟩

/-- Declaring a name that is not bound adds its symbol. -/
theorem SymbolTable.declare_fresh {t t' : SymbolTable} {name : String} {kind : Symbol.Kind}
    {id : SymbolId} (hn : t.names[name]? = none) (h : t.declare name kind = (.ok id, t')) :
    id = t.size ∧ t' = t.appended name kind := by
  have hl : t.lookup? name = none := by rw [lookup?, hn]; rfl
  simp only [declare, hl, append] at h
  split at h
  · cases h
    exact ⟨rfl, rfl⟩
  · exact absurd (congrArg Prod.fst h) (by simp)

/-- A declaration that succeeds binds the name to the symbol. -/
theorem SymbolTable.names_of_declare {t t' : SymbolTable} (ht : t.Sound) {name : String}
    {kind : Symbol.Kind} {id : SymbolId} (h : t.declare name kind = (.ok id, t')) :
    t'.names[name]? = some id := by
  obtain ⟨e, h'⟩ | ⟨s, hl, -, h'⟩ | ⟨s, refined, hl, -, -, h'⟩ | ⟨-, -, h'⟩ :=
    declare_cases ht name kind <;> rw [h'] at h <;> cases h
  · exact (names_of_lookup? ht hl).1
  · exact (names_of_lookup? ht hl).1
  · exact Std.ExtTreeMap.getElem?_insert_self

/-- A rule about a region that is replaced has declared two names, and becomes the question for
its token. The token was there, or is new and has a pointer, and the connection to it is
recorded. -/
theorem Elsewhere.generate_cases {w w' : World} (hw : w.Sound) {origin : String}
    {rule node : Node} (hok : generate origin rule w = (.ok node, w')) :
    ∃ has symbols, w.symbols.DeclaredAs (fun _ kind => kind = .function ∨ kind = .region) symbols ∧
      symbols.names[Lowering.hasName]? = some has ∧
      ((∃ token, symbols.names[tokenName origin rule.hash]? = some token ∧
          w' = { w with symbols } ∧ node = .has has token Item.one) ∨
        ∃ token symbols' index pool, symbols.names[tokenName origin rule.hash]? = none ∧
          symbols.declare (tokenName origin rule.hash) .token = (.ok token, symbols') ∧
          w.pool.associate token (tokenPointer token) = (.ok index, pool) ∧
          w' = ⟨symbols', pool, w.context.record origin (tokenName origin rule.hash)
            (placeName origin rule.hash) rule⟩ ∧ node = .has has token Item.one) := by
  unfold generate at hok
  obtain ⟨has, w₁, hhas, hok⟩ := bind_eq_ok hok
  obtain ⟨region, w₂, horigin, hok⟩ := bind_eq_ok hok
  obtain ⟨symbols₁, hfirst, rfl⟩ := Transforming.declare_eq_ok hhas
  obtain ⟨symbols, hsecond, rfl⟩ := Transforming.declare_eq_ok horigin
  have hdeclared : w.symbols.DeclaredAs (fun _ kind => kind = .function ∨ kind = .region)
      symbols := by
    have hfunction : w.symbols.DeclaredAs (fun _ kind => kind = .function ∨ kind = .region)
        symbols₁ := by
      have hnone : w.symbols.DeclaredAs (fun _ kind => kind = .function ∨ kind = .region)
        w.symbols := .nothing
      have h := hnone.declare Lowering.hasName Symbol.Kind.function (.inl rfl)
      rwa [hfirst] at h
    have h := hfunction.declare origin Symbol.Kind.region (.inr rfl)
    rwa [hsecond] at h
  have hsound : symbols.Sound :=
    (hdeclared.conducted id (fun hw _ => ⟨(SymbolTable.declare_grows hw.symbols _ _).sound
      hw.symbols, hw.pool⟩) hw).2.symbols
  have hbound : symbols.names[Lowering.hasName]? = some has := by
    have hgrows := SymbolTable.declare_grows hw.symbols Lowering.hasName .function
    rw [hfirst] at hgrows
    have hgrows' := SymbolTable.declare_grows (hgrows.sound hw.symbols) origin .region
    rw [hsecond] at hgrows'
    exact hgrows'.names (SymbolTable.names_of_declare hw.symbols hfirst)
  refine ⟨has, symbols, hdeclared, hbound, ?_⟩
  dsimp only at hok
  have hread : Transforming.symbols { w with symbols } = (.ok symbols, { w with symbols }) := rfl
  rw [bind_ok hread] at hok
  rcases hlookup : symbols.lookup? (tokenName origin rule.hash) with _ | s <;> rw [hlookup] at hok
  · obtain ⟨token, w₃, htoken, hok⟩ := bind_eq_ok hok
    obtain ⟨index, w₄, hpointer, hok⟩ := bind_eq_ok hok
    obtain ⟨symbols', hthird, rfl⟩ := Transforming.declare_eq_ok htoken
    obtain ⟨pool, hindex, rfl⟩ := Transforming.associate_eq_ok hpointer
    exact .inr ⟨token, symbols', index, pool, SymbolTable.names_of_lookup?_none hsound hlookup,
      hthird, hindex, (congrArg Prod.snd hok).symm, (Except.ok.inj (congrArg Prod.fst hok)).symm⟩
  · exact .inl ⟨s.id, (SymbolTable.names_of_lookup? hsound hlookup).1,
      (congrArg Prod.snd hok).symm, (Except.ok.inj (congrArg Prod.fst hok)).symm⟩

/-- What a rule about a region that is replaced does to the world. -/
theorem Elsewhere.generate_eq_ok {w w' : World} (hw : w.Sound) {origin : String} {rule node : Node}
    (hok : generate origin rule w = (.ok node, w')) :
    ∃ symbols, w.symbols.DeclaredAs (fun _ kind => kind = .function ∨ kind = .region) symbols ∧
      (w' = { w with symbols } ∨
        ∃ token symbols' index pool, symbols.names[tokenName origin rule.hash]? = none ∧
          symbols.declare (tokenName origin rule.hash) .token = (.ok token, symbols') ∧
          w.pool.associate token (tokenPointer token) = (.ok index, pool) ∧
          w' = ⟨symbols', pool, w.context.record origin (tokenName origin rule.hash)
            (placeName origin rule.hash) rule⟩) := by
  obtain ⟨has, symbols, hdeclared, -, hrest⟩ := generate_cases hw hok
  refine ⟨symbols, hdeclared, ?_⟩
  obtain ⟨-, -, rfl, -⟩ | ⟨token, symbols', index, pool, hn, htoken, hindex, rfl, -⟩ := hrest
  · exact .inl rfl
  · exact .inr ⟨token, symbols', index, pool, hn, htoken, hindex, rfl⟩

/-- A rule about a region becomes the question for one of its token, which goes by the name
made of the region and the hash of the rule. -/
theorem Elsewhere.generate_asks {w w' : World} (hw : w.Sound) {origin : String} {rule node : Node}
    (hok : generate origin rule w = (.ok node, w')) :
    ∃ has token, node = .has has token Item.one ∧
      w'.symbols.names[Lowering.hasName]? = some has ∧
      w'.symbols.names[tokenName origin rule.hash]? = some token := by
  obtain ⟨has, symbols, hdeclared, hhas, hrest⟩ := generate_cases hw hok
  obtain ⟨token, htoken, rfl, rfl⟩ | ⟨token, symbols', index, pool, -, htoken, -, rfl, rfl⟩ := hrest
  · exact ⟨has, token, rfl, hhas, htoken⟩
  · have hsound := (hdeclared.conducted id (fun hw _ =>
      ⟨(SymbolTable.declare_grows hw.symbols _ _).sound hw.symbols, hw.pool⟩) hw).2.symbols
    have hgrows := SymbolTable.declare_grows hsound (tokenName origin rule.hash) .token
    dsimp only at hsound hgrows
    rw [htoken] at hgrows
    exact ⟨has, token, rfl, hgrows.names hhas, SymbolTable.names_of_declare hsound htoken⟩

end Passage

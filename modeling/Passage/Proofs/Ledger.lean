import Passage.Proofs.Accounting
import Passage.Proofs.Digits
import Passage.Proofs.Lasting

/-!
# The ledger of connections

A connection is recorded under the name of its token, which is made of the region and the hash
of the rule, and tells both (`Elsewhere.tokenName_inj`). All connections are named so: those
that wait (`World.WellNamed`), those that were taken, and those that were compiled
(`Answer.wellNamed_of_reached`). So the ledger of all of them, `World.Recorded`, has at most
one region and one hash for a token.
-/

namespace Passage

/-! ## Names of tokens -/

/-- The name of a token tells the region and the hash of the rule. -/
theorem Elsewhere.tokenName_inj {origin origin' : String} {digest digest' : UInt64}
    (h : tokenName origin digest = tokenName origin' digest') :
    origin = origin' ∧ digest = digest' := by
  have hlength : ∀ d : UInt64, (Text.hexPadded 16 d.toNat).toList.length = 16 := by
    intro d
    have hlt : d.toNat < 2 ^ 64 := d.toNat_lt
    rw [String.length_toList]
    exact length_hexPadded (by omega)
  have hlists := congrArg String.toList h
  simp only [tokenName, String.toList_append] at hlists
  obtain ⟨hfront, hhex⟩ := List.append_inj' hlists ((hlength _).trans (hlength _).symm)
  have horigin := List.append_cancel_left (List.append_cancel_right hfront)
  exact ⟨String.toList_inj.mp horigin,
    UInt64.toNat_inj.mp (hexPadded_injective 16 (String.toList_inj.mp hhex))⟩

/-- The connection leads to the token that is named after its region and its rule. -/
def Connection.WellNamed (c : Connection) : Prop :=
  c.destination = Elsewhere.tokenName c.origin c.rule.hash

/-- The connections that wait lead to tokens that are named after them. -/
structure World.WellNamed (w : World) : Prop extends World.Sound w where
  waiting : ∀ c ∈ w.context.pending, c.WellNamed

namespace World.WellNamed

variable {w : World}

theorem grown (h : w.WellNamed) {symbols : SymbolTable} (hg : w.symbols.Grows symbols) :
    World.WellNamed { w with symbols } :=
  ⟨⟨hg.sound h.toSound.symbols, h.pool⟩, h.waiting⟩

/-- A connection that is recorded is named after its region and its rule. -/
theorem generate (h : w.WellNamed) {origin : String} {rule node : Node} {w' : World}
    (hok : Elsewhere.generate origin rule w = (.ok node, w')) : w'.WellNamed := by
  have hsound := (Elsewhere.generate_conducts origin rule w h.toSound).2 node
    (congrArg Prod.fst hok)
  rw [hok] at hsound
  obtain ⟨symbols, -, rfl | ⟨token, symbols', index, pool, -, -, -, rfl⟩⟩ :=
    Elsewhere.generate_eq_ok h.toSound hok
  · exact ⟨hsound, h.waiting⟩
  · refine ⟨hsound, fun c hc => ?_⟩
    obtain hc | rfl := Array.mem_push.mp hc
    · exact h.waiting c hc
    · rfl

end World.WellNamed

/-- Connections are named after their regions and rules throughout a conversation. -/
theorem wellNamed_maintained (plain : String → Prop) :
    Maintained plain fun _ w => w.WellNamed where
  sound h := h.toSound
  start _ := ⟨⟨SymbolTable.initial_sound, ObjectPool.empty_sound⟩, fun _ hmem =>
    absurd hmem (Array.not_mem_empty _)⟩
  declare h _ := h.grown (SymbolTable.declare_grows h.toSound.symbols _ _)
  byname h := h.grown (SymbolTable.bindAlias_grows _ _ _)
  objects h hp := ⟨⟨h.toSound.symbols, hp.sound⟩, h.waiting⟩
  region _ h := ⟨⟨h.toSound.symbols, h.pool⟩, h.waiting⟩
  take h := ⟨⟨h.toSound.symbols, h.pool⟩, fun _ hmem => absurd hmem (Array.not_mem_empty _)⟩
  generate origin rule w h :=
    ⟨(Elsewhere.generate_conducts origin rule w h.toSound).1, fun _ hnode =>
      h.generate (Prod.ext hnode rfl)⟩

/-! ## Entries -/

/-- The answer hands out a connection, or a source that was made of it. -/
inductive Answer.Records (origin destination : String) (rule : Node) : Answer → Prop
  | taken {connections : Array Connection} {c : Connection} : c ∈ connections →
      c.origin = origin → c.destination = destination → c.rule = rule →
      Records origin destination rule (.connections connections)
  | compiled {sources : List CompiledSource} {compiled : CompiledSource} : compiled ∈ sources →
      compiled.source.origin = some origin → compiled.source.destination = some destination →
      compiled.source.node = some rule → Records origin destination rule (.batch (.ok sources))

/-- A connection was recorded: it waits, or was handed out. -/
def World.Recorded (answers : List Answer) (w : World) (origin destination : String)
    (rule : Node) : Prop :=
  (∃ c ∈ w.context.pending, c.origin = origin ∧ c.destination = destination ∧ c.rule = rule) ∨
    ∃ answer ∈ answers, answer.Records origin destination rule

/-- What the answer hands out are connections, each to the token that is named after it. -/
structure Answer.WellNamed (answer : Answer) : Prop where
  entry : ∀ destination ∈ answer.delivered, ∃ origin rule,
    answer.Records origin destination rule
  named : ∀ {origin destination rule}, answer.Records origin destination rule →
    destination = Elsewhere.tokenName origin rule.hash

namespace Answer.WellNamed

/-- An answer that hands nothing out. -/
theorem silent {answer : Answer} (hdelivered : answer.delivered = [])
    (hrecords : ∀ {origin destination rule}, ¬ answer.Records origin destination rule) :
    answer.WellNamed where
  entry destination hmem := by
    rw [hdelivered] at hmem
    exact absurd hmem List.not_mem_nil
  named h := absurd h hrecords

theorem taken {connections : Array Connection} (h : ∀ c ∈ connections, c.WellNamed) :
    (Answer.connections connections).WellNamed where
  entry destination hmem := by
    obtain ⟨c, hc, rfl⟩ := List.mem_map.mp hmem
    exact ⟨c.origin, c.rule, .taken (Array.mem_toList_iff.mp hc) rfl rfl rfl⟩
  named hrecords := by
    cases hrecords with
    | taken hmem horigin hdestination hrule =>
      rw [← horigin, ← hdestination, ← hrule]
      exact h _ hmem

/-- A source that was made of a connection. -/
def OfConnection (source : Source) : Prop :=
  ∃ (c : Connection) (symbols : SymbolTable), c.WellNamed ∧ source = c.source symbols

theorem compiled {sources : List CompiledSource}
    (h : ∀ compiled ∈ sources, OfConnection compiled.source) :
    (Answer.batch (.ok sources)).WellNamed where
  entry destination hmem := by
    obtain ⟨compiled, hmem, hdestination⟩ := List.mem_filterMap.mp hmem
    obtain ⟨c, symbols, -, hsource⟩ := h compiled hmem
    exact ⟨c.origin, c.rule, .compiled hmem (by rw [hsource]; rfl) hdestination
      (by rw [hsource]; rfl)⟩
  named hrecords := by
    cases hrecords with
    | compiled hmem horigin hdestination hrule =>
      obtain ⟨c, symbols, hc, hsource⟩ := h _ hmem
      rw [hsource] at horigin hdestination hrule
      cases horigin
      cases hdestination
      cases hrule
      exact hc

end Answer.WellNamed

namespace Environment

open Answer.WellNamed (OfConnection)

/-- What a batch compiles are the sources of its connections. -/
theorem compileBatch_sources {connections : List Connection} {done done' : List CompiledSource}
    {env env' : Environment} (hconnections : ∀ c ∈ connections, c.WellNamed)
    (hdone : ∀ compiled ∈ done, OfConnection compiled.source)
    (h : compileBatch done connections env = (.ok done', env')) :
    ∀ compiled ∈ done', OfConnection compiled.source := by
  induction connections generalizing done env with
  | nil =>
    obtain rfl : done = done' := Except.ok.inj (congrArg Prod.fst h)
    exact hdone
  | cons connection rest ih =>
    obtain ⟨hfirst, hrest⟩ := List.forall_mem_cons.mp hconnections
    rw [compileBatch_cons] at h
    obtain ⟨compiled, env₁, hcompiled, h⟩ := bind_eq_ok h
    have hsource := compileStages_source (congrArg Prod.fst hcompiled)
    refine ih hrest (List.forall_mem_cons.mpr ⟨?_, hdone⟩) h
    exact ⟨connection, env.world.symbols, hfirst, hsource⟩

variable {allowed : CompilerFunctions → Prop} {may : String → Symbol.Kind → Prop}

theorem compileBatches_sources (hP : Sustained may allowed fun _ w => w.WellNamed) {left : Nat}
    {done compiled : List CompiledSource} {env : Environment}
    (henv : Holds allowed World.WellNamed env)
    (hdone : ∀ compiled ∈ done, OfConnection compiled.source)
    (h : (compileBatches done left env).1 = .ok compiled) :
    ∀ source ∈ compiled, OfConnection source.source := by
  have hreverse : ∀ source ∈ done.reverse, OfConnection source.source :=
    fun source hmem => hdone source (List.mem_reverse.mp hmem)
  induction left generalizing done env with
  | zero =>
    obtain rfl : done.reverse = compiled := Except.ok.inj h
    exact hreverse
  | succ left ih =>
    rw [compileBatches_succ] at h
    split at h
    · obtain rfl : done.reverse = compiled := Except.ok.inj h
      exact hreverse
    · have htaken := (@Sustained.takeConnections _ _ _ [] hP env henv).2
      have hpending : ∀ c ∈ (takeConnections env).1.toList, c.WellNamed :=
        fun c hc => henv.world.waiting c (Array.mem_toList_iff.mp hc)
      obtain ⟨-, hbatch⟩ := @Sustained.compileBatch _ _ _ [] hP (takeConnections env).1.toList done
        _ htaken
      rw [bind_apply] at h
      rcases hres : compileBatch done (takeConnections env).1.toList (takeConnections env).2
        with ⟨e | done', env'⟩ <;> rw [hres] at h hbatch
      · exact absurd h nofun
      · have hdone' := compileBatch_sources hpending hdone hres
        exact ih (hbatch done' rfl).1 hdone' h fun source hmem =>
          hdone' source (List.mem_reverse.mp hmem)

/-- What an answer hands out is named after its regions and rules. -/
theorem respond_wellNamed (hP : Sustained may allowed fun _ w => w.WellNamed) {env : Environment}
    (henv : Holds allowed World.WellNamed env) (request : Request) :
    (env.respond request).1.WellNamed := by
  cases request with
  | take => exact .taken henv.world.waiting
  | generated =>
    show (Answer.batch (compileConnections env).1).WellNamed
    rcases hres : (compileConnections env).1 with e | compiled
    · exact .silent rfl nofun
    · rw [(compileConnections_eq env).1] at hres
      exact .compiled (compileBatches_sources hP henv (List.forall_mem_nil _) hres)
  | _ => exact .silent rfl nofun

/-- All that was handed out in a conversation is named after its regions and rules. -/
theorem wellNamed_of_reached {plain : String → Prop} {answers : List Answer} {env : Environment}
    (hr : Reached (Request.Plain plain) answers env) :
    ∀ answer ∈ answers, answer.WellNamed := by
  induction hr with
  | start config => exact List.forall_mem_nil _
  | step request hr _ ih =>
    refine List.forall_mem_cons.mpr ⟨?_, ih⟩
    exact respond_wellNamed (wellNamed_maintained plain).sustained
      ((wellNamed_maintained plain).reached hr) request

end Environment

end Passage

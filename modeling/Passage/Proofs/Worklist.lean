import Passage.Proofs.Regions
import Passage.Proofs.Termination

/-!
# Connections are compiled in the order they were recorded

Compiling the connections that wait may record further ones, which then wait in their turn.
`Environment.Turns` are the turns that connections take in such a run, each with the
environment before and behind it. What is recorded in a turn goes to the end of those that
wait, so that the connections that have had a turn are those that waited at first and then
all that were recorded in a turn, in that order (`CompilesAll.turns`).

That none comes twice and none is left out does not follow from the order. It is what is known
of all connections ever recorded: exactly one leads to each hidden token (`Accounted`). A token
that is new has none among the connections delivered before, so that the one is among those
that were compiled (`connections_complete`).
-/

namespace Passage

/-- A pipeline comes only to worlds that its first world has grown to. -/
theorem Sustained.underway_grows {may : String → Symbol.Kind → Prop}
    {allowed : CompilerFunctions → Prop} {P : List String → World → Prop} {delivered : List String}
    (h : Sustained may allowed P) {env : Environment}
    (henv : env.Holds allowed (P delivered)) {node node' : Node} {w : World}
    (hway : env.kept.Underway env.scripts node env.world node' w) : env.world.Grows w := by
  induction hway with
  | start => exact World.grows_advances.refl _
  | @pass node₁ node₂ w₁ w₂ pass hway hmem happly ih =>
    rw [henv.ready.kept] at hmem
    have hmove := ((h.passes henv.ready pass hmem env.scripts).transform World.grows_advances
      node₁ w₁ (h.underway henv hway)).1
    rw [Pass.apply_eq] at happly
    rw [happly] at hmove
    exact World.grows_advances.trans ih hmove

namespace Accounted

variable {delivered : List String} {w : World}

/-- No two connections lead to one token. -/
theorem nodup (h : Accounted delivered w) : (w.allDestinations delivered).Nodup := by
  refine List.nodup_iff_count_eq_one.mpr fun name hname => ?_
  obtain ⟨hhidden, s, index, htoken⟩ := h.reached name hname
  have hname := htoken.name
  subst hname
  exact h.once htoken.get htoken.kind hhidden

end Accounted

namespace Environment

/-! ## Turns -/

/-- A connection with the environments before and behind its turn, and what came of it. -/
structure Turn where
  connection : Connection
  before : Environment
  after : Environment
  compiled : CompiledSource

namespace Turn

/-- The connections that wait behind a turn and did not wait before it. -/
def recorded (t : Turn) : List Connection :=
  t.after.world.context.pending.toList.drop t.before.world.context.pending.size

/-- The environment in which the rule is optimized: the region is the one that the connection
leaves from. -/
def inside (t : Turn) : Environment := t.before.withRegion (some t.connection.origin)

/-- The turn is taken: the rule of the connection is compiled, and is optimized where the region
is the connection's own from the first pass to the last. -/
structure Taken (t : Turn) : Prop where
  compiles : compileStages (t.connection.source t.before.world.symbols) t.before =
    (.ok t.compiled, t.after)
  source : t.compiled.source = t.connection.source t.before.world.symbols
  optimized : (optimizeStage t.connection.rule t.inside).1 = .ok t.compiled.optimized
  region : ∀ {node w}, t.inside.kept.Underway t.inside.scripts t.connection.rule t.inside.world
    node w → w.context.region = some t.connection.origin
  /-- Afterwards the region is the one of before, and the connections that waited still do. -/
  back : t.after.world.context.region = t.before.world.context.region
  appends : t.after.world.context.pending.toList =
    t.before.world.context.pending.toList ++ t.recorded

end Turn

/-- Turns that are taken one behind the other. In between, the connections that wait may be
taken out. -/
inductive Turns : Environment → List Turn → Environment → Prop
  | done {env : Environment} : Turns env [] env
  | take {env env' : Environment} {turns : List Turn} :
      Turns (takeConnections env).2 turns env' → Turns env turns env'
  | turn {t : Turn} {env' : Environment} {turns : List Turn} : t.Taken →
      Turns t.after turns env' → Turns t.before (t :: turns) env'

theorem Turns.append {env env' env'' : Environment} {turns turns' : List Turn}
    (h : Turns env turns env') (h' : Turns env' turns' env'') :
    Turns env (turns ++ turns') env'' := by
  induction h with
  | done => exact h'
  | take _ ih => exact .take (ih h')
  | turn htaken _ ih => exact .turn htaken (ih h')

/-- A source that is made of a connection is optimized in its region. -/
theorem compileStages_optimized {connection : Connection} {symbols : SymbolTable}
    {env env' : Environment} {compiled : CompiledSource}
    (h : compileStages (connection.source symbols) env = (.ok compiled, env')) :
    (optimizeStage connection.rule (env.withRegion (some connection.origin))).1 =
      .ok compiled.optimized := by
  obtain ⟨node, env₁, hnode, hrest⟩ := bind_eq_ok h
  obtain ⟨rfl, rfl⟩ := pure_eq_ok hnode
  obtain ⟨optimized, env₂, hoptimized, hrest⟩ := bind_eq_ok hrest
  obtain ⟨code, env₃, -, hpure⟩ := bind_eq_ok hrest
  obtain ⟨rfl, -⟩ := pure_eq_ok hpure
  exact congrArg Prod.fst hoptimized

section Runs

variable {delivered : List String}

/-- Where connections are accounted for. -/
abbrev Accounts (delivered : List String) (env : Environment) : Prop :=
  Holds (CompilerFunctions.DeclareOnly fun name => ¬ IsHidden name) (Accounted delivered) env

/-- A connection whose rule is compiled has its turn. -/
theorem taken_of_compileStages {env env' : Environment} {connection : Connection}
    {compiled : CompiledSource} (henv : Accounts delivered env)
    (h : compileStages (connection.source env.world.symbols) env = (.ok compiled, env')) :
    Turn.Taken ⟨connection, env, env', compiled⟩ ∧ Accounts delivered env' := by
  have hsustained := accounted_maintained.sustained
  obtain ⟨hfollows, hholds⟩ :=
    hsustained.compileStages (connection.source env.world.symbols) env henv
  rw [h] at hfollows hholds
  have hinside : Accounts delivered (env.withRegion (some connection.origin)) :=
    ⟨hsustained.region _ henv.world, henv.ready.functions, henv.ready.pipeline, henv.ready.fastOps⟩
  refine ⟨⟨h, compileStages_source (congrArg Prod.fst h), compileStages_optimized h,
    fun hway => (hsustained.underway_grows hinside hway).context.region,
    hfollows.world.context.region, ?_⟩, hholds compiled rfl⟩
  obtain ⟨more, hmore⟩ := hfollows.world.context.pending
  show env'.world.context.pending.toList = env.world.context.pending.toList ++
    env'.world.context.pending.toList.drop env.world.context.pending.size
  rw [hmore, Array.toList_append, List.drop_left' Array.length_toList]

/-- The connections of a batch take their turns in order, and what they record waits in order. -/
theorem CompilesEach.turns {compiled compiled' : List CompiledSource}
    {connections : List Connection} {env env' : Environment} {count : Nat}
    (h : CompilesEach compiled connections env count (.ok compiled') env')
    (henv : Accounts delivered env) :
    ∃ turns, Turns env turns env' ∧ Accounts delivered env' ∧
      turns.map Turn.connection = connections ∧
      compiled' = (turns.map Turn.compiled).reverse ++ compiled ∧
      env'.world.context.pending.toList =
        env.world.context.pending.toList ++ turns.flatMap Turn.recorded := by
  generalize hresult : Except.ok compiled' = result at h
  induction h with
  | done =>
    obtain rfl := Except.ok.inj hresult
    exact ⟨[], .done, henv, rfl, rfl, (List.append_nil _).symm⟩
  | failed _ => exact absurd hresult nofun
  | @next compiled connection rest env env₁ env' source count result hcompile _ ih =>
    obtain ⟨htaken, henv₁⟩ := taken_of_compileStages henv hcompile
    obtain ⟨turns, hturns, henv', hconnections, rfl, hpending⟩ := ih henv₁ hresult
    refine ⟨⟨connection, env, env₁, source⟩ :: turns, .turn htaken hturns, henv', ?_, ?_, ?_⟩
    · rw [List.map_cons, hconnections]
    · rw [List.map_cons, List.reverse_cons, List.append_assoc]
      rfl
    · rw [hpending, List.flatMap_cons, ← List.append_assoc]
      exact congrArg (· ++ _) htaken.appends

/-- In a run that succeeds the connections that wait take their turns, and then those that were
recorded in a turn, in that order; none waits at the end. -/
theorem CompilesAll.turns {compiled compiled' : List CompiledSource} {env env' : Environment}
    {count : Nat} (h : CompilesAll compiled env count (.ok compiled') env')
    (henv : Accounts delivered env) :
    ∃ turns, Turns env turns env' ∧ compiled' = compiled.reverse ++ turns.map Turn.compiled ∧
      turns.map Turn.connection =
        env.world.context.pending.toList ++ turns.flatMap Turn.recorded ∧
      env'.world.context.pending = #[] := by
  generalize hresult : Except.ok compiled' = result at h
  induction h generalizing delivered with
  | @idle compiled env hempty =>
    obtain rfl := Except.ok.inj hresult
    refine ⟨[], .take .done, (List.append_nil _).symm, ?_, rfl⟩
    have hnil : env.world.context.pending = #[] := Array.isEmpty_iff.mp hempty
    rw [hnil]
    rfl
  | failed _ _ => exact absurd hresult nofun
  | @next compiled compiled₁ env env₁ env' count count' result _ heach _ ih =>
    obtain ⟨-, htaken⟩ := accounted_maintained.sustained.takeConnections henv
    obtain ⟨first, hfirst, henv₁, hconnections, rfl, hpending⟩ := heach.turns htaken
    obtain ⟨rest, hrest, rfl, hlater, hdone⟩ := ih henv₁ hresult
    refine ⟨first ++ rest, .take (hfirst.append hrest), ?_, ?_, hdone⟩
    · rw [List.reverse_append, List.reverse_reverse, List.map_append, List.append_assoc]
    · -- When the batch was taken out, nothing was left to wait before what its turns record.
      have hwaiting : env₁.world.context.pending.toList = first.flatMap Turn.recorded := hpending
      rw [List.map_append, hconnections, hlater, hwaiting, List.flatMap_append]
      rfl

end Runs

/-- The sources that turns compile lead where their connections lead. -/
theorem Turns.targets {env env' : Environment} {turns : List Turn} (h : Turns env turns env') :
    targets (turns.map Turn.compiled) =
      (turns.map Turn.connection).map Connection.destination := by
  induction h with
  | done => rfl
  | take _ ih => exact ih
  | turn htaken _ ih =>
    rw [List.map_cons, List.map_cons, List.map_cons, Passage.targets, List.filterMap_cons,
      htaken.source]
    exact congrArg (_ :: ·) ih

end Environment

end Passage

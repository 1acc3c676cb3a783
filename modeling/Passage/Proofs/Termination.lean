import Passage.Proofs.Pointers

/-!
# Compiling connections comes to an end

A connection that is compiled may generate further ones, and rules can do so for ever:
what ends the loop is that each connection comes with a token that is new, and the pointer of
a new token takes an entry of the pool, of which there are finitely many.

`Environment.CompilesAll` is the loop without a bound: a derivation of it is a run that has
ended, with the number of connections that were compiled on the way. The bounded loop that
environments run is such a run (`compileBatches_ends`), and the bound on its length is the
number of connections that wait and of entries that are free (`connections_run_out`).
-/

namespace Passage

namespace Environment

/-! ## The loop -/

/-- Connections are compiled in order, with `compiled` before them: how many, the one that
fails among them, with which outcome, and what environment is left. -/
inductive CompilesEach : List CompiledSource → List Connection → Environment → Nat →
    Except StageError (List CompiledSource) → Environment → Prop
  | done {compiled : List CompiledSource} {env : Environment} :
      CompilesEach compiled [] env 0 (.ok compiled) env
  | failed {compiled : List CompiledSource} {connection : Connection} {rest : List Connection}
      {env env' : Environment} {e : StageError} :
      compileStages (connection.source env.world.symbols) env = (.error e, env') →
      CompilesEach compiled (connection :: rest) env 1 (.error e) env'
  | next {compiled : List CompiledSource} {connection : Connection} {rest : List Connection}
      {env env' env'' : Environment} {source : CompiledSource} {count : Nat}
      {result : Except StageError (List CompiledSource)} :
      compileStages (connection.source env.world.symbols) env = (.ok source, env') →
      CompilesEach (source :: compiled) rest env' count result env'' →
      CompilesEach compiled (connection :: rest) env (count + 1) result env''

/-- Connections are taken and compiled until none waits, as often as it takes. -/
inductive CompilesAll : List CompiledSource → Environment → Nat →
    Except StageError (List CompiledSource) → Environment → Prop
  | idle {compiled : List CompiledSource} {env : Environment} :
      (takeConnections env).1.isEmpty = true →
      CompilesAll compiled env 0 (.ok compiled.reverse) (takeConnections env).2
  | failed {compiled : List CompiledSource} {env env' : Environment} {count : Nat}
      {e : StageError} :
      (takeConnections env).1.isEmpty = false →
      CompilesEach compiled (takeConnections env).1.toList (takeConnections env).2 count
        (.error e) env' →
      CompilesAll compiled env count (.error e) env'
  | next {compiled compiled' : List CompiledSource} {env env' env'' : Environment}
      {count count' : Nat} {result : Except StageError (List CompiledSource)} :
      (takeConnections env).1.isEmpty = false →
      CompilesEach compiled (takeConnections env).1.toList (takeConnections env).2 count
        (.ok compiled') env' →
      CompilesAll compiled' env' count' result env'' →
      CompilesAll compiled env (count + count') result env''

/-! ### Runs are determined -/

theorem CompilesEach.unique {compiled : List CompiledSource} {connections : List Connection}
    {env env₁ env₂ : Environment} {count₁ count₂ : Nat}
    {result₁ result₂ : Except StageError (List CompiledSource)}
    (h₁ : CompilesEach compiled connections env count₁ result₁ env₁)
    (h₂ : CompilesEach compiled connections env count₂ result₂ env₂) :
    count₁ = count₂ ∧ result₁ = result₂ ∧ env₁ = env₂ := by
  induction h₁ generalizing count₂ result₂ env₂ with
  | done =>
    cases h₂
    exact ⟨rfl, rfl, rfl⟩
  | failed hcompile =>
    cases h₂ with
    | failed hcompile' =>
      cases hcompile.symm.trans hcompile'
      exact ⟨rfl, rfl, rfl⟩
    | next hcompile' _ => exact absurd (hcompile.symm.trans hcompile') nofun
  | next hcompile _ ih =>
    cases h₂ with
    | failed hcompile' => exact absurd (hcompile.symm.trans hcompile') nofun
    | next hcompile' hrest =>
      cases hcompile.symm.trans hcompile'
      obtain ⟨rfl, rfl, rfl⟩ := ih hrest
      exact ⟨rfl, rfl, rfl⟩

theorem CompilesAll.unique {compiled : List CompiledSource} {env env₁ env₂ : Environment}
    {count₁ count₂ : Nat} {result₁ result₂ : Except StageError (List CompiledSource)}
    (h₁ : CompilesAll compiled env count₁ result₁ env₁)
    (h₂ : CompilesAll compiled env count₂ result₂ env₂) :
    count₁ = count₂ ∧ result₁ = result₂ ∧ env₁ = env₂ := by
  induction h₁ generalizing count₂ result₂ env₂ with
  | idle hempty =>
    cases h₂ with
    | idle _ => exact ⟨rfl, rfl, rfl⟩
    | failed hfull _ => exact absurd (hempty.symm.trans hfull) (by simp)
    | next hfull _ _ => exact absurd (hempty.symm.trans hfull) (by simp)
  | failed hfull heach =>
    cases h₂ with
    | idle hempty => exact absurd (hempty.symm.trans hfull) (by simp)
    | failed _ heach' =>
      obtain ⟨rfl, hresult, rfl⟩ := heach.unique heach'
      exact ⟨rfl, hresult, rfl⟩
    | next _ heach' _ => exact absurd (heach.unique heach').2.1 (by simp)
  | next hfull heach _ ih =>
    cases h₂ with
    | idle hempty => exact absurd (hempty.symm.trans hfull) (by simp)
    | failed _ heach' => exact absurd (heach.unique heach').2.1 (by simp)
    | next _ heach' hrest =>
      obtain ⟨rfl, hresult, rfl⟩ := heach.unique heach'
      obtain rfl := Except.ok.inj hresult
      obtain ⟨rfl, rfl, rfl⟩ := ih hrest
      exact ⟨rfl, rfl, rfl⟩

/-! ## The bounded loop is a run -/

/-- A batch is compiled to its end or up to the first failure. -/
theorem compileBatch_each (compiled : List CompiledSource) (connections : List Connection)
    (env : Environment) :
    ∃ count ≤ connections.length,
      CompilesEach compiled connections env count (compileBatch compiled connections env).1
        (compileBatch compiled connections env).2 ∧
      ∀ compiled', (compileBatch compiled connections env).1 = .ok compiled' →
        compiled'.length = compiled.length + count ∧ count = connections.length := by
  induction connections generalizing compiled env with
  | nil =>
    refine ⟨0, Nat.le_refl _, .done, fun compiled' h => ?_⟩
    obtain rfl : compiled = compiled' := Except.ok.inj h
    exact ⟨rfl, rfl⟩
  | cons connection rest ih =>
    rw [compileBatch_cons, bind_apply]
    rcases hcompile : compileStages (connection.source env.world.symbols) env
      with ⟨e | source, env'⟩
    · exact ⟨1, Nat.succ_le_succ (Nat.zero_le _), .failed hcompile, nofun⟩
    · obtain ⟨count, hle, heach, hok⟩ := ih (source :: compiled) env'
      refine ⟨count + 1, Nat.succ_le_succ hle, .next hcompile heach, fun compiled' h => ?_⟩
      obtain ⟨hlength, hcount⟩ := hok compiled' h
      exact ⟨by rw [hlength, List.length_cons]; omega, by rw [List.length_cons, hcount]⟩

/-- With no more connections, delivered and waiting, than `total`, the bounded loop ends
before its bound is used up: by the bound that is left, more batches can be taken than
connections can still be recorded, or else none waits. -/
theorem compileBatches_ends {may : String → Symbol.Kind → Prop}
    {allowed : CompilerFunctions → Prop} {P : List String → World → Prop} {total : Nat}
    (h : Sustained may allowed P)
    (hbound : ∀ {delivered w}, P delivered w → delivered.length + w.context.pending.size ≤ total)
    (left : Nat) (compiled : List CompiledSource) {delivered : List String} {env : Environment}
    (henv : Holds allowed (P delivered) env)
    (hleft : total + 2 ≤ left + delivered.length + env.world.context.pending.size ∨
      env.world.context.pending.size = 0 ∧ 1 ≤ left) :
    ∃ count, delivered.length + count ≤ total ∧
      CompilesAll compiled env count (compileBatches compiled left env).1
        (compileBatches compiled left env).2 ∧
      ∀ compiled', (compileBatches compiled left env).1 = .ok compiled' →
        compiled'.length = compiled.length + count := by
  have hdelivered := hbound henv.world
  induction left generalizing compiled delivered env with
  | zero => omega
  | succ left ih =>
    obtain ⟨-, htaken⟩ := h.takeConnections henv
    have hsize : (takeConnections env).1.toList.length = env.world.context.pending.size := by
      rw [Array.length_toList]
      rfl
    have hdestinations : (destinations (takeConnections env).1).length =
        env.world.context.pending.size := by
      rw [destinations, List.length_map, hsize]
    rw [compileBatches_succ]
    by_cases hempty : (takeConnections env).1.isEmpty
    · rw [if_pos hempty]
      refine ⟨0, by omega, .idle hempty, fun compiled' hok => ?_⟩
      rw [← Except.ok.inj hok, List.length_reverse, Nat.add_zero]
    · have hfull : (takeConnections env).1.isEmpty = false := Bool.eq_false_iff.mpr hempty
      have hwaiting : 0 < env.world.context.pending.size := by
        rw [← hsize, Array.length_toList]
        exact Array.size_pos_iff.mpr fun hnil => hempty (by rw [hnil]; rfl)
      obtain ⟨count, hcount, heach, heachLength⟩ :=
        compileBatch_each compiled (takeConnections env).1.toList (takeConnections env).2
      obtain ⟨-, hafter⟩ :=
        h.compileBatch (takeConnections env).1.toList compiled htaken
      rw [if_neg hempty, bind_apply]
      rcases hres : compileBatch compiled (takeConnections env).1.toList (takeConnections env).2
        with ⟨e | compiled', env'⟩ <;> rw [hres] at heach heachLength hafter
      · exact ⟨count, by omega, .failed hfull heach, by rintro _ ⟨⟩⟩
      · obtain ⟨hholds, -⟩ := hafter compiled' rfl
        obtain ⟨hlength, hall⟩ := heachLength compiled' rfl
        have hnow : (delivered ++ destinations (takeConnections env).1).length =
            delivered.length + env.world.context.pending.size := by
          rw [List.length_append, hdestinations]
        have hlater := hbound hholds.world
        obtain ⟨count', hcount', hrest, hrestLength⟩ := ih compiled' hholds (by omega) hlater
        refine ⟨count + count', by omega, .next hfull heach hrest, fun final hok => ?_⟩
        rw [hrestLength final hok, hlength, Nat.add_assoc]

/-! ## Entries for connections -/

/-- Since there were `before` connections and `size` entries, each further connection has
come with an entry of its own. -/
def Paid (before size delivered waiting : Nat) (p : ObjectPool) : Prop :=
  delivered + waiting + size ≤ p.size + before

theorem paid_tally (before size : Nat) : Tally (Paid before size) where
  entered h _ hg := Nat.le_trans h (Nat.add_le_add_right hg.size before)
  taken h := h
  recorded {delivered waiting p p'} h _ _ hsize := by
    unfold Paid at h ⊢
    omega

/-- Whatever compiler functions may do short of recording connections: they declare names,
enter objects and give pointers to declared symbols. -/
def Latitude.whole : Latitude := ⟨fun _ => True, fun _ _ => True⟩

theorem Latitude.whole_ample : Latitude.whole.Ample := ⟨fun _ => trivial, fun _ _ => trivial⟩

/-- The run of the loop in an environment that is reached. -/
theorem compileConnections_run {answers : List Answer} {env : Environment}
    (hr : Reached (Request.Within Latitude.whole) answers env) :
    ∃ count ≤ env.world.context.pending.size + (ObjectPool.capacity - env.world.pool.size),
      CompilesAll [] env count (compileBatches [] env.batchLimit env).1
        (compileBatches [] env.batchLimit env).2 ∧
      ∀ compiled, (compileBatches [] env.batchLimit env).1 = .ok compiled →
        compiled.length = count := by
  let before := env.world.context.pending.size
  let size := env.world.pool.size
  obtain ⟨hpointed, hready⟩ := pointed_of_reached Latitude.whole_ample hr
  have hsustained := (paid_tally before size).sustained
    (fun _ => Latitude.whole_ample.declares _) fun _ => Latitude.whole_ample.gives _ _
  have hstart : Holds (CompilerFunctions.Within Latitude.whole)
      (World.Tallied Latitude.whole.gives (Paid before size) []) env := by
    refine ⟨⟨hpointed, ?_⟩, hready⟩
    show 0 + before + size ≤ size + before
    omega
  have hbound : ∀ {delivered w},
      World.Tallied Latitude.whole.gives (Paid before size) delivered w →
      delivered.length + w.context.pending.size ≤ before + (ObjectPool.capacity - size) := by
    intro delivered w h
    have hpaid : delivered.length + w.context.pending.size + size ≤ w.pool.size + before := h.tally
    have hfree : w.pool.size ≤ ObjectPool.capacity := h.pointed.pool.size
    omega
  have hleft : before + (ObjectPool.capacity - size) + 2 ≤
      env.batchLimit + ([] : List String).length + before := by
    show _ ≤ (ObjectPool.capacity - size + 2) + 0 + before
    omega
  obtain ⟨count, hcount, hrun, hlength⟩ :=
    compileBatches_ends hsustained hbound env.batchLimit [] hstart (.inl hleft)
  refine ⟨count, ?_, hrun, fun compiled hok => ?_⟩
  · rwa [List.length_nil, Nat.zero_add] at hcount
  · rw [hlength compiled hok, List.length_nil, Nat.zero_add]

/-- Compiling the connections that wait ends, with or without a failure. It compiles no more
connections than wait at first and entries are free, and environments answer as it ends. -/
theorem connections_run_out {answers : List Answer} {env : Environment}
    (hr : Reached (Request.Within Latitude.whole) answers env) :
    (∃ count result env', CompilesAll [] env count result env') ∧
    ∀ {count result env'}, CompilesAll [] env count result env' →
      count ≤ env.world.context.pending.size + (ObjectPool.capacity - env.world.pool.size) ∧
      (compileConnections env).1 = result ∧
      ∀ compiled, result = .ok compiled →
        compiled.length = count ∧ (compileConnections env).2 = env' := by
  obtain ⟨count, hcount, hrun, hlength⟩ := compileConnections_run hr
  obtain ⟨hresult, hkept⟩ := compileConnections_eq env
  refine ⟨⟨count, _, _, hrun⟩, fun hother => ?_⟩
  obtain ⟨rfl, rfl, rfl⟩ := hother.unique hrun
  exact ⟨hcount, hresult, fun compiled hok => ⟨hlength compiled hok, hkept compiled hok⟩⟩

/-- An environment with one function, in which a rule about another region was compiled. -/
def harbor : Environment :=
  (((ofConfig .standard).respond (.builtIns [⟨"has", 2⟩])).2.respond
    (.compile "at('Harbor', True)")).2

theorem reached_harbor : ∃ answers, Reached (Request.Within Latitude.whole) answers harbor :=
  ⟨_, .step (.compile "at('Harbor', True)")
    (.step (.builtIns [⟨"has", 2⟩]) (.start .standard) trivial) trivial⟩

/-- There one connection waits and two entries are taken, and compiling comes to an end. -/
theorem harbor_runs_out :
    harbor.world.context.pending.size = 1 ∧ harbor.world.pool.size = 2 ∧
      ∃ count result env', CompilesAll [] harbor count result env' ∧ count ≤ 65535 ∧
        (compileConnections harbor).1 = result := by
  have hall : (harbor.world.context.pending.size, harbor.world.pool.size) =
      (1, 2) := by decide +kernel
  obtain ⟨hpending, hsize⟩ := Prod.mk.inj hall
  obtain ⟨answers, hr⟩ := reached_harbor
  obtain ⟨⟨count, result, env', hrun⟩, hends⟩ := connections_run_out hr
  obtain ⟨hcount, hresult, -⟩ := hends hrun
  rw [hpending, hsize, ObjectPool.capacity] at hcount
  exact ⟨hpending, hsize, count, result, env', hrun, hcount, hresult⟩

end Environment

end Passage

import Passage.Proofs.Hosting

/-!
# Optimizing again

The rounds of a run go on where the last one stopped, whatever was done before
(`Pipeline.behind_add`), and a round goes on from pass to pass (`Pipeline.behind_cons`). What a
round does is therefore put together from what its passes do (`Pipeline.Carries`), and a rule that
one round leaves alone is optimized already (`Environment.optimize_of_still`). Whether the
configured rounds come to such a rule depends on the scripts.
-/

namespace Passage

/-! ## Rounds -/

namespace Pipeline

variable {scripts : Scripts} {passes : List Pass}

/-- What becomes of a rule and of the world in some rounds. -/
def behind (scripts : Scripts) (passes : List Pass) (state : Except PassError Node × World)
    (rounds : Nat) : Except PassError Node × World :=
  let outcome := runRounds scripts passes 1 ⟨[], state.1⟩ state.2 rounds
  (outcome.1.result, outcome.2)

/-- Passes go on where the rule stands, wherever it came from. -/
theorem runPasses_congr (passes : List Pass) (round round' : Nat) {r r' : PipelineRun}
    (h : r.result = r'.result) (w : World) :
    (runPasses scripts round r w passes).1.result =
        (runPasses scripts round' r' w passes).1.result ∧
      (runPasses scripts round r w passes).2 = (runPasses scripts round' r' w passes).2 := by
  induction passes generalizing r r' w with
  | nil => exact ⟨h, rfl⟩
  | cons pass rest ih =>
    rw [runPasses, runPasses, ← h]
    rcases hr : r.result with e | node
    · exact ⟨h, rfl⟩
    · dsimp only
      rcases (pass.rules scripts).transform node w with ⟨e | node', w'⟩
      · exact ⟨rfl, rfl⟩
      · have hstep : (⟨⟨round, pass.name, node'⟩ :: r.done, .ok node'⟩ : PipelineRun).result =
          (⟨⟨round', pass.name, node'⟩ :: r'.done, .ok node'⟩ : PipelineRun).result := rfl
        exact ih hstep w'

/-- Rounds go on where the rule stands, wherever it came from. -/
theorem runRounds_congr (left : Nat) {round round' : Nat} {r r' : PipelineRun}
    (h : r.result = r'.result) (w : World) :
    (runRounds scripts passes round r w left).1.result =
        (runRounds scripts passes round' r' w left).1.result ∧
      (runRounds scripts passes round r w left).2 =
        (runRounds scripts passes round' r' w left).2 := by
  induction left generalizing round round' r r' w with
  | zero => exact ⟨h, rfl⟩
  | succ left ih =>
    obtain ⟨hresult, hworld⟩ := runPasses_congr passes round round' h w
    rw [runRounds, runRounds, ← h]
    rcases r.result with e | node
    · exact ⟨h, rfl⟩
    · dsimp only
      rw [← hworld]
      exact ih hresult _

/-- A fault ends a run. -/
theorem runRounds_error {round : Nat} {r : PipelineRun} {e : PassError} (h : r.result = .error e)
    (w : World) (left : Nat) : runRounds scripts passes round r w left = (r, w) := by
  cases left with
  | zero => rfl
  | succ left => rw [runRounds, h]

theorem runRounds_add (rounds more : Nat) (round : Nat) (r : PipelineRun) (w : World) :
    runRounds scripts passes round r w (rounds + more) =
      runRounds scripts passes (round + rounds) (runRounds scripts passes round r w rounds).1
        (runRounds scripts passes round r w rounds).2 more := by
  induction rounds generalizing round r w with
  | zero =>
    rw [Nat.zero_add]
    rfl
  | succ rounds ih =>
    have hcount : rounds + 1 + more = rounds + more + 1 := Nat.add_right_comm rounds 1 more
    rw [hcount, runRounds, runRounds]
    rcases hr : r.result with e | node
    · exact (runRounds_error hr w more).symm
    · dsimp only
      rw [ih, Nat.add_assoc, Nat.add_comm 1 rounds]

/-- More rounds go on where the first ones stopped. -/
theorem behind_add (state : Except PassError Node × World) (rounds more : Nat) :
    behind scripts passes state (rounds + more) =
      behind scripts passes (behind scripts passes state rounds) more := by
  unfold behind
  dsimp only
  rw [runRounds_add]
  generalize runRounds scripts passes 1 ⟨[], state.1⟩ state.2 rounds = stop
  have hstop : stop.1.result = (⟨[], stop.1.result⟩ : PipelineRun).result := rfl
  obtain ⟨hresult, hworld⟩ := runRounds_congr more hstop stop.2
  exact Prod.ext hresult hworld

/-- Where one round changes nothing, none does. -/
theorem behind_of_still {state : Except PassError Node × World}
    (h : behind scripts passes state 1 = state) (rounds : Nat) :
    behind scripts passes state rounds = state := by
  induction rounds with
  | zero => rfl
  | succ rounds ih => rw [behind_add, ih, h]

/-- Rounds of which each goes from a rule to the next one go from any rule to that so far on. -/
theorem behind_of_steps {step : Nat → Node} {w : World}
    (h : ∀ n, behind scripts passes (.ok (step (n + 1)), w) 1 = (.ok (step n), w))
    (rounds n : Nat) :
    behind scripts passes (.ok (step (n + rounds)), w) rounds = (.ok (step n), w) := by
  induction rounds generalizing n with
  | zero => rfl
  | succ rounds ih =>
    have hcount : n + (rounds + 1) = n + 1 + rounds := by omega
    rw [hcount, behind_add, ih (n + 1)]
    exact h n

/-- What fails, stays as it is. -/
theorem behind_error (e : PassError) (w : World) (rounds : Nat) :
    behind scripts passes (.error e, w) rounds = (.error e, w) := by
  have hresult : (⟨[], .error e⟩ : PipelineRun).result = .error e := rfl
  unfold behind
  dsimp only
  rw [runRounds_error hresult]

theorem behind_one (node : Node) (w : World) :
    behind scripts passes (.ok node, w) 1 =
      ((runPasses scripts 1 ⟨[], .ok node⟩ w passes).1.result,
        (runPasses scripts 1 ⟨[], .ok node⟩ w passes).2) := rfl

/-- Rounds that do not fail have not failed on the way. -/
theorem behind_add_ok {state : Except PassError Node × World} {rounds more : Nat} {node : Node}
    {w : World} (h : behind scripts passes state (rounds + more) = (.ok node, w)) :
    ∃ node₁ w₁, behind scripts passes state rounds = (.ok node₁, w₁) ∧
      behind scripts passes (.ok node₁, w₁) more = (.ok node, w) := by
  rw [behind_add] at h
  rcases hfirst : behind scripts passes state rounds with ⟨e | node₁, w₁⟩
  · rw [hfirst, behind_error] at h
    exact absurd (congrArg Prod.fst h) nofun
  · exact ⟨node₁, w₁, rfl, hfirst ▸ h⟩

/-- A round goes on behind its first pass. -/
theorem behind_cons (pass : Pass) (rest : List Pass) (node : Node) (w : World) :
    behind scripts (pass :: rest) (.ok node, w) 1 =
      behind scripts rest ((pass.rules scripts).transform node w) 1 := by
  rw [behind_one, runPasses]
  dsimp only
  rcases (pass.rules scripts).transform node w with ⟨e | node', w'⟩
  · exact (behind_error e w' 1).symm
  · have hstep : (⟨[⟨1, pass.name, node'⟩], .ok node'⟩ : PipelineRun).result =
        (⟨[], .ok node'⟩ : PipelineRun).result := rfl
    obtain ⟨hresult, hworld⟩ := runPasses_congr rest 1 1 hstep w'
    exact Prod.ext hresult hworld

theorem behind_nil (state : Except PassError Node × World) : behind scripts [] state 1 = state := by
  obtain ⟨e | node, w⟩ := state
  · exact behind_error e w 1
  · rfl

/-- A round may be made in two parts. -/
theorem behind_append (rest : List Pass) (state : Except PassError Node × World) :
    behind scripts (passes ++ rest) state 1 =
      behind scripts rest (behind scripts passes state 1) 1 := by
  induction passes generalizing state with
  | nil => rw [List.nil_append, behind_nil]
  | cons pass passes ih =>
    obtain ⟨e | node, w⟩ := state
    · rw [behind_error, behind_error, behind_error]
    · rw [List.cons_append, behind_cons, behind_cons, ih]

/-- Passes that leave a node and the world alone make no difference to a round. -/
theorem behind_same {node : Node} {w : World}
    (h : ∀ pass ∈ passes, (pass.rules scripts).transform node w = (.ok node, w)) :
    behind scripts passes (.ok node, w) 1 = (.ok node, w) := by
  induction passes with
  | nil => exact behind_nil _
  | cons pass rest ih =>
    obtain ⟨hpass, hrest⟩ := List.forall_mem_cons.mp h
    rw [behind_cons, hpass, ih hrest]

/-! ### Assertions -/

/-- Of what satisfies the first assertion, a round of the passes makes what satisfies the second
one, unless it fails. -/
def Carries (scripts : Scripts) (P : Node → World → Prop) (passes : List Pass)
    (Q : Node → World → Prop) : Prop :=
  ∀ node w node' w', P node w → behind scripts passes (.ok node, w) 1 = (.ok node', w') → Q node' w'

namespace Carries

variable {P Q R : Node → World → Prop} {rest : List Pass}

theorem nil (h : ∀ node w, P node w → Q node w) : Carries scripts P [] Q := by
  intro node w node' w' hp hok
  rw [behind_nil] at hok
  obtain ⟨hnode, rfl⟩ := Prod.mk.inj hok
  obtain rfl := Except.ok.inj hnode
  exact h node w hp

theorem single {pass : Pass} (h : ∀ node w node' w', P node w →
    (pass.rules scripts).transform node w = (.ok node', w') → Q node' w') :
    Carries scripts P [pass] Q := by
  intro node w node' w' hp hok
  rw [behind_cons, behind_nil] at hok
  exact h node w node' w' hp hok

/-- One part of a round after the other. -/
theorem append (h : Carries scripts P passes Q) (hrest : Carries scripts Q rest R) :
    Carries scripts P (passes ++ rest) R := by
  intro node w node' w' hp hok
  rw [behind_append] at hok
  rcases hfirst : behind scripts passes (.ok node, w) 1 with ⟨e | node₁, w₁⟩
  · rw [hfirst, behind_error] at hok
    exact absurd (congrArg Prod.fst hok) nofun
  · rw [hfirst] at hok
    exact hrest node₁ w₁ node' w' (h node w node₁ w₁ hp hfirst) hok

theorem cons {pass : Pass} (h : ∀ node w node' w', P node w →
    (pass.rules scripts).transform node w = (.ok node', w') → Q node' w')
    (hrest : Carries scripts Q rest R) : Carries scripts P (pass :: rest) R :=
  (single h).append hrest

/-- A pass with nothing to do. -/
theorem skip {pass : Pass} (h : ∀ node w, P node w →
    (pass.rules scripts).transform node w = (.ok node, w)) (hrest : Carries scripts P rest R) :
    Carries scripts P (pass :: rest) R := by
  refine .cons (fun node w node' w' hp hok => ?_) hrest
  obtain ⟨hnode, rfl⟩ := Prod.mk.inj ((h node w hp).symm.trans hok)
  obtain rfl := Except.ok.inj hnode
  exact hp

/-- A pass that may be there. -/
theorem option {α : Type} {make : α → Pass} {value? : Option α}
    (hsome : ∀ a, value? = some a → Carries scripts P [make a] Q)
    (hnone : value? = none → ∀ node w, P node w → Q node w) :
    Carries scripts P (value?.map make).toList Q := by
  cases value? with
  | none => exact .nil (hnone rfl)
  | some a => exact hsome a rfl

end Carries

end Pipeline

/-! ## Optimizing -/

namespace Environment

/-- What becomes of a rule in some rounds of the passes of an environment. -/
def inRounds (env : Environment) (rounds : Nat) (node : Node) : Except PassError Node × World :=
  Pipeline.behind env.scripts env.newPipeline.passes (.ok node, env.world) rounds

variable {env : Environment} {node once : Node}

/-- Optimizing answers what becomes of the rule in all rounds. -/
theorem optimize_fst {allowed : CompilerFunctions → Prop} (hready : env.Ready allowed) :
    (optimize node env).1 = (env.inRounds env.config.rounds node).1 := by
  rw [optimize, optimizeTraced_eq]
  dsimp only
  rw [optimized_fst, hready.kept, Pipeline.run_eq]
  rfl

/-- If it does not fail, it leaves the world that is left then. -/
theorem optimize_snd {allowed : CompilerFunctions → Prop} (hready : env.Ready allowed)
    (h : (optimize node env).1 = .ok once) :
    (optimize node env).2 = { env with
      world := (env.inRounds env.config.rounds node).2, pipeline := some env.newPipeline } := by
  rw [optimize, optimizeTraced_eq] at h ⊢
  dsimp only at h ⊢
  rw [env.optimized_ok h, hready.kept, Pipeline.run_eq]
  rfl

/-- An environment is as ready with its pipeline made. -/
theorem Ready.renewed {allowed : CompilerFunctions → Prop} (hready : env.Ready allowed)
    (world : World) : Ready allowed { env with world, pipeline := some env.newPipeline } :=
  ⟨hready.functions, fun _ hp => (Option.some.inj hp).symm, hready.fastOps⟩

/-- What a round leaves alone, optimizing does, where the pipeline is kept. -/
theorem optimize_of_still {allowed : CompilerFunctions → Prop} (hready : env.Ready allowed)
    (hpipeline : env.pipeline = some env.newPipeline)
    (h : env.inRounds 1 node = (.ok node, env.world)) : optimize node env = (.ok node, env) := by
  have hstill : env.inRounds env.config.rounds node = (.ok node, env.world) :=
    Pipeline.behind_of_still h env.config.rounds
  have hfst : (optimize node env).1 = .ok node := by
    rw [optimize_fst hready, hstill]
  refine Prod.ext hfst ?_
  rw [optimize_snd hready hfst, hstill, ← hpipeline]

/-- Where the rounds are just enough to come to the last one of some steps, what they leave is
decided when it is optimized again. -/
theorem optimize_of_steps {allowed : CompilerFunctions → Prop} (hready : env.Ready allowed)
    {more : Nat} (hrounds : env.config.rounds = more + 1) {step : Nat → Node} {last : Node}
    (hfirst : env.inRounds 1 node = (.ok (step more), env.world))
    (hstep : ∀ n, env.inRounds 1 (step (n + 1)) = (.ok (step n), env.world))
    (hdecided : env.inRounds 1 (step 0) = (.ok last, env.world))
    (hlast : env.inRounds 1 last = (.ok last, env.world)) :
    (optimize node env).1 = .ok (step 0) ∧
      (optimize (step 0) (optimize node env).2).1 = .ok last := by
  have hall : env.inRounds env.config.rounds node = (.ok (step 0), env.world) := by
    have hsteps := Pipeline.behind_of_steps hstep more 0
    rw [Nat.zero_add] at hsteps
    rw [hrounds, Nat.add_comm, inRounds, Pipeline.behind_add]
    exact (congrArg (Pipeline.behind _ _ · more) hfirst).trans hsteps
  have honce : (optimize node env).1 = .ok (step 0) := by
    rw [optimize_fst hready, hall]
  have hagain : env.inRounds env.config.rounds (step 0) = (.ok last, env.world) := by
    rw [hrounds, Nat.add_comm, inRounds, Pipeline.behind_add]
    exact (congrArg (Pipeline.behind _ _ · more) hdecided).trans
      (Pipeline.behind_of_still hlast more)
  refine ⟨honce, ?_⟩
  rw [optimize_snd hready honce, hall, optimize_fst (hready.renewed env.world)]
  exact congrArg Prod.fst hagain

/-- The compiler functions, if there are any, are those of a standard table. -/
def UsesStandard (env : Environment) : Prop :=
  ∀ fs, env.functions = some fs → ∃ tricks night, fs = .standard tricks night

end Environment

end Passage

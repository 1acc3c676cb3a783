import Passage.Pass.Pipeline
import Passage.Proofs.Fallible

/-!
# The counter of nested calls comes back

The inlining pass counts the calls of scripted functions it is inside of, and the pipeline
keeps that counter from rule to rule. Here it is shown that a pass is left as it was, whatever
rule it goes through and whether or not that succeeds (`Pass.rewrite_eq`), and so is the
pipeline (`Pipeline.drive_eq`). Where the counter starts at `depth`, the pass is given by rules
that need no counter, but know how many more calls may nest (`Inline.rules`); runs are then
those of `Pipeline.runRounds`, which says nothing about the passes it leaves.

The invariant is that of a step from a depth: it does to the world what a step without a
counter does, and ends at the depth it started from (`Nesting.Level`).
-/

namespace Passage

/-! ## Steps that come back to their depth -/

/-- A counting step behind another one. The counter is also handed on where the first one fails. -/
theorem Nesting.bind_apply {α β : Type} (step : Nesting α) (next : α → Nesting β) (depth : Nat)
    (w : World) :
    (step >>= next) depth w = match step depth w with
      | ((.ok a, depth), w) => next a depth w
      | ((.error e, depth), w) => ((.error e, depth), w) := by
  show (match step depth w with | ((a, depth), w) => ExceptT.bindCont next a depth w) = _
  rcases step depth w with ⟨⟨_ | _, _⟩, _⟩ <;> rfl

/-- From a depth, the counting step does what the other one does, and comes back to the depth. -/
def Nesting.Level {α : Type} (depth : Nat) (step : Nesting α) (step' : Transforming α) : Prop :=
  ∀ w, step depth w = Nesting.lift step' depth w

namespace Nesting.Level

variable {α β : Type} {depth : Nat}

protected theorem lift (step : Transforming α) : Level depth (monadLift step) step := fun _ => rfl

protected theorem pure (a : α) : Level depth (pure a) (pure a) := fun _ => rfl

protected theorem throw (e : PassError) : Level (α := α) depth (throw e) (throw e) := fun _ => rfl

protected theorem bind {step : Nesting α} {step' : Transforming α} {next : α → Nesting β}
    {next' : α → Transforming β} (h : Level depth step step')
    (hnext : ∀ a, Level depth (next a) (next' a)) :
    Level depth (step >>= next) (step' >>= next') := by
  intro w
  rw [Nesting.bind_apply, h w, Nesting.lift, Nesting.lift, Passage.bind_apply]
  rcases step' w with ⟨e | a, w'⟩
  · rfl
  · exact hnext a w'

end Nesting.Level

/-! ## Rules that come back to their depth -/

/-- Rules each of whose parts comes back to the depth. -/
structure Rules.Level (depth : Nat) (r : Rules Nesting) (r' : Rules Transforming) : Prop where
  anyOf : ∀ items, Nesting.Level depth (r.anyOf items) (r'.anyOf items)
  every : ∀ items, Nesting.Level depth (r.every items) (r'.every items)
  compare : ∀ op lhs rhs, Nesting.Level depth (r.compare op lhs rhs) (r'.compare op lhs rhs)
  identifier : ∀ id, Nesting.Level depth (r.identifier id) (r'.identifier id)
  invert : ∀ inner, Nesting.Level depth (r.invert inner) (r'.invert inner)
  string : ∀ value, Nesting.Level depth (r.string value) (r'.string value)
  intercept :
    ∀ target args, Nesting.Level depth (r.intercept target args) (r'.intercept target args)
  invoke : ∀ target args, Nesting.Level depth (r.invoke target args) (r'.invoke target args)

/-- The rules that only rebuild. -/
theorem Rules.level_default (depth : Nat) : Rules.Level depth {} {} where
  anyOf _ := .pure _
  every _ := .pure _
  compare _ _ _ := .pure _
  identifier _ := .pure _
  invert _ := .pure _
  string _ := .pure _
  intercept _ _ := .pure _
  invoke _ _ := .pure _

namespace Rules.Level

variable {depth : Nat} {r : Rules Nesting} {r' : Rules Transforming}

mutual

/-- What the parts of the rules come back from, a transformation comes back from. -/
theorem transform (h : Rules.Level depth r r') :
    (node : Node) → Nesting.Level depth (r.transform node) (r'.transform node)
  | .anyOf items => by
    rw [Rules.transform, Rules.transform]
    exact .bind (transformAll h [] items) h.anyOf
  | .every items => by
    rw [Rules.transform, Rules.transform]
    exact .bind (transformAll h [] items) h.every
  | .boolean value => by
    rw [Rules.transform, Rules.transform]
    exact .pure _
  | .compare op lhs rhs => by
    rw [Rules.transform, Rules.transform]
    exact .bind (transform h lhs) fun lhs => .bind (transform h rhs) fun rhs => h.compare op lhs rhs
  | .identifier id => by
    rw [Rules.transform, Rules.transform]
    exact h.identifier id
  | .invert inner => by
    rw [Rules.transform, Rules.transform]
    exact .bind (transform h inner) h.invert
  | .invoke target args => by
    rw [Rules.transform, Rules.transform]
    refine .bind (h.intercept target args) fun taken => ?_
    cases taken with
    | some node => exact .pure node
    | none =>
      exact .bind (transform h target) fun target =>
        .bind (transformAll h [] args) fun args => h.invoke target args
  | .number value => by
    rw [Rules.transform, Rules.transform]
    exact .pure _
  | .string value => by
    rw [Rules.transform, Rules.transform]
    exact h.string value

theorem transformAll (h : Rules.Level depth r r') (done : List Node) :
    (nodes : List Node) →
      Nesting.Level depth (r.transformAll done nodes) (r'.transformAll done nodes)
  | [] => by
    rw [Rules.transformAll, Rules.transformAll]
    exact .pure _
  | node :: rest => by
    rw [Rules.transformAll, Rules.transformAll]
    exact .bind (transform h node) fun node => transformAll h (node :: done) rest

end

end Rules.Level

/-! ## Inlining -/

namespace Inline

/-- The rules where `left` more calls may nest. -/
def rules (scripts : Scripts) (limit : Nat) : Nat → Rules Transforming
  | 0 => { intercept := intercept scripts fun name _ => throw (.inlineDepth name limit) }
  | left + 1 =>
      { intercept := intercept scripts fun _ body => (rules scripts limit left).transform body }

variable {scripts : Scripts} {limit depth : Nat}

/-! ### Calls -/

section Calls

variable {expand : String → Node → Transforming Node} {target : Node} {args : List Node} {w : World}

/-- A name of another kind is the name of no scripted function. -/
theorem scriptOf?_of_kind_ne {symbols : SymbolTable} {id : SymbolId} {symbol : Symbol}
    (hget : symbols.get? id = some symbol) (hkind : symbol.kind ≠ .scriptedFunction) :
    scriptOf? scripts symbols (.identifier id) = none := by
  show (symbols.get? id).bind _ = none
  rw [hget]
  exact if_neg hkind

theorem read_symbols (w : World) :
    (liftM Transforming.symbols : Transforming SymbolTable) w = (.ok w.symbols, w) := rfl

/-- A call of no scripted function is left. -/
theorem intercept_of_none (h : scriptOf? scripts w.symbols target = none) :
    intercept scripts expand target args w = (.ok none, w) := by
  rw [intercept, bind_ok (read_symbols w), h]
  rfl

variable {name : String} {script : Script}

theorem intercept_of_some (h : scriptOf? scripts w.symbols target = some (name, script))
    (hlength : script.params.length = args.length) :
    intercept scripts expand target args w =
      (expand name (instantiate script args) >>= fun node => pure (some node)) w := by
  rw [intercept, bind_ok (read_symbols w), h]
  exact congrFun (if_pos hlength) w

theorem intercept_of_length_ne (h : scriptOf? scripts w.symbols target = some (name, script))
    (hlength : script.params.length ≠ args.length) :
    intercept scripts expand target args w =
      (.error (.arity name script.params.length args.length), w) := by
  rw [intercept, bind_ok (read_symbols w), h]
  exact congrFun (if_neg hlength) w

end Calls

/-! ### The counter -/

/-- At the limit no body is gone through. -/
theorem nest_limit (hdepth : limit ≤ depth) (name : String) (body : Nesting Node) :
    Nesting.Level depth (nest limit name body) (throw (.inlineDepth name limit)) := by
  intro w
  show (if limit ≤ depth then throw (.inlineDepth name limit) else _ : Nesting Node) depth w = _
  rw [if_pos hdepth]
  rfl

/-- The counter is lowered behind a body that has come back, also behind one that has failed. -/
theorem nest_level (hdepth : depth < limit) (name : String) {body : Nesting Node}
    {body' : Transforming Node} (h : Nesting.Level (depth + 1) body body') :
    Nesting.Level depth (nest limit name body) body' := by
  intro w
  show (if limit ≤ depth then throw (.inlineDepth name limit) else _ : Nesting Node) depth w = _
  rw [if_neg hdepth.not_ge]
  show (match body (depth + 1) w with | ((inlined, depth), w) => ((inlined, depth - 1), w)) = _
  rw [h w]
  rfl

theorem intercept_level {expand : String → Node → Nesting Node}
    {expand' : String → Node → Transforming Node}
    (h : ∀ name body, Nesting.Level depth (expand name body) (expand' name body))
    (target : Node) (args : List Node) :
    Nesting.Level depth (intercept scripts expand target args)
      (intercept scripts expand' target args) := by
  refine .bind (.lift Transforming.symbols) fun symbols => ?_
  rcases scriptOf? scripts symbols target with _ | ⟨name, script⟩
  · exact .pure none
  · dsimp only
    split
    · exact .bind (h name _) fun node => .pure (some node)
    · exact .throw _

/-- The counting rules at a depth are those where as many calls may nest as are left to the
limit. -/
theorem counting_level (scripts : Scripts) {left : Nat} (hleft : limit ≤ left + depth) :
    (counting scripts limit left).Level depth (rules scripts limit (limit - depth)) := by
  induction left generalizing depth with
  | zero =>
    have hlimit : limit ≤ depth := by omega
    rw [Nat.sub_eq_zero_of_le hlimit]
    exact { Rules.level_default depth with
      intercept := intercept_level fun name _ => nest_limit hlimit name _ }
  | succ left ih =>
    rcases Nat.lt_or_ge depth limit with hdepth | hlimit
    · obtain ⟨rest, hrest⟩ : ∃ rest, limit - depth = rest + 1 := ⟨limit - depth - 1, by omega⟩
      have hdeeper : limit - (depth + 1) = rest := by omega
      have hbody := @ih (depth + 1) (by omega)
      rw [hdeeper] at hbody
      rw [hrest]
      exact { Rules.level_default depth with
        intercept := intercept_level fun name body =>
          nest_level hdepth name (hbody.transform body) }
    · rw [Nat.sub_eq_zero_of_le hlimit]
      exact { Rules.level_default depth with
        intercept := intercept_level fun name _ => nest_limit hlimit name _ }

end Inline

/-! ## Passes -/

namespace Pass

/-- What the pass puts in place of nodes, from where its counter is. -/
def rules (pass : Pass) (scripts : Scripts) : Rules Transforming :=
  match pass with
  | .plain _ rules => rules scripts
  | .inline limit depth => Inline.rules scripts limit (limit - depth)

/-- A pass is left as it was, whether or not it succeeds. -/
theorem rewrite_eq (pass : Pass) (scripts : Scripts) (node : Node) (w : World) :
    pass.rewrite scripts node w =
      ((((pass.rules scripts).transform node w).1, pass),
        ((pass.rules scripts).transform node w).2) := by
  cases pass with
  | plain name rules => rfl
  | inline limit depth =>
    have hlevel : (Inline.counting scripts limit limit).transform node depth w =
        Nesting.lift ((Inline.rules scripts limit (limit - depth)).transform node) depth w :=
      (Inline.counting_level scripts (Nat.le_add_right limit depth)).transform node w
    rw [rewrite, hlevel]
    rfl

theorem apply_eq (pass : Pass) (scripts : Scripts) (node : Node) :
    pass.apply scripts node = (pass.rules scripts).transform node := by
  funext w
  rw [apply, rewrite_eq]
  rfl

end Pass

/-! ## Runs -/

namespace Pipeline

/-- Runs passes in order on the rule as it stands, unless there is a fault. -/
def runPasses (scripts : Scripts) (round : Nat) (r : PipelineRun) (w : World) :
    List Pass → PipelineRun × World
  | [] => (r, w)
  | pass :: rest =>
      match r.result with
      | .error _ => (r, w)
      | .ok node =>
          match (pass.rules scripts).transform node w with
          | (.ok node, w) =>
              runPasses scripts round ⟨⟨round, pass.name, node⟩ :: r.done, .ok node⟩ w rest
          | (.error e, w) => (⟨r.done, .error e⟩, w)

/-- Runs rounds from `round` on. -/
def runRounds (scripts : Scripts) (passes : List Pass) (round : Nat) (r : PipelineRun) (w : World) :
    Nat → PipelineRun × World
  | 0 => (r, w)
  | left + 1 =>
      match r.result with
      | .error _ => (r, w)
      | .ok _ =>
          let (r, w) := runPasses scripts round r w passes
          runRounds scripts passes (round + 1) r w left

/-- The passes of a round are left as they were. -/
theorem drivePasses_eq (scripts : Scripts) (round : Nat) (passes : List Pass) (r : PipelineRun)
    (w : World) :
    drivePasses scripts round r w passes =
      (((runPasses scripts round r w passes).1, passes),
        (runPasses scripts round r w passes).2) := by
  induction passes generalizing r w with
  | nil => rfl
  | cons pass rest ih =>
    rw [drivePasses, runPasses]
    rcases r.result with e | node
    · rfl
    · dsimp only
      rw [Pass.rewrite_eq]
      rcases (pass.rules scripts).transform node w with ⟨e | node', w'⟩
      · rfl
      · dsimp only
        rw [ih]

/-- The passes of rounds are left as they were. -/
theorem driveRounds_eq (scripts : Scripts) (passes : List Pass) (left round : Nat) (r : PipelineRun)
    (w : World) :
    driveRounds scripts passes round r w left =
      (((runRounds scripts passes round r w left).1, passes),
        (runRounds scripts passes round r w left).2) := by
  induction left generalizing round r w with
  | zero => rfl
  | succ left ih =>
    rw [driveRounds, runRounds]
    rcases r.result with e | node
    · rfl
    · dsimp only
      rw [drivePasses_eq]
      exact ih (round + 1) _ _

/-- A pipeline is left as it was, whatever rule it runs on and whether or not there is a fault. -/
theorem drive_eq (p : Pipeline) (scripts : Scripts) (node : Node) (w : World) :
    p.drive scripts node w = (((p.run scripts node w).1, p), (p.run scripts node w).2) := by
  rw [run, drive, driveRounds_eq]

theorem run_eq (p : Pipeline) (scripts : Scripts) (node : Node) (w : World) :
    p.run scripts node w = runRounds scripts p.passes 1 (.start node) w p.rounds := by
  rw [run, drive, driveRounds_eq]

end Pipeline

end Passage

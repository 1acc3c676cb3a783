import Passage.Pass.Basic

/-!
# Pipelines

A pipeline runs its passes over a whole rule, one after another, for a number of
rounds. A run keeps the tree behind every pass, up to the first fault, and it keeps
the passes, which go on with the next rule as this one has left them.
-/

namespace Passage

structure Pipeline where
  passes : List Pass
  rounds : Nat

/-- The tree behind a pass; rounds are counted from one. -/
structure PipelineStep where
  round : Nat
  pass : String
  node : Node
deriving Inhabited

/-- The steps of a run, last first, and the rule as it stands. -/
structure PipelineRun where
  done : List PipelineStep
  result : Except PassError Node

namespace PipelineRun

def start (node : Node) : PipelineRun := ⟨[], .ok node⟩

/-- The steps in order. -/
def steps (r : PipelineRun) : List PipelineStep := r.done.reverse

end PipelineRun

namespace Pipeline

def names (p : Pipeline) : List String := p.passes.map (·.name)

def size (p : Pipeline) : Nat := p.passes.length

/-- How a pipeline is shown. -/
def text (p : Pipeline) : String :=
  "Pipeline \x7b passes: [" ++ Text.separated ", " (p.names.map Text.quoteString) ++
    "], rounds: " ++ toString p.rounds ++ " \x7d"

/-- Runs passes in order on the rule as it stands, unless there is a fault, and keeps the passes
as they are left. -/
def drivePasses (scripts : Scripts) (round : Nat) (r : PipelineRun) (w : World) :
    List Pass → (PipelineRun × List Pass) × World
  | [] => ((r, []), w)
  | pass :: rest =>
      match r.result with
      | .error _ => ((r, pass :: rest), w)
      | .ok node =>
          match pass.rewrite scripts node w with
          | ((.ok node, pass), w) =>
              let done := ⟨round, pass.name, node⟩ :: r.done
              let outcome := drivePasses scripts round ⟨done, .ok node⟩ w rest
              ((outcome.1.1, pass :: outcome.1.2), outcome.2)
          | ((.error e, pass), w) => ((⟨r.done, .error e⟩, pass :: rest), w)

/-- Runs rounds from `round` on. -/
def driveRounds (scripts : Scripts) (passes : List Pass) (round : Nat) (r : PipelineRun)
    (w : World) : Nat → (PipelineRun × List Pass) × World
  | 0 => ((r, passes), w)
  | left + 1 =>
      match r.result with
      | .error _ => ((r, passes), w)
      | .ok _ =>
          let ((r, passes), w) := drivePasses scripts round r w passes
          driveRounds scripts passes (round + 1) r w left

/-- Runs all rounds on a rule, and keeps the pipeline as it is left. -/
def drive (p : Pipeline) (scripts : Scripts) (node : Node) (w : World) :
    (PipelineRun × Pipeline) × World :=
  let ((r, passes), w) := driveRounds scripts p.passes 1 (.start node) w p.rounds
  ((r, ⟨passes, p.rounds⟩), w)

/-- Runs all rounds on a rule. -/
def run (p : Pipeline) (scripts : Scripts) (node : Node) (w : World) : PipelineRun × World :=
  ((p.drive scripts node w).1.1, (p.drive scripts node w).2)

end Pipeline

end Passage

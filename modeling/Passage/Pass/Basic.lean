import Passage.Pass.Inline

/-!
# Passes

Most passes are just rules. The pass that expands calls of scripted functions also
has a state: how many such calls it is inside of. A pass is used again and again,
so rewriting a node returns the pass as it is left, whether or not it succeeds.
-/

namespace Passage

/-- A named pass, which may look up scripted functions. -/
inductive Pass where
  | plain (name : String) (rules : Scripts → Rules Transforming)
  /-- Expands calls of scripted functions, at most `limit` inside of each other, and is inside
  of `depth` of them. -/
  | inline (limit depth : Nat)

namespace Pass

def name : Pass → String
  | .plain name _ => name
  | .inline _ _ => "inline"

/-- How many calls of scripted functions the pass is inside of. -/
def depth : Pass → Nat
  | .plain _ _ => 0
  | .inline _ depth => depth

/-- What becomes of a node, and of the pass and the world. -/
def rewrite (pass : Pass) (scripts : Scripts) (node : Node) (w : World) :
    (Except PassError Node × Pass) × World :=
  match pass with
  | .plain name rules =>
      let outcome := (rules scripts).transform node w
      ((outcome.1, .plain name rules), outcome.2)
  | .inline limit depth =>
      let outcome := (Inline.counting scripts limit limit).transform node depth w
      ((outcome.1.1, .inline limit outcome.1.2), outcome.2)

/-- What the pass makes of a node, whatever becomes of the pass. -/
def apply (pass : Pass) (scripts : Scripts) (node : Node) : Transforming Node := fun w =>
  ((pass.rewrite scripts node w).1.1, (pass.rewrite scripts node w).2)

/-- The pass that only rebuilds. -/
def rebuild : Pass := .plain "identity" fun _ => {}

/-- Expands calls of scripted functions, nested at most `limit` deep. -/
def inlineCalls (limit : Nat) : Pass := .inline limit 0

end Pass

end Passage

import Passage.Node.Substitution
import Passage.Pass.Rules
import Passage.World.Script

/-!
# Inlining

A call of a scripted function is replaced by the body of the function, with the
arguments in place of the parameters. The result is transformed in its turn, down
to a limit on the nesting of calls. A counter says how many calls the pass is
inside of: it is raised before a body is gone through, and lowered behind it.
-/

namespace Passage

/-- A step of a pass that counts the calls it is inside of. World and counter are kept if the
step fails. -/
abbrev Nesting := ExceptT PassError (StateT Nat (StateM World))

/-- A step that leaves the counter alone. -/
def Nesting.lift {α : Type} (step : Transforming α) : Nesting α := fun depth w =>
  (((step w).1, depth), (step w).2)

instance : MonadLift Transforming Nesting := ⟨Nesting.lift⟩

namespace Inline

/-- The function of a call by its name, if it is scripted. -/
def scriptOf? (scripts : Scripts) (symbols : SymbolTable) (target : Node) :
    Option (String × Script) := do
  let id ← target.identifier?
  let symbol ← symbols.get? id
  if symbol.kind = .scriptedFunction then
    let script ← scripts.get? symbol.name
    pure (symbol.name, script)
  else none

/-- The body of a function with arguments for its parameters. -/
def instantiate (script : Script) (args : List Node) : Node :=
  script.body.substitute (Node.scopeOf script.params args)

/-- Takes a call of a scripted function, whose body `expand` goes on with. -/
def intercept {m : Type → Type} [Monad m] [MonadLiftT Transforming m] [MonadExceptOf PassError m]
    (scripts : Scripts) (expand : String → Node → m Node) (target : Node) (args : List Node) :
    m (Option Node) := do
  match scriptOf? scripts (← Transforming.symbols) target with
  | none => pure none
  | some (name, script) =>
      if script.params.length = args.length then
        let node ← expand name (instantiate script args)
        pure (some node)
      else throw (.arity name script.params.length args.length)

/-- Goes through the body of a function, one call deeper, unless the limit is reached. The
counter is lowered again whether or not that succeeds. -/
def nest (limit : Nat) (name : String) (body : Nesting Node) : Nesting Node := do
  if limit ≤ (← getThe Nat) then throw (.inlineDepth name limit)
  else (do
    modify (· + 1)
    let inlined ← body
    modify (· - 1)
    pure inlined : StateT Nat (StateM World) (Except PassError Node))

/-- The rules of the pass. At most `left` bodies are gone through inside of each other: since
the counter is raised for each of them, the limit is reached before there are more. -/
def counting (scripts : Scripts) (limit : Nat) : Nat → Rules Nesting
  | 0 =>
      { intercept := intercept scripts fun name _ =>
          nest limit name (throw (.inlineDepth name limit)) }
  | left + 1 =>
      { intercept := intercept scripts fun name body =>
          nest limit name ((counting scripts limit left).transform body) }

end Inline

end Passage

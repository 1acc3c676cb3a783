import Passage.Node.Hash
import Passage.Pass.Item

/-!
# Rules about regions

`at(region, rule)` asks whether `rule` can be met in a region, and `here(rule)`
whether in the region whose rules are compiled. The call becomes the question
for a hidden token, and a connection to that token is recorded. Region and hash
of the rule make up the name of the token, so one rule in one region is
recorded once.
-/

namespace Passage

namespace Elsewhere

def atName : String := "at"

def hereName : String := "here"

def tokenName (origin : String) (digest : UInt64) : String :=
  "Token#" ++ origin ++ "#" ++ Text.hexPadded 16 digest.toNat

def placeName (origin : String) (digest : UInt64) : String :=
  "Place#" ++ origin ++ "#" ++ Text.hexPadded 16 digest.toNat

/-- The pointer of a token. -/
def tokenPointer (token : SymbolId) : Object := .ofPointer ⟨.token, UInt32.ofNat token⟩

/-- The question for the hidden token behind a rule in a region. -/
def generate (origin : String) (rule : Node) : Transforming Node := do
  let has ← Transforming.declare Lowering.hasName .function
  let _ ← Transforming.declare origin .region
  let digest := rule.hash
  let destination := tokenName origin digest
  match (← Transforming.symbols).lookup? destination with
  | some token => pure (.has has token.id Item.one)
  | none =>
      let token ← Transforming.declare destination .token
      let _ ← Transforming.associate token (tokenPointer token)
      Transforming.record origin destination (placeName origin digest) rule
      pure (.has has token Item.one)

def inRegion : List Node → Transforming Node
  | [.string origin, rule] => generate origin rule
  | [_, _] => throw (.malformed atName "expected first argument to 'at' to be string")
  | args =>
      throw (.malformed atName ("expected 2 args for at, received " ++ toString args.length))

def inCurrentRegion : List Node → Transforming Node
  | [rule] => do
      match ← Transforming.region with
      | some origin => generate origin rule
      | none => throw .noCurrentRegion
  | args =>
      throw (.malformed hereName ("expected 1 arg for here, received " ++ toString args.length))

/-- Takes calls of `at` and `here`. -/
def intercept (target : Node) (args : List Node) : Transforming (Option Node) := do
  let name := target.identifier?.bind (← Transforming.symbols).nameOf?
  if name = some atName then
    let node ← inRegion args
    pure (some node)
  else if name = some hereName then
    let node ← inCurrentRegion args
    pure (some node)
  else pure none

end Elsewhere

/-- Replaces rules about regions by questions for hidden tokens. -/
def Pass.connections : Pass :=
  .plain "connections" fun _ => { intercept := Elsewhere.intercept }

end Passage

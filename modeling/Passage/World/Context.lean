import Passage.Node.Basic

/-!
# Generated connections

A rule about another region becomes a connection: a hidden token, which lies in
that region behind the rule. Connections wait in the context until they are
taken, all at once; each taking begins a new generation. Generations are numbered
with 32 bits, and the numbers begin anew behind the last one.
-/

namespace Passage

/-- A generation goes for its number. -/
instance coeGeneration : CoeOut UInt32 Nat := ⟨UInt32.toNat⟩

/-- A hidden token in a region, and the rule it is reached by. -/
structure Connection where
  /-- The region that the connection leaves from. -/
  origin : String
  /-- The name of the token. -/
  destination : String
  /-- The name of the place that holds the token. -/
  placement : String
  rule : Node
  /-- The generation in which the connection was recorded. -/
  generation : UInt32
deriving Inhabited

/-- What the passes over rules share beyond symbols and objects: the region
whose rules are compiled, and the connections that wait. -/
structure Context where
  region : Option String
  generation : UInt32
  pending : Array Connection
deriving Inhabited

/-- How far a context had come. -/
structure Context.Checkpoint where
  generation : UInt32
  pending : Nat
deriving DecidableEq, Inhabited

namespace Context

def empty : Context := ⟨none, 0, #[]⟩

/-- Adds a connection to those that wait. -/
def record (c : Context) (origin destination placement : String) (rule : Node) : Context :=
  { c with pending := c.pending.push ⟨origin, destination, placement, rule, c.generation⟩ }

/-- The connections that wait, and the context without them. -/
def take (c : Context) : Array Connection × Context :=
  (c.pending, { c with generation := c.generation + 1, pending := #[] })

def checkpoint (c : Context) : Checkpoint := ⟨c.generation, c.pending.size⟩

/-- Drops the connections behind those of the checkpoint, if the generation is still that of
the checkpoint. -/
def rollback (c : Context) (mark : Checkpoint) : Context :=
  if c.generation = mark.generation then { c with pending := c.pending.take mark.pending } else c

end Context

end Passage

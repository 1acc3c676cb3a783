import Passage.Machine.Fault

/-!
# Events of a run

What happens in a run is a list of events, in order. Everything that observes a
run is a function of that list.
-/

namespace Passage

inductive Event where
  /-- An opcode was dispatched, on a stack of the given depth. -/
  | instruction (offset : Nat) (op : Opcode) (depth : Nat)
  /-- A built-in function was about to be called. -/
  | call (name : String) (count : Nat)
  /-- The quantity check answered. -/
  | quantity (item : Object) (quantity : UInt8) (held : Bool)
  /-- The run failed otherwise than by a panic of the host. -/
  | fault (offset : Nat) (fault : RunFault)
deriving DecidableEq

end Passage

import Passage.Object.Table
import Passage.Text.Quoted

/-!
# Host functions

The machine asks its host for the answers of built-in functions and for whether
a quantity of an item is held. A host function may answer, refuse with a
message, or panic with a payload that is a text or something else.
-/

namespace Passage

inductive HostFault where
  | refused (message : String)
  | panicked (payload : Option String)
deriving DecidableEq

abbrev HostFunction := ObjectTable → List Object → Except HostFault Object

abbrev QuantityCheck := ObjectTable → Object → UInt8 → Except HostFault Object

/-- Host functions by name, each name once. -/
structure Host where
  functions : List (String × HostFunction)

namespace Host

def empty : Host := ⟨[]⟩

def find? (h : Host) (name : String) : Option HostFunction := h.functions.lookup name

/-- The host without a function. -/
def erase (h : Host) (name : String) : Host :=
  ⟨h.functions.filter fun entry => entry.1 != name⟩

/-- Registers a function in place of an earlier one of that name. -/
def register (h : Host) (name : String) (function : HostFunction) : Host :=
  ⟨(name, function) :: (h.erase name).functions⟩

def size (h : Host) : Nat := h.functions.length

/-- How a host is shown: its names in order. -/
def text (h : Host) : String :=
  let names := (h.functions.map (·.1)).mergeSort fun a b => decide (a ≤ b)
  "BuiltIns \x7b names: [" ++ Text.separated ", " (names.map Text.quoteString) ++ "] \x7d"

end Host

end Passage

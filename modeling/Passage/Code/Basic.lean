import Passage.Code.Tape

/-!
# Compiled rules
-/

namespace Passage

/-- A compiled rule: its tape, the table entries that the tape refers to in
ascending order, the names of those that are pointers of symbols, and the
deepest operand stack that running it can reach. -/
structure Code where
  tape : ByteArray
  consts : List UInt16
  names : List (UInt16 × String)
  maxStack : UInt16
deriving Inhabited

/-- Codes are compared part by part, and tapes byte by byte. -/
instance : DecidableEq Code := fun s t =>
  decidable_of_iff
    (s.tape.data = t.tape.data ∧ s.consts = t.consts ∧ s.names = t.names ∧
      s.maxStack = t.maxStack) (by
      cases s; cases t; simp [ByteArray.ext_iff])

namespace Code

def empty : Code := ⟨ByteArray.empty, [], [], 0⟩

/-- Records a name; an index that has one keeps its place. -/
def putName (index : UInt16) (name : String) : List (UInt16 × String) → List (UInt16 × String)
  | [] => [(index, name)]
  | entry :: rest =>
      if entry.1 = index then (index, name) :: rest
      else entry :: putName index name rest

end Code

end Passage

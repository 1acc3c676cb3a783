/-!
# Signatures of built-in functions
-/

namespace Passage

/-- The name of a built-in function and its parameter count; a negative count
accepts any number of arguments. -/
structure Signature where
  name : String
  params : Int
deriving DecidableEq, Inhabited

namespace Signature

/-- The parameter count of a function that accepts any number of arguments. -/
def anyCount : Int := -1

def isVariadic (s : Signature) : Bool := s.params < 0

/-- Whether a call with `count` arguments fits. -/
def accepts (s : Signature) (count : Nat) : Bool :=
  s.isVariadic || s.params == count

end Signature

end Passage

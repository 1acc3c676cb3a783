/-!
# Diagnostics

A fault is reported by a code, which programs may match on, and a message for
people. The code of a fault that carries another one is a path: its own code, a
dot, and the code of the other.
-/

namespace Passage

class Diagnostic (ε : Type) where
  code : ε → String
  message : ε → String

end Passage

import Passage.Fnv
import Passage.Node.Basic
import Passage.Number.Notation

/-!
# The hash of a node

A node is written as bytes: its tag, what it counts, its own payload, then its
children in order. The hash is taken of these bytes.
-/

namespace Passage.Node

/-- A text as bytes behind `out`. -/
def appendText (out : ByteArray) (text : String) : ByteArray :=
  out ++ text.toUTF8

mutual

/-- The bytes of a node behind `out`. -/
def appendBytes (out : ByteArray) (node : Node) : ByteArray :=
  match node with
  | .anyOf items =>
      appendAllBytes (appendText (appendText out "anyof") (toString items.length)) items
  | .every items =>
      appendAllBytes (appendText (appendText out "every") (toString items.length)) items
  | .boolean value => appendText (appendText out "bool") (if value then "true" else "false")
  | .compare op lhs rhs =>
      appendBytes (appendBytes (appendText (appendText out "compare") (toString op.code)) lhs) rhs
  | .identifier id => appendText (appendText out "identifier") (Text.hex id)
  | .invert inner => appendBytes (appendText out "invert") inner
  | .invoke target args =>
      appendAllBytes
        (appendText (appendBytes (appendText out "invoke") target) (toString args.length)) args
  | .number value => appendText (appendText out "number") (value.fixedText 6)
  | .string value => appendText (appendText out "string") value

def appendAllBytes (out : ByteArray) (nodes : List Node) : ByteArray :=
  match nodes with
  | [] => out
  | node :: rest => appendAllBytes (appendBytes out node) rest

end

/-- The bytes that a node is hashed by. -/
def bytes (node : Node) : ByteArray :=
  node.appendBytes ByteArray.empty

def hash (node : Node) : UInt64 :=
  Fnv.hash node.bytes

end Passage.Node

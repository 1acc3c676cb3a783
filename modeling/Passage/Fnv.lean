/-!
# FNV-1

The 64-bit FNV-1 hash of a byte sequence: each byte multiplies the state by the
prime and is then mixed in by exclusive or.
-/

namespace Passage.Fnv

def basis : UInt64 := 0xcbf29ce484222325

def prime : UInt64 := 0x100000001b3

/-- One byte mixed into the state. -/
def step (state : UInt64) (byte : UInt8) : UInt64 :=
  (state * prime) ^^^ byte.toUInt64

/-- The bytes mixed into the state, first byte first. -/
def mix (state : UInt64) (bytes : ByteArray) : UInt64 :=
  bytes.foldl step state

/-- The hash of a byte sequence. -/
def hash (bytes : ByteArray) : UInt64 := mix basis bytes

end Passage.Fnv

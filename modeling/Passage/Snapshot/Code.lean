import Passage.Code.Basic
import Passage.Snapshot.Varint

/-!
# Snapshots of compiled rules
-/

namespace Passage.Code

open Snapshot

def dumpIndex (index : UInt16) : List UInt8 := varint index.toNat

def loadIndex : Decoder UInt16 := fun bytes => do
  let (n, bytes) ← nat16 bytes
  pure (UInt16.ofNat n, bytes)

def dumpName (entry : UInt16 × String) : List UInt8 := dumpIndex entry.1 ++ textBytes entry.2

def loadName : Decoder (UInt16 × String) := fun bytes => do
  let (index, bytes) ← loadIndex bytes
  let (name, bytes) ← text bytes
  pure ((index, name), bytes)

/-- The bytes of a rule: tape, constants, names, stack depth. -/
def dump (code : Code) : List UInt8 :=
  (varint code.tape.size ++ code.tape.data.toList) ++
    sequenceBytes dumpIndex code.consts ++
    sequenceBytes dumpName code.names ++
    dumpIndex code.maxStack

/-- Reads a rule from the front of the bytes. An index that is named twice keeps
its first place and its last name. -/
def decoder : Decoder Code := fun bytes => do
  let (length, bytes) ← nat64 bytes
  let (tape, bytes) ← take length bytes
  let (consts, bytes) ← sequence loadIndex bytes
  let (names, bytes) ← sequence loadName bytes
  let (maxStack, bytes) ← loadIndex bytes
  let names := names.foldl (fun known (index, name) => putName index name known) []
  pure (⟨⟨tape.toArray⟩, consts, names, maxStack⟩, bytes)

/-- The rule at the front of the bytes; what follows it is ignored. -/
def load (bytes : List UInt8) : Except SnapshotError Code :=
  (decoder bytes).map (·.1)

end Passage.Code

import Passage.Object.Table
import Passage.Snapshot.Varint

/-!
# Snapshots of object tables
-/

namespace Passage

open Snapshot

namespace Signature

def dump (s : Signature) : List UInt8 := textBytes s.name ++ varint (zigzag s.params)

def load : Decoder Signature := fun bytes => do
  let (name, bytes) ← text bytes
  let (params, bytes) ← nat32 bytes
  pure (⟨name, unzigzag params⟩, bytes)

end Signature

namespace ObjectTable

def dumpObject (o : Object) : List UInt8 := varint o.bits.toNat

def loadObject : Decoder Object := fun bytes => do
  let (n, bytes) ← nat64 bytes
  pure (⟨UInt64.ofNat n⟩, bytes)

def dumpBuiltIn (entry : Object × Signature) : List UInt8 := dumpObject entry.1 ++ entry.2.dump

def loadBuiltIn : Decoder (Object × Signature) := fun bytes => do
  let (pointer, bytes) ← loadObject bytes
  let (signature, bytes) ← Signature.load bytes
  pure ((pointer, signature), bytes)

/-- The bytes of a table: its values, its arena, its built-in functions. -/
def dump (t : ObjectTable) : List UInt8 :=
  sequenceBytes dumpObject t.values.toList ++
    (varint t.strings.size ++ t.strings.data.toList) ++
    sequenceBytes dumpBuiltIn t.builtIns

/-- Reads a table from the front of the bytes. -/
def decoder : Decoder ObjectTable := fun bytes => do
  let (values, bytes) ← sequence loadObject bytes
  let (strings, bytes) ← text bytes
  let (builtIns, bytes) ← sequence loadBuiltIn bytes
  pure (⟨values.toArray, strings.toUTF8, builtIns⟩, bytes)

/-- The table at the front of the bytes; what follows it is ignored. -/
def load (bytes : List UInt8) : Except SnapshotError ObjectTable :=
  (decoder bytes).map (·.1)

end ObjectTable

end Passage

import Std.Data.ExtTreeMap
import Passage.Object.Table
import Passage.Symbol.Table

/-!
# The object pool

While rules are compiled, the pool collects what their code refers to. A number
or string is entered once and found again; a symbol has at most one pointer, and
a built-in function a signature beside it. Indices have sixteen bits.

Every operation returns the pool it leaves. `rollback` drops the entries from a
checkpoint on, and with them whatever was recorded for their indices.
-/

namespace Passage

/-- A position in the pool. -/
abbrev ObjectIndex := Nat

def ObjectIndex.label (index : ObjectIndex) : String := Text.hexWord 4 index

inductive PoolError where
  | tableFull
  | stringTooLong (length : Nat)
  | arenaFull
  | pointerMoved (symbol : SymbolId) (existing attempted : Object)
  | nullDereference (symbol : SymbolId)
  | missingDefinition (symbol : SymbolId)
  | object (error : ObjectError)
deriving DecidableEq

structure ObjectPool where
  values : Array Object
  strings : ByteArray
  numbers : Std.ExtTreeMap UInt64 ObjectIndex
  texts : Std.ExtTreeMap String ObjectIndex
  pointers : Std.ExtTreeMap SymbolId ObjectIndex
  /-- Signatures in the order in which their symbols were first defined. -/
  definitions : List (SymbolId × Signature)

/-- How far a pool had grown. -/
structure ObjectPool.Checkpoint where
  values : Nat
  strings : Nat
deriving DecidableEq, Inhabited

namespace ObjectPool

def empty : ObjectPool := ⟨#[], ByteArray.empty, ∅, ∅, ∅, []⟩

instance : Inhabited ObjectPool := ⟨empty⟩

/-- The number of entries that sixteen bits can tell apart. -/
def capacity : Nat := 65536

/-- The longest string in bytes. -/
def longestString : Nat := 65535

/-- What the offsets of the arena can reach. -/
def arenaCapacity : Nat := 0x1_0000_0000

def size (p : ObjectPool) : Nat := p.values.size

def get? (p : ObjectPool) (index : ObjectIndex) : Option Object := p.values[index]?

/-- Enters an object at the next index. -/
def push (p : ObjectPool) (o : Object) : Except PoolError ObjectIndex × ObjectPool :=
  if p.values.size < capacity then
    (.ok p.values.size, { p with values := p.values.push o })
  else (.error .tableFull, p)

/-- The index of a number, which is entered if it is new. -/
def internNumber (p : ObjectPool) (x : Number) : Except PoolError ObjectIndex × ObjectPool :=
  match Object.ofNumber x with
  | .error e => (.error (.object e), p)
  | .ok o =>
      match p.numbers[x.bits]? with
      | some index => (.ok index, p)
      | none =>
          match p.push o with
          | (.error e, p) => (.error e, p)
          | (.ok index, p) => (.ok index, { p with numbers := p.numbers.insert x.bits index })

/-- The index of a string, which is entered if it is new. -/
def internString (p : ObjectPool) (s : String) : Except PoolError ObjectIndex × ObjectPool :=
  match p.texts[s]? with
  | some index => (.ok index, p)
  | none =>
      let length := s.utf8ByteSize
      let offset := p.strings.size
      if longestString < length then (.error (.stringTooLong length), p)
      else if arenaCapacity ≤ offset + length then (.error .arenaFull, p)
      else
        match p.push (.ofString ⟨UInt32.ofNat offset, UInt16.ofNat length⟩) with
        | (.error e, p) => (.error e, p)
        | (.ok index, p) =>
            (.ok index,
              { p with strings := p.strings ++ s.toUTF8, texts := p.texts.insert s index })

/-- The index of a symbol's pointer, which must not differ from an earlier one. -/
def associate (p : ObjectPool) (symbol : SymbolId) (pointer : Object) :
    Except PoolError ObjectIndex × ObjectPool :=
  match p.pointers[symbol]? with
  | some index =>
      let existing := (p.get? index).getD .null
      if existing = pointer then (.ok index, p)
      else (.error (.pointerMoved symbol existing pointer), p)
  | none =>
      match p.push pointer with
      | (.error e, p) => (.error e, p)
      | (.ok index, p) => (.ok index, { p with pointers := p.pointers.insert symbol index })

def hasPointer (p : ObjectPool) (symbol : SymbolId) : Bool := p.pointers[symbol]?.isSome

def pointerFor (p : ObjectPool) (symbol : SymbolId) : Except PoolError ObjectIndex :=
  match p.pointers[symbol]? with
  | some index => .ok index
  | none => .error (.nullDereference symbol)

/-- Records a signature; a symbol that has one keeps its place. -/
def putDefinition (symbol : SymbolId) (signature : Signature) :
    List (SymbolId × Signature) → List (SymbolId × Signature)
  | [] => [(symbol, signature)]
  | entry :: rest =>
      if entry.1 = symbol then (symbol, signature) :: rest
      else entry :: putDefinition symbol signature rest

/-- Gives a symbol its pointer and its signature. -/
def define (p : ObjectPool) (symbol : SymbolId) (pointer : Object) (signature : Signature) :
    Except PoolError ObjectIndex × ObjectPool :=
  match p.associate symbol pointer with
  | (.error e, p) => (.error e, p)
  | (.ok index, p) =>
      (.ok index, { p with definitions := putDefinition symbol signature p.definitions })

def definitionOf (p : ObjectPool) (symbol : SymbolId) : Except PoolError Signature :=
  match p.definitions.lookup symbol with
  | some signature => .ok signature
  | none => .error (.missingDefinition symbol)

def checkpoint (p : ObjectPool) : Checkpoint := ⟨p.values.size, p.strings.size⟩

/-- Drops the entries beyond the checkpoint. The text is cut at whatever byte the checkpoint has,
also inside of a character, where cutting a string would stop. Only a checkpoint that the pool has
been rolled back behind can have such a byte. -/
def rollback (p : ObjectPool) (mark : Checkpoint) : ObjectPool :=
  let pointers := p.pointers.filter fun _ index => index < mark.values
  { values := p.values.take mark.values
    strings := p.strings.extract 0 mark.strings
    numbers := p.numbers.filter fun _ index => index < mark.values
    texts := p.texts.filter fun _ index => index < mark.values
    pointers := pointers
    definitions := p.definitions.filter fun entry => pointers[entry.1]?.isSome }

/-- The table of all entries, with the signatures whose symbols have pointers. -/
def freeze (p : ObjectPool) : ObjectTable :=
  { values := p.values
    strings := p.strings
    builtIns := p.definitions.filterMap fun (symbol, signature) => do
      let index ← p.pointers[symbol]?
      let pointer ← p.get? index
      pure (pointer, signature) }

end ObjectPool

def PoolError.message : PoolError → String
  | .tableFull => "object table is full (" ++ toString ObjectPool.capacity ++ " entries)"
  | .stringTooLong length =>
      "string of " ++ toString length ++ " bytes exceeds " ++
        toString ObjectPool.longestString ++ " bytes"
  | .arenaFull => "string arena is full"
  | .pointerMoved symbol existing attempted =>
      "ptr moved for " ++ SymbolId.label symbol ++ ": " ++ existing.text ++ " -> " ++ attempted.text
  | .nullDereference symbol =>
      "compile time dereference of null pointer " ++ SymbolId.label symbol
  | .missingDefinition symbol => SymbolId.label symbol ++ " does not have a mapped definition"
  | .object error => error.message

def PoolError.code : PoolError → String
  | .tableFull => "TableFull"
  | .stringTooLong .. => "StringTooLong"
  | .arenaFull => "ArenaFull"
  | .pointerMoved .. => "PointerMoved"
  | .nullDereference .. => "NullDereference"
  | .missingDefinition .. => "MissingDefinition"
  | .object error => "Object." ++ error.code

instance : Diagnostic PoolError := ⟨PoolError.code, PoolError.message⟩

end Passage

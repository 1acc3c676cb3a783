import Passage.Json.Numeral
import Passage.Text.Bytes

/-!
# JSON texts

`Document.read?` accepts exactly the grammar of JSON. What a reader may still
refuse is kept in the document: a string with an unpaired surrogate has no
text, and a numeral may be out of range. `isSound` says that nothing of the
kind occurs and that the nesting is within the limit for values.
-/

namespace Passage.Json

inductive Document where
  | null
  | bool (value : Bool)
  | number (value : Numeral)
  /-- The text is missing if the string holds an unpaired surrogate. -/
  | string (text : Option String)
  | array (items : List Document)
  | object (entries : List (Option String × Document))
deriving Inhabited

/-! ## Strings -/

/-- A character of a string, or a 16-bit unit given by number. -/
inductive Piece where
  | char (c : Char)
  | unit (n : Nat)

def unit? (a b c d : Char) : Option Nat := do
  let a ← Text.hexDigit? a
  let b ← Text.hexDigit? b
  let c ← Text.hexDigit? c
  let d ← Text.hexDigit? d
  pure (((a * 16 + b) * 16 + c) * 16 + d)

/-- The character that a letter behind a backslash stands for. -/
def unescape? : Char → Option Char
  | '"' => some '"'
  | '\\' => some '\\'
  | '/' => some '/'
  | 'b' => some '\x08'
  | 'f' => some '\x0c'
  | 'n' => some '\n'
  | 'r' => some '\r'
  | 't' => some '\t'
  | _ => none

/-- The pieces of a string up to its closing quote, and what follows. -/
def pieces? : List Char → Option (List Piece × List Char)
  | [] => none
  | '"' :: cs => some ([], cs)
  | '\\' :: 'u' :: a :: b :: c :: d :: cs => do
      let n ← unit? a b c d
      let (ps, rest) ← pieces? cs
      pure (.unit n :: ps, rest)
  | '\\' :: e :: cs => do
      let c ← unescape? e
      let (ps, rest) ← pieces? cs
      pure (.char c :: ps, rest)
  | c :: cs => do
      if c.toNat < 0x20 then none
      let (ps, rest) ← pieces? cs
      pure (.char c :: ps, rest)

/-- The characters of a string whose surrogates are all paired. -/
def join? : List Piece → Option (List Char)
  | [] => some []
  | .char c :: ps => (join? ps).map (c :: ·)
  | .unit high :: .unit low :: ps =>
      if 0xD800 ≤ high ∧ high < 0xDC00 then
        if 0xDC00 ≤ low ∧ low < 0xE000 then
          (join? ps).map (Char.ofNat (0x10000 + (high - 0xD800) * 0x400 + (low - 0xDC00)) :: ·)
        else none
      else if 0xDC00 ≤ high ∧ high < 0xE000 then none
      else (join? (.unit low :: ps)).map (Char.ofNat high :: ·)
  | .unit n :: ps =>
      if 0xD800 ≤ n ∧ n < 0xE000 then none
      else (join? ps).map (Char.ofNat n :: ·)

def string? (cs : List Char) : Option (Option String × List Char) := do
  let (ps, rest) ← pieces? cs
  pure ((join? ps).map String.ofList, rest)

/-! ## Numerals -/

def digits (cs : List Char) : List Nat :=
  (cs.takeWhile Char.isDigit).map fun c => c.toNat - 48

/-- One digit or more, and what follows. -/
def digits? (cs : List Char) : Option (List Nat × List Char) :=
  match digits cs with
  | [] => none
  | ds => some (ds, cs.dropWhile Char.isDigit)

/-- Whole digits, of which a zero may only stand alone. -/
def whole? (cs : List Char) : Option (List Nat × List Char) := do
  let (ds, rest) ← digits? cs
  if ds.head? = some 0 && ds.length > 1 then none else pure (ds, rest)

def fraction? : List Char → Option (Option (List Nat) × List Char)
  | '.' :: cs => do
      let (ds, rest) ← digits? cs
      pure (some ds, rest)
  | cs => some (none, cs)

def exponent? (cs : List Char) : Option (Option (Bool × List Nat) × List Char) :=
  match cs with
  | [] => some (none, [])
  | c :: cs' =>
      if c == 'e' || c == 'E' then
        match cs' with
        | '-' :: r => (digits? r).map fun (ds, rest) => (some (true, ds), rest)
        | '+' :: r => (digits? r).map fun (ds, rest) => (some (false, ds), rest)
        | r => (digits? r).map fun (ds, rest) => (some (false, ds), rest)
      else some (none, cs)

def numeral? (cs : List Char) : Option (Numeral × List Char) := do
  let (negative, cs) := match cs with
    | '-' :: r => (true, r)
    | r => (false, r)
  let (whole, cs) ← whole? cs
  let (fraction, cs) ← fraction? cs
  let (power, cs) ← exponent? cs
  pure (⟨negative, whole, fraction, power⟩, cs)

/-! ## Documents -/

def isBlank (c : Char) : Bool :=
  c == ' ' || c == '\t' || c == '\n' || c == '\r'

def skipBlanks (cs : List Char) : List Char :=
  cs.dropWhile isBlank

mutual

/-- A value, and what follows. The bound counts the recursion. -/
def value? : Nat → List Char → Option (Document × List Char)
  | 0, _ => none
  | fuel + 1, cs =>
      match skipBlanks cs with
      | 'n' :: 'u' :: 'l' :: 'l' :: rest => some (.null, rest)
      | 't' :: 'r' :: 'u' :: 'e' :: rest => some (.bool true, rest)
      | 'f' :: 'a' :: 'l' :: 's' :: 'e' :: rest => some (.bool false, rest)
      | '"' :: r => (string? r).map fun (s, rest) => (.string s, rest)
      | '[' :: r =>
          match skipBlanks r with
          | ']' :: rest => some (.array [], rest)
          | r' => (items? fuel r').map fun (items, rest) => (.array items, rest)
      | '{' :: r =>
          match skipBlanks r with
          | '}' :: rest => some (.object [], rest)
          | r' => (entries? fuel r').map fun (entries, rest) => (.object entries, rest)
      | r => (numeral? r).map fun (n, rest) => (.number n, rest)

/-- The items of an array that is not empty, through its closing bracket. -/
def items? : Nat → List Char → Option (List Document × List Char)
  | 0, _ => none
  | fuel + 1, cs => do
      let (item, r) ← value? fuel cs
      match skipBlanks r with
      | ']' :: rest => pure ([item], rest)
      | ',' :: r' =>
          let (items, rest) ← items? fuel r'
          pure (item :: items, rest)
      | _ => none

/-- The entries of an object that is not empty, through its closing brace. -/
def entries? : Nat → List Char → Option (List (Option String × Document) × List Char)
  | 0, _ => none
  | fuel + 1, cs =>
      match skipBlanks cs with
      | '"' :: r => do
          let (key, r) ← string? r
          match skipBlanks r with
          | ':' :: r' =>
              let (value, r) ← value? fuel r'
              match skipBlanks r with
              | '}' :: rest => pure ([(key, value)], rest)
              | ',' :: r'' =>
                  let (entries, rest) ← entries? fuel r''
                  pure ((key, value) :: entries, rest)
              | _ => none
          | _ => none
      | _ => none

end

namespace Document

/-! ## Parts -/

def text? : Document → Option String
  | .string text => text
  | _ => none

def natural? : Document → Option Nat
  | .number numeral => numeral.natural?
  | _ => none

def integer? : Document → Option Int
  | .number numeral => numeral.integer?
  | _ => none

def number? : Document → Option Number
  | .number numeral => numeral.number?
  | _ => none

def boolean? : Document → Option Bool
  | .bool value => some value
  | _ => none

def items? : Document → Option (List Document)
  | .array items => some items
  | _ => none

/-- The entries of an object whose keys are all texts. -/
def entries? : Document → Option (List (String × Document))
  | .object entries => entries.mapM fun (key, value) => key.map (·, value)
  | _ => none

/-- The last value under a key of an object. -/
def find? (document : Document) (key : String) : Option Document :=
  match document with
  | .object entries => (entries.reverse.find? fun entry => entry.1 == some key).map (·.2)
  | _ => none

/-! ## Reading -/

/-- The document of a JSON text, around which only blanks may stand. -/
def read? (text : String) : Option Document := do
  let cs := text.toList
  let (document, rest) ← value? (2 * cs.length + 2) cs
  if (skipBlanks rest).isEmpty then pure document else none

mutual

/-- Whether the value nests at most `limit` arrays and objects, and every string
and numeral in it has a value. -/
def isSound (limit : Nat) : Document → Bool
  | .null | .bool _ => true
  | .number n => n.number?.isSome
  | .string s => s.isSome
  | .array items =>
      match limit with
      | 0 => false
      | below + 1 => areSound below items
  | .object entries =>
      match limit with
      | 0 => false
      | below + 1 => entriesSound below entries

def areSound (limit : Nat) : List Document → Bool
  | [] => true
  | d :: ds => isSound limit d && areSound limit ds

def entriesSound (limit : Nat) : List (Option String × Document) → Bool
  | [] => true
  | (key, d) :: rest => key.isSome && isSound limit d && entriesSound limit rest

end

end Document

end Passage.Json

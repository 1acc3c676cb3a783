import Passage.Object.Table
import Passage.Rule.Lexer

/-!
# Scanning by bytes

A scanner reads the tokens of a text as a `Lexer` does, but keeps the text whole: it is an offset
into the bytes of the text. It looks at bytes one by one, those above ASCII included, and takes
texts out of the source by their offsets. Such a slice exists only where both offsets are between
characters of the source, so a call that gives no answer (`none`) has taken a broken slice.
-/

namespace Passage.Rule

structure Scanner where
  source : String
  position : Nat
  depth : Nat

namespace Scanner

/-- A token or a fault, and the scanner behind it; `none` if a slice was broken. -/
abbrev Answer := Option (Except ParseError Token × Scanner)

def ofString (text : String) : Scanner := ⟨text, 0, 0⟩

/-- The offset of the end. -/
def size (s : Scanner) : Nat := s.source.utf8ByteSize

/-- The text between two offsets, both in the source and not inside a character. -/
def slice? (s : Scanner) (start stop : Nat) : Option String :=
  if start ≤ stop then ObjectTable.slice? s.source.toUTF8 start (stop - start) else none

/-- The bytes from an offset on, each as the character with its number: a byte of ASCII is that
character, and the bytes of other characters are none of ASCII. -/
def bytesFrom (s : Scanner) (offset : Nat) : List Char :=
  (s.source.toUTF8.data.toList.drop offset).map Char.ofUInt8

/-- The number of bytes that blanks and comments take; a comment runs to the end of its line. -/
def triviaLength : Bool → List Char → Nat
  | _, [] => 0
  | inComment, b :: bs =>
      if inComment then triviaLength (b != '\n') bs + 1
      else if isBlank b then triviaLength false bs + 1
      else if b == '#' then triviaLength true bs + 1
      else 0

def skipTrivia (s : Scanner) : Scanner :=
  { s with position := s.position + triviaLength false (s.bytesFrom s.position) }

/-- The character at an offset, for a message. -/
def charAt? (s : Scanner) (offset : Nat) : Option Char :=
  (s.slice? offset s.size).map fun rest => rest.toList.headD '\x00'

/-- The first byte and the longest run of bytes in `part` behind it, which a separator or the end
must follow. -/
def run (s : Scanner) (part : Char → Bool) (kindOf : String → TokenKind) : Answer :=
  let stop := s.position + 1 + ((s.bytesFrom (s.position + 1)).takeWhile part).length
  let after := { s with position := stop }
  if (s.bytesFrom stop).head?.all isSeparator then do
    let text ← s.slice? s.position stop
    return (.ok ⟨kindOf text, text, s.position⟩, after)
  else do
    let c ← s.charAt? stop
    return (.error ⟨.unseparated c, stop⟩, after)

/-- A sign of so many bytes. -/
def sign (s : Scanner) (kind : TokenKind) (width : Nat) : Answer := do
  let text ← s.slice? s.position (s.position + width)
  return (.ok ⟨kind, text, s.position⟩, { s with position := s.position + width })

/-- A string: everything up to the next byte that is the opening quote. -/
def string (s : Scanner) (quote : Char) : Answer := do
  let body := s.position + 1
  let behind ← s.slice? body s.size
  let bytes := behind.toUTF8.data.toList.map Char.ofUInt8
  let length := (bytes.takeWhile (· != quote)).length
  if length < bytes.length then
    let text ← s.slice? body (body + length)
    return (.ok ⟨.string, text, s.position⟩, { s with position := body + length + 1 })
  else return (.error ⟨.unterminated, s.position⟩, s)

/-- A closer, which must answer an opener. -/
def closer (s : Scanner) (kind : TokenKind) (c : Char) : Answer :=
  if s.depth = 0 then some (.error ⟨.unopened c, s.position + 1⟩, s)
  else { s with depth := s.depth - 1 }.sign kind 1

/-- The token at the position, where no blank or comment begins. -/
def token (s : Scanner) : Answer :=
  match s.bytesFrom s.position with
  | [] =>
      if s.depth = 0 then some (.ok ⟨.eof, "", s.position⟩, s)
      else some (.error ⟨.unclosed, s.position⟩, s)
  | '=' :: '=' :: _ => s.sign .equal 2
  | '!' :: '=' :: _ => s.sign .unequal 2
  | '<' :: _ => s.sign .less 1
  | ',' :: _ => s.sign .comma 1
  | '(' :: _ => { s with depth := s.depth + 1 }.sign .openParen 1
  | '[' :: _ => { s with depth := s.depth + 1 }.sign .openBracket 1
  | ')' :: _ => s.closer .closeParen ')'
  | ']' :: _ => s.closer .closeBracket ']'
  | '\'' :: _ => s.string '\''
  | '"' :: _ => s.string '"'
  | b :: _ =>
      if isWordStart b then s.run isWordPart .ofWord
      else if b.isDigit then s.run Char.isDigit fun _ => .number
      else do
        let c ← s.charAt? s.position
        return (.error ⟨.unrecognized c, s.position⟩, s)

/-- The answer of one call. -/
def next (s : Scanner) : Answer := s.skipTrivia.token

/-- The scanner after so many calls, whatever they answered. -/
def after : Nat → Scanner → Option Scanner
  | 0, s => some s
  | calls + 1, s => s.next.bind fun (_, s') => s'.after calls

end Scanner

end Passage.Rule

import Passage.Rule.Token

/-!
# Lexing

A lexer is the unread text with its byte offset and the number of open
parentheses and brackets. `next` skips blanks and comments, then takes one
token; a fault leaves the lexer at the place up to which it had read, so that
reading can go on. Only the characters of words, numerals and signs are ASCII;
strings and comments may hold any character.
-/

namespace Passage.Rule

structure Lexer where
  rest : List Char
  position : Nat
  depth : Nat
deriving Inhabited

/-- The number of bytes that the characters take in UTF-8. -/
def byteLength (cs : List Char) : Nat :=
  cs.foldl (fun n c => n + c.utf8Size) 0

def isBlank (c : Char) : Bool :=
  c == ' ' || c == '\t' || c == '\n' || c == '\r'

def isWordStart (c : Char) : Bool :=
  c == '_' || c.isAlpha

def isWordPart (c : Char) : Bool :=
  c == '_' || c.isAlphanum

/-- The characters that may follow a word or a numeral. -/
def isSeparator (c : Char) : Bool :=
  isBlank c || [ '.', '(', ')', ',', '[', ']', '=', '!', '<', '#' ].contains c

namespace Lexer

def ofString (text : String) : Lexer :=
  ⟨text.toList, 0, 0⟩

/-- Skips blanks and comments; a comment runs to the end of its line. -/
def skipFrom (depth : Nat) : Bool → List Char → Nat → Lexer
  | _, [], position => ⟨[], position, depth⟩
  | inComment, c :: cs, position =>
      if inComment then skipFrom depth (c != '\n') cs (position + c.utf8Size)
      else if isBlank c then skipFrom depth false cs (position + 1)
      else if c == '#' then skipFrom depth true cs (position + 1)
      else ⟨c :: cs, position, depth⟩

def skipTrivia (l : Lexer) : Lexer :=
  skipFrom l.depth false l.rest l.position

/-- The lexer behind `taken` characters of its text. -/
def drop (l : Lexer) (taken : List Char) (rest : List Char) : Lexer :=
  { l with rest := rest, position := l.position + byteLength taken }

/-- The longest run of characters in `part`, which a separator or the end must
follow. -/
def run (l : Lexer) (part : Char → Bool) (kindOf : String → TokenKind) :
    Except ParseError Token × Lexer :=
  let taken := l.rest.takeWhile part
  let after := l.drop taken (l.rest.dropWhile part)
  let text := String.ofList taken
  match after.rest with
  | [] => (.ok ⟨kindOf text, text, l.position⟩, after)
  | c :: _ =>
      if isSeparator c then (.ok ⟨kindOf text, text, l.position⟩, after)
      else (.error ⟨.unseparated c, after.position⟩, after)

/-- A sign of ASCII characters. -/
def sign (l : Lexer) (kind : TokenKind) (text : String) (rest : List Char) :
    Except ParseError Token × Lexer :=
  (.ok ⟨kind, text, l.position⟩, { l with rest := rest, position := l.position + text.length })

/-- A string: everything up to the next quote of the opening kind. -/
def string (l : Lexer) (quote : Char) (body : List Char) : Except ParseError Token × Lexer :=
  let taken := body.takeWhile (· != quote)
  match body.dropWhile (· != quote) with
  | [] => (.error ⟨.unterminated, l.position⟩, l)
  | _ :: rest =>
      (.ok ⟨.string, String.ofList taken, l.position⟩,
        { l with rest := rest, position := l.position + byteLength taken + 2 })

/-- A closer, which must answer an opener. -/
def closer (l : Lexer) (kind : TokenKind) (c : Char) (rest : List Char) :
    Except ParseError Token × Lexer :=
  if l.depth = 0 then (.error ⟨.unopened c, l.position + 1⟩, l)
  else { l with depth := l.depth - 1 }.sign kind (String.singleton c) rest

/-- The token at the start of the unread text, which begins with no blank or comment. -/
def token (l : Lexer) : Except ParseError Token × Lexer :=
  match l.rest with
  | [] =>
      if l.depth = 0 then (.ok ⟨.eof, "", l.position⟩, l)
      else (.error ⟨.unclosed, l.position⟩, l)
  | '=' :: '=' :: cs => l.sign .equal "==" cs
  | '!' :: '=' :: cs => l.sign .unequal "!=" cs
  | '<' :: cs => l.sign .less "<" cs
  | ',' :: cs => l.sign .comma "," cs
  | '(' :: cs => { l with depth := l.depth + 1 }.sign .openParen "(" cs
  | '[' :: cs => { l with depth := l.depth + 1 }.sign .openBracket "[" cs
  | ')' :: cs => l.closer .closeParen ')' cs
  | ']' :: cs => l.closer .closeBracket ']' cs
  | '\'' :: cs => l.string '\'' cs
  | '"' :: cs => l.string '"' cs
  | c :: _ =>
      if isWordStart c then l.run isWordPart .ofWord
      else if c.isDigit then l.run Char.isDigit fun _ => .number
      else (.error ⟨.unrecognized c, l.position⟩, l)

/-- The next token; at the end of the text it is `eof`, however often one asks. -/
def next (l : Lexer) : Except ParseError Token × Lexer :=
  l.skipTrivia.token

/-- At most `fuel` tokens up to and including `eof`. -/
def tokensWithin : Nat → Lexer → Except ParseError (List Token)
  | 0, _ => .ok []
  | fuel + 1, l =>
      match l.next with
      | (.error e, _) => .error e
      | (.ok t, l') =>
          if t.kind = .eof then .ok [t]
          else (tokensWithin fuel l').map (t :: ·)

end Lexer

/-- All tokens of a text, the last being its only `eof`. Every other token takes
a character, which bounds their number. -/
def tokenize (text : String) : Except ParseError (List Token) :=
  let l := Lexer.ofString text
  l.tokensWithin (l.rest.length + 1)

end Passage.Rule

import Passage.Diagnostic
import Passage.Text.Quoted

/-!
# Tokens of a rule

A token is a lexeme with its byte offset. Faults of reading, lexical and
syntactic, are the same type: a cause and the offset it is reported at.
-/

namespace Passage.Rule

inductive TokenKind where
  | identifier | number | string
  | true | false | and | or | not | isIn
  | equal | unequal | less | comma
  | openParen | closeParen | openBracket | closeBracket
  | eof
deriving DecidableEq, Repr, Inhabited

def TokenKind.name : TokenKind → String
  | .identifier => "identifier"
  | .number => "number"
  | .string => "string"
  | .true => "true"
  | .false => "false"
  | .and => "and"
  | .or => "or"
  | .not => "not"
  | .isIn => "in"
  | .equal => "eq"
  | .unequal => "nq"
  | .less => "lt"
  | .comma => "comma"
  | .openParen => "open_paren"
  | .closeParen => "close_paren"
  | .openBracket => "open_bracket"
  | .closeBracket => "close_bracket"
  | .eof => "eof"

/-- The kind of a word: a keyword's own kind, otherwise an identifier. -/
def TokenKind.ofWord (word : String) : TokenKind :=
  match word with
  | "and" => .and
  | "or" => .or
  | "not" => .not
  | "in" => .isIn
  | "True" | "true" => .true
  | "False" | "false" => .false
  | _ => .identifier

/-- A lexeme. The text of a string is what stands between its quotes; the
position is the byte offset of the first character, quotes included. -/
structure Token where
  kind : TokenKind
  text : String
  position : Nat
deriving DecidableEq, Inhabited

/-- How a token is named in a message. -/
def Token.describe (t : Token) : String :=
  match t.kind with
  | .eof => "end of input"
  | .string => "string '" ++ t.text ++ "'"
  | _ => "'" ++ t.text ++ "'"

/-- Why a rule could not be read. -/
inductive ParseFault where
  /-- The input ended inside a parenthesis or bracket. -/
  | unclosed
  /-- A closer without an opener. -/
  | unopened (closer : Char)
  /-- A string without a closing quote. -/
  | unterminated
  /-- A word or numeral runs into a character that does not separate tokens. -/
  | unseparated (c : Char)
  /-- No token starts with this character. -/
  | unrecognized (c : Char)
  /-- No expression starts or continues with this token. -/
  | unexpected (found : Token)
  /-- A closer is missing before this token. -/
  | expected (closer : Char) (found : Token)
deriving DecidableEq

/-- Whether the fault lies in a lexeme rather than in their arrangement. -/
def ParseFault.isLexical : ParseFault → Bool
  | .unexpected _ | .expected _ _ => false
  | _ => true

def ParseFault.text : ParseFault → String
  | .unclosed => "unclosed '(' or '['"
  | .unopened c => "unexpected '" ++ String.singleton c ++ "'"
  | .unterminated => "unterminated string literal"
  | .unseparated c => "unexpected " ++ Text.quoteChar c
  | .unrecognized c => "unrecognized character " ++ Text.quoteChar c
  | .unexpected t => "unexpected token " ++ t.describe
  | .expected c t => "expected '" ++ String.singleton c ++ "' but found " ++ t.describe

/-- A fault and the byte offset it is reported at. -/
structure ParseError where
  fault : ParseFault
  position : Nat
deriving DecidableEq

def ParseError.message (e : ParseError) : String :=
  (if e.fault.isLexical then "lexical" else "syntax") ++
    " error at offset " ++ toString e.position ++ ": " ++ e.fault.text

def ParseError.code (e : ParseError) : String :=
  if e.fault.isLexical then "Lexical" else "Syntax"

instance : Diagnostic ParseError := ⟨ParseError.code, ParseError.message⟩

end Passage.Rule

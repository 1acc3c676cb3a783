import Passage.Text.Align
import Passage.Text.Hidden

/-!
# Quoted text

Names and strings are shown between quotes. A backslash escape stands for the
closing quote, the backslash, the line controls and NUL; every other hidden
character is written by number.
-/

namespace Passage.Text

/-- How one character is written between the given quotes. -/
def escapeChar (quote c : Char) : String :=
  if c = quote then "\\" ++ String.singleton c
  else if c = '\\' then "\\\\"
  else if c = '\n' then "\\n"
  else if c = '\r' then "\\r"
  else if c = '\t' then "\\t"
  else if c = '\x00' then "\\0"
  else if isHidden c then "\\u\x7b" ++ hex c.toNat ++ "\x7d"
  else String.singleton c

/-- A text between double quotes. -/
def quoteString (text : String) : String :=
  text.foldl (fun acc c => acc ++ escapeChar '"' c) "\"" ++ "\""

/-- A character between single quotes. -/
def quoteChar (c : Char) : String :=
  "'" ++ escapeChar '\'' c ++ "'"

end Passage.Text

import Passage.Number.Rounding
import Passage.Rule.Lexer
import Passage.Rule.Tree

/-!
# Parsing

Expressions are read by precedence climbing over the current token and one
token of lookahead. A fault leaves the parser where it was found, with the lexer
possibly one token further, so that a caller may go on.

The functions take a bound on their nesting. `Parser.bound` is above what any
text needs, since between two steps of the recursion a token is consumed.
-/

namespace Passage.Rule

/-- How tightly an operator binds, from `lowest` on. -/
inductive Precedence where
  | lowest | or | and | not | compare | index | call
deriving DecidableEq, Repr

namespace Precedence

def rank : Precedence → Nat
  | .lowest => 0
  | .or => 1
  | .and => 2
  | .not => 3
  | .compare => 4
  | .index => 5
  | .call => 6

def name : Precedence → String
  | .lowest => "lowest"
  | .or => "or"
  | .and => "and"
  | .not => "not"
  | .compare => "compare"
  | .index => "index"
  | .call => "call"

def ofName? (name : String) : Option Precedence :=
  [.lowest, .or, .and, .not, .compare, .index, .call].find? fun p => p.name == name

/-- The precedence at which a token continues an expression. -/
def ofToken : TokenKind → Precedence
  | .or => .or
  | .and => .and
  | .equal | .unequal | .less | .isIn => .compare
  | .openBracket => .index
  | .openParen => .call
  | _ => .lowest

end Precedence

structure Parser where
  lexer : Lexer
  current : Token
  peek : Token
deriving Inhabited

/-- A step of the parser: it may fail, and its state is kept either way. -/
abbrev ParseM := ExceptT ParseError (StateM Parser)

namespace Parser

/-- A parser at the start of a text. -/
def ofString (text : String) : Except ParseError Parser :=
  match (Lexer.ofString text).next with
  | (.error e, _) => .error e
  | (.ok current, l) =>
      match l.next with
      | (.error e, _) => .error e
      | (.ok peek, l') => .ok ⟨l', current, peek⟩

/-- A nesting that no text reaches with the tokens that are left. -/
def bound (p : Parser) : Nat :=
  4 * (p.lexer.rest.length + 4)

/-- Moves one token on; if the next one is faulty, only the lexer moves. -/
def advance : ParseM Unit := do
  let p ← get
  match p.lexer.next with
  | (.error e, l) =>
      set { p with lexer := l }
      throw e
  | (.ok t, l) => set { p with lexer := l, current := p.peek, peek := t : Parser }

/-- Moves onto the closer that must come next. -/
def expectCloser (kind : TokenKind) (closer : Char) : ParseM Unit := do
  let p ← get
  if p.peek.kind = kind then advance
  else throw ⟨.expected closer p.peek, p.peek.position⟩

/-- The fault of a token that cannot stand where it is. -/
def unexpected {α : Type} (t : Token) : ParseM α :=
  throw ⟨.unexpected t, t.position⟩

/-- The value of a numeral. -/
def numeral (digits : String) : Number :=
  Number.ofNat (digits.foldl (fun n c => Number.appendDigit n (c.toNat - 48)) 0)

mutual

/-- The longest expression from the current token on whose operators bind more
tightly than `min`. Afterwards the current token is its last. -/
def expression : Nat → Precedence → ParseM Tree
  | 0, _ => do unexpected (← get).current
  | fuel + 1, min => do
      let left ← operand fuel
      extend fuel min left

/-- What an expression starts with. -/
def operand : Nat → ParseM Tree
  | 0 => do unexpected (← get).current
  | fuel + 1 => do
      let t := (← get).current
      match t.kind with
      | .identifier => pure (.identifier t.text)
      | .number => pure (.number (numeral t.text))
      | .string => pure (.string t.text)
      | .true => pure (.bool true)
      | .false => pure (.bool false)
      | .not =>
          advance
          let inner ← expression fuel .not
          pure (.not inner)
      | .openParen =>
          advance
          let first ← expression fuel .lowest
          if (← get).peek.kind = .comma then
            let others ← elements fuel
            expectCloser .closeParen ')'
            pure (.tuple (first :: others))
          else
            expectCloser .closeParen ')'
            pure first
      | _ => unexpected t

/-- The further elements of a tuple, each behind a comma; the last comma may be
followed by the closer. -/
def elements : Nat → ParseM (List Tree)
  | 0 => pure []
  | fuel + 1 => do
      if (← get).peek.kind = .comma then
        advance
        if (← get).peek.kind = .closeParen then pure []
        else
          advance
          let first ← expression fuel .lowest
          let others ← elements fuel
          pure (first :: others)
      else pure []

/-- Continues an expression while operators bind more tightly than `min`. -/
def extend : Nat → Precedence → Tree → ParseM Tree
  | 0, _, left => pure left
  | fuel + 1, min, left => do
      if min.rank < (Precedence.ofToken (← get).peek.kind).rank then
        advance
        let longer ← continuation fuel left
        extend fuel min longer
      else pure left

/-- The operator at the current token applied to what stands before it. -/
def continuation : Nat → Tree → ParseM Tree
  | 0, _ => do unexpected (← get).current
  | fuel + 1, left => do
      let t := (← get).current
      match t.kind with
      | .and => do
          advance
          let right ← expression fuel .and
          pure (.connect .and left right)
      | .or => do
          advance
          let right ← expression fuel .or
          pure (.connect .or left right)
      | .equal => do
          advance
          let right ← expression fuel .compare
          pure (.compare .equal left right)
      | .unequal => do
          advance
          let right ← expression fuel .compare
          pure (.compare .unequal left right)
      | .less => do
          advance
          let right ← expression fuel .compare
          pure (.compare .less left right)
      | .isIn => do
          advance
          let right ← expression fuel .compare
          pure (.within left right)
      | .openBracket => do
          advance
          let index ← expression fuel .lowest
          expectCloser .closeBracket ']'
          pure (.subscript left index)
      | .openParen => do
          if (← get).peek.kind = .closeParen then
            advance
            pure (.call left [])
          else
            advance
            let first ← expression fuel .lowest
            let others ← arguments fuel
            expectCloser .closeParen ')'
            pure (.call left (first :: others))
      | _ => unexpected t

/-- The further arguments of a call, each behind a comma. -/
def arguments : Nat → ParseM (List Tree)
  | 0 => pure []
  | fuel + 1 => do
      if (← get).peek.kind = .comma then
        advance
        advance
        let first ← expression fuel .lowest
        let others ← arguments fuel
        pure (first :: others)
      else pure []

end

/-- Reads one expression and returns the parser behind it, also after a fault. -/
def readExpression (p : Parser) (min : Precedence) : Except ParseError Tree × Parser :=
  (expression p.bound min).run.run p

end Parser

/-- The tree of a complete rule. -/
def parse (text : String) : Except ParseError Tree := do
  let p ← Parser.ofString text
  match p.readExpression .lowest with
  | (.error e, _) => throw e
  | (.ok tree, p') =>
      if p'.peek.kind = .eof then pure tree
      else throw ⟨.unexpected p'.peek, p'.peek.position⟩

end Passage.Rule

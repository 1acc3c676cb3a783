import Mathlib
import Passage.Rule.Lexer

/-!
# Formulas

A formula is a rule about items and facts: `True` and `False`, the name of an item, a
quantity of an item, the name of a fact or a call of it, and what `not`, `and`, `or` and
parentheses make of these. `Formula.truth` is its truth value as it is commonly
understood.

A text is a formula in three steps. `Spelled` says which lexemes the characters make up;
`IsExpression` says which lexemes make up an expression, without regard to how operators
bind; `Reads` says which formula they are read as: `not` binds more tightly than `and`,
and `and` more tightly than `or`. Each expression has a reading
(`IsExpression.exists_reads`).
-/

namespace Passage

inductive Formula where
  | constant (value : Bool)
  /-- The name of an item. -/
  | item (name : String)
  /-- `has(name, count)` -/
  | quantity (name : String) (count : Nat)
  /-- The name of a fact. -/
  | fact (name : String)
  /-- `name()` -/
  | asked (name : String)
  | not (operand : Formula)
  | and (lhs rhs : Formula)
  | or (lhs rhs : Formula)
deriving DecidableEq

/-- The truth value of a formula: the name of an item says that at least one of it is
held. -/
def Formula.truth (held : String → Nat) (facts : String → Bool) : Formula → Bool
  | .constant value => value
  | .item name => 1 ≤ held name
  | .quantity name count => count ≤ held name
  | .fact name | .asked name => facts name
  | .not operand => !operand.truth held facts
  | .and lhs rhs => lhs.truth held facts && rhs.truth held facts
  | .or lhs rhs => lhs.truth held facts || rhs.truth held facts

/-! ## Lexemes -/

/-- A lexeme of a formula. -/
inductive Lexeme where
  | word (text : String)
  | numeral (digits : String)
  | openParen | closeParen | comma
deriving DecidableEq

namespace Lexeme

open Rule (TokenKind)

def kind : Lexeme → TokenKind
  | .word text => .ofWord text
  | .numeral _ => .number
  | .openParen => .openParen
  | .closeParen => .closeParen
  | .comma => .comma

def text : Lexeme → String
  | .word text => text
  | .numeral digits => digits
  | .openParen => "("
  | .closeParen => ")"
  | .comma => ","

/-- Whether the lexeme is a run of characters, which ends where a separator stands. -/
def IsRun : Lexeme → Prop
  | .word _ | .numeral _ => True
  | _ => False

/-- The characters of a run are those of a word or of a numeral. -/
def WellFormed : Lexeme → Prop
  | .word text => ∃ c cs, text.toList = c :: cs ∧ Rule.isWordStart c = true ∧
      ∀ d ∈ cs, Rule.isWordPart d = true
  | .numeral digits => digits.toList ≠ [] ∧ ∀ d ∈ digits.toList, d.isDigit = true
  | _ => True

end Lexeme

/-- The characters spell the lexemes, with blanks before, between and behind them. -/
inductive Spelled : List Lexeme → List Char → Prop
  | done {blanks : List Char} : (∀ c ∈ blanks, Rule.isBlank c = true) → Spelled [] blanks
  | lexeme {l : Lexeme} {ls : List Lexeme} {blanks rest : List Char} :
      (∀ c ∈ blanks, Rule.isBlank c = true) → l.WellFormed →
      (l.IsRun → ∀ c ∈ rest.head?, Rule.isSeparator c = true) → Spelled ls rest →
      Spelled (l :: ls) (blanks ++ l.text.toList ++ rest)

/-- The number that digits write. -/
def decimal (digits : String) : Nat :=
  digits.toList.foldl (fun n c => n * 10 + (c.toNat - 48)) 0

/-! ## Expressions -/

section

variable (IsItem IsFact : String → Prop)

/-- The lexemes make up an expression, whichever way operators bind. -/
inductive IsExpression : List Lexeme → Prop
  | true : IsExpression [.word "True"]
  | false : IsExpression [.word "False"]
  | item {name : String} : IsItem name → IsExpression [.word name]
  | quantity {name : String} (digits : String) : IsItem name →
      IsExpression [.word "has", .openParen, .word name, .comma, .numeral digits, .closeParen]
  | fact {name : String} : IsFact name → IsExpression [.word name]
  | asked {name : String} : IsFact name → IsExpression [.word name, .openParen, .closeParen]
  | not {ls : List Lexeme} : IsExpression ls → IsExpression (.word "not" :: ls)
  | and {ls ms : List Lexeme} : IsExpression ls → IsExpression ms →
      IsExpression (ls ++ .word "and" :: ms)
  | or {ls ms : List Lexeme} : IsExpression ls → IsExpression ms →
      IsExpression (ls ++ .word "or" :: ms)
  | paren {ls : List Lexeme} : IsExpression ls → IsExpression (.openParen :: (ls ++ [.closeParen]))

/-- What stands at a level of the grammar: the operands of `not`, of `and` and of `or`, and
whole expressions. -/
inductive Tier where
  | atom | literal | conjunction | disjunction
deriving DecidableEq

/-- The lexemes are read as the formula at a level of the grammar. Operators of one kind
are read from left to right. -/
inductive Reads : Tier → List Lexeme → Formula → Prop
  | true : Reads .atom [.word "True"] (.constant true)
  | false : Reads .atom [.word "False"] (.constant false)
  | item {name : String} : IsItem name → Reads .atom [.word name] (.item name)
  | quantity {name : String} (digits : String) : IsItem name →
      Reads .atom [.word "has", .openParen, .word name, .comma, .numeral digits, .closeParen]
        (.quantity name (decimal digits))
  | fact {name : String} : IsFact name → Reads .atom [.word name] (.fact name)
  | asked {name : String} : IsFact name →
      Reads .atom [.word name, .openParen, .closeParen] (.asked name)
  | paren {ls : List Lexeme} {f : Formula} :
      Reads .disjunction ls f → Reads .atom (.openParen :: (ls ++ [.closeParen])) f
  | not {ls : List Lexeme} {f : Formula} :
      Reads .literal ls f → Reads .literal (.word "not" :: ls) (.not f)
  | and {ls ms : List Lexeme} {f g : Formula} :
      Reads .conjunction ls f → Reads .literal ms g →
      Reads .conjunction (ls ++ .word "and" :: ms) (.and f g)
  | or {ls ms : List Lexeme} {f g : Formula} :
      Reads .disjunction ls f → Reads .conjunction ms g →
      Reads .disjunction (ls ++ .word "or" :: ms) (.or f g)
  | literal {ls : List Lexeme} {f : Formula} : Reads .atom ls f → Reads .literal ls f
  | conjunction {ls : List Lexeme} {f : Formula} : Reads .literal ls f → Reads .conjunction ls f
  | disjunction {ls : List Lexeme} {f : Formula} :
      Reads .conjunction ls f → Reads .disjunction ls f

end

/-! ## Every expression has a reading -/

namespace Reads

variable {IsItem IsFact : String → Prop}

theorem of_atom {ls : List Lexeme} {f : Formula} (h : Reads IsItem IsFact .atom ls f) :
    Reads IsItem IsFact .disjunction ls f :=
  .disjunction (.conjunction (.literal h))

/-- Two conjunctions joined by `and` are one. -/
theorem and_conjunction {ls : List Lexeme} {f : Formula}
    (h : Reads IsItem IsFact .conjunction ls f) :
    ∀ {ms : List Lexeme} {g : Formula}, Reads IsItem IsFact .conjunction ms g →
      ∃ k, Reads IsItem IsFact .conjunction (ls ++ .word "and" :: ms) k
  | _, _, .conjunction hm => ⟨_, .and h hm⟩
  | _, _, .and hm hlast => by
    obtain ⟨k, hk⟩ := h.and_conjunction hm
    rw [← List.cons_append, ← List.append_assoc]
    exact ⟨_, .and hk hlast⟩

/-- Two disjunctions joined by `or` are one. -/
theorem or_disjunction {ls : List Lexeme} {f : Formula}
    (h : Reads IsItem IsFact .disjunction ls f) :
    ∀ {ms : List Lexeme} {g : Formula}, Reads IsItem IsFact .disjunction ms g →
      ∃ k, Reads IsItem IsFact .disjunction (ls ++ .word "or" :: ms) k
  | _, _, .disjunction hm => ⟨_, .or h hm⟩
  | _, _, .or hm hlast => by
    obtain ⟨k, hk⟩ := h.or_disjunction hm
    rw [← List.cons_append, ← List.append_assoc]
    exact ⟨_, .or hk hlast⟩

/-- A conjunction in front of `and` takes the first conjunction behind it. -/
theorem and_disjunction {ls : List Lexeme} {f : Formula}
    (h : Reads IsItem IsFact .conjunction ls f) :
    ∀ {ms : List Lexeme} {g : Formula}, Reads IsItem IsFact .disjunction ms g →
      ∃ k, Reads IsItem IsFact .disjunction (ls ++ .word "and" :: ms) k
  | _, _, .disjunction hm => by
    obtain ⟨k, hk⟩ := h.and_conjunction hm
    exact ⟨k, .disjunction hk⟩
  | _, _, .or hm hlast => by
    obtain ⟨k, hk⟩ := h.and_disjunction hm
    rw [← List.cons_append, ← List.append_assoc]
    exact ⟨_, .or hk hlast⟩

/-- Of a disjunction in front of `and`, the last conjunction goes on behind it. -/
theorem disjunction_and {ls ms : List Lexeme} {f g : Formula}
    (h : Reads IsItem IsFact .disjunction ls f) (hm : Reads IsItem IsFact .disjunction ms g) :
    ∃ k, Reads IsItem IsFact .disjunction (ls ++ .word "and" :: ms) k := by
  cases h with
  | disjunction h => exact h.and_disjunction hm
  | or h hlast =>
    obtain ⟨k, hk⟩ := hlast.and_disjunction hm
    rw [List.append_assoc, List.cons_append]
    exact h.or_disjunction hk

/-- In front of a conjunction, `not` is about its first literal. -/
theorem not_conjunction : ∀ {ls : List Lexeme} {f : Formula},
    Reads IsItem IsFact .conjunction ls f →
      ∃ k, Reads IsItem IsFact .conjunction (.word "not" :: ls) k
  | _, _, .conjunction h => ⟨_, .conjunction (.not h)⟩
  | _, _, .and h hlast => by
    obtain ⟨k, hk⟩ := h.not_conjunction
    exact ⟨_, .and hk hlast⟩

theorem not_disjunction : ∀ {ls : List Lexeme} {f : Formula},
    Reads IsItem IsFact .disjunction ls f →
      ∃ k, Reads IsItem IsFact .disjunction (.word "not" :: ls) k
  | _, _, .disjunction h => by
    obtain ⟨k, hk⟩ := h.not_conjunction
    exact ⟨k, .disjunction hk⟩
  | _, _, .or h hlast => by
    obtain ⟨k, hk⟩ := h.not_disjunction
    exact ⟨_, .or hk hlast⟩

end Reads

/-- Every expression is read as some formula. -/
theorem IsExpression.exists_reads {IsItem IsFact : String → Prop} {ls : List Lexeme}
    (h : IsExpression IsItem IsFact ls) : ∃ f, Reads IsItem IsFact .disjunction ls f := by
  induction h with
  | true => exact ⟨_, .of_atom .true⟩
  | false => exact ⟨_, .of_atom .false⟩
  | item hname => exact ⟨_, .of_atom (.item hname)⟩
  | quantity digits hname => exact ⟨_, .of_atom (.quantity digits hname)⟩
  | fact hname => exact ⟨_, .of_atom (.fact hname)⟩
  | asked hname => exact ⟨_, .of_atom (.asked hname)⟩
  | not _ ih =>
    obtain ⟨f, hf⟩ := ih
    exact hf.not_disjunction
  | and _ _ ihl ihr =>
    obtain ⟨f, hf⟩ := ihl
    obtain ⟨g, hg⟩ := ihr
    exact hf.disjunction_and hg
  | or _ _ ihl ihr =>
    obtain ⟨f, hf⟩ := ihl
    obtain ⟨g, hg⟩ := ihr
    exact hf.or_disjunction hg
  | paren _ ih =>
    obtain ⟨f, hf⟩ := ih
    exact ⟨f, .of_atom (.paren hf)⟩

end Passage

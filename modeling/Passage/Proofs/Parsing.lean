import Passage.Proofs.Formulas
import Passage.Proofs.Numerals
import Passage.Proofs.Printing

/-!
# Parsing what is read

`Formula.tree` is the tree of a formula. A text that spells a formula is parsed to this
tree (`parse_of_reads`). The parser climbs from operator to operator, and where it stands
after an expression depends on the least precedence that it accepts; so what is shown of
each level of the grammar (`Reads.arrives`) is that the parser, put in front of the
lexemes, gets behind them with the tree in hand, and goes on from there.
-/

namespace Passage

open Rule

/-- The parse tree of a formula. -/
def Formula.tree : Formula → Tree
  | .constant value => .bool value
  | .item name | .fact name => .identifier name
  | .quantity name count => .call (.identifier "has") [.identifier name, .number (.ofNat count)]
  | .asked name => .call (.identifier name) []
  | .not operand => .not operand.tree
  | .and lhs rhs => .connect .and lhs.tree rhs.tree
  | .or lhs rhs => .connect .or lhs.tree rhs.tree

/-! ## Numerals -/

/-- A numeral that stops growing is the number of all its digits. -/
theorem Rule.Parser.numeral_eq (digits : String) :
    numeral digits = Number.ofNat (decimal digits) := by
  -- Both folds stay in step, up to what is cut off.
  have hfold : ∀ (cs : List Char) (n : Nat),
      cs.foldl (fun n c => Number.appendDigit n (c.toNat - 48)) (min Number.overflow n) =
        min Number.overflow (cs.foldl (fun n c => n * 10 + (c.toNat - 48)) n) := by
    intro cs
    induction cs with
    | nil => exact fun n => rfl
    | cons c cs ih =>
      intro n
      have hstep : Number.appendDigit (min Number.overflow n) (c.toNat - 48) =
          min Number.overflow (n * 10 + (c.toNat - 48)) := by
        unfold Number.appendDigit
        omega
      rw [List.foldl_cons, List.foldl_cons, hstep, ih]
  have hdigits := hfold digits.toList 0
  rw [Nat.min_zero] at hdigits
  rw [numeral, String.foldl_eq_foldl_toList, hdigits, ← decimal]
  by_cases h : decimal digits ≤ Number.overflow
  · rw [Nat.min_eq_right h]
  · have hover : Number.overflow ≤ decimal digits := by omega
    rw [Nat.min_eq_left hover, Number.ofNat_of_overflow hover]

/-! ## Formulas are written -/

/-- What spells lexemes is written with them. -/
theorem Spelled.written {ls : List Lexeme} {cs : List Char} (h : Spelled ls cs) :
    Written (ls.map .lexeme) cs := by
  induction h with
  | done hblanks => exact .done hblanks
  | lexeme hblanks hl hrest _ ih => exact .glyph hblanks hl hrest ih

open Glyph (Neutral) in
/-- What is read as a formula closes what it opens. -/
theorem Reads.neutral {IsItem IsFact : String → Prop} {tier : Tier} {ls : List Lexeme}
    {f : Formula} (h : Reads IsItem IsFact tier ls f) : Neutral (ls.map .lexeme) := by
  induction h with
  | true | false | item | fact => exact Neutral.word _ .nil
  | quantity digits _ =>
    exact Neutral.word _ (Neutral.word _ (Neutral.comma (.numeral digits .nil))).parens
  | asked _ => exact Neutral.word _ Neutral.nil.parens
  | paren _ ih =>
    rw [List.map_cons, List.map_append]
    exact ih.parens
  | not _ ih => exact Neutral.word _ ih
  | and _ _ ihl ihr | or _ _ ihl ihr =>
    rw [List.map_append, List.map_cons]
    exact ihl.append (.word _ ihr)
  | literal _ ih | conjunction _ ih | disjunction _ ih => exact ih

theorem Reads.map_ne_nil {IsItem IsFact : String → Prop} {tier : Tier} {ls : List Lexeme}
    {f : Formula} (h : Reads IsItem IsFact tier ls f) : ls.map Glyph.lexeme ≠ [] := by
  induction h with
  | literal _ ih | conjunction _ ih | disjunction _ ih => exact ih
  | and | or =>
    rw [List.map_append]
    exact List.append_ne_nil_of_right_ne_nil _ (List.cons_ne_nil _ _)
  | _ => exact List.cons_ne_nil _ _

/-! ## Expressions -/

namespace Tier

/-- How tightly operators must bind, at most, where the parser may be put in front of a
level of the grammar. -/
def floor : Tier → Nat
  | .atom | .literal => 3
  | .conjunction => 1
  | .disjunction => 0

/-- How tightly what stands behind a level of the grammar may bind. -/
def ceiling : Tier → Nat
  | .atom | .literal => 3
  | .conjunction => 2
  | .disjunction => 1

end Tier

open Rule.Parser

section

variable {IsItem IsFact : String → Prop}
  (hitem : ∀ {name}, IsItem name → TokenKind.ofWord name = .identifier)
  (hfact : ∀ {name}, IsFact name → TokenKind.ofWord name = .identifier)

include hitem hfact

/-- The parser, put in front of what is read as a formula, reads its tree. What no operator
joins is a print-out. -/
theorem Reads.arrives {tier : Tier} {ls : List Lexeme} {f : Formula}
    (h : Reads IsItem IsFact tier ls f) {rest : List Glyph} {p : Parser} {fuel : Nat}
    {min : Precedence} (hp : p.At (ls.map .lexeme ++ rest)) (hrest : pull rest ≤ tier.ceiling)
    (hmin : min.rank ≤ tier.floor) (hfuel : 4 * (ls.map Glyph.lexeme).length + 4 ≤ fuel) :
    p.Arrives fuel min (4 * (ls.map Glyph.lexeme).length) f.tree rest := by
  induction h generalizing rest p fuel min with
  | true =>
    exact (Prints.bool Bool.true "True" (by decide)).arrives hp (Nat.le_succ_of_le hmin) hfuel
  | false =>
    exact (Prints.bool Bool.false "False" (by decide)).arrives hp (Nat.le_succ_of_le hmin) hfuel
  | item hname =>
    exact (Prints.identifier (hitem hname)).arrives hp (Nat.le_succ_of_le hmin) hfuel
  | fact hname =>
    exact (Prints.identifier (hfact hname)).arrives hp (Nat.le_succ_of_le hmin) hfuel
  | quantity digits hname =>
    have hhas : TokenKind.ofWord "has" = .identifier := by decide
    have hprints := Prints.call (.identifier hhas)
      (.cons (.plain (.identifier (hitem hname))) (.single (.plain (.number digits))))
    rw [numeral_eq] at hprints
    exact hprints.arrives hp (Nat.le_succ_of_le hmin) hfuel
  | asked hname =>
    exact (Prints.ask (.identifier (hfact hname))).arrives hp (Nat.le_succ_of_le hmin) hfuel
  | @paren ls f h ih =>
    have hinner : IsRead (.expression f.tree) (ls.map .lexeme) :=
      IsRead.of_arrives fun hp hrest hfuel => ih hp (hrest ▸ Nat.zero_le _) (Nat.le_refl _) hfuel
    rw [List.map_cons, List.map_append] at hp hfuel ⊢
    exact hinner.paren h.map_ne_nil hp (Nat.le_succ_of_le hmin) hfuel
  | @not ls f h ih =>
    rw [List.map_cons] at hp hfuel ⊢
    simp only [List.length_cons] at hfuel ⊢
    obtain ⟨fuel, rfl⟩ : ∃ k, fuel = k + 2 := ⟨fuel - 2, by omega⟩
    have hinner : ∀ {p' : Parser}, p'.At (ls.map .lexeme ++ rest) →
        p'.Arrives fuel .not _ f.tree rest := fun hp' => ih hp' hrest (Nat.le_refl _) (by omega)
    exact (arrives_not hp (List.append_ne_nil_of_left_ne_nil h.map_ne_nil _) hinner hrest).mono
      (by omega)
  | @and ls ms f g h h' ih ih' =>
    rw [List.map_append, List.map_cons] at hp hfuel ⊢
    simp only [List.length_append, List.length_cons] at hfuel ⊢
    rw [List.append_assoc, List.cons_append] at hp
    have hlhs : p.Arrives fuel min _ f.tree _ := ih hp (Nat.le_refl _) hmin (by omega)
    exact (hlhs.binary (.connect .and) (Nat.lt_succ_of_le hmin) h'.map_ne_nil hrest
      (fun hp' => ih' hp' (Nat.le_trans hrest (by decide)) (by decide)) (by omega)).mono (by omega)
  | @or ls ms f g h h' ih ih' =>
    rw [List.map_append, List.map_cons] at hp hfuel ⊢
    simp only [List.length_append, List.length_cons] at hfuel ⊢
    rw [List.append_assoc, List.cons_append] at hp
    have hlhs : p.Arrives fuel min _ f.tree _ := ih hp (Nat.le_refl _) hmin (by omega)
    exact (hlhs.binary (.connect .or) (Nat.lt_succ_of_le hmin) h'.map_ne_nil hrest
      (fun hp' => ih' hp' (Nat.le_trans hrest (by decide)) (by decide)) (by omega)).mono (by omega)
  | literal h ih => exact ih hp hrest hmin hfuel
  | conjunction h ih =>
    exact ih hp (Nat.le_trans hrest (by decide)) (Nat.le_trans hmin (by decide)) hfuel
  | disjunction h ih =>
    exact ih hp (Nat.le_trans hrest (by decide)) (Nat.le_trans hmin (by decide)) hfuel

/-- A text that spells a formula is parsed to the tree of the formula. -/
theorem parse_of_reads {text : String} {ls : List Lexeme} {f : Formula}
    (hspelled : Spelled ls text.toList) (hreads : Reads IsItem IsFact .disjunction ls f) :
    parse text = .ok f.tree :=
  parse_of_isRead hspelled.written hreads.neutral hreads.map_ne_nil
    (IsRead.of_arrives fun hp hrest hfuel =>
      hreads.arrives hitem hfact hp (hrest ▸ Nat.zero_le _) (Nat.le_refl _) hfuel)

end

end Passage

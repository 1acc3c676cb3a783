import Passage.Proofs.Glyphs
import Passage.Rule.Parser

/-!
# Print-outs

`Prints` says which glyphs are a print-out of a tree: every operand of an operator is a leaf,
or in parentheses, or ends with a closer of its own. So it does not matter how tightly
operators bind.

The trees of the language (`Tree.Printable`) are those of names, digits, strings that lack
one kind of quotes, and all operators, calls, subscripts and tuples of such. They all have a
print-out (`Tree.Printable.exists_prints`).
-/

namespace Passage

open Rule

namespace Rule

/-! ## Print-outs -/

/-- An operator between two operands. -/
inductive Operator where
  | compare (op : Comparison)
  | within
  | connect (op : Connective)

namespace Operator

def glyph : Operator → Glyph
  | .compare .equal => .equal
  | .compare .unequal => .unequal
  | .compare .less => .less
  | .within => .lexeme (.word "in")
  | .connect .and => .lexeme (.word "and")
  | .connect .or => .lexeme (.word "or")

def tree : Operator → Tree → Tree → Tree
  | .compare op => .compare op
  | .within => .within
  | .connect op => .connect op

theorem wellFormed (op : Operator) : op.glyph.WellFormed := by
  rcases op with op | _ | op
  · cases op <;> trivial
  · exact Lexeme.wellFormed_word rfl (by decide) (by decide)
  · cases op
    · exact Lexeme.wellFormed_word rfl (by decide) (by decide)
    · exact Lexeme.wellFormed_word rfl (by decide) (by decide)

theorem not_closer (op : Operator) : ¬ op.glyph.IsCloser := by
  rcases op with op | _ | op
  · cases op <;> exact id
  · exact nofun
  · cases op <;> exact nofun

theorem depthBehind (op : Operator) (depth : Nat) : op.glyph.depthBehind depth = depth := by
  rcases op with op | _ | op
  · cases op <;> rfl
  · rfl
  · cases op <;> rfl

end Operator

/-- What may be printed. -/
inductive Printout where
  /-- A tree as an operand, which ends by itself. -/
  | operand (tree : Tree)
  /-- A tree as an expression, which a comma, a closer or the text's end has to end. -/
  | expression (tree : Tree)
  /-- Expressions with commas between them. -/
  | list (trees : List Tree)

/-- The glyphs are a print-out. -/
inductive Prints : Printout → List Glyph → Prop
  | identifier {name : String} : TokenKind.ofWord name = .identifier →
      Prints (.operand (.identifier name)) [.lexeme (.word name)]
  | bool (value : Bool) (word : String) :
      TokenKind.ofWord word = (if value then .true else .false) →
      Prints (.operand (.bool value)) [.lexeme (.word word)]
  | number (digits : String) :
      Prints (.operand (.number (Parser.numeral digits))) [.lexeme (.numeral digits)]
  | string (quote : Char) (value : String) :
      Prints (.operand (.string value)) [.string quote value]
  | paren {tree : Tree} {gs : List Glyph} : Prints (.expression tree) gs →
      Prints (.operand tree) (Glyph.lexeme .openParen :: (gs ++ [Glyph.lexeme .closeParen]))
  | ask {callee : Tree} {gs : List Glyph} : Prints (.operand callee) gs →
      Prints (.operand (.call callee []))
        (gs ++ [Glyph.lexeme .openParen, Glyph.lexeme .closeParen])
  | call {callee : Tree} {args : List Tree} {gs hs : List Glyph} : Prints (.operand callee) gs →
      Prints (.list args) hs → Prints (.operand (.call callee args))
        (gs ++ Glyph.lexeme .openParen :: (hs ++ [Glyph.lexeme .closeParen]))
  | subscript {target index : Tree} {gs hs : List Glyph} : Prints (.operand target) gs →
      Prints (.expression index) hs → Prints (.operand (.subscript target index))
        (gs ++ Glyph.openBracket :: (hs ++ [Glyph.closeBracket]))
  /-- A tuple of two elements or more. -/
  | tuple {first second : Tree} {others : List Tree} {gs : List Glyph} :
      Prints (.list (first :: second :: others)) gs →
      Prints (.operand (.tuple (first :: second :: others)))
        (Glyph.lexeme .openParen :: (gs ++ [Glyph.lexeme .closeParen]))
  /-- A tuple with a comma behind its last element, as it must be behind its only one. -/
  | tupleComma {elements : List Tree} {gs : List Glyph} : Prints (.list elements) gs →
      Prints (.operand (.tuple elements))
        (Glyph.lexeme .openParen :: (gs ++ [Glyph.lexeme .comma, Glyph.lexeme .closeParen]))
  | not {tree : Tree} {gs : List Glyph} : Prints (.operand tree) gs →
      Prints (.expression (.not tree)) (Glyph.lexeme (.word "not") :: gs)
  | binary (op : Operator) {lhs rhs : Tree} {gs hs : List Glyph} : Prints (.operand lhs) gs →
      Prints (.operand rhs) hs → Prints (.expression (op.tree lhs rhs)) (gs ++ op.glyph :: hs)
  | plain {tree : Tree} {gs : List Glyph} : Prints (.operand tree) gs →
      Prints (.expression tree) gs
  | single {tree : Tree} {gs : List Glyph} : Prints (.expression tree) gs →
      Prints (.list [tree]) gs
  | cons {tree : Tree} {trees : List Tree} {gs hs : List Glyph} : Prints (.expression tree) gs →
      Prints (.list trees) hs → Prints (.list (tree :: trees)) (gs ++ Glyph.lexeme .comma :: hs)

/-- A print-out begins with a glyph that is no closer. -/
theorem Prints.head {printout : Printout} {gs : List Glyph} (h : Prints printout gs) :
    ∃ g rest, gs = g :: rest ∧ g.kind ≠ .closeParen := by
  induction h with
  | identifier hname =>
    refine ⟨_, _, rfl, fun hkind => ?_⟩
    exact absurd (hname.symm.trans hkind) (by decide)
  | bool value _ hword =>
    refine ⟨_, _, rfl, fun hkind => ?_⟩
    cases value <;> exact absurd (hword.symm.trans hkind) (by decide)
  | number | string => exact ⟨_, _, rfl, nofun⟩
  | paren | tuple | tupleComma | not => exact ⟨_, _, rfl, by decide⟩
  | ask _ ih | call _ _ ih _ | subscript _ _ ih _ | binary _ _ _ ih _ | cons _ _ ih _ =>
    obtain ⟨g, rest, rfl, hg⟩ := ih
    exact ⟨g, _, rfl, hg⟩
  | plain _ ih | single _ ih => exact ih

theorem Prints.ne_nil {printout : Printout} {gs : List Glyph} (h : Prints printout gs) :
    gs ≠ [] := by
  obtain ⟨g, rest, rfl, -⟩ := h.head
  exact List.cons_ne_nil _ _

/-! ## Trees that can be printed -/

/-- The trees of the language. -/
inductive Tree.Printable : Tree → Prop
  | identifier {name : String} : (Lexeme.word name).WellFormed →
      TokenKind.ofWord name = .identifier → Printable (.identifier name)
  | bool (value : Bool) : Printable (.bool value)
  | number {digits : String} : (Lexeme.numeral digits).WellFormed →
      Printable (.number (Parser.numeral digits))
  | string {value : String} : '\'' ∉ value.toList ∨ '"' ∉ value.toList → Printable (.string value)
  | compare {op : Comparison} {lhs rhs : Tree} : Printable lhs → Printable rhs →
      Printable (.compare op lhs rhs)
  | within {lhs rhs : Tree} : Printable lhs → Printable rhs → Printable (.within lhs rhs)
  | connect {op : Connective} {lhs rhs : Tree} : Printable lhs → Printable rhs →
      Printable (.connect op lhs rhs)
  | not {operand : Tree} : Printable operand → Printable (.not operand)
  | call {callee : Tree} {args : List Tree} : Printable callee → (∀ arg ∈ args, Printable arg) →
      Printable (.call callee args)
  | subscript {target index : Tree} : Printable target → Printable index →
      Printable (.subscript target index)
  | tuple {elements : List Tree} : elements ≠ [] → (∀ element ∈ elements, Printable element) →
      Printable (.tuple elements)

/-- A print-out with well-formed glyphs. -/
def Printout.Exists (printout : Printout) : Prop :=
  ∃ gs, Prints printout gs ∧ ∀ g ∈ gs, g.WellFormed

namespace Printout

variable {tree lhs rhs : Tree}

theorem Exists.paren (h : Exists (.expression tree)) : Exists (.operand tree) := by
  obtain ⟨gs, hprints, hgs⟩ := h
  refine ⟨_, .paren hprints,
    List.forall_mem_cons.mpr ⟨trivial, List.forall_mem_append.mpr ⟨hgs, ?_⟩⟩⟩
  exact List.forall_mem_singleton.mpr trivial

theorem Exists.binary (op : Operator) (hl : Exists (.operand lhs)) (hr : Exists (.operand rhs)) :
    Exists (.operand (op.tree lhs rhs)) := by
  obtain ⟨gs, hprints, hgs⟩ := hl
  obtain ⟨hs, hprints', hhs⟩ := hr
  refine .paren ⟨_, .binary op hprints hprints', List.forall_mem_append.mpr ⟨hgs, ?_⟩⟩
  exact List.forall_mem_cons.mpr ⟨op.wellFormed, hhs⟩

theorem Exists.list {trees : List Tree} (hne : trees ≠ [])
    (h : ∀ tree ∈ trees, Exists (.operand tree)) : Exists (.list trees) := by
  induction trees with
  | nil => exact absurd rfl hne
  | cons tree rest ih =>
    obtain ⟨⟨gs, hprints, hgs⟩, hrest⟩ := List.forall_mem_cons.mp h
    by_cases hnil : rest = []
    · subst hnil
      exact ⟨gs, .single (.plain hprints), hgs⟩
    · obtain ⟨hs, hprints', hhs⟩ := ih hnil hrest
      refine ⟨_, .cons (.plain hprints) hprints', List.forall_mem_append.mpr ⟨hgs, ?_⟩⟩
      exact List.forall_mem_cons.mpr ⟨trivial, hhs⟩

end Printout

/-- A tree of the language has a print-out. -/
theorem Tree.Printable.exists_prints {tree : Tree} (h : tree.Printable) :
    Printout.Exists (.operand tree) := by
  induction h with
  | identifier hname hkind =>
    exact ⟨_, .identifier hkind, List.forall_mem_singleton.mpr hname⟩
  | bool value =>
    cases value with
    | true => exact ⟨_, .bool Bool.true "True" (by decide),
        List.forall_mem_singleton.mpr (Lexeme.wellFormed_word rfl (by decide) (by decide))⟩
    | false => exact ⟨_, .bool Bool.false "False" (by decide),
        List.forall_mem_singleton.mpr (Lexeme.wellFormed_word rfl (by decide) (by decide))⟩
  | number hdigits => exact ⟨_, .number _, List.forall_mem_singleton.mpr hdigits⟩
  | @string value hvalue =>
    obtain hvalue | hvalue := hvalue
    · exact ⟨_, .string '\'' value, List.forall_mem_singleton.mpr ⟨.inl rfl, hvalue⟩⟩
    · exact ⟨_, .string '"' value, List.forall_mem_singleton.mpr ⟨.inr rfl, hvalue⟩⟩
  | compare _ _ ihl ihr => exact .binary (.compare _) ihl ihr
  | within _ _ ihl ihr => exact .binary .within ihl ihr
  | connect _ _ ihl ihr => exact .binary (.connect _) ihl ihr
  | not _ ih =>
    obtain ⟨gs, hprints, hgs⟩ := ih
    refine .paren ⟨_, .not hprints, List.forall_mem_cons.mpr ⟨?_, hgs⟩⟩
    exact Lexeme.wellFormed_word rfl (by decide) (by decide)
  | @call callee args _ _ ih ihargs =>
    obtain ⟨gs, hprints, hgs⟩ := ih
    by_cases hnil : args = []
    · subst hnil
      refine ⟨_, .ask hprints, List.forall_mem_append.mpr ⟨hgs, ?_⟩⟩
      exact List.forall_mem_cons.mpr ⟨trivial, List.forall_mem_singleton.mpr trivial⟩
    · obtain ⟨hs, hprints', hhs⟩ := Printout.Exists.list hnil ihargs
      refine ⟨_, .call hprints hprints', List.forall_mem_append.mpr ⟨hgs, ?_⟩⟩
      exact List.forall_mem_cons.mpr ⟨trivial, List.forall_mem_append.mpr
        ⟨hhs, List.forall_mem_singleton.mpr trivial⟩⟩
  | subscript _ _ ihtarget ihindex =>
    obtain ⟨gs, hprints, hgs⟩ := ihtarget
    obtain ⟨hs, hprints', hhs⟩ := ihindex
    refine ⟨_, .subscript hprints (.plain hprints'), List.forall_mem_append.mpr ⟨hgs, ?_⟩⟩
    exact List.forall_mem_cons.mpr ⟨trivial, List.forall_mem_append.mpr
      ⟨hhs, List.forall_mem_singleton.mpr trivial⟩⟩
  | tuple hne _ ih =>
    obtain ⟨gs, hprints, hgs⟩ := Printout.Exists.list hne ih
    refine ⟨_, .tupleComma hprints, List.forall_mem_cons.mpr ⟨trivial, List.forall_mem_append.mpr
      ⟨hgs, ?_⟩⟩⟩
    exact List.forall_mem_cons.mpr ⟨trivial, List.forall_mem_singleton.mpr trivial⟩

/-! ## Print-outs are balanced -/

open Glyph (Neutral)

/-- A print-out closes what it opens. -/
theorem Prints.neutral {printout : Printout} {gs : List Glyph} (h : Prints printout gs) :
    Neutral gs := by
  induction h with
  | identifier | bool => exact Neutral.word _ .nil
  | number digits => exact Neutral.numeral digits .nil
  | string => exact Neutral.cons id (fun _ => rfl) .nil
  | paren _ ih | tuple _ ih => exact ih.parens
  | tupleComma _ ih =>
    have hparens := (ih.append (.comma .nil)).parens
    rwa [List.append_assoc] at hparens
  | ask _ ih => exact ih.append Neutral.nil.parens
  | call _ _ ih ihargs => exact ih.append ihargs.parens
  | subscript _ _ ih ihindex => exact ih.append ihindex.brackets
  | not _ ih => exact Neutral.word _ ih
  | binary op _ _ ihl ihr => exact ihl.append (.cons op.not_closer op.depthBehind ihr)
  | plain _ ih | single _ ih => exact ih
  | cons _ _ ih ihrest => exact ih.append (.comma ihrest)

end Rule

end Passage

import Passage.Proofs.Fallible
import Passage.Proofs.Printouts

/-!
# Parsing what is printed

A print-out is parsed to its tree (`parse_of_printed`). An operand is read wherever the
operators around it bind no more tightly than comparisons, and whatever stands behind it;
an expression is read up to the closer or comma that ends it; and expressions with commas
between them are read by the loops over arguments and over elements alike, which
`Parser.Repeats` describes (`Parser.isRead_of_prints`).
-/

namespace Passage

open Rule

namespace Rule.Parser

/-! ## Where the parser stands -/

/-- The glyphs stand behind the current token. -/
def Facing (p : Parser) : List Glyph → Prop
  | [] => p.peek.kind = .eof
  | g :: gs => g.Is p.peek ∧ p.lexer.Gives gs

/-- The current token is the first of the glyphs. -/
def At (p : Parser) : List Glyph → Prop
  | [] => False
  | g :: gs => g.Is p.current ∧ p.Facing gs

/-- How tightly the next glyph binds to what stands before it. -/
def pull : List Glyph → Nat
  | [] => 0
  | g :: _ => (Precedence.ofToken g.kind).rank

section

variable {p : Parser} {g : Glyph} {gs : List Glyph}

theorem Facing.pull_eq (h : p.Facing gs) : (Precedence.ofToken p.peek.kind).rank = pull gs := by
  cases gs with
  | nil =>
    rw [show p.peek.kind = .eof from h]
    rfl
  | cons g gs => rw [h.1.kind, pull]

theorem At.length_le (h : p.At gs) : gs.length ≤ p.lexer.rest.length + 2 := by
  match gs, h with
  | [_], _ => exact Nat.le_add_left _ _
  | _ :: _ :: gs, ⟨_, _, hgives⟩ => exact Nat.add_le_add_right hgives.length_le 2

/-- Moving on from before a glyph is moving onto it. -/
theorem advance_at (h : p.Facing gs) (hne : gs ≠ []) :
    ∃ p', advance p = (.ok (), p') ∧ p'.At gs := by
  match gs, hne, h with
  | [_], _, ⟨hg, t, lexer, hnext, ht⟩ =>
    refine ⟨⟨lexer, p.peek, t⟩, ?_, hg, ht⟩
    rw [advance, bind_ok (get_apply p), hnext]
    rfl
  | _ :: _ :: _, _, ⟨hg, t, lexer, hnext, ht, _, hrest⟩ =>
    refine ⟨⟨lexer, p.peek, t⟩, ?_, hg, ht, hrest⟩
    rw [advance, bind_ok (get_apply p), hnext]
    rfl

theorem expectCloser_facing (kind : TokenKind) (closer : Char) (h : p.Facing (g :: gs))
    (hkind : g.kind = kind) : ∃ p', expectCloser kind closer p = (.ok (), p') ∧ p'.Facing gs := by
  obtain ⟨p', hadvance, hat⟩ := advance_at h (List.cons_ne_nil _ _)
  refine ⟨p', ?_, hat.2⟩
  rw [expectCloser, bind_ok (get_apply p), if_pos (h.1.kind.trans hkind), hadvance]

/-- The parser begins on the first glyph of a text. -/
theorem ofString_at {text : String} (h : Written gs text.toList)
    (hbalanced : Glyph.Balanced 0 gs) (hne : gs ≠ []) : ∃ p, ofString text = .ok p ∧ p.At gs := by
  have hgives : (Lexer.ofString text).Gives gs := Lexer.gives_of_written h rfl hbalanced
  match gs, hne, hgives with
  | [_], _, ⟨t, lx, hnext, ht, _, t', lx', hnext', ht'⟩ =>
    refine ⟨⟨lx', t, t'⟩, ?_, ht, ht'⟩
    rw [ofString, hnext]
    dsimp only
    rw [hnext']
  | _ :: _ :: _, _, ⟨t, lx, hnext, ht, _, t', lx', hnext', ht', _, hrest⟩ =>
    refine ⟨⟨lx', t, t'⟩, ?_, ht, ht', hrest⟩
    rw [ofString, hnext]
    dsimp only
    rw [hnext']

end

/-! ## Operands and what continues them -/

/-- The parser reads an expression up to the rest, and goes on behind its tree. -/
def Arrives (p : Parser) (fuel : Nat) (min : Precedence) (cost : Nat) (tree : Tree)
    (rest : List Glyph) : Prop :=
  ∃ fuel' p', fuel ≤ fuel' + cost ∧ p'.Facing rest ∧
    expression fuel min p = extend fuel' min tree p'

section

variable {p p' : Parser} {fuel cost : Nat} {min : Precedence} {tree left : Tree}
  {gs rest : List Glyph}

theorem arrives_of_operand (h : operand fuel p = (.ok tree, p')) (hrest : p'.Facing rest)
    (hcost : 1 ≤ cost) : p.Arrives (fuel + 1) min cost tree rest := by
  refine ⟨fuel, p', by omega, hrest, ?_⟩
  rw [expression, bind_ok h]

/-- An expression that nothing continues is read on its own. -/
theorem Arrives.expression_eq (h : p.Arrives fuel min cost tree rest)
    (hrest : pull rest ≤ min.rank) :
    ∃ p', p'.Facing rest ∧ expression fuel min p = (.ok tree, p') := by
  obtain ⟨fuel', p', -, hfacing, heq⟩ := h
  refine ⟨p', hfacing, heq.trans ?_⟩
  cases fuel' with
  | zero => rfl
  | succ fuel' =>
    rw [extend, bind_ok (get_apply p'), hfacing.pull_eq, if_neg (Nat.not_lt_of_le hrest),
      pure_apply]

theorem Arrives.mono {cost' : Nat} (h : p.Arrives fuel min cost tree rest) (hle : cost ≤ cost') :
    p.Arrives fuel min cost' tree rest := by
  obtain ⟨fuel', p', hfuel, h⟩ := h
  exact ⟨fuel', p', by omega, h⟩

/-- An expression goes on with what binds more tightly. -/
theorem Arrives.continued (h : p.Arrives fuel min cost left gs) (hfuel : cost < fuel)
    (hmin : min.rank < pull gs)
    (hcontinuation : ∀ {p' fuel'}, p'.At gs → fuel ≤ fuel' + cost + 1 →
      ∃ p'', continuation fuel' left p' = (.ok tree, p'') ∧ p''.Facing rest) :
    p.Arrives fuel min (cost + 1) tree rest := by
  obtain ⟨fuel', p₁, hle, hfacing, heq⟩ := h
  obtain ⟨fuel', rfl⟩ : ∃ n, fuel' = n + 1 := ⟨fuel' - 1, by omega⟩
  have hne : gs ≠ [] := by
    rintro rfl
    exact absurd hmin (Nat.not_lt_zero _)
  obtain ⟨p₂, hadvance, hat⟩ := advance_at hfacing hne
  obtain ⟨p₃, hlonger, hrest⟩ := hcontinuation hat (by omega : fuel ≤ fuel' + cost + 1)
  refine ⟨fuel', p₃, by omega, hrest, ?_⟩
  rw [heq, extend, bind_ok (get_apply p₁), hfacing.pull_eq, if_pos hmin, bind_ok hadvance,
    bind_ok hlonger]

end

end Rule.Parser

open Rule.Parser

/-! ## Operators -/

/-- How tightly a connective binds. -/
def Rule.Connective.precedence : Connective → Precedence
  | .and => .and
  | .or => .or

namespace Rule.Operator

def precedence : Operator → Precedence
  | .compare _ | .within => .compare
  | .connect op => op.precedence

theorem precedence_le (op : Operator) : op.precedence.rank ≤ Precedence.compare.rank := by
  rcases op with op | _ | op
  · exact Nat.le_refl _
  · exact Nat.le_refl _
  · cases op <;> decide

theorem pull_glyph (op : Operator) (gs : List Glyph) :
    pull (op.glyph :: gs) = op.precedence.rank := by
  rcases op with op | _ | op
  · cases op <;> rfl
  · rfl
  · cases op <;> rfl

theorem precedence_pos (op : Operator) : 0 < op.precedence.rank := by
  rcases op with op | _ | op
  · exact Nat.succ_pos _
  · exact Nat.succ_pos _
  · cases op <;> exact Nat.succ_pos _

/-- An operator is applied to what stands before it and to the expression behind it. -/
theorem continuation_eq (op : Operator) {p p₁ p₂ : Parser} {fuel : Nat} {left right : Tree}
    (hkind : p.current.kind = op.glyph.kind) (hadvance : advance p = (.ok (), p₁))
    (hright : expression fuel op.precedence p₁ = (.ok right, p₂)) :
    continuation (fuel + 1) left p = (.ok (op.tree left right), p₂) := by
  rw [continuation, bind_ok (get_apply p), hkind]
  rcases op with op | _ | op
  · cases op <;> exact (bind_ok hadvance).trans (bind_ok hright)
  · exact (bind_ok hadvance).trans (bind_ok hright)
  · cases op <;> exact (bind_ok hadvance).trans (bind_ok hright)

end Rule.Operator

namespace Rule

namespace Parser

section

variable {p p' : Parser} {fuel cost : Nat} {min : Precedence} {tree lhs rhs : Tree}
  {gs rest : List Glyph}

/-- An operator and its right operand continue an expression. Four steps of the recursion lie
between two glyphs at most. -/
theorem Arrives.binary (op : Operator) (h : p.Arrives fuel min cost lhs (op.glyph :: (gs ++ rest)))
    (hmin : min.rank < op.precedence.rank) (hne : gs ≠ []) (hrest : pull rest ≤ op.precedence.rank)
    (hrhs : ∀ {p' : Parser} {fuel : Nat}, p'.At (gs ++ rest) → 4 * gs.length + 4 ≤ fuel →
      p'.Arrives fuel op.precedence (4 * gs.length) rhs rest)
    (hfuel : cost + 4 * gs.length + 6 ≤ fuel) :
    p.Arrives fuel min (cost + 1) (op.tree lhs rhs) rest := by
  refine h.continued (by omega) (by rwa [op.pull_glyph]) fun {p₁ fuel'} hp₁ hfuel' => ?_
  obtain ⟨fuel', rfl⟩ : ∃ n, fuel' = n + 1 := ⟨fuel' - 1, by omega⟩
  obtain ⟨p₂, hadvance, hp₂⟩ := advance_at hp₁.2 (List.append_ne_nil_of_left_ne_nil hne _)
  have hreaches : p₂.Arrives fuel' op.precedence _ rhs rest := hrhs hp₂ (by omega)
  obtain ⟨p₃, hp₃, hright⟩ := hreaches.expression_eq hrest
  exact ⟨p₃, op.continuation_eq hp₁.1.kind hadvance hright, hp₃⟩

/-- `not` is about the expression behind it. -/
theorem arrives_not (hp : p.At (.lexeme (.word "not") :: gs)) (hne : gs ≠ [])
    (h : ∀ {p' : Parser}, p'.At gs → p'.Arrives fuel .not cost tree rest)
    (hrest : pull rest ≤ Precedence.not.rank) :
    p.Arrives (fuel + 2) min 1 (.not tree) rest := by
  have hkind : p.current.kind = .not := hp.1.kind
  obtain ⟨p₁, hadvance, hp₁⟩ := advance_at hp.2 hne
  obtain ⟨p₂, hp₂, hinner⟩ := (h hp₁).expression_eq hrest
  refine arrives_of_operand ?_ hp₂ (Nat.le_refl 1)
  rw [operand, bind_ok (get_apply p), hkind]
  dsimp only
  rw [bind_ok hadvance, bind_ok hinner, pure_apply]

end

/-! ## Loops over lists -/

/-- The loop reads further expressions, each behind a comma. In front of `rest` it ends, and
leaves the parser in front of `behind`. -/
structure Repeats (loop : Nat → ParseM (List Tree)) (rest behind : List Glyph) : Prop where
  ends : pull rest = 0
  stop : ∀ {p : Parser} (fuel : Nat), p.Facing rest →
    ∃ p', p'.Facing behind ∧ loop (fuel + 1) p = (.ok [], p')
  step : ∀ {p : Parser} {g : Glyph} {gs : List Glyph} (fuel : Nat),
    p.Facing (.lexeme .comma :: g :: gs) → g.kind ≠ .closeParen →
    ∃ p', p'.At (g :: gs) ∧ loop (fuel + 1) p = (do
      let first ← expression fuel .lowest
      let others ← loop fuel
      pure (first :: others)) p'

theorem arguments_repeats (rest : List Glyph) :
    Repeats arguments (.lexeme .closeParen :: rest) (.lexeme .closeParen :: rest) where
  ends := rfl
  stop {p} fuel hp := by
    have hpeek : p.peek.kind ≠ .comma := by
      rw [show p.peek.kind = .closeParen from hp.1.kind]
      decide
    refine ⟨p, hp, ?_⟩
    rw [arguments, bind_ok (get_apply p), if_neg hpeek, pure_apply]
  step {p g gs} fuel hp _ := by
    have hpeek : p.peek.kind = .comma := hp.1.kind
    obtain ⟨p₁, hadvance₁, hp₁⟩ := advance_at hp (List.cons_ne_nil _ _)
    obtain ⟨p₂, hadvance₂, hp₂⟩ := advance_at hp₁.2 (List.cons_ne_nil _ _)
    refine ⟨p₂, hp₂, ?_⟩
    rw [arguments, bind_ok (get_apply p), if_pos hpeek, bind_ok hadvance₁, bind_ok hadvance₂]

/-- The loop over elements goes on if no closer is behind the comma. -/
theorem elements_step {p : Parser} {g : Glyph} {gs : List Glyph} (fuel : Nat)
    (hp : p.Facing (.lexeme .comma :: g :: gs)) (hg : g.kind ≠ .closeParen) :
    ∃ p', p'.At (g :: gs) ∧ elements (fuel + 1) p = (do
      let first ← expression fuel .lowest
      let others ← elements fuel
      pure (first :: others)) p' := by
  have hpeek : p.peek.kind = .comma := hp.1.kind
  obtain ⟨p₁, hadvance₁, hp₁⟩ := advance_at hp (List.cons_ne_nil _ _)
  have hpeek₁ : p₁.peek.kind ≠ .closeParen := fun h => hg (hp₁.2.1.kind.symm.trans h)
  obtain ⟨p₂, hadvance₂, hp₂⟩ := advance_at hp₁.2 (List.cons_ne_nil _ _)
  refine ⟨p₂, hp₂, ?_⟩
  rw [elements, bind_ok (get_apply p), if_pos hpeek, bind_ok hadvance₁, bind_ok (get_apply p₁),
    if_neg hpeek₁, bind_ok hadvance₂]

theorem elements_repeats (rest : List Glyph) :
    Repeats elements (.lexeme .closeParen :: rest) (.lexeme .closeParen :: rest) where
  ends := rfl
  stop {p} fuel hp := by
    have hpeek : p.peek.kind ≠ .comma := by
      rw [show p.peek.kind = .closeParen from hp.1.kind]
      decide
    refine ⟨p, hp, ?_⟩
    rw [elements, bind_ok (get_apply p), if_neg hpeek, pure_apply]
  step := elements_step

/-- Elements may end with a comma. -/
theorem elements_repeats_comma (rest : List Glyph) :
    Repeats elements (.lexeme .comma :: .lexeme .closeParen :: rest)
      (.lexeme .closeParen :: rest) where
  ends := rfl
  stop {p} fuel hp := by
    have hpeek : p.peek.kind = .comma := hp.1.kind
    obtain ⟨p₁, hadvance, hp₁⟩ := advance_at hp (List.cons_ne_nil _ _)
    have hpeek₁ : p₁.peek.kind = .closeParen := hp₁.2.1.kind
    refine ⟨p₁, hp₁.2, ?_⟩
    rw [elements, bind_ok (get_apply p), if_pos hpeek, bind_ok hadvance, bind_ok (get_apply p₁),
      if_pos hpeek₁, pure_apply]
  step := elements_step

/-! ## Reading print-outs -/

/-- The parser, put in front of the glyphs, reads what they are a print-out of. Four steps of
the recursion lie between two glyphs at most. -/
def IsRead : Printout → List Glyph → Prop
  | .operand tree, gs => ∀ {p : Parser} {fuel : Nat} {min : Precedence} {rest : List Glyph},
      p.At (gs ++ rest) → min.rank ≤ Precedence.compare.rank → 4 * gs.length + 4 ≤ fuel →
      p.Arrives fuel min (4 * gs.length) tree rest
  | .expression tree, gs => ∀ {p : Parser} {fuel : Nat} {rest : List Glyph},
      p.At (gs ++ rest) → pull rest = 0 → 4 * gs.length + 4 ≤ fuel →
      ∃ p', p'.Facing rest ∧ expression fuel .lowest p = (.ok tree, p')
  | .list trees, gs => ∀ {loop : Nat → ParseM (List Tree)} {p : Parser} {fuel : Nat}
      {rest behind : List Glyph}, Repeats loop rest behind → p.At (gs ++ rest) →
      4 * gs.length + 4 ≤ fuel →
      ∃ first others p₁ p₂, trees = first :: others ∧
        expression fuel .lowest p = (.ok first, p₁) ∧ loop fuel p₁ = (.ok others, p₂) ∧
        (others = [] ∧ p₁.Facing rest ∨ p₁.peek.kind = .comma) ∧ p₂.Facing behind

namespace IsRead

variable {tree lhs rhs : Tree} {gs hs : List Glyph}

/-- What the parser answers at once. -/
theorem leaf {g : Glyph}
    (h : ∀ {p : Parser} {fuel : Nat} {rest : List Glyph}, p.At (g :: rest) →
      operand (fuel + 1) p = (.ok tree, p)) : IsRead (.operand tree) [g] := by
  intro p fuel min rest hp _ hfuel
  obtain ⟨fuel, rfl⟩ : ∃ n, fuel = n + 2 := ⟨fuel - 2, by omega⟩
  exact arrives_of_operand (h hp) hp.2 (Nat.le_add_left 1 3)

theorem identifier {name : String} (hname : TokenKind.ofWord name = .identifier) :
    IsRead (.operand (.identifier name)) [.lexeme (.word name)] := by
  refine leaf fun {p fuel rest} hp => ?_
  have hkind : p.current.kind = .identifier := hp.1.kind.trans hname
  have htext : p.current.text = name := hp.1.text
  rw [operand, bind_ok (get_apply p), hkind, htext]
  rfl

theorem bool {value : Bool} {word : String}
    (hword : TokenKind.ofWord word = if value then .true else .false) :
    IsRead (.operand (.bool value)) [.lexeme (.word word)] := by
  refine leaf fun {p fuel rest} hp => ?_
  have hkind : p.current.kind = if value then .true else .false := hp.1.kind.trans hword
  rw [operand, bind_ok (get_apply p), hkind]
  cases value <;> rfl

theorem number (digits : String) :
    IsRead (.operand (.number (numeral digits))) [.lexeme (.numeral digits)] := by
  refine leaf fun {p fuel rest} hp => ?_
  have hkind : p.current.kind = .number := hp.1.kind
  have htext : p.current.text = digits := hp.1.text
  rw [operand, bind_ok (get_apply p), hkind, htext]
  rfl

theorem string (quote : Char) (value : String) :
    IsRead (.operand (.string value)) [.string quote value] := by
  refine leaf fun {p fuel rest} hp => ?_
  have hkind : p.current.kind = .string := hp.1.kind
  have htext : p.current.text = value := hp.1.text
  rw [operand, bind_ok (get_apply p), hkind, htext]
  rfl

theorem paren (hne : gs ≠ []) (h : IsRead (.expression tree) gs) :
    IsRead (.operand tree) (Glyph.lexeme .openParen :: (gs ++ [Glyph.lexeme .closeParen])) := by
  intro p fuel min rest hp _ hfuel
  simp only [List.length_cons, List.length_append, List.length_nil] at hfuel ⊢
  obtain ⟨fuel, rfl⟩ : ∃ n, fuel = n + 2 := ⟨fuel - 2, by omega⟩
  rw [List.cons_append, List.append_assoc] at hp
  have hkind : p.current.kind = .openParen := hp.1.kind
  obtain ⟨p₁, hadvance, hp₁⟩ := advance_at hp.2 (List.append_ne_nil_of_left_ne_nil hne _)
  obtain ⟨p₂, hp₂, hinner⟩ := h hp₁ rfl (by omega : 4 * gs.length + 4 ≤ fuel)
  have hpeek : p₂.peek.kind ≠ .comma := by
    rw [show p₂.peek.kind = .closeParen from hp₂.1.kind]
    decide
  obtain ⟨p₃, hcloser, hp₃⟩ := expectCloser_facing .closeParen ')' hp₂ rfl
  refine arrives_of_operand ?_ hp₃ (by omega)
  rw [operand, bind_ok (get_apply p), hkind]
  dsimp only
  rw [bind_ok hadvance, bind_ok hinner, bind_ok (get_apply p₂), if_neg hpeek, bind_ok hcloser,
    pure_apply]

/-- Elements are a tuple if there is a comma among them or behind them. -/
theorem tuple {trees : List Tree} (last : List Glyph) (hne : gs ≠ [])
    (h : IsRead (.list trees) gs)
    (hrepeats : ∀ rest, Repeats elements (last ++ Glyph.lexeme .closeParen :: rest)
      (.lexeme .closeParen :: rest))
    (hcomma : (∃ first second others, trees = first :: second :: others) ∨
      last = [.lexeme .comma]) :
    IsRead (.operand (.tuple trees))
      (Glyph.lexeme .openParen :: (gs ++ (last ++ [Glyph.lexeme .closeParen]))) := by
  intro p fuel min rest hp _ hfuel
  simp only [List.length_cons, List.length_append, List.length_nil] at hfuel ⊢
  obtain ⟨fuel, rfl⟩ : ∃ n, fuel = n + 2 := ⟨fuel - 2, by omega⟩
  rw [List.cons_append, List.append_assoc, List.append_assoc, List.singleton_append] at hp
  have hkind : p.current.kind = .openParen := hp.1.kind
  obtain ⟨p₁, hadvance, hp₁⟩ := advance_at hp.2 (List.append_ne_nil_of_left_ne_nil hne _)
  obtain ⟨first, others, p₂, p₃, rfl, hfirst, hothers, hbetween, hp₃⟩ :=
    h (hrepeats rest) hp₁ (by omega : 4 * gs.length + 4 ≤ fuel)
  have hpeek : p₂.peek.kind = .comma := by
    obtain ⟨rfl, hp₂⟩ | hpeek := hbetween
    · obtain ⟨_, _, _, htrees⟩ | rfl := hcomma
      · exact absurd (List.cons.inj htrees).2 (List.cons_ne_nil _ _).symm
      · exact hp₂.1.kind
    · exact hpeek
  obtain ⟨p₄, hcloser, hp₄⟩ := expectCloser_facing .closeParen ')' hp₃ rfl
  refine arrives_of_operand ?_ hp₄ (by omega)
  rw [operand, bind_ok (get_apply p), hkind]
  dsimp only
  rw [bind_ok hadvance, bind_ok hfirst, bind_ok (get_apply p₂), if_pos hpeek, bind_ok hothers,
    bind_ok hcloser, pure_apply]

theorem ask {callee : Tree} (h : IsRead (.operand callee) gs) :
    IsRead (.operand (.call callee []))
      (gs ++ [Glyph.lexeme .openParen, Glyph.lexeme .closeParen]) := by
  intro p fuel min rest hp hmin hfuel
  simp only [List.length_cons, List.length_append, List.length_nil] at hfuel ⊢
  rw [List.append_assoc] at hp
  have hcallee : p.Arrives fuel min _ callee _ := h hp hmin (by omega)
  have hahead : min.rank < Precedence.call.rank := Nat.lt_of_le_of_lt hmin (by decide)
  refine (hcallee.continued (by omega) hahead ?_).mono (by omega)
  intro p₁ fuel' hp₁ hfuel'
  obtain ⟨fuel', rfl⟩ : ∃ n, fuel' = n + 1 := ⟨fuel' - 1, by omega⟩
  have hkind : p₁.current.kind = .openParen := hp₁.1.kind
  have hpeek : p₁.peek.kind = .closeParen := hp₁.2.1.kind
  obtain ⟨p₂, hadvance, hp₂⟩ := advance_at hp₁.2 (List.cons_ne_nil _ _)
  refine ⟨p₂, ?_, hp₂.2⟩
  rw [continuation, bind_ok (get_apply p₁), hkind]
  dsimp only
  rw [bind_ok (get_apply p₁), if_pos hpeek, bind_ok hadvance, pure_apply]

theorem call {callee : Tree} {args : List Tree}
    (hhead : ∃ g rest, hs = g :: rest ∧ g.kind ≠ .closeParen) (h : IsRead (.operand callee) gs)
    (hargs : IsRead (.list args) hs) :
    IsRead (.operand (.call callee args))
      (gs ++ Glyph.lexeme .openParen :: (hs ++ [Glyph.lexeme .closeParen])) := by
  intro p fuel min rest hp hmin hfuel
  simp only [List.length_cons, List.length_append, List.length_nil] at hfuel ⊢
  rw [List.append_assoc, List.cons_append, List.append_assoc, List.singleton_append] at hp
  have hcallee : p.Arrives fuel min _ callee _ := h hp hmin (by omega)
  have hahead : min.rank < Precedence.call.rank := Nat.lt_of_le_of_lt hmin (by decide)
  refine (hcallee.continued (by omega) hahead ?_).mono (by omega)
  intro p₁ fuel' hp₁ hfuel'
  obtain ⟨fuel', rfl⟩ : ∃ n, fuel' = n + 1 := ⟨fuel' - 1, by omega⟩
  obtain ⟨g, hs, rfl, hg⟩ := hhead
  have hkind : p₁.current.kind = .openParen := hp₁.1.kind
  have hpeek : p₁.peek.kind ≠ .closeParen := fun hclose => hg (hp₁.2.1.kind.symm.trans hclose)
  obtain ⟨p₂, hadvance, hp₂⟩ := advance_at hp₁.2 (List.cons_ne_nil _ _)
  obtain ⟨first, others, p₃, p₄, rfl, hfirst, hothers, -, hp₄⟩ :=
    hargs (arguments_repeats rest) hp₂ (by omega : 4 * (g :: hs).length + 4 ≤ fuel')
  obtain ⟨p₅, hcloser, hp₅⟩ := expectCloser_facing .closeParen ')' hp₄ rfl
  refine ⟨p₅, ?_, hp₅⟩
  rw [continuation, bind_ok (get_apply p₁), hkind]
  dsimp only
  rw [bind_ok (get_apply p₁), if_neg hpeek, bind_ok hadvance, bind_ok hfirst, bind_ok hothers,
    bind_ok hcloser, pure_apply]

theorem subscript {target index : Tree} (hne : hs ≠ []) (h : IsRead (.operand target) gs)
    (hindex : IsRead (.expression index) hs) :
    IsRead (.operand (.subscript target index))
      (gs ++ Glyph.openBracket :: (hs ++ [Glyph.closeBracket])) := by
  intro p fuel min rest hp hmin hfuel
  simp only [List.length_cons, List.length_append, List.length_nil] at hfuel ⊢
  rw [List.append_assoc, List.cons_append, List.append_assoc] at hp
  have htarget : p.Arrives fuel min _ target _ := h hp hmin (by omega)
  have hahead : min.rank < Precedence.index.rank := Nat.lt_of_le_of_lt hmin (by decide)
  refine (htarget.continued (by omega) hahead ?_).mono (by omega)
  intro p₁ fuel' hp₁ hfuel'
  obtain ⟨fuel', rfl⟩ : ∃ n, fuel' = n + 1 := ⟨fuel' - 1, by omega⟩
  have hkind : p₁.current.kind = .openBracket := hp₁.1.kind
  obtain ⟨p₂, hadvance, hp₂⟩ := advance_at hp₁.2 (List.append_ne_nil_of_left_ne_nil hne _)
  obtain ⟨p₃, hp₃, hinner⟩ := hindex hp₂ rfl (by omega : 4 * hs.length + 4 ≤ fuel')
  obtain ⟨p₄, hcloser, hp₄⟩ := expectCloser_facing .closeBracket ']' hp₃ rfl
  refine ⟨p₄, ?_, hp₄⟩
  rw [continuation, bind_ok (get_apply p₁), hkind]
  dsimp only
  rw [bind_ok hadvance, bind_ok hinner, bind_ok hcloser, pure_apply]

/-- An expression is read if the parser gets behind it. -/
theorem of_arrives (h : ∀ {p : Parser} {fuel : Nat} {rest : List Glyph}, p.At (gs ++ rest) →
    pull rest = 0 → 4 * gs.length + 4 ≤ fuel →
      p.Arrives fuel .lowest (4 * gs.length) tree rest) : IsRead (.expression tree) gs :=
  fun hp hrest hfuel => (h hp hrest hfuel).expression_eq (Nat.le_of_eq hrest)

theorem plain (h : IsRead (.operand tree) gs) : IsRead (.expression tree) gs :=
  of_arrives fun hp _ hfuel => h hp (Nat.zero_le _) hfuel

theorem not (hne : gs ≠ []) (h : IsRead (.operand tree) gs) :
    IsRead (.expression (.not tree)) (Glyph.lexeme (.word "not") :: gs) := by
  intro p fuel rest hp hrest hfuel
  simp only [List.length_cons] at hfuel
  obtain ⟨fuel, rfl⟩ : ∃ n, fuel = n + 2 := ⟨fuel - 2, by omega⟩
  have hinner : ∀ {p' : Parser}, p'.At (gs ++ rest) → p'.Arrives fuel .not _ tree rest :=
    fun hp' => h hp' (by decide) (by omega)
  exact (arrives_not hp (List.append_ne_nil_of_left_ne_nil hne _) hinner
    (hrest ▸ Nat.zero_le _)).expression_eq (Nat.le_of_eq hrest)

theorem binary (op : Operator) (hne : hs ≠ []) (hl : IsRead (.operand lhs) gs)
    (hr : IsRead (.operand rhs) hs) :
    IsRead (.expression (op.tree lhs rhs)) (gs ++ op.glyph :: hs) := by
  intro p fuel rest hp hrest hfuel
  simp only [List.length_cons, List.length_append] at hfuel
  rw [List.append_assoc, List.cons_append] at hp
  have hlhs : p.Arrives fuel .lowest _ lhs _ := hl hp (Nat.zero_le _) (by omega)
  exact (hlhs.binary op op.precedence_pos hne (hrest ▸ Nat.zero_le _)
    (fun hp' => hr hp' op.precedence_le) (by omega)).expression_eq (Nat.le_of_eq hrest)

theorem single (h : IsRead (.expression tree) gs) : IsRead (.list [tree]) gs := by
  intro loop p fuel rest behind hrepeats hp hfuel
  obtain ⟨p₁, hp₁, hfirst⟩ := h hp hrepeats.ends hfuel
  obtain ⟨fuel, rfl⟩ : ∃ n, fuel = n + 1 := ⟨fuel - 1, by omega⟩
  obtain ⟨p₂, hp₂, hstop⟩ := hrepeats.stop fuel hp₁
  exact ⟨tree, [], p₁, p₂, rfl, hfirst, hstop, .inl ⟨rfl, hp₁⟩, hp₂⟩

theorem cons {trees : List Tree} (hhead : ∃ g rest, hs = g :: rest ∧ g.kind ≠ .closeParen)
    (h : IsRead (.expression tree) gs) (hrest : IsRead (.list trees) hs) :
    IsRead (.list (tree :: trees)) (gs ++ Glyph.lexeme .comma :: hs) := by
  intro loop p fuel rest behind hrepeats hp hfuel
  simp only [List.length_cons, List.length_append] at hfuel
  rw [List.append_assoc, List.cons_append] at hp
  obtain ⟨p₁, hp₁, hfirst⟩ := h hp rfl (by omega : 4 * gs.length + 4 ≤ fuel)
  obtain ⟨fuel, rfl⟩ : ∃ n, fuel = n + 1 := ⟨fuel - 1, by omega⟩
  obtain ⟨g, hs, rfl, hg⟩ := hhead
  obtain ⟨p₂, hp₂, hstep⟩ := hrepeats.step fuel hp₁ hg
  obtain ⟨second, others, p₃, p₄, rfl, hsecond, hothers, -, hp₄⟩ :=
    hrest hrepeats hp₂ (by omega : 4 * (g :: hs).length + 4 ≤ fuel)
  refine ⟨tree, second :: others, p₁, p₄, rfl, hfirst, ?_, .inr hp₁.1.kind, hp₄⟩
  rw [hstep, bind_ok hsecond, bind_ok hothers, pure_apply]

end IsRead

/-- What is printed is read. -/
theorem isRead_of_prints {printout : Printout} {gs : List Glyph} (h : Prints printout gs) :
    IsRead printout gs := by
  induction h with
  | identifier hname => exact IsRead.identifier hname
  | bool _ _ hword => exact IsRead.bool hword
  | number digits => exact IsRead.number digits
  | string quote value => exact IsRead.string quote value
  | paren h ih => exact IsRead.paren h.ne_nil ih
  | ask _ ih => exact IsRead.ask ih
  | call _ hargs ih ihargs => exact IsRead.call hargs.head ih ihargs
  | subscript _ hindex ih ihindex => exact IsRead.subscript hindex.ne_nil ih ihindex
  | tuple h ih => exact IsRead.tuple [] h.ne_nil ih elements_repeats (.inl ⟨_, _, _, rfl⟩)
  | tupleComma h ih => exact IsRead.tuple [_] h.ne_nil ih elements_repeats_comma (.inr rfl)
  | not h ih => exact IsRead.not h.ne_nil ih
  | binary op _ hr ihl ihr => exact IsRead.binary op hr.ne_nil ihl ihr
  | plain _ ih => exact IsRead.plain ih
  | single _ ih => exact IsRead.single ih
  | cons _ hrest ih ihrest => exact IsRead.cons hrest.head ih ihrest

end Parser

/-- The print-out of an operand is read wherever comparisons are. -/
theorem Prints.arrives {tree : Tree} {gs rest : List Glyph} {p : Parser} {fuel : Nat}
    {min : Precedence} (h : Prints (.operand tree) gs) (hp : p.At (gs ++ rest))
    (hmin : min.rank ≤ Precedence.compare.rank) (hfuel : 4 * gs.length + 4 ≤ fuel) :
    p.Arrives fuel min (4 * gs.length) tree rest :=
  Parser.isRead_of_prints h hp hmin hfuel

/-- A text is parsed to the tree that the parser reads off its glyphs. -/
theorem parse_of_isRead {tree : Tree} {text : String} {gs : List Glyph}
    (hwritten : Written gs text.toList) (hneutral : Glyph.Neutral gs) (hne : gs ≠ [])
    (hread : Parser.IsRead (.expression tree) gs) : parse text = .ok tree := by
  have hbalanced : Glyph.Balanced 0 (gs ++ []) := hneutral 0 [] rfl
  rw [List.append_nil] at hbalanced
  obtain ⟨p, hstart, hp⟩ := Parser.ofString_at hwritten hbalanced hne
  -- The bound leaves four steps for every glyph, and some more.
  have hlength := hp.length_le
  have hbound : 4 * gs.length + 4 ≤ p.bound := by
    unfold Parser.bound
    omega
  obtain ⟨p', hend, hexpression⟩ :=
    hread ((List.append_nil gs).symm ▸ hp : p.At (gs ++ [])) rfl hbound
  have hresult : p.readExpression .lowest = (.ok tree, p') := hexpression
  have heof : p'.peek.kind = .eof := hend
  rw [parse, hstart]
  dsimp only [bind, Except.bind]
  rw [hresult]
  dsimp only
  rw [if_pos heof]
  rfl

/-- A text in which the tree is printed: its glyphs with blanks between them. -/
def Tree.PrintedAs (tree : Tree) (text : String) : Prop :=
  ∃ gs, Prints (.expression tree) gs ∧ Written gs text.toList

/-- A print-out is parsed to its tree. -/
theorem parse_of_printed {tree : Tree} {text : String} (h : tree.PrintedAs text) :
    parse text = .ok tree := by
  obtain ⟨gs, hprints, hwritten⟩ := h
  exact parse_of_isRead hwritten hprints.neutral hprints.ne_nil (Parser.isRead_of_prints hprints)

/-- The parser is complete for its language: each tree of it can be printed, and every text in
which it is printed is parsed to this very tree. -/
theorem printable_parsed {tree : Tree} (h : tree.Printable) :
    (∃ text, tree.PrintedAs text) ∧ ∀ text, tree.PrintedAs text → parse text = .ok tree := by
  refine ⟨?_, fun text => parse_of_printed⟩
  obtain ⟨gs, hprints, hgs⟩ := h.exists_prints
  obtain ⟨cs, hwritten⟩ := exists_written hgs
  exact ⟨.ofList cs, gs, .plain hprints, by rwa [String.toList_ofList]⟩

/-- A rule in which a call of two arguments, one of them a tuple of one element, is compared
with a subscript by a text that has an apostrophe. -/
def gateRule : Tree :=
  .compare .unequal
    (.call (.identifier "reach")
      [.not (.identifier "night"), .tuple [.number (Parser.numeral "12")]])
    (.subscript (.identifier "gates") (.string "hero's"))

theorem gateRule_parsed :
    gateRule.Printable ∧ (∃ text, gateRule.PrintedAs text) ∧
      ∀ text, gateRule.PrintedAs text → parse text = .ok gateRule := by
  have hname : ∀ {name : String} {c : Char} {cs : List Char}, name.toList = c :: cs →
      isWordStart c = true → cs.all isWordPart = true → TokenKind.ofWord name = .identifier →
      Tree.Printable (.identifier name) := fun h hc hcs hkind =>
    .identifier (Lexeme.wellFormed_word h hc hcs) hkind
  have hnumber : Tree.Printable (.number (Parser.numeral "12")) :=
    .number ⟨by decide, List.all_eq_true.mp (by decide)⟩
  have hargs : ∀ arg ∈ [Tree.not (.identifier "night"), .tuple [.number (Parser.numeral "12")]],
      arg.Printable :=
    List.forall_mem_cons.mpr ⟨.not (hname rfl (by decide) (by decide) (by decide)),
      List.forall_mem_singleton.mpr (.tuple (List.cons_ne_nil _ _)
        (List.forall_mem_singleton.mpr hnumber))⟩
  have hprintable : gateRule.Printable :=
    .compare (.call (hname rfl (by decide) (by decide) (by decide)) hargs)
      (.subscript (hname rfl (by decide) (by decide) (by decide)) (.string (.inr (by decide))))
  exact ⟨hprintable, printable_parsed hprintable⟩

end Rule

end Passage

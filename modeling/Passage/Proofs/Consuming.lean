import Passage.Proofs.Fallible
import Passage.Proofs.Lexing
import Passage.Rule.Parser

/-!
# What parsing consumes

A rule is made of marks, which are its leaves and its operators, and of punctuation. The
tree of a rule has just the marks of its tokens, in their order (`marks_of_parse`):
parsing drops none, doubles none and moves none.

Where the parser stands between two functions is told by its current token and one more;
so what is shown of each function is over which tokens the parser moves on (`Moves`), and
that their marks are what the function adds to the tree. An expression begins on its first
token, which is current already (`Covers`); what continues an expression begins before its
first token (`Spans`).
-/

namespace Passage

namespace Rule

/-- A leaf or an operator of a rule. -/
inductive Mark where
  | identifier (name : String)
  | number (value : Number)
  | string (value : String)
  | bool (value : Bool)
  | compare (op : Comparison)
  | within
  | connect (op : Connective)
  | not
deriving DecidableEq

/-- What a token marks: parentheses, brackets, commas and the end mark nothing. -/
def Token.mark? (t : Token) : Option Mark :=
  match t.kind with
  | .identifier => some (.identifier t.text)
  | .number => some (.number (Parser.numeral t.text))
  | .string => some (.string t.text)
  | .true => some (.bool true)
  | .false => some (.bool false)
  | .and => some (.connect .and)
  | .or => some (.connect .or)
  | .not => some .not
  | .isIn => some .within
  | .equal => some (.compare .equal)
  | .unequal => some (.compare .unequal)
  | .less => some (.compare .less)
  | .comma | .openParen | .closeParen | .openBracket | .closeBracket | .eof => none

/-- The kinds of tokens that group and separate. -/
def TokenKind.punctuation : List TokenKind :=
  [.comma, .openParen, .closeParen, .openBracket, .closeBracket]

/-- A token that marks nothing is punctuation or the end. -/
theorem Token.kind_of_mark? {t : Token} (h : t.mark? = none) (heof : t.kind ≠ .eof) :
    t.kind ∈ TokenKind.punctuation := by
  unfold Token.mark? at h
  cases hkind : t.kind <;> rw [hkind] at h heof
  case eof => exact absurd rfl heof
  case comma | openParen | closeParen | openBracket | closeBracket => decide
  all_goals exact absurd h (Option.some_ne_none _)

theorem Token.mark?_of_punctuation {t : Token} (h : t.kind ∈ TokenKind.punctuation) :
    t.mark? = none ∧ t.kind ≠ .eof := by
  unfold Token.mark?
  simp only [TokenKind.punctuation, List.mem_cons, List.not_mem_nil, or_false] at h
  rcases h with h | h | h | h | h <;> rw [h] <;> exact ⟨rfl, by decide⟩

namespace Tree

mutual

/-- The leaves and operators of a tree from left to right: an operator stands between its
operands, `not` before its operand, a callee before its arguments and a target before its
index. -/
def marks : Tree → List Mark
  | .identifier name => [.identifier name]
  | .bool value => [.bool value]
  | .number value => [.number value]
  | .string value => [.string value]
  | .compare op lhs rhs => lhs.marks ++ .compare op :: rhs.marks
  | .within lhs rhs => lhs.marks ++ .within :: rhs.marks
  | .connect op lhs rhs => lhs.marks ++ .connect op :: rhs.marks
  | .not operand => .not :: operand.marks
  | .call callee args => callee.marks ++ marksOf args
  | .subscript target index => target.marks ++ index.marks
  | .tuple elements => marksOf elements

/-- The marks of trees in a row. -/
def marksOf : List Tree → List Mark
  | [] => []
  | tree :: rest => tree.marks ++ marksOf rest

end

end Tree

/-! ## Tokens take characters -/

namespace Lexer

theorem length_skipFrom (depth : Nat) (inComment : Bool) (cs : List Char) (position : Nat) :
    (skipFrom depth inComment cs position).rest.length ≤ cs.length := by
  induction cs generalizing inComment position with
  | nil => exact Nat.le_refl _
  | cons c cs ih =>
    have hskip : ∀ inComment position,
        (skipFrom depth inComment cs position).rest.length ≤ (c :: cs).length :=
      fun _ _ => Nat.le_succ_of_le (ih _ _)
    unfold skipFrom
    split
    · exact hskip _ _
    · split
      · exact hskip _ _
      · split
        · exact hskip _ _
        · exact Nat.le_refl _

variable {l l' : Lexer} {t : Token}

/-- A run of characters that has a first one leaves less to read. -/
theorem length_run {part : Char → Bool} {kindOf : String → TokenKind} {c : Char} {cs : List Char}
    (hrest : l.rest = c :: cs) (hc : part c = true) (h : l.run part kindOf = (.ok t, l')) :
    l'.rest.length < l.rest.length := by
  have hdrop : (l.rest.dropWhile part).length < l.rest.length := by
    rw [hrest, List.dropWhile_cons_of_pos hc]
    exact Nat.lt_succ_of_le (List.length_dropWhile_le _ _)
  unfold run at h
  dsimp only at h
  split at h
  · obtain ⟨-, rfl⟩ := Prod.mk.inj h
    exact hdrop
  · split at h
    · obtain ⟨-, rfl⟩ := Prod.mk.inj h
      exact hdrop
    · cases h

theorem length_string {quote c : Char} {body : List Char} (hrest : l.rest = c :: body)
    (h : l.string quote body = (.ok t, l')) : l'.rest.length < l.rest.length := by
  unfold string at h
  dsimp only at h
  split at h
  · cases h
  · rename_i rest hbody
    obtain ⟨-, rfl⟩ := Prod.mk.inj h
    have hle := List.length_dropWhile_le (· != quote) body
    rw [hbody] at hle
    rw [hrest]
    exact Nat.lt_succ_of_lt hle

theorem length_sign {kind : TokenKind} {text : String} {rest : List Char} {n : Nat}
    (hlt : rest.length < n) (h : l.sign kind text rest = (.ok t, l')) : l'.rest.length < n := by
  obtain ⟨-, rfl⟩ := Prod.mk.inj h
  exact hlt

theorem length_closer {kind : TokenKind} {c : Char} {rest : List Char} {n : Nat}
    (hlt : rest.length < n) (h : l.closer kind c rest = (.ok t, l')) : l'.rest.length < n := by
  unfold closer at h
  split at h
  · cases h
  · exact length_sign hlt h

/-- A token other than the end takes a character at least. -/
theorem length_token (h : l.token = (.ok t, l')) (heof : t.kind ≠ .eof) :
    l'.rest.length < l.rest.length := by
  unfold token at h
  split at h <;> rename_i hrest
  case h_1 =>
    split at h
    · obtain ⟨ht, -⟩ := Prod.mk.inj h
      exact absurd (congrArg Token.kind (Except.ok.inj ht).symm) heof
    · cases h
  case h_10 | h_11 => exact length_string hrest h
  case h_12 =>
    split at h
    · rename_i hstart
      exact length_run hrest (isWordPart_of_isWordStart hstart) h
    · split at h
      · rename_i hdigit
        exact length_run hrest hdigit h
      · cases h
  case h_8 | h_9 => exact length_closer (by rw [hrest]; exact Nat.lt_succ_self _) h
  all_goals exact length_sign (by rw [hrest]; simp) h

/-- What is skipped in front of a token is characters, too. -/
theorem length_next (h : l.next = (.ok t, l')) (heof : t.kind ≠ .eof) :
    l'.rest.length < l.rest.length :=
  Nat.lt_of_lt_of_le (length_token h heof) (length_skipFrom _ _ _ _)

end Lexer

namespace Parser

/-! ## Moving over tokens -/

/-- To advance is to make the next token the current one, and to ask the lexer for
another. -/
theorem advance_eq_ok {p p₁ : Parser} (h : advance p = (.ok (), p₁)) :
    p₁.current = p.peek ∧ p.lexer.next = (.ok p₁.peek, p₁.lexer) := by
  rw [advance, bind_ok (get_apply p)] at h
  rcases hnext : p.lexer.next with ⟨e | t, l⟩ <;> rw [hnext] at h
  · dsimp only at h
    rw [bind_ok (set_apply p _)] at h
    cases h
  · obtain ⟨-, rfl⟩ := Prod.mk.inj h
    exact ⟨rfl, rfl⟩

/-- The parser moves on over the tokens, the last of which is then its current one; the
end is not among them. -/
inductive Moves : Parser → List Token → Parser → Prop
  | here (p : Parser) : Moves p [] p
  | on {p p₁ p₂ : Parser} {ts : List Token} : advance p = (.ok (), p₁) → p.peek.kind ≠ .eof →
      Moves p₁ ts p₂ → Moves p (p.peek :: ts) p₂

/-- The parser moves on over tokens with these marks. -/
def Spans (p : Parser) (marks : List Mark) (p' : Parser) : Prop :=
  ∃ ts, p.Moves ts p' ∧ ts.filterMap Token.mark? = marks

/-- The current token and those that the parser moves on over have these marks. -/
def Covers (p : Parser) (marks : List Mark) (p' : Parser) : Prop :=
  p.current.kind ≠ .eof ∧ ∃ ts, p.Moves ts p' ∧
    (p.current :: ts).filterMap Token.mark? = marks

section

variable {p p₁ p₂ : Parser} {ms ns : List Mark}

theorem Moves.trans {ts us : List Token} (h : p.Moves ts p₁) (h' : p₁.Moves us p₂) :
    p.Moves (ts ++ us) p₂ := by
  induction h with
  | here => exact h'
  | on hadvance heof _ ih => exact .on hadvance heof (ih h')

theorem Moves.kind_ne_eof {ts : List Token} (h : p.Moves ts p₁) : ∀ t ∈ ts, t.kind ≠ .eof := by
  induction h with
  | here => exact List.forall_mem_nil _
  | on _ heof _ ih => exact List.forall_mem_cons.mpr ⟨heof, ih⟩

theorem Spans.here (p : Parser) : p.Spans [] p := ⟨[], .here p, rfl⟩

theorem Spans.trans (h : p.Spans ms p₁) (h' : p₁.Spans ns p₂) : p.Spans (ms ++ ns) p₂ := by
  obtain ⟨ts, hts, rfl⟩ := h
  obtain ⟨us, hus, rfl⟩ := h'
  exact ⟨ts ++ us, hts.trans hus, List.filterMap_append⟩

theorem Covers.spans (h : p.Covers ms p₁) (h' : p₁.Spans ns p₂) : p.Covers (ms ++ ns) p₂ := by
  obtain ⟨heof, ts, hts, rfl⟩ := h
  obtain ⟨us, hus, rfl⟩ := h'
  exact ⟨heof, ts ++ us, hts.trans hus, List.filterMap_append (l := _ :: ts)⟩

/-- The current token of a parser that does not move. -/
theorem Covers.here (h : p.current.kind ≠ .eof) : p.Covers p.current.mark?.toList p :=
  ⟨h, [], .here p, by cases hmark : p.current.mark? <;> simp [hmark]⟩

/-- What is covered once the next token is current is spanned before. -/
theorem Covers.behind (hadvance : advance p = (.ok (), p₁)) (h : p₁.Covers ms p₂) :
    p.Spans ms p₂ := by
  obtain ⟨heof, ts, hts, hmarks⟩ := h
  rw [(advance_eq_ok hadvance).1] at heof hmarks
  exact ⟨_, .on hadvance heof hts, hmarks⟩

/-- What is covered behind the current token. -/
theorem Covers.cons (heof : p.current.kind ≠ .eof) (h : p.Spans ms p₁) :
    p.Covers (p.current.mark?.toList ++ ms) p₁ :=
  (Covers.here heof).spans h

/-- The parser moves over punctuation. -/
theorem Spans.punctuation (hadvance : advance p = (.ok (), p₁))
    (hkind : p.peek.kind ∈ TokenKind.punctuation) : p.Spans [] p₁ := by
  obtain ⟨hmark, heof⟩ := Token.mark?_of_punctuation hkind
  have hcovers := Covers.here (p := p₁) ((advance_eq_ok hadvance).1 ▸ heof)
  rw [(advance_eq_ok hadvance).1, hmark] at hcovers
  exact hcovers.behind hadvance

/-- What is spanned behind punctuation. -/
theorem Covers.group (hkind : p.current.kind ∈ TokenKind.punctuation) (h : p.Spans ms p₁) :
    p.Covers ms p₁ := by
  obtain ⟨hmark, heof⟩ := Token.mark?_of_punctuation hkind
  have hcovers := Covers.cons heof h
  rwa [hmark] at hcovers

/-- A closer is punctuation, too. -/
theorem Spans.closed {kind : TokenKind} {c : Char} (h : p.Spans ms p₁)
    (hkind : kind ∈ TokenKind.punctuation) (hcloser : expectCloser kind c p₁ = (.ok (), p₂)) :
    p.Spans ms p₂ := by
  rw [expectCloser, bind_ok (get_apply p₁)] at hcloser
  split at hcloser
  · rename_i hpeek
    have hclosed := h.trans (.punctuation hcloser (hpeek ▸ hkind))
    rwa [List.append_nil] at hclosed
  · cases hcloser

end

/-! ## What each function consumes -/

mutual

theorem expression_covers : (fuel : Nat) → (min : Precedence) → {p p' : Parser} → {tree : Tree} →
    expression fuel min p = (.ok tree, p') → p.Covers tree.marks p'
  | 0, _, p, p', tree, h => by
    unfold expression at h
    rw [bind_ok (get_apply p)] at h
    cases h
  | fuel + 1, min, p, p', tree, h => by
    unfold expression at h
    obtain ⟨left, p₁, hleft, hextend⟩ := bind_eq_ok h
    obtain ⟨ms, hspans, hmarks⟩ := extend_spans fuel min hextend
    rw [hmarks]
    exact (operand_covers fuel hleft).spans hspans

theorem operand_covers : (fuel : Nat) → {p p' : Parser} → {tree : Tree} →
    operand fuel p = (.ok tree, p') → p.Covers tree.marks p'
  | 0, p, p', tree, h => by
    unfold operand at h
    rw [bind_ok (get_apply p)] at h
    cases h
  | fuel + 1, p, p', tree, h => by
    unfold operand at h
    rw [bind_ok (get_apply p)] at h
    cases hkind : p.current.kind <;> rw [hkind] at h
    case identifier | number | string | true | false =>
      obtain ⟨rfl, rfl⟩ := pure_eq_ok h
      have hhere := Covers.here (p := p) (by rw [hkind]; decide)
      rwa [Token.mark?, hkind] at hhere
    case not =>
      obtain ⟨⟨⟩, p₁, hadvance, h⟩ := bind_eq_ok h
      obtain ⟨inner, p₂, hinner, h⟩ := bind_eq_ok h
      obtain ⟨rfl, rfl⟩ := pure_eq_ok h
      have hcovers := Covers.cons (by rw [hkind]; decide)
        ((expression_covers fuel _ hinner).behind hadvance)
      rwa [Token.mark?, hkind] at hcovers
    case openParen =>
      obtain ⟨⟨⟩, p₁, hadvance, h⟩ := bind_eq_ok h
      obtain ⟨first, p₂, hfirst, h⟩ := bind_eq_ok h
      rw [bind_ok (get_apply p₂)] at h
      have hspans := (expression_covers fuel _ hfirst).behind hadvance
      refine .group (by rw [hkind]; decide) ?_
      split at h
      · obtain ⟨others, p₃, hothers, h⟩ := bind_eq_ok h
        obtain ⟨⟨⟩, p₄, hcloser, h⟩ := bind_eq_ok h
        obtain ⟨rfl, rfl⟩ := pure_eq_ok h
        exact (hspans.trans (elements_spans fuel hothers)).closed (by decide) hcloser
      · obtain ⟨⟨⟩, p₃, hcloser, h⟩ := bind_eq_ok h
        obtain ⟨rfl, rfl⟩ := pure_eq_ok h
        exact hspans.closed (by decide) hcloser
    all_goals cases h

theorem elements_spans : (fuel : Nat) → {p p' : Parser} → {trees : List Tree} →
    elements fuel p = (.ok trees, p') → p.Spans (Tree.marksOf trees) p'
  | 0, p, p', trees, h => by
    unfold elements at h
    obtain ⟨rfl, rfl⟩ := pure_eq_ok h
    exact .here p
  | fuel + 1, p, p', trees, h => by
    unfold elements at h
    rw [bind_ok (get_apply p)] at h
    split at h
    · rename_i hcomma
      obtain ⟨⟨⟩, p₁, hadvance, h⟩ := bind_eq_ok h
      have hspans : p.Spans [] p₁ := .punctuation hadvance (by rw [hcomma]; decide)
      rw [bind_ok (get_apply p₁)] at h
      split at h
      · obtain ⟨rfl, rfl⟩ := pure_eq_ok h
        exact hspans
      · obtain ⟨⟨⟩, p₂, hadvance', h⟩ := bind_eq_ok h
        obtain ⟨first, p₃, hfirst, h⟩ := bind_eq_ok h
        obtain ⟨others, p₄, hothers, h⟩ := bind_eq_ok h
        obtain ⟨rfl, rfl⟩ := pure_eq_ok h
        exact hspans.trans (((expression_covers fuel _ hfirst).behind hadvance').trans
          (elements_spans fuel hothers))
    · obtain ⟨rfl, rfl⟩ := pure_eq_ok h
      exact .here p

theorem extend_spans : (fuel : Nat) → (min : Precedence) → {left : Tree} → {p p' : Parser} →
    {tree : Tree} → extend fuel min left p = (.ok tree, p') →
      ∃ ms, p.Spans ms p' ∧ tree.marks = left.marks ++ ms
  | 0, _, left, p, p', tree, h => by
    unfold extend at h
    obtain ⟨rfl, rfl⟩ := pure_eq_ok h
    exact ⟨[], .here p, (List.append_nil _).symm⟩
  | fuel + 1, min, left, p, p', tree, h => by
    unfold extend at h
    rw [bind_ok (get_apply p)] at h
    split at h
    · obtain ⟨⟨⟩, p₁, hadvance, h⟩ := bind_eq_ok h
      obtain ⟨longer, p₂, hlonger, h⟩ := bind_eq_ok h
      obtain ⟨ms, hcovers, hmarks⟩ := continuation_covers fuel hlonger
      obtain ⟨ns, hspans, hmarks'⟩ := extend_spans fuel min h
      refine ⟨ms ++ ns, (hcovers.behind hadvance).trans hspans, ?_⟩
      rw [hmarks', hmarks, List.append_assoc]
    · obtain ⟨rfl, rfl⟩ := pure_eq_ok h
      exact ⟨[], .here p, (List.append_nil _).symm⟩

theorem continuation_covers : (fuel : Nat) → {left : Tree} → {p p' : Parser} → {tree : Tree} →
    continuation fuel left p = (.ok tree, p') →
      ∃ ms, p.Covers ms p' ∧ tree.marks = left.marks ++ ms
  | 0, left, p, p', tree, h => by
    unfold continuation at h
    rw [bind_ok (get_apply p)] at h
    cases h
  | fuel + 1, left, p, p', tree, h => by
    unfold continuation at h
    rw [bind_ok (get_apply p)] at h
    -- An operator is followed by its right operand.
    have hright : ∀ {min : Precedence} {join : Tree → Tree} {mark : Mark},
        (do
          advance
          let right ← expression fuel min
          pure (join right)) p = (.ok tree, p') →
        p.current.kind ≠ .eof → p.current.mark? = some mark →
        (∀ right, (join right).marks = left.marks ++ mark :: right.marks) →
          ∃ ms, p.Covers ms p' ∧ tree.marks = left.marks ++ ms := by
      intro min join mark h heof hmark hjoin
      obtain ⟨⟨⟩, p₁, hadvance, h⟩ := bind_eq_ok h
      obtain ⟨right, p₂, hexpression, h⟩ := bind_eq_ok h
      obtain ⟨rfl, rfl⟩ := pure_eq_ok h
      have hcovers := Covers.cons heof ((expression_covers fuel _ hexpression).behind hadvance)
      rw [hmark] at hcovers
      exact ⟨_, hcovers, hjoin right⟩
    cases hkind : p.current.kind <;> rw [hkind] at h
    case and | or | equal | unequal | less | isIn =>
      exact hright h (by rw [hkind]; decide) (by rw [Token.mark?, hkind])
        fun _ => by rw [Tree.marks]
    case openBracket =>
      obtain ⟨⟨⟩, p₁, hadvance, h⟩ := bind_eq_ok h
      obtain ⟨index, p₂, hindex, h⟩ := bind_eq_ok h
      obtain ⟨⟨⟩, p₃, hcloser, h⟩ := bind_eq_ok h
      obtain ⟨rfl, rfl⟩ := pure_eq_ok h
      have hspans := (expression_covers fuel _ hindex).behind hadvance
      exact ⟨_, .group (by rw [hkind]; decide) (hspans.closed (by decide) hcloser),
        by rw [Tree.marks]⟩
    case openParen =>
      dsimp only at h
      rw [bind_ok (get_apply p)] at h
      split at h
      · rename_i hpeek
        obtain ⟨⟨⟩, p₁, hadvance, h⟩ := bind_eq_ok h
        obtain ⟨rfl, rfl⟩ := pure_eq_ok h
        have hspans : p.Spans [] p₁ := .punctuation hadvance (by rw [hpeek]; decide)
        exact ⟨_, .group (by rw [hkind]; decide) hspans, by rw [Tree.marks, Tree.marksOf]⟩
      · obtain ⟨⟨⟩, p₁, hadvance, h⟩ := bind_eq_ok h
        obtain ⟨first, p₂, hfirst, h⟩ := bind_eq_ok h
        obtain ⟨others, p₃, hothers, h⟩ := bind_eq_ok h
        obtain ⟨⟨⟩, p₄, hcloser, h⟩ := bind_eq_ok h
        obtain ⟨rfl, rfl⟩ := pure_eq_ok h
        have hspans := ((expression_covers fuel _ hfirst).behind hadvance).trans
          (arguments_spans fuel hothers)
        exact ⟨_, .group (by rw [hkind]; decide) (hspans.closed (by decide) hcloser),
          by rw [Tree.marks, Tree.marksOf]⟩
    all_goals cases h

theorem arguments_spans : (fuel : Nat) → {p p' : Parser} → {trees : List Tree} →
    arguments fuel p = (.ok trees, p') → p.Spans (Tree.marksOf trees) p'
  | 0, p, p', trees, h => by
    unfold arguments at h
    obtain ⟨rfl, rfl⟩ := pure_eq_ok h
    exact .here p
  | fuel + 1, p, p', trees, h => by
    unfold arguments at h
    rw [bind_ok (get_apply p)] at h
    split at h
    · rename_i hcomma
      obtain ⟨⟨⟩, p₁, hadvance, h⟩ := bind_eq_ok h
      obtain ⟨⟨⟩, p₂, hadvance', h⟩ := bind_eq_ok h
      obtain ⟨first, p₃, hfirst, h⟩ := bind_eq_ok h
      obtain ⟨others, p₄, hothers, h⟩ := bind_eq_ok h
      obtain ⟨rfl, rfl⟩ := pure_eq_ok h
      have hspans : p.Spans [] p₁ := .punctuation hadvance (by rw [hcomma]; decide)
      exact hspans.trans (((expression_covers fuel _ hfirst).behind hadvance').trans
        (arguments_spans fuel hothers))
    · obtain ⟨rfl, rfl⟩ := pure_eq_ok h
      exact .here p

end

end Parser

/-! ## All tokens of a text -/

/-- A parser begins on the first token of a text, and knows the second. -/
theorem Parser.ofString_eq_ok {text : String} {p : Parser} (h : Parser.ofString text = .ok p) :
    ∃ l, (Lexer.ofString text).next = (.ok p.current, l) ∧ l.next = (.ok p.peek, p.lexer) := by
  unfold Parser.ofString at h
  split at h
  · cases h
  · rename_i current l hcurrent
    split at h
    · cases h
    · rename_i peek l' hpeek
      obtain rfl := Except.ok.inj h
      exact ⟨l, hcurrent, hpeek⟩

/-- The lexer that answered with the next token of the parser takes the tokens that the
parser moves on over, and the end if it is in front of it. -/
theorem Parser.Moves.tokensWithin {p p' : Parser} {ts : List Token} (h : p.Moves ts p')
    (hend : p'.peek.kind = .eof) {l : Lexer} (hpeek : l.next = (.ok p.peek, p.lexer)) {fuel : Nat}
    (hfuel : l.rest.length < fuel) : l.tokensWithin fuel = .ok (ts ++ [p'.peek]) := by
  induction h generalizing l fuel with
  | here p =>
    obtain ⟨fuel, rfl⟩ : ∃ n, fuel = n + 1 := ⟨fuel - 1, by omega⟩
    rw [Lexer.tokensWithin, hpeek]
    exact if_pos hend
  | @on p p₁ p₂ ts hadvance heof _ ih =>
    obtain ⟨fuel, rfl⟩ : ∃ n, fuel = n + 1 := ⟨fuel - 1, by omega⟩
    have hshort := Lexer.length_next hpeek heof
    rw [Lexer.tokensWithin, hpeek]
    dsimp only
    rw [if_neg heof, ih hend (Parser.advance_eq_ok hadvance).2 (by omega)]
    rfl

/-- A text that is parsed is read as one expression, up to its end. -/
theorem parse_eq_ok {text : String} {tree : Tree} (h : parse text = .ok tree) :
    ∃ p p', Parser.ofString text = .ok p ∧ p.readExpression .lowest = (.ok tree, p') ∧
      p'.peek.kind = .eof := by
  unfold parse at h
  rcases hstart : Parser.ofString text with e | p <;> rw [hstart] at h
  · cases h
  dsimp only [bind, Except.bind] at h
  rcases hread : p.readExpression .lowest with ⟨e | read, p'⟩ <;> rw [hread] at h
  · cases h
  dsimp only at h
  split at h
  case isFalse => cases h
  case isTrue hend =>
    obtain rfl := Except.ok.inj h
    exact ⟨p, p', rfl, hread, hend⟩

/-- The leaves and operators of a rule's tree are those of the rule's tokens, in their
order; the other tokens are punctuation, up to the end. -/
theorem marks_of_parse {text : String} {tree : Tree} (h : parse text = .ok tree) :
    ∃ (tokens : List Token) (eof : Token), tokenize text = .ok (tokens ++ [eof]) ∧ eof.kind = .eof ∧
      tokens.filterMap Token.mark? = tree.marks ∧
      ∀ t ∈ tokens, t.mark? = none → t.kind ∈ TokenKind.punctuation := by
  obtain ⟨p, p', hstart, hread, hend⟩ := parse_eq_ok h
  obtain ⟨l, hcurrent, hpeek⟩ := Parser.ofString_eq_ok hstart
  obtain ⟨heof, ts, hmoves, hmarks⟩ := Parser.expression_covers _ _ hread
  have hshort := Lexer.length_next hcurrent heof
  refine ⟨p.current :: ts, p'.peek, ?_, hend, hmarks, fun t ht hmark => ?_⟩
  · rw [tokenize, Lexer.tokensWithin, hcurrent]
    dsimp only
    rw [if_neg heof, hmoves.tokensWithin hend hpeek hshort]
    rfl
  · refine t.kind_of_mark? hmark ?_
    obtain rfl | ht := List.mem_cons.mp ht
    · exact heof
    · exact hmoves.kind_ne_eof t ht

/-- A rule with an empty call, a tuple that ends in a comma and a nested `not`. -/
theorem marks_of_nested_rule :
    parse "not not f() and (x, 2,) == 'a'" = .ok (.connect .and
      (.not (.not (.call (.identifier "f") [])))
      (.compare .equal (.tuple [.identifier "x", .number (.ofNat 2)]) (.string "a"))) ∧
    ∃ (tokens : List Token) (eof : Token),
      tokenize "not not f() and (x, 2,) == 'a'" = .ok (tokens ++ [eof]) ∧ eof.kind = .eof ∧
      tokens.filterMap Token.mark? =
        [.not, .not, .identifier "f", .connect .and, .identifier "x", .number (.ofNat 2),
          .compare .equal, .string "a"] ∧
      ∀ t ∈ tokens, t.mark? = none → t.kind ∈ TokenKind.punctuation := by
  have hparse : parse "not not f() and (x, 2,) == 'a'" = .ok (.connect .and
      (.not (.not (.call (.identifier "f") [])))
      (.compare .equal (.tuple [.identifier "x", .number (.ofNat 2)]) (.string "a"))) := by cbv
  exact ⟨hparse, marks_of_parse hparse⟩

end Rule

end Passage

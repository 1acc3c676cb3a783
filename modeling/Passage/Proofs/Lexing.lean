import Passage.Proofs.Formulas

/-!
# Lexing what is spelled

A lexer in front of the characters of a lexeme answers with just this lexeme
(`Lexer.next_lexeme`), and with the end of the text in front of blanks (`Lexer.next_eof`).
-/

namespace Passage

open Rule

/-! ## Characters -/

section

variable {c : Char}

theorem not_blank_of_isWordStart (h : isWordStart c = true) : isBlank c = false := by
  rcases hc : isBlank c with _ | _
  · rfl
  · simp only [isBlank, Bool.or_eq_true, beq_iff_eq] at hc
    obtain ((rfl | rfl) | rfl) | rfl := hc <;> exact absurd h (by decide)

theorem not_blank_of_isDigit (h : c.isDigit = true) : isBlank c = false := by
  rcases hc : isBlank c with _ | _
  · rfl
  · simp only [isBlank, Bool.or_eq_true, beq_iff_eq] at hc
    obtain ((rfl | rfl) | rfl) | rfl := hc <;> exact absurd h (by decide)

theorem not_isWordStart_of_isDigit (h : c.isDigit = true) : isWordStart c = false := by
  simp only [Char.isDigit, Bool.and_eq_true, decide_eq_true_eq, UInt32.le_iff_toNat_le] at h
  rcases hs : isWordStart c with _ | _
  · rfl
  · simp only [isWordStart, Char.isAlpha, Char.isUpper, Char.isLower, Bool.or_eq_true, beq_iff_eq,
      Bool.and_eq_true, decide_eq_true_eq, UInt32.le_iff_toNat_le] at hs
    have hzero : '0'.val.toNat = 48 ∧ '9'.val.toNat = 57 := by decide
    have hupper : 'A'.val.toNat = 65 ∧ 'Z'.val.toNat = 90 := by decide
    have hlower : 'a'.val.toNat = 97 ∧ 'z'.val.toNat = 122 := by decide
    obtain rfl | hs | hs := hs
    · exact absurd h (by decide)
    · omega
    · omega

/-- A separator is no part of a word. -/
theorem not_isWordPart_of_isSeparator (h : isSeparator c = true) : isWordPart c = false := by
  simp only [isSeparator, isBlank, Bool.or_eq_true, beq_iff_eq, List.contains_eq_mem,
    List.mem_cons, List.not_mem_nil, or_false, decide_eq_true_eq] at h
  rcases h with (((rfl | rfl) | rfl) | rfl) | rfl | rfl | rfl | rfl | rfl | rfl | rfl | rfl |
    rfl | rfl <;> rfl

theorem isWordPart_of_isDigit (h : c.isDigit = true) : isWordPart c = true := by
  rw [isWordPart, Char.isAlphanum, h, Bool.or_true, Bool.or_true]

theorem isWordPart_of_isWordStart (h : isWordStart c = true) : isWordPart c = true := by
  rw [isWordStart, Bool.or_eq_true] at h
  rw [isWordPart, Char.isAlphanum]
  rcases h with h | h <;> rw [h] <;> simp

theorem not_isDigit_of_isSeparator (h : isSeparator c = true) : c.isDigit = false := by
  rcases hd : c.isDigit with _ | _
  · rfl
  · have hpart := isWordPart_of_isDigit hd
    rw [not_isWordPart_of_isSeparator h] at hpart
    exact absurd hpart (by decide)

end

/-- Where a run of characters ends, taking it takes all of it and nothing more. -/
theorem takeWhile_run {part : Char → Bool} {run rest : List Char} (h : ∀ c ∈ run, part c = true)
    (hrest : ∀ c ∈ rest.head?, part c = false) :
    (run ++ rest).takeWhile part = run ∧ (run ++ rest).dropWhile part = rest := by
  induction run with
  | nil =>
    cases rest with
    | nil => exact ⟨rfl, rfl⟩
    | cons c cs =>
      have hc : part c = false := hrest c rfl
      constructor
      · rw [List.nil_append, List.takeWhile_cons_of_neg (by simp [hc])]
      · rw [List.nil_append, List.dropWhile_cons_of_neg (by simp [hc])]
  | cons c cs ih =>
    obtain ⟨htake, hdrop⟩ := ih fun d hd => h d (List.mem_cons_of_mem _ hd)
    have hc := h c List.mem_cons_self
    rw [List.cons_append, List.takeWhile_cons_of_pos hc, List.dropWhile_cons_of_pos hc, htake,
      hdrop]
    exact ⟨rfl, rfl⟩

/-! ## One lexeme -/

/-- The token is the lexeme. -/
structure Lexeme.Is (l : Lexeme) (t : Token) : Prop where
  kind : t.kind = l.kind
  text : t.text = l.text

/-- A word that is read off its characters. -/
theorem Lexeme.wellFormed_word {word : String} {c : Char} {cs : List Char}
    (hword : word.toList = c :: cs) (hc : isWordStart c = true) (hcs : cs.all isWordPart = true) :
    (Lexeme.word word).WellFormed :=
  ⟨c, cs, hword, hc, List.all_eq_true.mp hcs⟩

/-- A lexeme begins with a character that is skipped by nothing. -/
theorem Lexeme.WellFormed.head {l : Lexeme} (h : l.WellFormed) :
    ∃ c cs, l.text.toList = c :: cs ∧ isBlank c = false ∧ c ≠ '#' := by
  cases l with
  | word text =>
    obtain ⟨c, cs, htext, hstart, -⟩ := h
    refine ⟨c, cs, htext, not_blank_of_isWordStart hstart, ?_⟩
    rintro rfl
    exact absurd hstart (by decide)
  | numeral digits =>
    obtain ⟨hne, hdigits⟩ := h
    obtain ⟨c, cs, hcs⟩ := List.exists_cons_of_ne_nil hne
    have hc : c.isDigit = true := hdigits c (hcs ▸ List.mem_cons_self)
    refine ⟨c, cs, hcs, not_blank_of_isDigit hc, ?_⟩
    rintro rfl
    exact absurd hc (by decide)
  | openParen => exact ⟨'(', [], rfl, rfl, by decide⟩
  | closeParen => exact ⟨')', [], rfl, rfl, by decide⟩
  | comma => exact ⟨',', [], rfl, rfl, by decide⟩

namespace Rule.Lexer

/-- Blanks are skipped up to what is none. -/
theorem skipFrom_blanks {blanks rest : List Char} (hblanks : ∀ c ∈ blanks, isBlank c = true)
    (hrest : ∀ c ∈ rest.head?, isBlank c = false ∧ c ≠ '#') (depth position : Nat) :
    ∃ position', skipFrom depth false (blanks ++ rest) position = ⟨rest, position', depth⟩ := by
  induction blanks generalizing position with
  | nil =>
    cases rest with
    | nil => exact ⟨position, rfl⟩
    | cons c cs =>
      obtain ⟨hblank, hcomment⟩ := hrest c rfl
      refine ⟨position, ?_⟩
      rw [List.nil_append, skipFrom, hblank, beq_false_of_ne hcomment]
      rfl
  | cons c cs ih =>
    obtain ⟨position', h⟩ := ih (fun d hd => hblanks d (List.mem_cons_of_mem _ hd)) (position + 1)
    refine ⟨position', ?_⟩
    rw [List.cons_append, skipFrom, hblanks c List.mem_cons_self]
    exact h

/-- In front of blanks, the next token is the one behind them. -/
theorem next_of_blanks {lx : Lexer} {blanks cs rest : List Char}
    (hlx : lx.rest = blanks ++ cs ++ rest) (hblanks : ∀ c ∈ blanks, isBlank c = true)
    (hcs : ∃ c tail, cs = c :: tail ∧ isBlank c = false ∧ c ≠ '#') :
    ∃ position, lx.next = token ⟨cs ++ rest, position, lx.depth⟩ := by
  obtain ⟨c, tail, rfl, hblank, hcomment⟩ := hcs
  have hhead : ∀ d ∈ (c :: tail ++ rest).head?, isBlank d = false ∧ d ≠ '#' := by
    intro d hd
    obtain rfl : c = d := Option.some.inj hd
    exact ⟨hblank, hcomment⟩
  obtain ⟨position, hskip⟩ := skipFrom_blanks hblanks hhead lx.depth lx.position
  exact ⟨position, by rw [next, skipTrivia, hlx, List.append_assoc, hskip]⟩

theorem run_eq (lx : Lexer) {part : Char → Bool} (kindOf : String → TokenKind) {text : String}
    {rest : List Char} (hlx : lx.rest = text.toList ++ rest)
    (htext : ∀ c ∈ text.toList, part c = true)
    (hrest : ∀ c ∈ rest.head?, isSeparator c = true ∧ part c = false) :
    ∃ lx', lx.run part kindOf = (.ok ⟨kindOf text, text, lx.position⟩, lx') ∧
      lx'.rest = rest ∧ lx'.depth = lx.depth := by
  obtain ⟨htake, hdrop⟩ := takeWhile_run htext fun c hc => (hrest c hc).2
  unfold run
  dsimp only
  rw [hlx, htake, hdrop, String.ofList_toList]
  cases rest with
  | nil => exact ⟨_, rfl, rfl, rfl⟩
  | cons c cs =>
    have hc : isSeparator c = true := (hrest c rfl).1
    refine ⟨lx.drop text.toList (c :: cs), ?_, rfl, rfl⟩
    dsimp only [drop]
    rw [if_pos hc]

/-- In front of a character of a word, no sign is read. -/
theorem token_of_isWordPart {lx : Lexer} {c : Char} {cs : List Char} (hlx : lx.rest = c :: cs)
    (hc : isWordPart c = true) :
    lx.token = if isWordStart c then lx.run isWordPart .ofWord
      else if c.isDigit then lx.run Char.isDigit fun _ => .number
      else (.error ⟨.unrecognized c, lx.position⟩, lx) := by
  unfold token
  split
  case h_1 hrest =>
    rw [hlx] at hrest
    exact absurd hrest (List.cons_ne_nil _ _)
  case h_12 d ds _ _ _ _ _ _ _ _ _ _ hrest =>
    rw [hlx] at hrest
    obtain ⟨rfl, rfl⟩ := List.cons.inj hrest
    rfl
  all_goals
    rename_i hrest
    rw [hlx] at hrest
    obtain ⟨rfl, -⟩ := List.cons.inj hrest
    exact absurd hc (by decide)

end Rule.Lexer

/-- The number of open parentheses behind a lexeme. -/
def Lexeme.depthBehind (depth : Nat) : Lexeme → Nat
  | .openParen => depth + 1
  | .closeParen => depth - 1
  | _ => depth

namespace Rule.Lexer

/-- A lexer in front of a lexeme answers with it. -/
theorem next_lexeme {lx : Lexer} {l : Lexeme} {blanks rest : List Char}
    (hlx : lx.rest = blanks ++ l.text.toList ++ rest)
    (hblanks : ∀ c ∈ blanks, isBlank c = true) (hl : l.WellFormed)
    (hrest : l.IsRun → ∀ c ∈ rest.head?, isSeparator c = true)
    (hdepth : l = .closeParen → 0 < lx.depth) :
    ∃ t lx', lx.next = (.ok t, lx') ∧ l.Is t ∧ lx'.rest = rest ∧
      lx'.depth = l.depthBehind lx.depth := by
  obtain ⟨position, hnext⟩ := next_of_blanks hlx hblanks hl.head
  rw [hnext]
  cases l with
  | word text =>
    obtain ⟨c, cs, htext, hstart, hpart⟩ := hl
    have hchars : ∀ d ∈ text.toList, isWordPart d = true := by
      rw [htext]
      intro d hd
      obtain rfl | hd := List.mem_cons.mp hd
      · exact isWordPart_of_isWordStart hstart
      · exact hpart d hd
    obtain ⟨lx', hrun, hrest', hdepth'⟩ := run_eq
      ⟨text.toList ++ rest, position, lx.depth⟩ .ofWord rfl hchars
      fun d hd => ⟨hrest trivial d hd, not_isWordPart_of_isSeparator (hrest trivial d hd)⟩
    have htoken : token ⟨text.toList ++ rest, position, lx.depth⟩ =
        run ⟨text.toList ++ rest, position, lx.depth⟩ isWordPart .ofWord := by
      rw [token_of_isWordPart (show _ = c :: (cs ++ rest) by rw [htext]; rfl)
        (isWordPart_of_isWordStart hstart), if_pos hstart]
    exact ⟨_, lx', htoken.trans hrun, ⟨rfl, rfl⟩, hrest', hdepth'⟩
  | numeral digits =>
    obtain ⟨hne, hdigits⟩ := hl
    obtain ⟨c, cs, hcs⟩ := List.exists_cons_of_ne_nil hne
    have hc : c.isDigit = true := hdigits c (hcs ▸ List.mem_cons_self)
    obtain ⟨lx', hrun, hrest', hdepth'⟩ := run_eq
      ⟨digits.toList ++ rest, position, lx.depth⟩ (fun _ => .number) rfl hdigits
      fun d hd => ⟨hrest trivial d hd, not_isDigit_of_isSeparator (hrest trivial d hd)⟩
    have htoken : token ⟨digits.toList ++ rest, position, lx.depth⟩ =
        run ⟨digits.toList ++ rest, position, lx.depth⟩ Char.isDigit fun _ => .number := by
      rw [token_of_isWordPart (show _ = c :: (cs ++ rest) by rw [hcs]; rfl)
        (isWordPart_of_isDigit hc), not_isWordStart_of_isDigit hc, if_pos hc]
      rfl
    exact ⟨_, lx', htoken.trans hrun, ⟨rfl, rfl⟩, hrest', hdepth'⟩
  | openParen => exact ⟨_, _, rfl, ⟨rfl, rfl⟩, rfl, rfl⟩
  | closeParen =>
    have hopen : ¬ lx.depth = 0 := Nat.ne_of_gt (hdepth rfl)
    refine ⟨⟨.closeParen, ")", position⟩, ⟨rest, position + 1, lx.depth - 1⟩, ?_, ⟨rfl, rfl⟩, rfl,
      rfl⟩
    show closer ⟨')' :: rest, position, lx.depth⟩ .closeParen ')' rest = _
    rw [closer, if_neg hopen]
    rfl
  | comma => exact ⟨_, _, rfl, ⟨rfl, rfl⟩, rfl, rfl⟩

/-- A lexer in front of blanks has reached the end, if no parenthesis is open. -/
theorem next_eof {lx : Lexer} (hblanks : ∀ c ∈ lx.rest, isBlank c = true) (hdepth : lx.depth = 0) :
    ∃ t lx', lx.next = (.ok t, lx') ∧ t.kind = .eof := by
  obtain ⟨position, hskip⟩ :=
    skipFrom_blanks hblanks (show ∀ c ∈ [].head?, isBlank c = false ∧ c ≠ '#' from nofun) lx.depth
      lx.position
  rw [List.append_nil] at hskip
  refine ⟨⟨.eof, "", position⟩, ⟨[], position, lx.depth⟩, ?_, rfl⟩
  rw [next, skipTrivia, hskip, token]
  dsimp only
  rw [if_pos hdepth]

end Rule.Lexer

end Passage

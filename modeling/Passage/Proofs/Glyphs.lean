import Passage.Proofs.Lexing

/-!
# Lexing what is written

A rule is written with the lexemes of formulas, and with strings, comparisons and brackets:
these are the glyphs. `Written` says which glyphs characters make up. A lexer in front of
them answers with just these glyphs, and then with the end of the text
(`Lexer.gives_of_written`), provided that they close what they open
(`Glyph.Balanced`).
-/

namespace Passage

open Rule

/-- A lexeme of a rule. -/
inductive Glyph where
  | lexeme (l : Lexeme)
  /-- A text between two quotes of a kind. -/
  | string (quote : Char) (value : String)
  | equal | unequal | less
  | openBracket | closeBracket

namespace Glyph

def kind : Glyph → TokenKind
  | .lexeme l => l.kind
  | .string _ _ => .string
  | .equal => .equal
  | .unequal => .unequal
  | .less => .less
  | .openBracket => .openBracket
  | .closeBracket => .closeBracket

/-- The text of the glyph's token, which of a string leaves out the quotes. -/
def text : Glyph → String
  | .lexeme l => l.text
  | .string _ value => value
  | .equal => "=="
  | .unequal => "!="
  | .less => "<"
  | .openBracket => "["
  | .closeBracket => "]"

/-- The characters of the glyph. -/
def characters : Glyph → List Char
  | .string quote value => quote :: (value.toList ++ [quote])
  | glyph => glyph.text.toList

/-- Whether the glyph ends only where a separator stands. -/
def IsRun : Glyph → Prop
  | .lexeme l => l.IsRun
  | _ => False

/-- A string holds anything but its own quote. -/
def WellFormed : Glyph → Prop
  | .lexeme l => l.WellFormed
  | .string quote value => (quote = '\'' ∨ quote = '"') ∧ quote ∉ value.toList
  | _ => True

/-- The token is the glyph. -/
structure Is (g : Glyph) (t : Token) : Prop where
  kind : t.kind = g.kind
  text : t.text = g.text

/-- Whether the glyph answers an opener. -/
def IsCloser : Glyph → Prop
  | .lexeme l => l = .closeParen
  | .closeBracket => True
  | _ => False

/-- The number of open parentheses and brackets behind a glyph. -/
def depthBehind (depth : Nat) : Glyph → Nat
  | .lexeme l => l.depthBehind depth
  | .openBracket => depth + 1
  | .closeBracket => depth - 1
  | _ => depth

/-- From the number of open parentheses and brackets, the glyphs close what they open, and
all that is open. -/
def Balanced : Nat → List Glyph → Prop
  | depth, [] => depth = 0
  | depth, g :: gs => (g.IsCloser → 0 < depth) ∧ Balanced (g.depthBehind depth) gs

/-- The glyphs close what they open, and nothing else. -/
def Neutral (gs : List Glyph) : Prop :=
  ∀ depth rest, Balanced depth rest → Balanced depth (gs ++ rest)

namespace Neutral

variable {gs hs : List Glyph}

theorem append (h : Neutral gs) (h' : Neutral hs) : Neutral (gs ++ hs) := by
  intro depth rest hrest
  rw [List.append_assoc]
  exact h _ _ (h' _ _ hrest)

/-- A glyph that opens nothing and closes nothing. -/
theorem cons {g : Glyph} (hcloser : ¬ g.IsCloser) (hdepth : ∀ depth, g.depthBehind depth = depth)
    (h : Neutral gs) : Neutral (g :: gs) := by
  intro depth rest hrest
  refine ⟨fun hc => absurd hc hcloser, ?_⟩
  rw [hdepth]
  exact h _ _ hrest

theorem nil : Neutral [] := fun _ _ hrest => hrest

theorem word (text : String) (h : Neutral gs) : Neutral (.lexeme (.word text) :: gs) :=
  cons nofun (fun _ => rfl) h

theorem numeral (digits : String) (h : Neutral gs) : Neutral (.lexeme (.numeral digits) :: gs) :=
  cons nofun (fun _ => rfl) h

theorem comma (h : Neutral gs) : Neutral (.lexeme .comma :: gs) :=
  cons nofun (fun _ => rfl) h

theorem enclosed {opener closer : Glyph} (hopener : ¬ opener.IsCloser)
    (hdepth : ∀ depth, opener.depthBehind depth = depth + 1)
    (hdepth' : ∀ depth, closer.depthBehind (depth + 1) = depth) (h : Neutral gs) :
    Neutral (opener :: (gs ++ [closer])) := by
  intro depth rest hrest
  refine ⟨fun hc => absurd hc hopener, ?_⟩
  show Balanced _ (gs ++ [closer] ++ rest)
  rw [hdepth, List.append_assoc]
  refine h _ _ ⟨fun _ => Nat.succ_pos _, ?_⟩
  rw [hdepth']
  exact hrest

theorem parens (h : Neutral gs) :
    Neutral (Glyph.lexeme .openParen :: (gs ++ [Glyph.lexeme .closeParen])) :=
  h.enclosed nofun (fun _ => rfl) fun _ => rfl

theorem brackets (h : Neutral gs) : Neutral (Glyph.openBracket :: (gs ++ [Glyph.closeBracket])) :=
  h.enclosed id (fun _ => rfl) fun _ => rfl

end Neutral

end Glyph

/-- The characters make up the glyphs, with blanks before, between and behind them. -/
inductive Written : List Glyph → List Char → Prop
  | done {blanks : List Char} : (∀ c ∈ blanks, isBlank c = true) → Written [] blanks
  | glyph {g : Glyph} {gs : List Glyph} {blanks rest : List Char} :
      (∀ c ∈ blanks, isBlank c = true) → g.WellFormed →
      (g.IsRun → ∀ c ∈ rest.head?, isSeparator c = true) → Written gs rest →
      Written (g :: gs) (blanks ++ g.characters ++ rest)

/-- Well-formed glyphs can be written. -/
theorem exists_written {gs : List Glyph} (h : ∀ g ∈ gs, g.WellFormed) : ∃ cs, Written gs cs := by
  -- A blank in front of every glyph separates it from the one before.
  suffices ∃ cs, Written gs cs ∧ ∀ c ∈ cs.head?, isSeparator c = true from
    this.imp fun _ => And.left
  induction gs with
  | nil => exact ⟨[], .done (List.forall_mem_nil _), nofun⟩
  | cons g gs ih =>
    obtain ⟨hg, hgs⟩ := List.forall_mem_cons.mp h
    obtain ⟨cs, hcs, hhead⟩ := ih hgs
    have hblank : ∀ c ∈ [' '], isBlank c = true := List.forall_mem_singleton.mpr (by decide)
    refine ⟨_, .glyph hblank hg (fun _ => hhead) hcs, fun c hc => ?_⟩
    obtain rfl : ' ' = c := Option.some.inj hc
    decide

/-! ## One glyph -/

/-- A glyph begins with a character that is skipped by nothing. -/
theorem Glyph.WellFormed.head {g : Glyph} (h : g.WellFormed) :
    ∃ c cs, g.characters = c :: cs ∧ isBlank c = false ∧ c ≠ '#' := by
  cases g with
  | lexeme l => exact Lexeme.WellFormed.head h
  | string quote value =>
    refine ⟨quote, _, rfl, ?_⟩
    obtain ⟨rfl | rfl, -⟩ := h <;> decide
  | equal => exact ⟨'=', ['='], rfl, by decide⟩
  | unequal => exact ⟨'!', ['='], rfl, by decide⟩
  | less => exact ⟨'<', [], rfl, by decide⟩
  | openBracket => exact ⟨'[', [], rfl, by decide⟩
  | closeBracket => exact ⟨']', [], rfl, by decide⟩

namespace Rule.Lexer

/-- A string ends at the first quote of its kind. -/
theorem string_eq (lx : Lexer) {quote : Char} {value : String} (hquote : quote ∉ value.toList)
    (rest : List Char) :
    ∃ lx', lx.string quote (value.toList ++ quote :: rest) =
        (.ok ⟨.string, value, lx.position⟩, lx') ∧ lx'.rest = rest ∧ lx'.depth = lx.depth := by
  have hvalue : ∀ c ∈ value.toList, (c != quote) = true := fun c hc =>
    bne_iff_ne.mpr fun h => hquote (h ▸ hc)
  have hend : ∀ c ∈ (quote :: rest).head?, (c != quote) = false := fun c hc => by
    obtain rfl : quote = c := Option.some.inj hc
    exact bne_self_eq_false _
  obtain ⟨htake, hdrop⟩ := takeWhile_run hvalue hend
  unfold string
  dsimp only
  rw [htake, hdrop, String.ofList_toList]
  exact ⟨_, rfl, rfl, rfl⟩

theorem next_string {lx : Lexer} {quote : Char} {value : String} {blanks rest : List Char}
    (hlx : lx.rest = blanks ++ (Glyph.string quote value).characters ++ rest)
    (hblanks : ∀ c ∈ blanks, isBlank c = true) (h : (Glyph.string quote value).WellFormed) :
    ∃ t lx', lx.next = (.ok t, lx') ∧ (Glyph.string quote value).Is t ∧ lx'.rest = rest ∧
      lx'.depth = lx.depth := by
  obtain ⟨position, hnext⟩ := next_of_blanks hlx hblanks h.head
  obtain ⟨hquote, hvalue⟩ := h
  obtain ⟨lx', hstring, hrest, hdepth⟩ :=
    string_eq ⟨(Glyph.string quote value).characters ++ rest, position, lx.depth⟩ hvalue rest
  refine ⟨⟨.string, value, position⟩, lx', hnext.trans ?_, ⟨rfl, rfl⟩, hrest, hdepth⟩
  rw [← hstring]
  have hchars : (Glyph.string quote value).characters ++ rest =
      quote :: (value.toList ++ quote :: rest) := by
    simp [Glyph.characters]
  rw [hchars]
  obtain rfl | rfl := hquote <;> rfl

/-- A lexer in front of a glyph answers with it. -/
theorem next_glyph {lx : Lexer} {g : Glyph} {blanks rest : List Char}
    (hlx : lx.rest = blanks ++ g.characters ++ rest)
    (hblanks : ∀ c ∈ blanks, isBlank c = true) (hg : g.WellFormed)
    (hrest : g.IsRun → ∀ c ∈ rest.head?, isSeparator c = true)
    (hdepth : g.IsCloser → 0 < lx.depth) :
    ∃ t lx', lx.next = (.ok t, lx') ∧ g.Is t ∧ lx'.rest = rest ∧
      lx'.depth = g.depthBehind lx.depth := by
  obtain ⟨position, hnext⟩ := next_of_blanks hlx hblanks hg.head
  cases g with
  | lexeme l =>
    obtain ⟨t, lx', hnext, ht, hrest', hdepth'⟩ := next_lexeme hlx hblanks hg hrest hdepth
    exact ⟨t, lx', hnext, ⟨ht.kind, ht.text⟩, hrest', hdepth'⟩
  | string quote value => exact next_string hlx hblanks hg
  | equal | unequal | less | openBracket => exact ⟨_, _, hnext.trans rfl, ⟨rfl, rfl⟩, rfl, rfl⟩
  | closeBracket =>
    have hopen : ¬ lx.depth = 0 := Nat.ne_of_gt (hdepth trivial)
    refine ⟨⟨.closeBracket, "]", position⟩, ⟨rest, position + 1, lx.depth - 1⟩, hnext.trans ?_,
      ⟨rfl, rfl⟩, rfl, rfl⟩
    show closer ⟨']' :: rest, position, lx.depth⟩ .closeBracket ']' rest = _
    rw [closer, if_neg hopen]
    rfl

/-! ## All glyphs -/

/-- The lexer answers with the glyphs, and then with the end. Every glyph takes a
character. -/
def Gives (lx : Lexer) : List Glyph → Prop
  | [] => ∃ t lx', lx.next = (.ok t, lx') ∧ t.kind = .eof
  | g :: gs => ∃ t lx', lx.next = (.ok t, lx') ∧ g.Is t ∧ lx'.rest.length < lx.rest.length ∧
      lx'.Gives gs

theorem gives_of_written {gs : List Glyph} {cs : List Char} (h : Written gs cs) :
    ∀ {lx : Lexer}, lx.rest = cs → Glyph.Balanced lx.depth gs → lx.Gives gs := by
  induction h with
  | done hblanks =>
    intro lx hlx hbalanced
    exact next_eof (hlx ▸ hblanks) hbalanced
  | @glyph g gs blanks rest hblanks hg hrest _ ih =>
    intro lx hlx hbalanced
    obtain ⟨t, lx', hnext, ht, hrest', hdepth⟩ := next_glyph hlx hblanks hg hrest hbalanced.1
    refine ⟨t, lx', hnext, ht, ?_, ih hrest' (hdepth ▸ hbalanced.2)⟩
    obtain ⟨c, cs, hchars, -, -⟩ := hg.head
    rw [hlx, hrest', hchars]
    simp only [List.length_append, List.length_cons]
    omega

theorem Gives.length_le : ∀ {gs : List Glyph} {lx : Lexer}, lx.Gives gs →
    gs.length ≤ lx.rest.length
  | [], _, _ => Nat.zero_le _
  | _ :: _, _, ⟨_, _, _, _, hlt, h⟩ => Nat.lt_of_le_of_lt h.length_le hlt

end Rule.Lexer

end Passage

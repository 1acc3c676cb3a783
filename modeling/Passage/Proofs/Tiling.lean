import Passage.Proofs.Chaining
import Passage.Proofs.Consuming
import Passage.Proofs.Pool

/-!
# Tokens tile the source

Where a text can be read, its tokens and what stands between them make up the whole text
(`tokens_tile`): each token is found at its position, byte by byte, and between the tokens there
is nothing but blanks and comments. Parentheses and brackets are closed in turn. And what stands
between the tokens decides nothing: the same tokens with single blanks between them are read
again.

`Trivia` says what is skipped, and `Lexer.Takes` what one call of the lexer takes; both are read
off the lexer once, and the rest is about lists of tiles.
-/

namespace Passage

namespace Rule

/-! ## What is skipped -/

/-- Blanks, and comments with the ends of their lines. -/
inductive Trivia : List Char → Prop
  | nil : Trivia []
  | blank {c : Char} {cs : List Char} : isBlank c = true → Trivia cs → Trivia (c :: cs)
  | comment (body : List Char) {cs : List Char} :
      '\n' ∉ body → Trivia cs → Trivia ('#' :: (body ++ '\n' :: cs))

/-- What may stand behind the last token, where the last comment needs no end of its line. -/
inductive Trailing : List Char → Prop
  | trivia {cs : List Char} : Trivia cs → Trailing cs
  | comment {cs : List Char} (body : List Char) :
      Trivia cs → '\n' ∉ body → Trailing (cs ++ '#' :: body)

theorem Trailing.blank {c : Char} {cs : List Char} (hc : isBlank c = true) (h : Trailing cs) :
    Trailing (c :: cs) := by
  cases h with
  | trivia h => exact .trivia (.blank hc h)
  | comment body h hbody => exact .comment body (.blank hc h) hbody

theorem Trailing.behind_comment (body : List Char) {cs : List Char} (hbody : '\n' ∉ body)
    (h : Trailing cs) : Trailing ('#' :: (body ++ '\n' :: cs)) := by
  cases h with
  | trivia h => exact .trivia (.comment body hbody h)
  | @comment cs last h hlast =>
    have hsplit : '#' :: (body ++ '\n' :: (cs ++ '#' :: last)) =
        '#' :: (body ++ '\n' :: cs) ++ '#' :: last := by simp
    rw [hsplit]
    exact .comment last (.comment body hbody h) hlast

section

@[simp] theorem byteLength_nil : byteLength [] = 0 := rfl

theorem byteLength_eq (cs : List Char) : byteLength cs = (cs.map Char.utf8Size).sum := by
  suffices ∀ n, cs.foldl (fun n c => n + c.utf8Size) n = n + (cs.map Char.utf8Size).sum by
    rw [byteLength, this, Nat.zero_add]
  induction cs with
  | nil => exact fun n => rfl
  | cons c cs ih =>
    intro n
    rw [List.foldl_cons, ih, List.map_cons, List.sum_cons, Nat.add_assoc]

@[simp] theorem byteLength_cons (c : Char) (cs : List Char) :
    byteLength (c :: cs) = c.utf8Size + byteLength cs := by
  simp [byteLength_eq]

@[simp] theorem byteLength_append (cs ds : List Char) :
    byteLength (cs ++ ds) = byteLength cs + byteLength ds := by
  simp [byteLength_eq]

/-- The bytes of a text are those of its characters. -/
theorem byteLength_toList (s : String) : byteLength s.toList = s.utf8ByteSize := by
  rw [byteLength_eq, ← String.size_toByteArray, ← String.utf8Encode_toList]
  induction s.toList with
  | nil => rfl
  | cons c cs ih =>
    rw [List.utf8Encode_cons, ByteArray.size_append, ← ih, List.map_cons, List.sum_cons,
      List.utf8Encode_singleton, List.size_toByteArray, String.length_utf8EncodeChar]

theorem utf8ByteSize_ofList (cs : List Char) : (String.ofList cs).utf8ByteSize = byteLength cs := by
  rw [← byteLength_toList, String.toList_ofList]

theorem utf8Size_of_isBlank {c : Char} (h : isBlank c = true) : c.utf8Size = 1 := by
  simp only [isBlank, Bool.or_eq_true, beq_iff_eq] at h
  obtain ((rfl | rfl) | rfl) | rfl := h <;> decide

/-- What is left behind a run without the quote begins with the quote. -/
theorem eq_of_dropWhile_bne {body rest : List Char} {quote last : Char}
    (h : body.dropWhile (· != quote) = last :: rest) : last = quote := by
  have hstop := List.head_dropWhile_not (· != quote) (by rw [h]; exact List.cons_ne_nil _ _)
  simpa [h] using hstop

end

namespace Lexer

/-- What is skipped in front of the rest of a text: trivia, up to a character that is not skipped
or up to the end. -/
inductive Skips : List Char → List Char → Prop
  | token {gap rest : List Char} {c : Char} :
      Trivia gap → isBlank c = false → c ≠ '#' → Skips gap (c :: rest)
  | all {gap : List Char} : Trailing gap → Skips gap []

/-- A character inside a comment. -/
theorem Skips.in_comment {c : Char} {gap rest : List Char} (hc : c ≠ '\n')
    (h : Skips ('#' :: gap) rest) : Skips ('#' :: c :: gap) rest := by
  have htrivia : ∀ {cs : List Char}, Trivia ('#' :: cs) → Trivia ('#' :: c :: cs) := by
    intro cs h
    cases h with
    | blank hblank _ => exact absurd hblank (by decide)
    | comment body hbody h => exact .comment (c :: body) (by simp [hbody, Ne.symm hc]) h
  cases h with
  | token h hblank hhash => exact .token (htrivia h) hblank hhash
  | all h =>
    refine .all ?_
    generalize hcs : '#' :: gap = cs at h
    cases h with
    | trivia h =>
      subst hcs
      exact .trivia (htrivia h)
    | @comment front last h hlast =>
      cases front with
      | nil =>
        obtain ⟨-, rfl⟩ := List.cons.inj hcs
        exact .comment (c :: gap) .nil (by simp [hlast, Ne.symm hc])
      | cons d front =>
        obtain ⟨rfl, rfl⟩ := List.cons.inj hcs
        exact .comment last (htrivia h) hlast

/-- The lexer skips blanks and comments, and counts their bytes. -/
theorem skipFrom_eq (depth : Nat) (cs : List Char) :
    (∀ position, ∃ gap rest, cs = gap ++ rest ∧ Skips gap rest ∧
      skipFrom depth false cs position = ⟨rest, position + byteLength gap, depth⟩) ∧
    ∀ position, ∃ gap rest, cs = gap ++ rest ∧ Skips ('#' :: gap) rest ∧
      skipFrom depth true cs position = ⟨rest, position + byteLength gap, depth⟩ := by
  -- Both states of the reader go together, for each character may end the one or begin the other.
  induction cs with
  | nil =>
    exact ⟨fun position => ⟨[], [], rfl, .all (.trivia .nil), rfl⟩,
      fun position => ⟨[], [], rfl, .all (.comment [] .nil List.not_mem_nil), rfl⟩⟩
  | cons c cs ih =>
    obtain ⟨ihCode, ihComment⟩ := ih
    refine ⟨fun position => ?_, fun position => ?_⟩
    · by_cases hblank : isBlank c = true
      · obtain ⟨gap, rest, rfl, hskips, hskip⟩ := ihCode (position + 1)
        refine ⟨c :: gap, rest, rfl, ?_, ?_⟩
        · cases hskips with
          | token h hc hhash => exact .token (.blank hblank h) hc hhash
          | all h => exact .all (h.blank hblank)
        · rw [skipFrom, if_neg Bool.false_ne_true, if_pos hblank, hskip, byteLength_cons,
            utf8Size_of_isBlank hblank, Nat.add_assoc]
      · by_cases hhash : c = '#'
        · subst hhash
          obtain ⟨gap, rest, rfl, hskips, hskip⟩ := ihComment (position + 1)
          refine ⟨'#' :: gap, rest, rfl, hskips, ?_⟩
          rw [skipFrom, if_neg Bool.false_ne_true, if_neg hblank, if_pos (by decide), hskip,
            byteLength_cons, Nat.add_assoc]
          rfl
        · refine ⟨[], c :: cs, rfl, .token .nil (Bool.eq_false_iff.mpr hblank) hhash, ?_⟩
          rw [skipFrom, if_neg Bool.false_ne_true, if_neg hblank, if_neg (by simpa using hhash)]
          rfl
    · by_cases hend : c = '\n'
      · subst hend
        obtain ⟨gap, rest, rfl, hskips, hskip⟩ := ihCode (position + 1)
        refine ⟨'\n' :: gap, rest, rfl, ?_, ?_⟩
        · cases hskips with
          | token h hc hhash =>
            exact .token (.comment [] List.not_mem_nil h) hc hhash
          | all h => exact .all (h.behind_comment [] List.not_mem_nil)
        · rw [skipFrom, if_pos rfl, byteLength_cons, ← Nat.add_assoc]
          exact hskip
      · obtain ⟨gap, rest, rfl, hskips, hskip⟩ := ihComment (position + c.utf8Size)
        refine ⟨c :: gap, rest, rfl, hskips.in_comment hend, ?_⟩
        rw [skipFrom, if_pos rfl, bne_iff_ne.mpr hend, hskip, byteLength_cons, Nat.add_assoc]

theorem skipTrivia_eq (l : Lexer) :
    ∃ gap rest, l.rest = gap ++ rest ∧ Skips gap rest ∧
      l.skipTrivia = ⟨rest, l.position + byteLength gap, l.depth⟩ :=
  (skipFrom_eq l.depth l.rest).1 l.position

/-! ## What is taken -/

/-- One call of the lexer takes the characters of a glyph, and answers with its token. -/
structure Takes (l : Lexer) (g : Glyph) (t : Token) (l' : Lexer) : Prop where
  token : g.Is t
  wellFormed : g.WellFormed
  rest : l.rest = g.characters ++ l'.rest
  separated : g.IsRun → ∀ c ∈ l'.rest.head?, isSeparator c = true
  opened : g.IsCloser → 0 < l.depth
  depth : l'.depth = g.depthBehind l.depth
  start : t.position = l.position
  stop : l'.position = l.position + byteLength g.characters

variable {l l' : Lexer} {t : Token}

/-- A run that is taken ends where a separator stands. -/
theorem run_eq_ok {part : Char → Bool} {kindOf : String → TokenKind}
    (h : l.run part kindOf = (.ok t, l')) :
    l.rest = t.text.toList ++ l'.rest ∧ t.text.toList = l.rest.takeWhile part ∧
      (∀ c ∈ l'.rest.head?, isSeparator c = true) ∧ t.kind = kindOf t.text ∧
      t.position = l.position ∧ l'.depth = l.depth ∧
      l'.position = l.position + byteLength t.text.toList := by
  have hsplit : l.rest = l.rest.takeWhile part ++ l.rest.dropWhile part :=
    (List.takeWhile_append_dropWhile).symm
  unfold run at h
  dsimp only [drop] at h
  split at h <;> rename_i hdrop
  · obtain ⟨ht, rfl⟩ := Prod.mk.inj h
    obtain rfl := Except.ok.inj ht
    simp only [String.toList_ofList]
    exact ⟨hsplit, trivial, by rw [hdrop]; nofun, trivial, trivial, trivial, trivial⟩
  · split at h
    · rename_i hsep
      obtain ⟨ht, rfl⟩ := Prod.mk.inj h
      obtain rfl := Except.ok.inj ht
      simp only [String.toList_ofList]
      refine ⟨hsplit, trivial, fun d hd => ?_, trivial, trivial, trivial, trivial⟩
      rw [hdrop] at hd
      obtain rfl := Option.some.inj hd
      exact hsep
    · cases h

/-- A sign is a glyph that no separator has to follow. -/
theorem sign_takes {g : Glyph} {rest : List Char} (hrest : l.rest = g.characters ++ rest)
    (hg : g.WellFormed) (hrun : ¬ g.IsRun) (hopened : g.IsCloser → 0 < l.depth)
    (hwidth : byteLength g.characters = g.text.length)
    (h : sign { l with depth := g.depthBehind l.depth } g.kind g.text rest = (.ok t, l')) :
    l.Takes g t l' := by
  obtain ⟨ht, rfl⟩ := Prod.mk.inj h
  obtain rfl := Except.ok.inj ht
  exact ⟨⟨rfl, rfl⟩, hg, hrest, fun h => absurd h hrun, hopened, rfl, rfl,
    congrArg (l.position + ·) hwidth.symm⟩

theorem string_takes {quote : Char} {body : List Char} (hrest : l.rest = quote :: body)
    (hquote : quote = '\'' ∨ quote = '"') (h : l.string quote body = (.ok t, l')) :
    ∃ value, l.Takes (.string quote value) t l' := by
  unfold string at h
  dsimp only at h
  split at h
  · cases h
  · rename_i last rest hdrop
    obtain ⟨ht, rfl⟩ := Prod.mk.inj h
    obtain rfl := Except.ok.inj ht
    obtain rfl := eq_of_dropWhile_bne hdrop
    have hvalue : last ∉ body.takeWhile (· != last) := fun hmem => by
      simpa using List.mem_takeWhile_imp hmem
    have hbody : body = body.takeWhile (· != last) ++ last :: rest := by
      rw [← hdrop]
      exact (List.takeWhile_append_dropWhile).symm
    have hsize : last.utf8Size = 1 := by
      obtain rfl | rfl := hquote <;> decide
    refine ⟨String.ofList (body.takeWhile (· != last)), ⟨rfl, rfl⟩,
      ⟨hquote, by rwa [String.toList_ofList]⟩, ?_, nofun, nofun, rfl, rfl, ?_⟩
    · simp only [Glyph.characters, String.toList_ofList, List.cons_append, List.append_assoc,
        List.nil_append]
      rw [hrest, ← hbody]
    · simp only [Glyph.characters, String.toList_ofList, byteLength_cons, byteLength_append,
        byteLength_nil, hsize]
      omega

/-- A closer that is taken answers an opener. -/
theorem closer_eq_ok {kind : TokenKind} {c : Char} {rest : List Char}
    (h : l.closer kind c rest = (.ok t, l')) :
    0 < l.depth ∧
      sign { l with depth := l.depth - 1 } kind (String.singleton c) rest = (.ok t, l') := by
  unfold closer at h
  split at h
  · cases h
  · rename_i hdepth
    exact ⟨Nat.pos_of_ne_zero hdepth, h⟩

/-- A token is the end of the text, where nothing is open, or that of the glyph it takes. -/
theorem token_eq_ok (h : l.token = (.ok t, l')) :
    (l.rest = [] ∧ l.depth = 0 ∧ t = ⟨.eof, "", l.position⟩ ∧ l' = l) ∨ ∃ g, l.Takes g t l' := by
  unfold token at h
  split at h <;> rename_i hrest
  case h_1 =>
    split at h
    · rename_i hdepth
      obtain ⟨ht, rfl⟩ := Prod.mk.inj h
      exact .inl ⟨hrest, hdepth, (Except.ok.inj ht).symm, rfl⟩
    · cases h
  case h_2 => exact .inr ⟨.equal, sign_takes hrest trivial id nofun rfl h⟩
  case h_3 => exact .inr ⟨.unequal, sign_takes hrest trivial id nofun rfl h⟩
  case h_4 => exact .inr ⟨.less, sign_takes hrest trivial id nofun rfl h⟩
  case h_5 => exact .inr ⟨.lexeme .comma, sign_takes hrest trivial id nofun rfl h⟩
  case h_6 => exact .inr ⟨.lexeme .openParen, sign_takes hrest trivial id nofun rfl h⟩
  case h_7 => exact .inr ⟨.openBracket, sign_takes hrest trivial id nofun rfl h⟩
  case h_8 =>
    obtain ⟨hdepth, h⟩ := closer_eq_ok h
    exact .inr ⟨.lexeme .closeParen, sign_takes hrest trivial id (fun _ => hdepth) rfl h⟩
  case h_9 =>
    obtain ⟨hdepth, h⟩ := closer_eq_ok h
    exact .inr ⟨.closeBracket, sign_takes hrest trivial id (fun _ => hdepth) rfl h⟩
  case h_10 =>
    obtain ⟨value, htakes⟩ := string_takes hrest (.inl rfl) h
    exact .inr ⟨_, htakes⟩
  case h_11 =>
    obtain ⟨value, htakes⟩ := string_takes hrest (.inr rfl) h
    exact .inr ⟨_, htakes⟩
  case h_12 c cs _ _ _ _ _ _ _ _ _ _ =>
    split at h
    · rename_i hstart
      obtain ⟨hsplit, htext, hsep, hkind, hposition, hdepth, hstop⟩ := run_eq_ok h
      have hparts : ∀ d ∈ t.text.toList, isWordPart d = true := fun d hd =>
        List.mem_takeWhile_imp (htext ▸ hd)
      obtain ⟨ds, hds⟩ : ∃ ds, t.text.toList = c :: ds := by
        rw [htext, hrest, List.takeWhile_cons_of_pos (isWordPart_of_isWordStart hstart)]
        exact ⟨_, rfl⟩
      exact .inr ⟨.lexeme (.word t.text), ⟨hkind, rfl⟩,
        ⟨c, ds, hds, hstart, fun d hd => hparts d (hds ▸ List.mem_cons_of_mem _ hd)⟩, hsplit,
        fun _ => hsep, nofun, hdepth, hposition, hstop⟩
    · split at h
      · rename_i hdigit
        obtain ⟨hsplit, htext, hsep, hkind, hposition, hdepth, hstop⟩ := run_eq_ok h
        have hparts : ∀ d ∈ t.text.toList, d.isDigit = true := fun d hd =>
          List.mem_takeWhile_imp (htext ▸ hd)
        have hne : t.text.toList ≠ [] := by
          rw [htext, hrest, List.takeWhile_cons_of_pos hdigit]
          exact List.cons_ne_nil _ _
        exact .inr ⟨.lexeme (.numeral t.text), ⟨hkind, rfl⟩, ⟨hne, hparts⟩, hsplit,
          fun _ => hsep, nofun, hdepth, hposition, hstop⟩
      · cases h

end Lexer

/-! ## Tiles -/

/-- The token stands in the source as its text, or, being a string, as its text between two
quotes of a kind that are not in it. -/
def Token.Spells (t : Token) (span : String) : Prop :=
  if t.kind = .string then
    ∃ quote, (quote = '\'' ∨ quote = '"') ∧ quote ∉ t.text.toList ∧
      span = String.singleton quote ++ t.text ++ String.singleton quote
  else span = t.text

/-- A token with its span of the source, and with what stands between the token before and it. -/
structure Tile where
  gap : String
  token : Token
  span : String

namespace Tile

def text (tile : Tile) : String := tile.gap ++ tile.span

/-- The offset behind the span. -/
def stop (tile : Tile) : Nat := tile.token.position + tile.span.utf8ByteSize

end Tile

/-- The tiles, and what is left behind the last of them, are the whole text. -/
structure Tiling (text : String) (tiles : List Tile) (last : String) : Prop where
  whole : text = String.join (tiles.map Tile.text) ++ last
  gaps : ∀ tile ∈ tiles, Trivia tile.gap.toList
  last : Trailing last.toList
  spells : ∀ tile ∈ tiles, tile.token.Spells tile.span
  /-- A token's position counts the bytes in front of it. -/
  placed : ∀ (before : List Tile) (tile : Tile) (after : List Tile),
    tiles = before ++ tile :: after →
    tile.token.position = (String.join (before.map Tile.text) ++ tile.gap).utf8ByteSize
  /-- The bytes of the source at a token's position are those of its span. -/
  held : ∀ tile ∈ tiles,
    ObjectTable.slice? text.toUTF8 tile.token.position tile.span.utf8ByteSize = some tile.span
  /-- Spans do not overlap, and positions increase. -/
  ordered : tiles.Pairwise fun a b =>
    a.stop ≤ b.token.position ∧ a.token.position < b.token.position

/-- From an offset on, characters are laid out as glyphs with their tokens. -/
inductive Laid : Nat → List Char → List Glyph → List Tile → String → Prop
  | last {offset : Nat} {last : String} :
      Trailing last.toList → Laid offset last.toList [] [] last
  | tile {offset : Nat} {rest : List Char} {g : Glyph} {gs : List Glyph} {tiles : List Tile}
      {last : String} (tile : Tile) :
      Trivia tile.gap.toList → g.WellFormed → g.Is tile.token → tile.span.toList = g.characters →
      tile.token.position = offset + tile.gap.utf8ByteSize → Laid tile.stop rest gs tiles last →
      Laid offset (tile.gap.toList ++ g.characters ++ rest) (g :: gs) (tile :: tiles) last

theorem TokenKind.ofWord_plain (word : String) :
    ofWord word ∉ [.string, .eof, .openParen, .openBracket, .closeParen, .closeBracket] := by
  unfold ofWord
  split <;> decide

end Rule

namespace Glyph

open Rule

/-- A glyph is no end, and a string only if it is one; it opens or closes as its kind says. -/
theorem kind_ne_eof (g : Glyph) : g.kind ≠ .eof := by
  cases g with
  | lexeme l =>
    cases l with
    | word text =>
      intro h
      exact TokenKind.ofWord_plain text (by simp [show TokenKind.ofWord text = .eof from h])
    | _ =>
      intro h
      cases h
  | _ =>
    intro h
    cases h

/-- A glyph's token stands as the glyph's characters. -/
theorem Is.spells {g : Glyph} {t : Token} (h : g.Is t) (hg : g.WellFormed) {span : String}
    (hspan : span.toList = g.characters) : t.Spells span := by
  have hplain : g.characters = g.text.toList → g.kind ≠ .string → t.Spells span := by
    intro hchars hkind
    rw [Token.Spells, if_neg (h.kind ▸ hkind), h.text]
    exact String.toList_inj.mp (hspan.trans hchars)
  cases g with
  | string quote value =>
    obtain ⟨hquote, hvalue⟩ := hg
    have hkind : t.kind = .string := h.kind
    have htext : t.text = value := h.text
    rw [Token.Spells, if_pos hkind, htext]
    refine ⟨quote, hquote, hvalue, String.toList_inj.mp ?_⟩
    simp [hspan, characters]
  | lexeme l =>
    refine hplain rfl ?_
    cases l with
    | word text =>
      intro h
      exact TokenKind.ofWord_plain text (by simp [show TokenKind.ofWord text = .string from h])
    | _ =>
      intro h
      cases h
  | _ =>
    refine hplain rfl fun h => ?_
    cases h

theorem WellFormed.byteLength_pos {g : Glyph} (h : g.WellFormed) : 0 < byteLength g.characters := by
  obtain ⟨c, cs, hchars, -, -⟩ := h.head
  rw [hchars, byteLength_cons]
  exact Nat.lt_of_lt_of_le c.utf8Size_pos (Nat.le_add_right _ _)

end Glyph

section

open Rule

/-- Blanks behind what is written. -/
theorem Written.append_blanks {gs : List Glyph} {cs blanks : List Char} (h : Written gs cs)
    (hblanks : ∀ c ∈ blanks, isBlank c = true) : Written gs (cs ++ blanks) := by
  induction h with
  | done hdone => exact .done (List.forall_mem_append.mpr ⟨hdone, hblanks⟩)
  | @glyph g gs before rest hbefore hg hrest _ ih =>
    rw [List.append_assoc]
    refine .glyph hbefore hg (fun hrun c hc => ?_) ih
    cases rest with
    | cons d rest => exact hrest hrun c hc
    | nil =>
      have hblank := hblanks c (List.mem_of_mem_head? hc)
      rw [isSeparator, hblank, Bool.true_or]

end

namespace Rule

namespace Laid

variable {offset : Nat} {chars : List Char} {gs : List Glyph} {tiles : List Tile} {last : String}

theorem whole (h : Laid offset chars gs tiles last) :
    chars = (String.join (tiles.map Tile.text)).toList ++ last.toList := by
  induction h with
  | last => simp
  | tile _ _ _ _ hspan _ _ ih =>
    rw [ih]
    simp [Tile.text, hspan]

theorem last_trailing (h : Laid offset chars gs tiles last) : Trailing last.toList := by
  induction h with
  | last hlast => exact hlast
  | tile _ _ _ _ _ _ _ ih => exact ih

theorem forall_tile (h : Laid offset chars gs tiles last) :
    ∀ tile ∈ tiles, Trivia tile.gap.toList ∧ tile.token.Spells tile.span ∧
      tile.token.kind ≠ .eof := by
  induction h with
  | last => exact List.forall_mem_nil _
  | @tile offset rest g gs tiles last tile hgap hg ht hspan _ _ ih =>
    refine List.forall_mem_cons.mpr ⟨⟨hgap, ht.spells hg hspan, ?_⟩, ih⟩
    rw [ht.kind]
    exact g.kind_ne_eof

theorem placed (h : Laid offset chars gs tiles last) :
    ∀ (before : List Tile) (tile : Tile) (after : List Tile), tiles = before ++ tile :: after →
      tile.token.position =
        offset + (String.join (before.map Tile.text) ++ tile.gap).utf8ByteSize := by
  induction h with
  | last => exact fun before tile after hsplit => absurd hsplit (by simp)
  | @tile offset rest g gs tiles last first _ _ _ _ hposition _ ih =>
    intro before tile after hsplit
    cases before with
    | nil =>
      obtain ⟨rfl, -⟩ := List.cons.inj hsplit
      simpa using hposition
    | cons other before =>
      obtain ⟨rfl, hrest⟩ := List.cons.inj hsplit
      rw [ih before tile after hrest]
      simp only [Tile.stop, hposition, Tile.text, List.map_cons, String.join_cons,
        String.utf8ByteSize_append]
      omega

/-- Every token stands at the offset or behind it. -/
theorem le_position (h : Laid offset chars gs tiles last) {tile : Tile} (htile : tile ∈ tiles) :
    offset ≤ tile.token.position := by
  obtain ⟨before, after, hsplit⟩ := List.append_of_mem htile
  rw [h.placed before tile after hsplit]
  exact Nat.le_add_right _ _

theorem ordered (h : Laid offset chars gs tiles last) :
    tiles.Pairwise fun a b => a.stop ≤ b.token.position ∧ a.token.position < b.token.position := by
  induction h with
  | last => exact .nil
  | @tile offset rest g gs tiles last first _ hg _ hspan _ hrest ih =>
    refine .cons (fun other hother => ?_) ih
    have hle : first.stop ≤ other.token.position := hrest.le_position hother
    have hspan : 0 < first.span.utf8ByteSize := by
      rw [← byteLength_toList, hspan]
      exact hg.byteLength_pos
    refine ⟨hle, Nat.lt_of_lt_of_le ?_ hle⟩
    exact Nat.lt_add_of_pos_right hspan

/-- What is laid out from the start of a text tiles it. -/
theorem tiling {text : String} (h : Laid 0 text.toList gs tiles last) :
    Tiling text tiles last := by
  have hwhole : text = String.join (tiles.map Tile.text) ++ last :=
    String.toList_inj.mp (by rw [h.whole, String.toList_append])
  have hplaced : ∀ (before : List Tile) (tile : Tile) (after : List Tile),
      tiles = before ++ tile :: after → tile.token.position =
        (String.join (before.map Tile.text) ++ tile.gap).utf8ByteSize := by
    intro before tile after hsplit
    rw [h.placed before tile after hsplit, Nat.zero_add]
  refine ⟨hwhole, fun tile htile => (h.forall_tile tile htile).1, h.last_trailing,
    fun tile htile => (h.forall_tile tile htile).2.1, hplaced, fun tile htile => ?_, h.ordered⟩
  obtain ⟨before, after, hsplit⟩ := List.append_of_mem htile
  have htext : text = String.join (before.map Tile.text) ++ tile.gap ++ tile.span ++
      (String.join (after.map Tile.text) ++ last) := by
    rw [hwhole, hsplit]
    simp [Tile.text, String.append_assoc]
  rw [hplaced before tile after hsplit, htext]
  exact ObjectPool.slice?_append _ _ _

end Laid

/-! ## All tokens -/

/-- The tokens that the lexer answers with are laid out before it, and close what they open. -/
theorem Lexer.laid_of_tokensWithin {fuel : Nat} {l : Lexer} {tokens : List Token}
    (hfuel : l.rest.length < fuel) (h : l.tokensWithin fuel = .ok tokens) :
    ∃ gs tiles last, Laid l.position l.rest gs tiles last ∧ Glyph.Balanced l.depth gs ∧
      tokens = tiles.map Tile.token ++ [⟨.eof, "", l.position + byteLength l.rest⟩] := by
  induction fuel generalizing l tokens with
  | zero => exact absurd hfuel (Nat.not_lt_zero _)
  | succ fuel ih =>
    obtain ⟨gap, rest, hsplit, hskips, hskip⟩ := l.skipTrivia_eq
    rw [tokensWithin] at h
    rcases hnext : l.next with ⟨e | t, l'⟩ <;> rw [hnext] at h <;> dsimp only at h
    · cases h
    have htoken : token ⟨rest, l.position + byteLength gap, l.depth⟩ = (.ok t, l') := by
      rw [← hskip]
      exact hnext
    obtain ⟨hend, hdepth, rfl, -⟩ | ⟨g, htakes⟩ := token_eq_ok htoken
    · obtain rfl : rest = [] := hend
      rw [if_pos rfl] at h
      obtain rfl := Except.ok.inj h
      rw [List.append_nil] at hsplit
      refine ⟨[], [], String.ofList gap, ?_, hdepth, by rw [hsplit]; rfl⟩
      have hlaid : Laid l.position (String.ofList gap).toList [] [] (String.ofList gap) := by
        refine .last ?_
        rw [String.toList_ofList]
        cases hskips with
        | all htrailing => exact htrailing
      rw [String.toList_ofList] at hlaid
      exact hsplit ▸ hlaid
    · have heof : t.kind ≠ .eof := htakes.token.kind ▸ g.kind_ne_eof
      rw [if_neg heof] at h
      obtain ⟨ts, hts, rfl⟩ : ∃ ts, l'.tokensWithin fuel = .ok ts ∧ t :: ts = tokens := by
        cases hrest : l'.tokensWithin fuel with
        | error e => rw [hrest] at h; cases h
        | ok ts => rw [hrest] at h; exact ⟨ts, rfl, Except.ok.inj h⟩
      have hshort := Lexer.length_next hnext heof
      obtain ⟨gs, tiles, last, hlaid, hbalanced, rfl⟩ := ih (by omega) hts
      have hrest : rest = g.characters ++ l'.rest := htakes.rest
      have hgap : Trivia gap := by
        cases hskips with
        | token htrivia _ _ => exact htrivia
        -- A comment without an end of its line leaves nothing for a token.
        | all _ =>
          obtain ⟨c, cs, hchars, -, -⟩ := htakes.wellFormed.head
          rw [hchars] at hrest
          simp at hrest
      have hstart : t.position = l.position + byteLength gap := htakes.start
      have hstop : l'.position = t.position + byteLength g.characters := by
        rw [hstart]
        exact htakes.stop
      refine ⟨g :: gs, ⟨String.ofList gap, t, String.ofList g.characters⟩ :: tiles, last, ?_,
        ⟨htakes.opened, ?_⟩, ?_⟩
      · have hbehind : Laid (Tile.stop ⟨String.ofList gap, t, String.ofList g.characters⟩)
            l'.rest gs tiles last := by
          rw [Tile.stop, utf8ByteSize_ofList, ← hstop]
          exact hlaid
        have htile := Laid.tile ⟨String.ofList gap, t, String.ofList g.characters⟩
          (by rwa [String.toList_ofList]) htakes.wellFormed htakes.token
          (String.toList_ofList) (by rw [utf8ByteSize_ofList]; exact hstart)
          hbehind
        rw [String.toList_ofList] at htile
        rw [hsplit, hrest, ← List.append_assoc]
        exact htile
      · have hdepth : l'.depth = g.depthBehind l.depth := htakes.depth
        exact hdepth ▸ hbalanced
      · rw [hsplit, hrest, hstop, hstart]
        simp only [List.map_cons, List.cons_append, byteLength_append, Nat.add_assoc]

/-! ## Nesting -/

def TokenKind.isOpener (kind : TokenKind) : Bool := kind == .openParen || kind == .openBracket

def TokenKind.isCloser (kind : TokenKind) : Bool := kind == .closeParen || kind == .closeBracket

/-- How many parentheses and brackets the tokens open. -/
def opened (tokens : List Token) : Nat := tokens.countP (·.kind.isOpener)

/-- How many parentheses and brackets the tokens close. -/
def closed (tokens : List Token) : Nat := tokens.countP (·.kind.isCloser)

/-- No more is closed than was opened, and in the end all of it. -/
structure Nested (tokens : List Token) : Prop where
  front : ∀ front : List Token, front <+: tokens → closed front ≤ opened front
  all : closed tokens = opened tokens

theorem TokenKind.ofWord_opens_nothing (word : String) :
    ¬ (ofWord word).isOpener ∧ ¬ (ofWord word).isCloser := by
  unfold ofWord
  split <;> decide

/-- A glyph changes the number of open parentheses and brackets as its kind says. -/
theorem depthBehind_add {g : Glyph} {depth : Nat} (h : g.IsCloser → 0 < depth) :
    g.depthBehind depth + (if g.kind.isCloser then 1 else 0) =
      depth + if g.kind.isOpener then 1 else 0 := by
  cases g with
  | closeBracket => exact Nat.sub_add_cancel (h trivial)
  | lexeme l =>
    cases l with
    | word text =>
      obtain ⟨hopener, hcloser⟩ := TokenKind.ofWord_opens_nothing text
      have hkind : (Glyph.lexeme (.word text)).kind = TokenKind.ofWord text := rfl
      rw [hkind, if_neg hopener, if_neg hcloser]
      rfl
    | closeParen => exact Nat.sub_add_cancel (h rfl)
    | _ => rfl
  | _ => rfl

/-- Tokens of glyphs that close what they open, from a number of open ones on. -/
theorem nested_of_balanced {gs : List Glyph} {ts : List Token} (hts : List.Forall₂ Glyph.Is gs ts)
    {depth : Nat} (h : Glyph.Balanced depth gs) :
    (∀ front : List Token, front <+: ts → closed front ≤ depth + opened front) ∧
      closed ts = depth + opened ts := by
  induction hts generalizing depth with
  | nil =>
    obtain rfl : depth = 0 := h
    exact ⟨fun front hfront => by rw [List.prefix_nil.mp hfront]; exact Nat.le_refl _, rfl⟩
  | @cons g t gs ts ht _ ih =>
    obtain ⟨hcloser, hbalanced⟩ := h
    obtain ⟨hfront, hall⟩ := ih hbalanced
    have hstep := depthBehind_add hcloser
    rw [← ht.kind] at hstep
    have hclosed : ∀ us, closed (t :: us) = closed us + if t.kind.isCloser then 1 else 0 :=
      fun us => List.countP_cons
    have hopened : ∀ us, opened (t :: us) = opened us + if t.kind.isOpener then 1 else 0 :=
      fun us => List.countP_cons
    refine ⟨fun front hprefix => ?_, by rw [hclosed, hopened]; omega⟩
    cases front with
    | nil => exact Nat.zero_le _
    | cons u us =>
      obtain ⟨rfl, hus⟩ := List.cons_prefix_cons.mp hprefix
      have := hfront us hus
      rw [hclosed, hopened]
      omega

theorem Nested.of_balanced {gs : List Glyph} {ts : List Token} (hts : List.Forall₂ Glyph.Is gs ts)
    (h : Glyph.Balanced 0 gs) (position : Nat) : Nested (ts ++ [⟨.eof, "", position⟩]) := by
  obtain ⟨hfront, hall⟩ := nested_of_balanced hts h
  have hend : closed (ts ++ [⟨.eof, "", position⟩]) = closed ts ∧
      opened (ts ++ [⟨.eof, "", position⟩]) = opened ts :=
    ⟨List.countP_append, List.countP_append⟩
  refine ⟨fun front hprefix => ?_, by rw [hend.1, hend.2]; omega⟩
  obtain rfl | hprefix := List.prefix_concat_iff.mp hprefix
  · rw [hend.1, hend.2]
    omega
  · have := hfront front hprefix
    omega

/-! ## Reading again -/

/-- What a token is, wherever it stands. -/
def Token.reading (t : Token) : TokenKind × String := (t.kind, t.text)

theorem map_reading {gs : List Glyph} {ts : List Token} (h : List.Forall₂ Glyph.Is gs ts) :
    ts.map Token.reading = gs.map fun g => (g.kind, g.text) := by
  induction h with
  | nil => rfl
  | cons ht _ ih => rw [List.map_cons, List.map_cons, ih, Token.reading, ht.kind, ht.text]

theorem Laid.forall_is {offset : Nat} {chars : List Char} {gs : List Glyph} {tiles : List Tile}
    {last : String} (h : Laid offset chars gs tiles last) :
    List.Forall₂ Glyph.Is gs (tiles.map Tile.token) := by
  induction h with
  | last => exact .nil
  | tile _ _ _ ht _ _ _ ih => exact .cons ht ih

theorem Laid.wellFormed {offset : Nat} {chars : List Char} {gs : List Glyph} {tiles : List Tile}
    {last : String} (h : Laid offset chars gs tiles last) : ∀ g ∈ gs, g.WellFormed := by
  induction h with
  | last => exact List.forall_mem_nil _
  | tile _ _ hg _ _ _ _ ih => exact List.forall_mem_cons.mpr ⟨hg, ih⟩

theorem Laid.map_span {offset : Nat} {chars : List Char} {gs : List Glyph} {tiles : List Tile}
    {last : String} (h : Laid offset chars gs tiles last) :
    tiles.map (·.span.toList) = gs.map Glyph.characters := by
  induction h with
  | last => rfl
  | tile _ _ _ _ hspan _ _ ih => rw [List.map_cons, List.map_cons, ih, hspan]

theorem intercalate_characters (gs : List Glyph) :
    " ".toList.intercalate (gs.map Glyph.characters) = spaced gs := by
  cases gs with
  | nil => rfl
  | cons g gs =>
    induction gs generalizing g with
    | nil => simp [spaced]
    | cons other gs ih =>
      have hrest := ih other
      simp only [List.map_cons] at hrest ⊢
      rw [List.intercalate_cons_cons, hrest]
      simp [spaced]

/-- An empty span at the end puts a blank behind those before it, if there are any. -/
theorem intercalate_behind (spans : List String) :
    ∃ blanks : String, (∀ c ∈ blanks.toList, isBlank c = true) ∧
      " ".intercalate (spans ++ [""]) = " ".intercalate spans ++ blanks := by
  by_cases h : spans = []
  · subst h
    exact ⟨"", by simp, rfl⟩
  · refine ⟨" ", by simp [isBlank], ?_⟩
    rw [String.intercalate_append_of_ne_nil h (List.cons_ne_nil _ _), String.intercalate_singleton,
      String.append_empty]

/-- Where the lexer answers with glyphs, it can read all that is left. -/
theorem Lexer.Gives.tokensWithin {gs : List Glyph} {l : Lexer} (h : l.Gives gs) {fuel : Nat}
    (hfuel : l.rest.length < fuel) :
    ∃ (ts : List Token) (eof : Token), l.tokensWithin fuel = .ok (ts ++ [eof]) ∧
      List.Forall₂ Glyph.Is gs ts ∧ eof.kind = .eof := by
  induction gs generalizing l fuel with
  | nil =>
    obtain ⟨t, l', hnext, hend⟩ := h
    obtain ⟨fuel, rfl⟩ : ∃ n, fuel = n + 1 := ⟨fuel - 1, by omega⟩
    exact ⟨[], t, by rw [Lexer.tokensWithin, hnext]; exact if_pos hend, .nil, hend⟩
  | cons g gs ih =>
    obtain ⟨t, l', hnext, ht, hshort, hrest⟩ := h
    obtain ⟨fuel, rfl⟩ : ∃ n, fuel = n + 1 := ⟨fuel - 1, by omega⟩
    obtain ⟨ts, eof, hts, his, hend⟩ := ih hrest (show l'.rest.length < fuel by omega)
    refine ⟨t :: ts, eof, ?_, .cons ht his, hend⟩
    rw [Lexer.tokensWithin, hnext]
    dsimp only
    rw [if_neg (ht.kind ▸ g.kind_ne_eof), hts]
    rfl

/-- Glyphs that close what they open are read back from a text they are written in. -/
theorem tokenize_of_written {gs : List Glyph} {text : String} (h : Written gs text.toList)
    (hbalanced : Glyph.Balanced 0 gs) :
    ∃ tokens : List Token, tokenize text = .ok tokens ∧ tokens.map Token.reading =
      gs.map (fun g => (g.kind, g.text)) ++ [(.eof, "")] := by
  have hgives := (Lexer.gives_of_written h rfl hbalanced : (Lexer.ofString text).Gives gs)
  obtain ⟨ts, eof, hts, his, -⟩ := hgives.tokensWithin (Nat.lt_succ_self _)
  obtain ⟨gs', tiles, last, hlaid, -, hsplit⟩ := Lexer.laid_of_tokensWithin (Nat.lt_succ_self _) hts
  obtain ⟨-, heof⟩ := List.append_inj' hsplit rfl
  refine ⟨ts ++ [eof], hts, ?_⟩
  rw [List.map_append, map_reading his, heof]
  rfl

/-- Tokens tile the source. Where a text can be read, all but its last token are spans of it, with
nothing but blanks and comments between them, and the last one is its end. Closers answer openers.
The spans with single blanks between them, and behind them as well if the end is counted, are read
as the same tokens. -/
theorem tokens_tile {text : String} {tokens : List Token} (h : tokenize text = .ok tokens) :
    ∃ tiles last, Tiling text tiles last ∧
      tokens = tiles.map Tile.token ++ [⟨.eof, "", text.utf8ByteSize⟩] ∧
      (∀ tile ∈ tiles, tile.token.kind ≠ .eof) ∧
      Nested tokens ∧
      ∀ spans ∈ [tiles.map Tile.span, tiles.map Tile.span ++ [""]],
        ∃ again, tokenize (" ".intercalate spans) = .ok again ∧
          again.map Token.reading = tokens.map Token.reading := by
  obtain ⟨gs, tiles, last, hlaid, hbalanced, rfl⟩ :=
    Lexer.laid_of_tokensWithin (Nat.lt_succ_self _) h
  have hend : (Lexer.ofString text).position + byteLength (Lexer.ofString text).rest =
      text.utf8ByteSize := by
    rw [Lexer.ofString, byteLength_toList, Nat.zero_add]
  rw [hend]
  refine ⟨tiles, last, hlaid.tiling, rfl, fun tile htile => (hlaid.forall_tile tile htile).2.2,
    .of_balanced hlaid.forall_is hbalanced _, fun spans hspans => ?_⟩
  -- The blanks separate what has to be separated, so that the runs are not longer than they were.
  have hwritten : Written gs (" ".intercalate spans).toList := by
    have hspaced : (" ".intercalate (tiles.map Tile.span)).toList = spaced gs := by
      rw [String.toList_intercalate, List.map_map]
      exact (congrArg _ hlaid.map_span).trans (intercalate_characters gs)
    simp only [List.mem_cons, List.not_mem_nil, or_false] at hspans
    obtain rfl | rfl := hspans
    · rw [hspaced]
      exact written_spaced hlaid.wellFormed
    · obtain ⟨blanks, hblanks, hjoined⟩ := intercalate_behind (tiles.map Tile.span)
      rw [hjoined, String.toList_append, hspaced]
      exact (written_spaced hlaid.wellFormed).append_blanks hblanks
  obtain ⟨again, hagain, hreading⟩ := tokenize_of_written hwritten hbalanced
  refine ⟨again, hagain, ?_⟩
  rw [hreading, List.map_append, map_reading hlaid.forall_is]
  rfl

/-- A string with a character of two bytes and the other quote, and a comment with a closer. -/
theorem tokens_tile_comment :
    let tokens : List Token :=
      [⟨.identifier, "x", 0⟩, ⟨.less, "<", 2⟩, ⟨.openBracket, "[", 3⟩, ⟨.string, "é'", 4⟩,
        ⟨.closeBracket, "]", 9⟩, ⟨.equal, "==", 15⟩, ⟨.number, "99", 17⟩, ⟨.eof, "", 19⟩]
    tokenize "x <[\"é'\"] # ]\n==99" = .ok tokens ∧
    ∃ tiles last, Tiling "x <[\"é'\"] # ]\n==99" tiles last ∧
      tokens = tiles.map Tile.token ++ [⟨.eof, "", 19⟩] ∧
      (∀ tile ∈ tiles, tile.token.kind ≠ .eof) ∧
      Nested tokens ∧
      ∀ spans ∈ [tiles.map Tile.span, tiles.map Tile.span ++ [""]],
        ∃ again, tokenize (" ".intercalate spans) = .ok again ∧
          again.map Token.reading = tokens.map Token.reading := by
  intro tokens
  have h : tokenize "x <[\"é'\"] # ]\n==99" = .ok tokens := by cbv
  exact ⟨h, tokens_tile h⟩

end Rule

end Passage

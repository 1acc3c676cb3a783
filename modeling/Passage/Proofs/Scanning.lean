import Passage.Proofs.Tiling
import Passage.Proofs.Values
import Passage.Rule.Scanner

/-!
# Scanning by bytes is lexing

A scanner that stands behind some characters of a text and a lexer that has these characters
behind it answer alike, and stand together again behind the answer (`Agree`). So the scanner takes
no broken slice, however often it is called and whatever it has answered, and goes only forward
(`scanning_safe`).

The scanner looks at bytes. What carries over from characters to their bytes is any class of
characters that does not split those above ASCII (`Bytewise`): all bytes of such a character are
above ASCII, and are in the class or not as the character is.
-/

namespace Passage

namespace Rule

/-! ## Characters as they are seen -/

/-- The bytes of a character, each as the character with its number. -/
def seenOf (c : Char) : List Char := (String.utf8EncodeChar c).map Char.ofUInt8

/-- The bytes of characters, each as the character with its number. -/
def seen (cs : List Char) : List Char := cs.flatMap seenOf

@[simp] theorem seen_nil : seen [] = [] := rfl

@[simp] theorem seen_cons (c : Char) (cs : List Char) : seen (c :: cs) = seenOf c ++ seen cs := rfl

@[simp] theorem seen_append (cs ds : List Char) : seen (cs ++ ds) = seen cs ++ seen ds :=
  List.flatMap_append

theorem length_seen (cs : List Char) : (seen cs).length = byteLength cs := by
  induction cs with
  | nil => rfl
  | cons c cs ih =>
    rw [seen_cons, List.length_append, ih, byteLength_cons, seenOf, List.length_map,
      String.length_utf8EncodeChar]

theorem seen_toList (s : String) : s.toUTF8.data.toList.map Char.ofUInt8 = seen s.toList := by
  have hbytes : s.toUTF8.data.toList = s.toList.flatMap String.utf8EncodeChar := bytesOf_eq s
  rw [hbytes, List.map_flatMap]
  rfl

theorem toNat_ofUInt8 (b : UInt8) : (Char.ofUInt8 b).toNat = b.toNat := rfl

/-- A character of ASCII is one byte. -/
theorem seenOf_ascii {c : Char} (h : c.toNat < 128) : seenOf c = [c] := by
  have hle : c.val.toNat ≤ 0x7f := Nat.le_of_lt_succ h
  have hbyte : Char.ofUInt8 (UInt8.ofNat c.val.toNat) = c := by
    refine Char.toNat_inj.mp ?_
    rw [toNat_ofUInt8, UInt8.toNat_ofNat']
    exact Nat.mod_eq_of_lt (Nat.lt_of_lt_of_le h (by decide))
  rw [seenOf, String.utf8EncodeChar, if_pos hle, List.map_singleton, hbyte]

theorem utf8Size_ascii {c : Char} (h : c.toNat < 128) : c.utf8Size = 1 := by
  rw [← String.length_utf8EncodeChar, ← List.length_map (f := Char.ofUInt8), ← seenOf,
    seenOf_ascii h, List.length_singleton]

/-- No byte of another character is one of ASCII. -/
theorem le_toNat_of_mem_seenOf {c b : Char} (h : 128 ≤ c.toNat) (hb : b ∈ seenOf c) :
    128 ≤ b.toNat := by
  obtain ⟨byte, hbyte, rfl⟩ := List.mem_map.mp hb
  rw [toNat_ofUInt8]
  have hbeyond : ¬ c.val.toNat ≤ 0x7f := Nat.not_le.mpr h
  have hhigh : ∀ n, n < 128 → 128 ≤ (UInt8.ofNat (n + 128)).toNat := by
    intro n hn
    rw [UInt8.toNat_ofNat', Nat.mod_eq_of_lt (by omega)]
    omega
  unfold String.utf8EncodeChar at hbyte
  dsimp only at hbyte
  rw [if_neg hbeyond] at hbyte
  split at hbyte
  · simp only [List.mem_cons, List.not_mem_nil, or_false] at hbyte
    obtain rfl | rfl := hbyte
    · exact hhigh (c.val.toNat / 64 % 32 + 64) (by omega)
    · exact hhigh (c.val.toNat % 64) (by omega)
  · split at hbyte
    · simp only [List.mem_cons, List.not_mem_nil, or_false] at hbyte
      obtain rfl | rfl | rfl := hbyte
      · exact hhigh (c.val.toNat / 4096 % 16 + 96) (by omega)
      · exact hhigh (c.val.toNat / 64 % 64) (by omega)
      · exact hhigh (c.val.toNat % 64) (by omega)
    · simp only [List.mem_cons, List.not_mem_nil, or_false] at hbyte
      obtain rfl | rfl | rfl | rfl := hbyte
      · exact hhigh (c.val.toNat / 262144 % 8 + 112) (by omega)
      · exact hhigh (c.val.toNat / 4096 % 64) (by omega)
      · exact hhigh (c.val.toNat / 64 % 64) (by omega)
      · exact hhigh (c.val.toNat % 64) (by omega)

theorem seen_ascii {c : Char} (h : c.toNat < 128) (cs : List Char) :
    seen (c :: cs) = c :: seen cs := by
  rw [seen_cons, seenOf_ascii h, List.singleton_append]

theorem seenOf_eq_cons (c : Char) : ∃ b bs, seenOf c = b :: bs :=
  List.exists_cons_of_ne_nil (by simp [seenOf, String.utf8EncodeChar_ne_nil])

/-- A character of ASCII is seen first only where it stands first. -/
theorem seen_eq_cons {cs bs : List Char} {b : Char} (h : seen cs = b :: bs) (hb : b.toNat < 128) :
    ∃ rest, cs = b :: rest ∧ seen rest = bs := by
  cases cs with
  | nil => exact absurd h nofun
  | cons c cs =>
    by_cases hc : c.toNat < 128
    · rw [seen_cons, seenOf_ascii hc] at h
      obtain ⟨rfl, hrest⟩ := List.cons.inj h
      exact ⟨cs, rfl, hrest⟩
    · obtain ⟨d, ds, hds⟩ := seenOf_eq_cons c
      have hhigh := le_toNat_of_mem_seenOf (Nat.le_of_not_lt hc) (hds ▸ List.mem_cons_self)
      rw [seen_cons, hds] at h
      obtain ⟨rfl, -⟩ := List.cons.inj h
      omega

/-- All bytes of a character are in the class, or none is, as the character is. -/
def Bytewise (part : Char → Bool) : Prop :=
  ∀ c, ∀ b ∈ seenOf c, part b = part c

/-- A class that does not tell the characters above ASCII from each other. -/
theorem Bytewise.of_beyond {part : Char → Bool} (value : Bool)
    (h : ∀ c : Char, 128 ≤ c.toNat → part c = value) : Bytewise part := by
  intro c b hb
  by_cases hc : c.toNat < 128
  · rw [seenOf_ascii hc, List.mem_singleton] at hb
    rw [hb]
  · have hc := Nat.le_of_not_lt hc
    rw [h c hc, h b (le_toNat_of_mem_seenOf hc hb)]

namespace Bytewise

variable {part : Char → Bool}

theorem takeWhile_seen (h : Bytewise part) (cs : List Char) :
    (seen cs).takeWhile part = seen (cs.takeWhile part) := by
  induction cs with
  | nil => rfl
  | cons c cs ih =>
    rcases hc : part c with _ | _
    · obtain ⟨b, bs, hbs⟩ := seenOf_eq_cons c
      have hb : part b = false := (h c b (hbs ▸ List.mem_cons_self)).trans hc
      rw [seen_cons, hbs, List.cons_append, List.takeWhile_cons_of_neg (by simp [hb]),
        List.takeWhile_cons_of_neg (by simp [hc]), seen_nil]
    · rw [seen_cons, List.takeWhile_append_of_pos fun b hb => (h c b hb).trans hc, ih,
        List.takeWhile_cons_of_pos hc, seen_cons]

theorem head?_seen (h : Bytewise part) (cs : List Char) :
    (seen cs).head?.all part = cs.head?.all part := by
  cases cs with
  | nil => rfl
  | cons c cs =>
    obtain ⟨b, bs, hbs⟩ := seenOf_eq_cons c
    rw [seen_cons, hbs]
    exact h c b (hbs ▸ List.mem_cons_self)

end Bytewise

/-! ## The classes of the lexer -/

section

variable {c : Char}

theorem not_isAlphanum_of_le (h : 128 ≤ c.toNat) : c.isAlphanum = false := by
  have hc : 128 ≤ c.val.toNat := h
  have hZ : 'Z'.val.toNat = 90 ∧ 'z'.val.toNat = 122 ∧ '9'.val.toNat = 57 := by decide
  simp only [Char.isAlphanum, Char.isAlpha, Char.isUpper, Char.isLower, Char.isDigit,
    Bool.or_eq_false_iff, Bool.and_eq_false_iff, decide_eq_false_iff_not, UInt32.le_iff_toNat_le]
  omega

theorem ne_of_le {d : Char} (h : 128 ≤ c.toNat) (hd : d.toNat < 128) : (c == d) = false := by
  refine beq_false_of_ne fun heq => ?_
  rw [heq] at h
  omega

theorem bytewise_isWordPart : Bytewise isWordPart :=
  .of_beyond false fun c hc => by
    rw [isWordPart, ne_of_le hc (by decide), not_isAlphanum_of_le hc, Bool.false_or]

theorem ascii_of_isWordPart (h : isWordPart c = true) : c.toNat < 128 := by
  by_contra hc
  have hc := Nat.le_of_not_lt hc
  rw [isWordPart, ne_of_le hc (by decide), not_isAlphanum_of_le hc] at h
  exact absurd h (by decide)

theorem bytewise_isWordStart : Bytewise isWordStart :=
  .of_beyond false fun c hc => by
    have halpha := not_isAlphanum_of_le hc
    rw [Char.isAlphanum, Bool.or_eq_false_iff] at halpha
    rw [isWordStart, ne_of_le hc (by decide), halpha.1, Bool.false_or]

theorem bytewise_isDigit : Bytewise Char.isDigit :=
  .of_beyond false fun c hc => by
    have hdigit := not_isAlphanum_of_le hc
    rw [Char.isAlphanum, Bool.or_eq_false_iff] at hdigit
    exact hdigit.2

theorem not_isBlank_of_le (h : 128 ≤ c.toNat) : isBlank c = false := by
  simp only [isBlank, Bool.or_eq_false_iff]
  exact ⟨⟨⟨ne_of_le h (by decide), ne_of_le h (by decide)⟩, ne_of_le h (by decide)⟩,
    ne_of_le h (by decide)⟩

theorem bytewise_isSeparator : Bytewise isSeparator :=
  .of_beyond false fun c hc => by
    rw [isSeparator, not_isBlank_of_le hc, Bool.false_or, List.contains_eq_any_beq,
      List.any_eq_false]
    intro d hd
    have hascii : ∀ d ∈ ['.', '(', ')', ',', '[', ']', '=', '!', '<', '#'], d.toNat < 128 := by
      simp
    simp [ne_of_le hc (hascii d hd)]

theorem bytewise_bne {quote : Char} (h : quote.toNat < 128) : Bytewise (· != quote) :=
  .of_beyond true fun c hc => by simp [bne, ne_of_le hc h]

end

/-! ## Trivia -/

/-- Inside a comment, what is no end of line takes as many bytes as it has. -/
theorem triviaLength_comment {bs : List Char} (h : ∀ b ∈ bs, (b != '\n') = true)
    (rest : List Char) :
    Scanner.triviaLength true (bs ++ rest) = bs.length + Scanner.triviaLength true rest := by
  induction bs with
  | nil => simp
  | cons b bs ih =>
    obtain ⟨hb, hbs⟩ := List.forall_mem_cons.mp h
    rw [List.cons_append, Scanner.triviaLength, if_pos rfl, hb, ih hbs, List.length_cons]
    omega

/-- The bytes that the scanner skips are those of the characters that the lexer skips. -/
theorem position_skipFrom (depth : Nat) (cs : List Char) (inComment : Bool) (position : Nat) :
    (Lexer.skipFrom depth inComment cs position).position =
      position + Scanner.triviaLength inComment (seen cs) := by
  -- A character above ASCII ends the blanks with its first byte, and a comment with none.
  induction cs generalizing inComment position with
  | nil => cases inComment <;> rfl
  | cons c cs ih =>
    by_cases hc : c.toNat < 128
    · have hsize := utf8Size_ascii hc
      rw [Lexer.skipFrom, seen_cons, seenOf_ascii hc, List.singleton_append, Scanner.triviaLength]
      cases inComment with
      | true => rw [if_pos rfl, if_pos rfl, ih, hsize]; omega
      | false =>
        simp only [Bool.false_eq_true, if_false]
        split
        · rw [ih]; omega
        · split
          · rw [ih]; omega
          · rfl
    · have hc := Nat.le_of_not_lt hc
      cases inComment with
      | true =>
        have hnext : (c != '\n') = true := by simp [bne, ne_of_le hc (by decide : '\n'.toNat < 128)]
        have hbytes : ∀ b ∈ seenOf c, (b != '\n') = true := fun b hb =>
          (bytewise_bne (by decide : '\n'.toNat < 128) c b hb).trans hnext
        rw [Lexer.skipFrom, if_pos rfl, hnext, ih, seen_cons, triviaLength_comment hbytes,
          seenOf, List.length_map, String.length_utf8EncodeChar]
        omega
      | false =>
        obtain ⟨b, bs, hbs⟩ := seenOf_eq_cons c
        have hb := le_toNat_of_mem_seenOf hc (hbs ▸ List.mem_cons_self)
        have hhash : '#'.toNat < 128 := by decide
        rw [Lexer.skipFrom, seen_cons, hbs, List.cons_append, Scanner.triviaLength,
          not_isBlank_of_le hc, not_isBlank_of_le hb, ne_of_le hc hhash, ne_of_le hb hhash]
        rfl

/-! ## Slices -/

namespace Scanner

variable {text : String} {before rest : List Char}

/-- Behind some characters of the text, the scanner sees the others. -/
theorem bytesFrom_eq (h : text.toList = before ++ rest) (position depth : Nat) :
    bytesFrom ⟨text, position, depth⟩ (byteLength before) = seen rest := by
  rw [bytesFrom, List.map_drop, seen_toList, h, seen_append, ← length_seen, List.drop_left]

/-- Characters of the text are a slice of it. -/
theorem slice?_eq {mid : List Char} (h : text.toList = before ++ mid ++ rest)
    (position depth : Nat) :
    slice? ⟨text, position, depth⟩ (byteLength before) (byteLength before + byteLength mid) =
      some (String.ofList mid) := by
  have htext : text = String.ofList before ++ String.ofList mid ++ String.ofList rest :=
    String.toList_inj.mp (by simp [h])
  have hslice := ObjectPool.slice?_append (String.ofList before) (String.ofList mid)
    (String.ofList rest)
  rw [← htext, utf8ByteSize_ofList, utf8ByteSize_ofList] at hslice
  rw [slice?, if_pos (Nat.le_add_right _ _), Nat.add_sub_cancel_left]
  exact hslice

theorem size_eq (position depth : Nat) : size ⟨text, position, depth⟩ = byteLength text.toList :=
  (byteLength_toList text).symm

theorem slice?_rest (h : text.toList = before ++ rest) (position depth : Nat) :
    slice? ⟨text, position, depth⟩ (byteLength before) (size ⟨text, position, depth⟩) =
      some (String.ofList rest) := by
  rw [size_eq, h, byteLength_append]
  have hsplit : text.toList = before ++ rest ++ [] := by rw [List.append_nil, h]
  exact slice?_eq hsplit position depth

theorem charAt?_eq {c : Char} (h : text.toList = before ++ c :: rest)
    (position depth : Nat) :
    charAt? ⟨text, position, depth⟩ (byteLength before) = some c := by
  rw [charAt?, slice?_rest h, Option.map_some, String.toList_ofList]
  rfl

end Scanner

/-! ## The two readers -/

/-- Both readers answer alike from behind some characters of a text, and stand together behind
what they have taken; a fault is reported between two characters, and a token takes some. -/
inductive Agree (text : String) (before : List Char) :
    Except ParseError Token × Lexer → Scanner.Answer → Prop
  | intro (answer : Except ParseError Token) (taken : List Char) {rest : List Char} (depth : Nat) :
      text.toList = before ++ taken ++ rest →
      (∀ e, answer = .error e →
        ∃ front back, text.toList = front ++ back ∧ e.position = byteLength front) →
      (∀ t, answer = .ok t → t.kind ≠ .eof → taken ≠ []) →
      Agree text before (answer, ⟨rest, byteLength (before ++ taken), depth⟩)
        (some (answer, ⟨text, byteLength (before ++ taken), depth⟩))

namespace Agree

variable {text : String} {before rest : List Char} {depth : Nat}

/-- An answer that takes nothing. -/
theorem stay (h : text.toList = before ++ rest) {answer : Except ParseError Token}
    (hfault : ∀ e, answer = .error e →
      ∃ front back, text.toList = front ++ back ∧ e.position = byteLength front)
    (hend : ∀ t, answer = .ok t → t.kind = .eof) :
    Agree text before (answer, ⟨rest, byteLength before, depth⟩)
      (some (answer, ⟨text, byteLength before, depth⟩)) := by
  have hsplit : text.toList = before ++ [] ++ rest := by rw [List.append_nil, h]
  have hagree := Agree.intro answer [] depth hsplit hfault fun t ht heof => absurd (hend t ht) heof
  rwa [List.append_nil] at hagree

/-- A fault that is reported where the readers stand. -/
theorem fault (h : text.toList = before ++ rest) (fault : ParseFault) :
    Agree text before (.error ⟨fault, byteLength before⟩, ⟨rest, byteLength before, depth⟩)
      (some (.error ⟨fault, byteLength before⟩, ⟨text, byteLength before, depth⟩)) :=
  stay h (fun e he => ⟨before, rest, h, by rw [← Except.error.inj he]⟩) nofun

theorem sign {chars : String} {width : Nat} (h : text.toList = before ++ chars.toList ++ rest)
    (hne : chars.toList ≠ []) (hlength : chars.length = width)
    (hwidth : byteLength chars.toList = width) (kind : TokenKind) (unread : List Char) :
    Agree text before (Lexer.sign ⟨unread, byteLength before, depth⟩ kind chars rest)
      (Scanner.sign ⟨text, byteLength before, depth⟩ kind width) := by
  have hslice := Scanner.slice?_eq h (byteLength before) depth
  rw [String.ofList_toList, hwidth] at hslice
  have hagree := Agree.intro (.ok ⟨kind, chars, byteLength before⟩) _ depth h
    nofun fun t _ _ => hne
  rw [byteLength_append, hwidth] at hagree
  rw [Lexer.sign, Scanner.sign, hslice, hlength]
  exact hagree

theorem closer {c : Char} (h : text.toList = before ++ c :: rest) (hc : c.utf8Size = 1)
    (kind : TokenKind) :
    Agree text before (Lexer.closer ⟨c :: rest, byteLength before, depth⟩ kind c rest)
      (Scanner.closer ⟨text, byteLength before, depth⟩ kind c) := by
  rw [Lexer.closer, Scanner.closer]
  dsimp only
  split
  · refine stay h (fun e he => ⟨before ++ [c], rest, by simp [h], ?_⟩)
      fun t ht => absurd ht (by simp)
    rw [← Except.error.inj he, byteLength_append, byteLength_cons, hc]
    rfl
  · have hchars : (String.singleton c).toList = [c] := by simp
    have hsplit : text.toList = before ++ (String.singleton c).toList ++ rest := by
      rw [h, hchars, List.append_assoc]
      rfl
    exact sign hsplit (by simp) String.length_singleton (by rw [hchars, byteLength_cons, hc]; rfl)
      kind _

theorem string {quote : Char} {body : List Char} (h : text.toList = before ++ quote :: body)
    (hquote : quote.toNat < 128) :
    Agree text before (Lexer.string ⟨quote :: body, byteLength before, depth⟩ quote body)
      (Scanner.string ⟨text, byteLength before, depth⟩ quote) := by
  have hone := utf8Size_ascii hquote
  have hsize : byteLength (before ++ [quote]) = byteLength before + 1 := by
    rw [byteLength_append, byteLength_cons, byteLength_nil, hone]
  have hbody : text.toList = before ++ [quote] ++ body := by simp [h]
  have hbehind := Scanner.slice?_rest hbody (byteLength before) depth
  rw [hsize] at hbehind
  have hbytes : (String.ofList body).toUTF8.data.toList.map Char.ofUInt8 = seen body := by
    rw [seen_toList, String.toList_ofList]
  have htake := (bytewise_bne hquote).takeWhile_seen body
  have hsplit : body = body.takeWhile (· != quote) ++ body.dropWhile (· != quote) :=
    (List.takeWhile_append_dropWhile).symm
  have hlength := congrArg byteLength hsplit
  rw [byteLength_append] at hlength
  unfold Lexer.string Scanner.string
  dsimp only
  rw [hbehind]
  simp only [Option.bind_eq_bind, Option.bind_some, hbytes, htake, length_seen]
  split
  · rename_i hdrop
    rw [hdrop, byteLength_nil, Nat.add_zero] at hlength
    rw [if_neg (by omega)]
    exact fault h _
  · rename_i last behind hdrop
    obtain rfl := eq_of_dropWhile_bne hdrop
    rw [hdrop, byteLength_cons] at hlength
    rw [hdrop] at hsplit
    rw [if_pos (by have := last.utf8Size_pos; omega)]
    have hvalue : text.toList =
        before ++ [last] ++ body.takeWhile (· != last) ++ last :: behind := by
      rw [h, List.append_assoc, List.append_assoc]
      exact congrArg (before ++ last :: ·) hsplit
    have hslice := Scanner.slice?_eq hvalue (byteLength before) depth
    rw [hsize] at hslice
    rw [hslice]
    have htaken : text.toList =
        before ++ last :: (body.takeWhile (· != last) ++ [last]) ++ behind := by
      rw [hvalue]
      simp
    have hagree := Agree.intro
      (.ok ⟨.string, String.ofList (body.takeWhile (· != last)), byteLength before⟩) _ depth htaken
      nofun fun t _ _ => List.cons_ne_nil _ _
    have hstop : byteLength (before ++ last :: (body.takeWhile (· != last) ++ [last])) =
        byteLength before + byteLength (body.takeWhile (· != last)) + 2 := by
      rw [byteLength_append, byteLength_cons, byteLength_append]
      simp only [byteLength_cons, byteLength_nil]
      omega
    rw [hstop] at hagree
    have hstop' : byteLength before + byteLength (body.takeWhile (· != last)) + 2 =
        byteLength before + 1 + byteLength (body.takeWhile (· != last)) + 1 := by omega
    rw [Option.bind_some, ← hstop']
    exact hagree

/-- A run that begins with a character of ASCII. -/
theorem run {part : Char → Bool} (hpart : Bytewise part) {c : Char} {cs : List Char}
    (h : text.toList = before ++ c :: cs) (hascii : c.toNat < 128) (hc : part c = true)
    (kindOf : String → TokenKind) :
    Agree text before (Lexer.run ⟨c :: cs, byteLength before, depth⟩ part kindOf)
      (Scanner.run ⟨text, byteLength before, depth⟩ part kindOf) := by
  have hone : byteLength (before ++ [c]) = byteLength before + 1 := by
    rw [byteLength_append, byteLength_cons, byteLength_nil, utf8Size_ascii hascii]
  have hfirst : text.toList = before ++ [c] ++ cs := by simp [h]
  have hbytes := Scanner.bytesFrom_eq hfirst (byteLength before) depth
  rw [hone] at hbytes
  have hsplit : text.toList = before ++ c :: cs.takeWhile part ++ cs.dropWhile part := by
    rw [h, List.append_assoc, List.cons_append, List.takeWhile_append_dropWhile]
  have hstop : byteLength (before ++ c :: cs.takeWhile part) =
      byteLength before + 1 + byteLength (cs.takeWhile part) := by
    rw [← hone, ← byteLength_append, List.append_assoc]
    rfl
  have hbehind := Scanner.bytesFrom_eq hsplit (byteLength before) depth
  rw [hstop] at hbehind
  unfold Lexer.run Scanner.run
  dsimp only [Lexer.drop]
  rw [List.takeWhile_cons_of_pos hc, List.dropWhile_cons_of_pos hc, hbytes,
    hpart.takeWhile_seen, length_seen, hbehind, bytewise_isSeparator.head?_seen, ← hstop,
    ← byteLength_append]
  have hslice := Scanner.slice?_eq hsplit (byteLength before) depth
  rw [← byteLength_append] at hslice
  have htoken := Agree.intro (.ok ⟨kindOf (String.ofList (c :: cs.takeWhile part)),
    String.ofList (c :: cs.takeWhile part), byteLength before⟩) _ depth hsplit nofun
    fun t _ _ => List.cons_ne_nil _ _
  cases hdrop : cs.dropWhile part with
  | nil =>
    rw [hdrop] at htoken
    rw [if_pos (by rfl), hslice]
    exact htoken
  | cons d ds =>
    rw [hdrop] at htoken hsplit
    have hhead : (d :: ds).head?.all isSeparator = isSeparator d := rfl
    by_cases hsep : isSeparator d = true
    · rw [if_pos (hhead.trans hsep), hslice]
      dsimp only
      rw [if_pos hsep]
      exact htoken
    · rw [if_neg (hhead ▸ hsep), Scanner.charAt?_eq hsplit]
      dsimp only
      rw [if_neg hsep]
      exact Agree.intro _ _ depth hsplit
        (fun e he => ⟨_, _, hsplit, by rw [← Except.error.inj he]⟩) nofun

/-- A sign of two characters is seen as such. -/
theorem seen_pair {c d : Char} {cs bs : List Char} (h : seen cs = c :: d :: bs)
    (hc : c.toNat < 128) (hd : d.toNat < 128) : ∃ rest, cs = c :: d :: rest := by
  obtain ⟨cs, rfl, hcs⟩ := seen_eq_cons h hc
  obtain ⟨rest, rfl, -⟩ := seen_eq_cons hcs hd
  exact ⟨rest, rfl⟩

/-- The signs of one character. -/
def signs : List Char := ['<', ',', '(', '[', ')', ']', '\'', '"']

/-- Where no sign stands, the scanner asks for the class of a byte, which is that of its
character. -/
theorem token_of_no_sign {s : Scanner} {c : Char} {cs : List Char}
    (hseen : s.bytesFrom s.position = seen (c :: cs))
    (hequal : ∀ rest, c = '=' → cs = '=' :: rest → False)
    (hunequal : ∀ rest, c = '!' → cs = '=' :: rest → False) (hnone : c ∉ signs) :
    s.token = if isWordStart c then s.run isWordPart .ofWord
      else if c.isDigit then s.run Char.isDigit fun _ => .number
      else (s.charAt? s.position).bind fun c => some (.error ⟨.unrecognized c, s.position⟩, s) := by
  unfold Scanner.token
  rw [hseen]
  split <;> rename_i hview
  case h_1 =>
    obtain ⟨b, bs, hbs⟩ := seenOf_eq_cons c
    rw [seen_cons, hbs] at hview
    exact absurd hview nofun
  case h_2 =>
    obtain ⟨rest, hpair⟩ := seen_pair hview (by decide) (by decide)
    exact (hequal rest (List.cons.inj hpair).1 (List.cons.inj hpair).2).elim
  case h_3 =>
    obtain ⟨rest, hpair⟩ := seen_pair hview (by decide) (by decide)
    exact (hunequal rest (List.cons.inj hpair).1 (List.cons.inj hpair).2).elim
  -- The byte need not be the character, but is one of its bytes.
  case h_12 b bs _ _ _ _ _ _ _ _ _ _ =>
    have hb : b ∈ seenOf c := by
      obtain ⟨d, ds, hds⟩ := seenOf_eq_cons c
      rw [seen_cons, hds] at hview
      rw [hds, ← (List.cons.inj hview).1]
      exact List.mem_cons_self
    rw [bytewise_isWordStart c b hb, bytewise_isDigit c b hb]
    rfl
  all_goals
    obtain ⟨rest, hfirst, -⟩ := seen_eq_cons hview (by decide)
    rw [(List.cons.inj hfirst).1] at hnone
    exact absurd (by decide) hnone

/-- In front of a token, both readers answer alike. -/
theorem token (h : text.toList = before ++ rest) :
    Agree text before (Lexer.token ⟨rest, byteLength before, depth⟩)
      (Scanner.token ⟨text, byteLength before, depth⟩) := by
  have hseen := Scanner.bytesFrom_eq h (byteLength before) depth
  have hsign : ∀ {chars rest : List Char}, text.toList = before ++ (chars ++ rest) →
      text.toList = before ++ chars ++ rest := fun h => by rw [h, List.append_assoc]
  unfold Lexer.token
  split <;> rename_i hrest <;> dsimp only at hrest <;> subst hrest
  case h_1 =>
    rw [Scanner.token, hseen]
    dsimp only [seen_nil]
    split
    · exact stay h nofun fun t ht => by rw [← Except.ok.inj ht]
    · exact fault h .unclosed
  case h_2 | h_3 =>
    rw [Scanner.token, hseen, seen_ascii (by decide), seen_ascii (by decide)]
    exact sign (hsign h) (by decide) rfl rfl _ _
  case h_4 | h_5 | h_6 | h_7 =>
    rw [Scanner.token, hseen, seen_ascii (by decide)]
    exact sign (hsign h) (by decide) rfl rfl _ _
  case h_8 | h_9 =>
    rw [Scanner.token, hseen, seen_ascii (by decide)]
    exact closer h (by decide) _
  case h_10 | h_11 =>
    rw [Scanner.token, hseen, seen_ascii (by decide)]
    exact string h (by decide)
  case h_12 c cs hequal hunequal hless hcomma hparen hbracket hparen' hbracket' hquote hquote' =>
    have hnone : c ∉ signs := by
      simp only [signs, List.mem_cons, List.not_mem_nil, or_false, not_or]
      exact ⟨hless, hcomma, hparen, hbracket, hparen', hbracket', hquote, hquote'⟩
    rw [token_of_no_sign hseen hequal hunequal hnone]
    split
    · rename_i hstart
      exact run bytewise_isWordPart h (ascii_of_isWordPart (isWordPart_of_isWordStart hstart))
        (isWordPart_of_isWordStart hstart) _
    · split
      · rename_i hdigit
        exact run bytewise_isDigit h (ascii_of_isWordPart (isWordPart_of_isDigit hdigit)) hdigit _
      · rw [Scanner.charAt?_eq h]
        exact fault h (.unrecognized c)

/-- One call of both readers: they skip alike, and answer alike. -/
theorem next (h : text.toList = before ++ rest) :
    ∃ gap, Agree text (before ++ gap) (Lexer.next ⟨rest, byteLength before, depth⟩)
      (Scanner.next ⟨text, byteLength before, depth⟩) := by
  obtain ⟨gap, behind, hsplit, -, hskip⟩ := Lexer.skipTrivia_eq ⟨rest, byteLength before, depth⟩
  have hposition := position_skipFrom depth rest false (byteLength before)
  have hscanner : Scanner.skipTrivia ⟨text, byteLength before, depth⟩ =
      ⟨text, byteLength (before ++ gap), depth⟩ := by
    have hskipped : (Lexer.skipFrom depth false rest (byteLength before)).position =
        byteLength before + byteLength gap := congrArg Lexer.position hskip
    rw [Scanner.skipTrivia]
    dsimp only
    rw [Scanner.bytesFrom_eq h, ← hposition, hskipped, byteLength_append]
  have htext : text.toList = before ++ gap ++ behind := by
    rw [List.append_assoc, ← hsplit]
    exact h
  refine ⟨gap, ?_⟩
  rw [Lexer.next, hskip, Scanner.next, hscanner, ← byteLength_append]
  exact token htext

end Agree

/-! ## All calls -/

/-- The lexer after so many calls, whatever they answered. -/
def Lexer.after : Nat → Lexer → Lexer
  | 0, l => l
  | calls + 1, l => l.next.2.after calls

/-- All tokens of a scanner, one call after the other, up to the end or the first fault. -/
inductive Scanner.Collects : Scanner → Except ParseError (List Token) → Prop
  | fault {s s' : Scanner} {e : ParseError} :
      s.next = some (.error e, s') → Collects s (.error e)
  | last {s s' : Scanner} {t : Token} :
      s.next = some (.ok t, s') → t.kind = .eof → Collects s (.ok [t])
  | more {s s' : Scanner} {t : Token} {result : Except ParseError (List Token)} :
      s.next = some (.ok t, s') → t.kind ≠ .eof → Collects s' result →
      Collects s (result.map (t :: ·))

/-- An offset in a text, or at its end, that is not inside a character. -/
def IsBoundary (text : String) (offset : Nat) : Prop :=
  offset ≤ text.utf8ByteSize ∧ ObjectTable.isBoundary text.toUTF8 offset = true

/-- What a call may do to a scanner of a text: it goes forward to a boundary, reports a fault at a
boundary, and goes on where it answers with a token other than the end. -/
structure Scanner.Advances (text : String) (s : Scanner) (answer : Except ParseError Token)
    (s' : Scanner) : Prop where
  forward : s.position ≤ s'.position
  inside : IsBoundary text s'.position
  fault : ∀ e, answer = .error e → IsBoundary text e.position
  token : ∀ t, answer = .ok t → t.kind ≠ .eof → s.position < s'.position

section

variable {text : String} {before rest : List Char}

theorem isBoundary_byteLength (h : text.toList = before ++ rest) :
    IsBoundary text (byteLength before) := by
  have htext : text = String.ofList before ++ String.ofList rest :=
    String.toList_inj.mp (by simp [h])
  have hboundary := ObjectPool.isBoundary_append (String.ofList before) (String.ofList rest)
  rw [← htext, utf8ByteSize_ofList] at hboundary
  refine ⟨?_, hboundary⟩
  rw [← byteLength_toList, h, byteLength_append]
  exact Nat.le_add_right _ _

/-- One call of a scanner behind some characters of the text. -/
theorem next_advances (h : text.toList = before ++ rest) (depth : Nat) :
    ∃ answer before' rest' depth', text.toList = before' ++ rest' ∧
      Lexer.next ⟨rest, byteLength before, depth⟩ = (answer, ⟨rest', byteLength before', depth'⟩) ∧
      Scanner.next ⟨text, byteLength before, depth⟩ =
        some (answer, ⟨text, byteLength before', depth'⟩) ∧
      Scanner.Advances text ⟨text, byteLength before, depth⟩ answer
        ⟨text, byteLength before', depth'⟩ ∧
      (∀ t, answer = .ok t → t.kind ≠ .eof → rest'.length < rest.length) := by
  obtain ⟨gap, hagree⟩ : ∃ gap, Agree text (before ++ gap)
      (Lexer.next ⟨rest, byteLength before, depth⟩)
      (Scanner.next ⟨text, byteLength before, depth⟩) := Agree.next h
  generalize hlexed : Lexer.next ⟨rest, byteLength before, depth⟩ = lexed at hagree
  generalize hscanned : Scanner.next ⟨text, byteLength before, depth⟩ = scanned at hagree
  cases hagree with
  | @intro answer taken rest' depth' hsplit hfault htaken =>
    have hrest : rest = gap ++ taken ++ rest' := by
      rw [h, List.append_assoc, List.append_assoc] at hsplit
      rw [List.append_cancel_left hsplit, List.append_assoc]
    refine ⟨answer, before ++ gap ++ taken, rest', depth', hsplit, rfl, rfl,
      ⟨?_, isBoundary_byteLength hsplit, fun e he => ?_, fun t ht heof => ?_⟩, fun t ht heof => ?_⟩
    · simp only [byteLength_append]
      omega
    · obtain ⟨front, back, hfront, hposition⟩ := hfault e he
      exact hposition ▸ isBoundary_byteLength hfront
    · obtain ⟨c, cs, hcs⟩ := List.exists_cons_of_ne_nil (htaken t ht heof)
      have := c.utf8Size_pos
      simp only [byteLength_append, hcs, byteLength_cons]
      omega
    · have := List.length_pos_iff.mpr (htaken t ht heof)
      rw [hrest]
      simp only [List.length_append]
      omega

/-- Both readers, after so many calls, stand together between two characters of the text. -/
theorem after_eq (h : text.toList = before ++ rest) (depth calls : Nat) :
    ∃ before' rest' depth', text.toList = before' ++ rest' ∧
      Lexer.after calls ⟨rest, byteLength before, depth⟩ = ⟨rest', byteLength before', depth'⟩ ∧
      Scanner.after calls ⟨text, byteLength before, depth⟩ =
        some ⟨text, byteLength before', depth'⟩ := by
  induction calls generalizing before rest depth with
  | zero => exact ⟨before, rest, depth, h, rfl, rfl⟩
  | succ calls ih =>
    obtain ⟨answer, before₁, rest₁, depth₁, h₁, hlexed, hscanned, -, -⟩ := next_advances h depth
    obtain ⟨before', rest', depth', h', hlexer, hscanner⟩ := ih h₁ depth₁
    refine ⟨before', rest', depth', h', ?_, ?_⟩
    · rw [Lexer.after, hlexed, hlexer]
    · rw [Scanner.after, hscanned]
      exact hscanner

/-- The scanner collects the tokens that the lexer gives within enough calls. -/
theorem collects_tokensWithin (h : text.toList = before ++ rest) (depth : Nat) {fuel : Nat}
    (hfuel : rest.length < fuel) :
    Scanner.Collects ⟨text, byteLength before, depth⟩
      (Lexer.tokensWithin fuel ⟨rest, byteLength before, depth⟩) := by
  -- Each token takes characters, so that the lexer never runs out of calls.
  induction fuel generalizing before rest depth with
  | zero => exact absurd hfuel (Nat.not_lt_zero _)
  | succ fuel ih =>
    obtain ⟨answer, before', rest', depth', h', hlexed, hscanned, -, hshort⟩ :=
      next_advances h depth
    rw [Lexer.tokensWithin, hlexed]
    cases answer with
    | error e => exact .fault hscanned
    | ok t =>
      dsimp only
      split
      · rename_i hend
        exact .last hscanned hend
      · rename_i hend
        have := hshort t rfl hend
        exact .more hscanned hend (ih h' depth' (by omega))

/-- A slice exists only between two boundaries of the source. -/
theorem isBoundary_of_slice? {s : Scanner} {start stop : Nat} {span : String}
    (h : s.slice? start stop = some span) :
    start ≤ stop ∧ IsBoundary s.source start ∧ IsBoundary s.source stop := by
  have hle : ∀ offset, ObjectTable.isBoundary s.source.toUTF8 offset = true →
      offset ≤ s.source.utf8ByteSize := by
    intro offset hoffset
    unfold ObjectTable.isBoundary at hoffset
    rw [← String.size_toByteArray, ← String.toUTF8_eq_toByteArray]
    split at hoffset
    · omega
    · have := beq_iff_eq.mp hoffset
      omega
  unfold Scanner.slice? at h
  split at h
  · rename_i horder
    unfold ObjectTable.slice? at h
    rw [Nat.add_sub_cancel' horder] at h
    split at h
    · rename_i hboundaries
      obtain ⟨hstart, hstop⟩ := Bool.and_eq_true_iff.mp hboundaries
      exact ⟨horder, ⟨hle _ hstart, hstart⟩, ⟨hle _ hstop, hstop⟩⟩
    · cases h
  · cases h

end

/-- Reading by bytes is safe. After any number of calls on a text, whatever they answered, the next
one answers as the lexer does: it takes no slice but between two boundaries of the source, goes
forward to a boundary, reports a fault at one, and goes on with each token before the end. So the
tokens of a text are collected in finitely many calls, as `tokenize` gives them. -/
theorem scanning_safe (text : String) :
    (∀ calls, ∃ s answer s', (Scanner.ofString text).after calls = some s ∧
      s.next = some (answer, s') ∧ s.Advances text answer s' ∧
      answer = ((Lexer.ofString text).after calls).next.1) ∧
    (∀ (s : Scanner) (start stop : Nat) (span : String), s.slice? start stop = some span →
      start ≤ stop ∧ IsBoundary s.source start ∧ IsBoundary s.source stop) ∧
    (Scanner.ofString text).Collects (tokenize text) := by
  have hstart : text.toList = [] ++ text.toList := rfl
  refine ⟨fun calls => ?_, fun s start stop span => isBoundary_of_slice?,
    collects_tokensWithin hstart 0 (Nat.lt_succ_self _)⟩
  obtain ⟨before, rest, depth, h, hlexer, hscanner⟩ := after_eq hstart 0 calls
  obtain ⟨answer, before', rest', depth', -, hlexed, hscanned, hadvances, -⟩ :=
    next_advances h depth
  refine ⟨_, answer, _, hscanner, hscanned, hadvances, ?_⟩
  have hanswer : (Lexer.ofString text).after calls = ⟨rest, byteLength before, depth⟩ := hlexer
  rw [hanswer, hlexed]

end Rule

end Passage

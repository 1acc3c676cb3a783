import Passage.Node.Hash
import Passage.Proofs.Digits

/-!
# Nodes told apart by their bytes

The bytes that a node is hashed by are the characters of `Node.spell`: tags, counts,
numbers and texts in a row, with nothing between them. A text may hold what looks like a
tag, a symbol runs into the count of arguments behind it, and a call that is called again
leaves open which of the two a count belongs to. So not every node can be read off its
bytes (`bytes_ambiguous`).

A node is `Legible` if its texts hold no tag, and its calls name what they call and have a
single digit of arguments. Of two legible nodes that rules are lowered to, the bytes tell
which is which (`eq_of_bytes_eq`). Whatever a part of a legible node is followed by, it is
the end or one of a few `openings`, and no symbol, count or text reaches into these
(`Separable`).
-/

namespace Passage

open Rule

namespace Node

/-! ## Spelling -/

mutual

/-- The text that a node is hashed by. -/
def spelling : Node → String
  | .anyOf items => "anyof" ++ (toString items.length ++ spellingAll items)
  | .every items => "every" ++ (toString items.length ++ spellingAll items)
  | .boolean value => "bool" ++ if value then "true" else "false"
  | .compare op lhs rhs => "compare" ++ (toString op.code ++ (spelling lhs ++ spelling rhs))
  | .identifier id => "identifier" ++ Text.hex id
  | .invert inner => "invert" ++ spelling inner
  | .invoke target args =>
      "invoke" ++ (spelling target ++ (toString args.length ++ spellingAll args))
  | .number value => "number" ++ value.fixedText 6
  | .string value => "string" ++ value

def spellingAll : List Node → String
  | [] => ""
  | node :: rest => spelling node ++ spellingAll rest

end

theorem append_toUTF8 (out : ByteArray) (text text' : String) :
    out ++ text.toUTF8 ++ text'.toUTF8 = out ++ (text ++ text').toUTF8 :=
  ByteArray.append_assoc

mutual

theorem appendBytes_eq (out : ByteArray) :
    (node : Node) → appendBytes out node = out ++ node.spelling.toUTF8
  | .anyOf items | .every items => by
    rw [appendBytes, appendAllBytes_eq, appendText, appendText, append_toUTF8, append_toUTF8,
      spelling]
  | .boolean _ | .identifier _ | .number _ | .string _ => by
    rw [appendBytes, appendText, appendText, append_toUTF8, spelling]
  | .compare op lhs rhs => by
    rw [appendBytes, appendBytes_eq, appendBytes_eq, appendText, appendText, append_toUTF8,
      append_toUTF8, append_toUTF8, spelling]
  | .invert inner => by
    rw [appendBytes, appendBytes_eq, appendText, append_toUTF8, spelling]
  | .invoke target args => by
    rw [appendBytes, appendAllBytes_eq, appendText, appendBytes_eq, appendText, append_toUTF8,
      append_toUTF8, append_toUTF8, spelling]

theorem appendAllBytes_eq (out : ByteArray) :
    (nodes : List Node) → appendAllBytes out nodes = out ++ (spellingAll nodes).toUTF8
  | [] => by
    rw [appendAllBytes, spellingAll]
    exact ByteArray.append_empty.symm
  | node :: rest => by
    rw [appendAllBytes, appendAllBytes_eq, appendBytes_eq, append_toUTF8, spellingAll]

end

/-- Nodes of the same bytes are spelled alike. -/
theorem spelling_eq_of_bytes {a b : Node} (h : a.bytes = b.bytes) : a.spelling = b.spelling := by
  unfold bytes at h
  rw [appendBytes_eq, appendBytes_eq, ByteArray.empty_append, ByteArray.empty_append] at h
  exact String.toByteArray_inj.mp h

/-- The characters that a node is hashed by. -/
def spell (node : Node) : List Char := node.spelling.toList

def spellAll (nodes : List Node) : List Char := (spellingAll nodes).toList

theorem toList_toString (n : Nat) : (toString n).toList = Nat.toDigits 10 n := Nat.toList_repr

theorem spellAll_cons (node : Node) (rest : List Node) :
    spellAll (node :: rest) = node.spell ++ spellAll rest := by
  rw [spellAll, spellingAll, String.toList_append]
  rfl

theorem spell_anyOf (items : List Node) : spell (.anyOf items) =
    "anyof".toList ++ (Nat.toDigits 10 items.length ++ spellAll items) := by
  rw [spell, spelling, String.toList_append, String.toList_append, toList_toString]
  rfl

theorem spell_every (items : List Node) : spell (.every items) =
    "every".toList ++ (Nat.toDigits 10 items.length ++ spellAll items) := by
  rw [spell, spelling, String.toList_append, String.toList_append, toList_toString]
  rfl

theorem spell_boolean (value : Bool) : spell (.boolean value) =
    "bool".toList ++ (if value then "true" else "false").toList := by
  rw [spell, spelling, String.toList_append]

theorem spell_compare (op : Comparison) (lhs rhs : Node) : spell (.compare op lhs rhs) =
    "compare".toList ++ (Nat.toDigits 10 op.code ++ (lhs.spell ++ rhs.spell)) := by
  rw [spell, spelling, String.toList_append, String.toList_append, String.toList_append,
    toList_toString]
  rfl

theorem spell_identifier (id : SymbolId) : spell (.identifier id) =
    "identifier".toList ++ Nat.toDigits 16 id := by
  rw [spell, spelling, String.toList_append]
  exact congrArg _ String.toList_ofList

theorem spell_invert (inner : Node) : spell (.invert inner) = "invert".toList ++ inner.spell := by
  rw [spell, spelling, String.toList_append]
  rfl

theorem spell_invoke (target : Node) (args : List Node) : spell (.invoke target args) =
    "invoke".toList ++ (target.spell ++ (Nat.toDigits 10 args.length ++ spellAll args)) := by
  rw [spell, spelling, String.toList_append, String.toList_append, String.toList_append,
    toList_toString]
  rfl

theorem spell_number (value : Number) : spell (.number value) =
    "number".toList ++ (value.fixedText 6).toList := by
  rw [spell, spelling, String.toList_append]

theorem spell_string (value : String) : spell (.string value) =
    "string".toList ++ value.toList := by
  rw [spell, spelling, String.toList_append]

/-! ## Tags -/

def tags : List String :=
  ["anyof", "every", "bool", "compare", "identifier", "invert", "invoke", "number", "string"]

theorem tag_mem_tags (node : Node) : node.tag ∈ tags := by
  cases node <;> exact of_decide_eq_true rfl

theorem tag_isPrefix (node : Node) (rest : List Char) : node.tag.toList <+: node.spell ++ rest := by
  suffices h : node.tag.toList <+: node.spell from h.trans (List.prefix_append _ _)
  cases node <;>
    · rw [spell, spelling, String.toList_append]
      exact List.prefix_append _ _

/-- No tag begins another one. -/
theorem tags_apart : ∀ tag ∈ tags, ∀ tag' ∈ tags, tag.toList <+: tag'.toList → tag = tag' := by
  decide

theorem tag_eq_of_spell {a b : Node} {rest rest' : List Char}
    (h : a.spell ++ rest = b.spell ++ rest') : a.tag = b.tag := by
  have hb := b.tag_isPrefix rest'
  rw [← h] at hb
  obtain hprefix | hprefix := List.prefix_or_prefix_of_prefix (a.tag_isPrefix rest) hb
  · exact tags_apart _ a.tag_mem_tags _ b.tag_mem_tags hprefix
  · exact (tags_apart _ b.tag_mem_tags _ a.tag_mem_tags hprefix).symm

/-- The nodes are of one kind. -/
inductive Alike : Node → Node → Prop
  | anyOf (items items') : Alike (.anyOf items) (.anyOf items')
  | every (items items') : Alike (.every items) (.every items')
  | boolean (value value') : Alike (.boolean value) (.boolean value')
  | compare (op op' lhs lhs' rhs rhs') : Alike (.compare op lhs rhs) (.compare op' lhs' rhs')
  | identifier (id id') : Alike (.identifier id) (.identifier id')
  | invert (inner inner') : Alike (.invert inner) (.invert inner')
  | invoke (target target' args args') : Alike (.invoke target args) (.invoke target' args')
  | number (value value') : Alike (.number value) (.number value')
  | string (value value') : Alike (.string value) (.string value')

theorem alike_of_tag {a b : Node} (h : a.tag = b.tag) : Alike a b := by
  cases a <;> cases b <;> first
    | constructor
    | exact absurd h (of_decide_eq_false rfl)

/-! ## Legible nodes -/

/-- A text holds no tag. -/
def Silent (cs : List Char) : Prop := ∀ tag ∈ tags, ¬ tag.toList <:+: cs

/-- What the node is spelled with ends where it seems to: a text holds no tag, and a call
names what it calls, with fewer than ten arguments. -/
def IsClear : Node → Prop
  | .string value => Silent value.toList
  | .invoke target args => target.identifier?.isSome = true ∧ args.length < 10
  | _ => True

theorem named_of_isClear {target : Node} {args : List Node} (h : IsClear (.invoke target args)) :
    ∃ id, target = .identifier id := by
  cases target with
  | identifier id => exact ⟨id, rfl⟩
  | _ => exact absurd h.1 nofun

/-- All parts of the node are clear. -/
abbrev Legible (node : Node) : Prop := node.Each IsClear

/-- The node is legible, and its numbers are natural. -/
abbrev Readable (node : Node) : Prop := node.Each fun part => part.CountsNaturally ∧ part.IsClear

/-! ## What follows a part -/

/-- What a legible node begins with. -/
def openings : List String :=
  ["anyof", "every", "bool", "compare1", "compare2", "compare3", "identifier", "invert",
   "invokeidentifier", "number", "string"]

/-- The characters are at an end, or a node begins. -/
def Opens (rest : List Char) : Prop := rest = [] ∨ ∃ w ∈ openings, w.toList <+: rest

theorem opening {node : Node} (h : node.Readable) (rest : List Char) :
    ∃ w ∈ openings, w.toList <+: node.spell ++ rest := by
  have htag : node.tag ∈ openings → ∃ w ∈ openings, w.toList <+: node.spell ++ rest :=
    fun hmem => ⟨node.tag, hmem, node.tag_isPrefix rest⟩
  cases h with
  | compare =>
    rename_i op lhs rhs _ _ _
    refine ⟨"compare" ++ toString op.code, by cases op <;> exact of_decide_eq_true rfl, ?_⟩
    rw [spell_compare, String.toList_append, toList_toString, ← List.append_assoc,
      List.append_assoc _ _ rest]
    exact List.prefix_append _ _
  | invoke hself =>
    rename_i target args _ _
    obtain ⟨id, rfl⟩ := named_of_isClear hself.2
    refine ⟨"invoke" ++ "identifier", of_decide_eq_true rfl, ?_⟩
    rw [spell_invoke, spell_identifier, String.toList_append, List.append_assoc,
      List.prefix_append_right_inj, List.append_assoc, List.append_assoc]
    exact List.prefix_append _ _
  | _ => exact htag (of_decide_eq_true rfl)

theorem opens_spell {node : Node} (h : node.Readable) (rest : List Char) :
    Opens (node.spell ++ rest) :=
  .inr (opening h rest)

theorem opens_spellAll {nodes : List Node} (h : ∀ node ∈ nodes, node.Readable) {rest : List Char}
    (hrest : Opens rest) : Opens (spellAll nodes ++ rest) := by
  cases nodes with
  | nil => exact hrest
  | cons node nodes =>
    rw [spellAll_cons, List.append_assoc]
    exact opens_spell (h node List.mem_cons_self) _

/-! ## Where a part ends -/

/-- Runs of characters that do not reach into what follows them: where an opening is cut,
and its first piece is still such a run, the second piece opens nothing. -/
structure Separable (A : List Char → Prop) : Prop where
  left : ∀ {cs cs'}, A (cs ++ cs') → A cs
  right : ∀ {cs cs'}, A (cs ++ cs') → A cs'
  apart : ∀ w ∈ openings, ∀ i ∈ List.range w.length, A (w.toList.take (i + 1)) →
    i + 1 < w.length ∧ ∀ w' ∈ openings, ¬ w.toList.drop (i + 1) <+: w'.toList ∧
      ¬ w'.toList <+: w.toList.drop (i + 1)

theorem hex_separable : Separable fun cs => ∀ c ∈ cs, IsHex c where
  left h c hc := h c (List.mem_append_left _ hc)
  right h c hc := h c (List.mem_append_right _ hc)
  apart := by
    have hdigits : ∀ w ∈ openings, ∀ i ∈ List.range w.length,
        (w.toList.take (i + 1)).all (decide <| IsHex ·) = true →
        i + 1 < w.length ∧ ∀ w' ∈ openings, ¬ w.toList.drop (i + 1) <+: w'.toList ∧
          ¬ w'.toList <+: w.toList.drop (i + 1) := by decide
    intro w hw i hi hrun
    exact hdigits w hw i hi (List.all_eq_true.mpr fun c hc => decide_eq_true (hrun c hc))

instance (cs : List Char) : Decidable (Silent cs) :=
  inferInstanceAs (Decidable (∀ tag ∈ tags, ¬ tag.toList <:+: cs))

theorem silent_separable : Separable Silent where
  left h tag htag hin := h tag htag (hin.trans (List.prefix_append _ _).isInfix)
  right h tag htag hin := h tag htag (hin.trans (List.suffix_append _ _).isInfix)
  apart := by decide +kernel

theorem openings_pos : ∀ w ∈ openings, 0 < w.length := by decide

namespace Separable

variable {A : List Char → Prop} {cs cs' rest rest' : List Char}

/-- What is left over between two cuts at openings is nothing. -/
theorem eq_nil (hA : Separable A) (h : A cs) (hopens : Opens (cs ++ rest)) (hrest : Opens rest) :
    cs = [] := by
  obtain hnil | ⟨w, hw, hprefix⟩ := hopens
  · exact (List.append_eq_nil_iff.mp hnil).1
  refine Classical.byContradiction fun hne => ?_
  have hpos : 0 < cs.length := List.length_pos_iff.mpr hne
  obtain hshort | hlong := List.prefix_or_prefix_of_prefix hprefix (List.prefix_append cs rest)
  · -- The whole opening is a run, which it is not.
    obtain ⟨more, hmore⟩ := hshort
    have hlength : w.length - 1 + 1 = w.toList.length := by
      have hpos : 0 < w.length := openings_pos w hw
      rw [String.length_toList]
      omega
    have hwhole : A (w.toList.take (w.length - 1 + 1)) := by
      rw [hlength, List.take_length]
      exact hA.left (hmore.symm ▸ h)
    obtain ⟨hlt, -⟩ := hA.apart w hw (w.length - 1)
      (List.mem_range.mpr (by rw [String.length_toList] at hlength; omega)) hwhole
    omega
  · -- The opening is cut where the run ends.
    obtain ⟨more, hmore⟩ := hlong
    have hcut : cs.length - 1 + 1 = cs.length := by omega
    have htake : w.toList.take (cs.length - 1 + 1) = cs := by
      rw [hcut, ← hmore, List.take_left]
    have hdrop : w.toList.drop (cs.length - 1 + 1) = more := by
      rw [hcut, ← hmore, List.drop_left]
    have hlength : w.length = cs.length + more.length := by
      rw [← String.length_toList, ← hmore, List.length_append]
    obtain ⟨hlt, hapart⟩ := hA.apart w hw (cs.length - 1) (List.mem_range.mpr (by omega))
      (htake.symm ▸ h)
    rw [hdrop] at hapart
    have hfollows : more <+: rest := by
      rw [← hmore] at hprefix
      exact (List.prefix_append_right_inj cs).mp hprefix
    obtain hnil | ⟨w', hw', hprefix'⟩ := hrest
    · rw [hnil] at hfollows
      rw [List.prefix_nil.mp hfollows] at hlength
      simp only [List.length_nil] at hlength
      omega
    · obtain hclash | hclash := List.prefix_or_prefix_of_prefix hfollows hprefix'
      · exact (hapart w' hw').1 hclash
      · exact (hapart w' hw').2 hclash

/-- A run ends at one place only. -/
theorem append_inj (hA : Separable A) (h : A cs) (h' : A cs') (hopens : Opens rest)
    (hopens' : Opens rest') (heq : cs ++ rest = cs' ++ rest') : cs = cs' ∧ rest = rest' := by
  obtain ⟨more, hcs, hrest⟩ | ⟨more, hcs, hrest⟩ := List.append_eq_append_iff.mp heq
  · obtain rfl := hA.eq_nil (hA.right (hcs ▸ h')) (hrest ▸ hopens) hopens'
    rw [hcs, hrest, List.append_nil, List.nil_append]
    exact ⟨rfl, rfl⟩
  · obtain rfl := hA.eq_nil (hA.right (hcs ▸ h)) (hrest ▸ hopens') hopens
    rw [hcs, hrest, List.append_nil, List.nil_append]
    exact ⟨rfl, rfl⟩

end Separable

/-! ## Reading back -/

/-- What stands before the first point. -/
theorem append_point_inj {cs cs' rest rest' : List Char} (h : '.' ∉ cs) (h' : '.' ∉ cs')
    (heq : cs ++ '.' :: rest = cs' ++ '.' :: rest') : cs = cs' ∧ rest = rest' := by
  have hnil : ∀ {more tail tail' : List Char}, '.' ∉ more → '.' :: tail = more ++ '.' :: tail' →
      more = [] := by
    intro more tail tail' hmore hcons
    cases more with
    | nil => rfl
    | cons c more => exact absurd ((List.cons.inj hcons).1 ▸ List.mem_cons_self) hmore
  obtain ⟨more, hcs, hrest⟩ | ⟨more, hcs, hrest⟩ := List.append_eq_append_iff.mp heq
  · obtain rfl := hnil (fun hmem => h' (hcs ▸ List.mem_append_right _ hmem)) hrest
    rw [List.append_nil] at hcs
    exact ⟨hcs.symm, (List.cons.inj hrest).2⟩
  · obtain rfl := hnil (fun hmem => h (hcs ▸ List.mem_append_right _ hmem)) hrest
    rw [List.append_nil] at hcs
    exact ⟨hcs, ((List.cons.inj hrest).2).symm⟩

/-- A natural number is read off its notation. -/
theorem fixedText_inj {n m : Nat} {rest rest' : List Char}
    (h : ((Number.ofNat n).fixedText 6).toList ++ rest =
      ((Number.ofNat m).fixedText 6).toList ++ rest') :
    Number.ofNat n = Number.ofNat m ∧ rest = rest' := by
  have hdigits : ∀ {k : Nat} {c : Char}, ¬ IsHex c → c ∉ Nat.toDigits 10 k :=
    fun hc hmem => hc (isHex_of_mem_toDigits (by decide) (by decide) hmem)
  -- The word for infinity begins as no digits do.
  have hword : ∀ {k : Nat} {tail tail' : List Char},
      "inf".toList ++ tail ≠ Nat.toDigits 10 k ++ tail' := by
    intro k tail tail' heq
    rcases hk : Nat.toDigits 10 k with _ | ⟨c, cs⟩
    · exact Nat.toDigits_ne_nil hk
    · rw [hk] at heq
      have hc : 'i' = c := (List.cons.inj heq).1
      exact hdigits (k := k) (c := 'i') (by decide) (hk ▸ hc ▸ List.mem_cons_self)
  obtain ⟨-, hn⟩ | ⟨hn, hinf⟩ := Number.fixedText_ofNat n <;>
    obtain ⟨-, hm⟩ | ⟨hm, hinf'⟩ := Number.fixedText_ofNat m
  · rw [hn, hm, List.append_assoc, List.append_assoc] at h
    obtain ⟨hwhole, hrest⟩ := append_point_inj (hdigits (by decide)) (hdigits (by decide)) h
    exact ⟨Number.ofNat_eq_of_wholePart (toDigits_injective (by decide) (by decide) hwhole),
      List.append_cancel_left hrest⟩
  · rw [hn, hinf', List.append_assoc] at h
    exact absurd h.symm hword
  · rw [hm, hinf, List.append_assoc] at h
    exact absurd h hword
  · rw [hinf, hinf'] at h
    exact ⟨Number.ofNat_eq_of_magnitude (hn.trans hm.symm), List.append_cancel_left h⟩

/-- A count is read off its digits. -/
theorem toDigits_inj {base n m : Nat} (hbase : 1 < base) (hbase' : base ≤ 16)
    {rest rest' : List Char} (hrest : Opens rest) (hrest' : Opens rest')
    (h : Nat.toDigits base n ++ rest = Nat.toDigits base m ++ rest') : n = m ∧ rest = rest' := by
  obtain ⟨hdigits, heq⟩ := hex_separable.append_inj
    (fun _ => isHex_of_mem_toDigits hbase hbase') (fun _ => isHex_of_mem_toDigits hbase hbase')
    hrest hrest' h
  exact ⟨toDigits_injective hbase hbase' hdigits, heq⟩

/-- The symbol that is called, and the count of arguments, are read off what they are
spelled with, since the count is a single digit. -/
theorem callee_inj {id id' : SymbolId} {n m : Nat} (hn : n < 10) (hm : m < 10)
    {rest rest' : List Char} (hrest : Opens rest) (hrest' : Opens rest')
    (h : Nat.toDigits 16 id ++ (Nat.toDigits 10 n ++ rest) =
      Nat.toDigits 16 id' ++ (Nat.toDigits 10 m ++ rest')) : id = id' ∧ n = m ∧ rest = rest' := by
  have hhex : ∀ {k l : Nat}, ∀ c ∈ Nat.toDigits 16 k ++ Nat.toDigits 10 l, IsHex c :=
    fun c hc => (List.mem_append.mp hc).elim (isHex_of_mem_toDigits (by decide) (by decide))
      (isHex_of_mem_toDigits (by decide) (by decide))
  rw [← List.append_assoc, ← List.append_assoc] at h
  obtain ⟨hdigits, heq⟩ := hex_separable.append_inj hhex hhex hrest hrest' h
  have hlength : (Nat.toDigits 10 n).length = (Nat.toDigits 10 m).length := by
    rw [Nat.toDigits_of_lt_base hn, Nat.toDigits_of_lt_base hm]
    rfl
  exact ⟨toDigits_injective (by decide) (by decide) (List.append_inj_left' hdigits hlength),
    toDigits_injective (by decide) (by decide) (List.append_inj_right' hdigits hlength), heq⟩

theorem code_injective {op op' : Comparison} (h : op.code = op'.code) : op = op' := by
  cases op <;> cases op' <;> first
    | rfl
    | exact absurd h nofun

mutual

/-- A readable node is read off what it is spelled with, whatever opens behind it. -/
theorem spell_inj : (a : Node) → a.Readable → {b : Node} → b.Readable →
    {rest rest' : List Char} → Opens rest → Opens rest' →
    a.spell ++ rest = b.spell ++ rest' → a = b ∧ rest = rest'
  | .anyOf items, ha, b, hb, rest, rest', hrest, hrest', h => by
    cases alike_of_tag (tag_eq_of_spell h) with | anyOf _ items'
    cases ha with | anyOf _ hitems
    cases hb with | anyOf _ hitems'
    rw [spell_anyOf, spell_anyOf, List.append_assoc, List.append_assoc, List.append_assoc,
      List.append_assoc] at h
    obtain ⟨hlength, htail⟩ := toDigits_inj (by decide) (by decide)
      (opens_spellAll hitems hrest) (opens_spellAll hitems' hrest') (List.append_cancel_left h)
    obtain ⟨rfl, rfl⟩ := spellAll_inj items hitems hitems' hlength hrest hrest' htail
    exact ⟨rfl, rfl⟩
  | .every items, ha, b, hb, rest, rest', hrest, hrest', h => by
    cases alike_of_tag (tag_eq_of_spell h) with | every _ items'
    cases ha with | every _ hitems
    cases hb with | every _ hitems'
    rw [spell_every, spell_every, List.append_assoc, List.append_assoc, List.append_assoc,
      List.append_assoc] at h
    obtain ⟨hlength, htail⟩ := toDigits_inj (by decide) (by decide)
      (opens_spellAll hitems hrest) (opens_spellAll hitems' hrest') (List.append_cancel_left h)
    obtain ⟨rfl, rfl⟩ := spellAll_inj items hitems hitems' hlength hrest hrest' htail
    exact ⟨rfl, rfl⟩
  | .boolean value, _, b, _, rest, rest', _, _, h => by
    cases alike_of_tag (tag_eq_of_spell h) with | boolean _ value'
    rw [spell_boolean, spell_boolean, List.append_assoc, List.append_assoc] at h
    have htail := List.append_cancel_left h
    cases value <;> cases value'
    · exact ⟨rfl, List.append_cancel_left htail⟩
    · exact absurd (List.cons.inj htail).1 (by decide)
    · exact absurd (List.cons.inj htail).1 (by decide)
    · exact ⟨rfl, List.append_cancel_left htail⟩
  | .compare op lhs rhs, ha, b, hb, rest, rest', hrest, hrest', h => by
    cases alike_of_tag (tag_eq_of_spell h) with | compare _ op' _ lhs' _ rhs'
    cases ha with | compare _ hl hr
    cases hb with | compare _ hl' hr'
    rw [spell_compare, spell_compare] at h
    simp only [List.append_assoc] at h
    obtain ⟨hcode, htail⟩ := toDigits_inj (by decide) (by decide) (opens_spell hl _)
      (opens_spell hl' _) (List.append_cancel_left h)
    obtain ⟨rfl, hright⟩ := spell_inj lhs hl hl' (opens_spell hr _) (opens_spell hr' _) htail
    obtain ⟨rfl, rfl⟩ := spell_inj rhs hr hr' hrest hrest' hright
    exact ⟨by rw [code_injective hcode], rfl⟩
  | .identifier id, _, b, _, rest, rest', hrest, hrest', h => by
    cases alike_of_tag (tag_eq_of_spell h) with | identifier _ id'
    rw [spell_identifier, spell_identifier, List.append_assoc, List.append_assoc] at h
    obtain ⟨rfl, rfl⟩ := toDigits_inj (by decide) (by decide) hrest hrest'
      (List.append_cancel_left h)
    exact ⟨rfl, rfl⟩
  | .invert inner, ha, b, hb, rest, rest', hrest, hrest', h => by
    cases alike_of_tag (tag_eq_of_spell h) with | invert _ inner'
    cases ha with | invert _ hinner
    cases hb with | invert _ hinner'
    rw [spell_invert, spell_invert, List.append_assoc, List.append_assoc] at h
    obtain ⟨rfl, rfl⟩ := spell_inj inner hinner hinner' hrest hrest' (List.append_cancel_left h)
    exact ⟨rfl, rfl⟩
  | .invoke target args, ha, b, hb, rest, rest', hrest, hrest', h => by
    cases alike_of_tag (tag_eq_of_spell h) with | invoke _ target' _ args'
    cases ha with | invoke hself _ hargs
    cases hb with | invoke hself' _ hargs'
    obtain ⟨id, rfl⟩ := named_of_isClear hself.2
    obtain ⟨id', rfl⟩ := named_of_isClear hself'.2
    rw [spell_invoke, spell_invoke, spell_identifier, spell_identifier] at h
    simp only [List.append_assoc] at h
    obtain ⟨rfl, hlength, htail⟩ := callee_inj hself.2.2 hself'.2.2
      (opens_spellAll hargs hrest) (opens_spellAll hargs' hrest')
      (List.append_cancel_left (List.append_cancel_left h))
    obtain ⟨rfl, rfl⟩ := spellAll_inj args hargs hargs' hlength hrest hrest' htail
    exact ⟨rfl, rfl⟩
  | .number value, ha, b, hb, rest, rest', _, _, h => by
    cases alike_of_tag (tag_eq_of_spell h) with | number _ value'
    obtain ⟨⟨n, rfl⟩, -⟩ := ha.self
    obtain ⟨⟨m, rfl⟩, -⟩ := hb.self
    rw [spell_number, spell_number, List.append_assoc, List.append_assoc] at h
    obtain ⟨hvalue, rfl⟩ := fixedText_inj (List.append_cancel_left h)
    exact ⟨by rw [hvalue], rfl⟩
  | .string value, ha, b, hb, rest, rest', hrest, hrest', h => by
    cases alike_of_tag (tag_eq_of_spell h) with | string _ value'
    rw [spell_string, spell_string, List.append_assoc, List.append_assoc] at h
    obtain ⟨hvalue, rfl⟩ := silent_separable.append_inj ha.self.2 hb.self.2 hrest hrest'
      (List.append_cancel_left h)
    exact ⟨by rw [String.toList_inj.mp hvalue], rfl⟩

theorem spellAll_inj : (as : List Node) → (∀ a ∈ as, a.Readable) → {bs : List Node} →
    (∀ b ∈ bs, b.Readable) → as.length = bs.length → {rest rest' : List Char} → Opens rest →
    Opens rest' → spellAll as ++ rest = spellAll bs ++ rest' → as = bs ∧ rest = rest'
  | [], _, [], _, _, _, _, _, _, h => ⟨rfl, h⟩
  | a :: as, ha, b :: bs, hb, hlength, _, _, hrest, hrest', h => by
    obtain ⟨ha, has⟩ := List.forall_mem_cons.mp ha
    obtain ⟨hb, hbs⟩ := List.forall_mem_cons.mp hb
    rw [spellAll_cons, spellAll_cons, List.append_assoc, List.append_assoc] at h
    obtain ⟨rfl, htail⟩ := spell_inj a ha hb (opens_spellAll has hrest)
      (opens_spellAll hbs hrest') h
    obtain ⟨rfl, rfl⟩ := spellAll_inj as has hbs (Nat.succ.inj hlength) hrest hrest' htail
    exact ⟨rfl, rfl⟩

end

end Node

/-! ## Rules -/

/-- The rule is lowered to the node, where its names are bound in the table. -/
def Rule.Means (symbols : SymbolTable) (text : String) (node : Node) : Prop :=
  ∃ tree, parse text = .ok tree ∧ (tree.lower symbols).1 = .ok node

theorem Rule.Means.natural {symbols : SymbolTable} {text : String} {node : Node}
    (h : Means symbols text node) : node.Natural := by
  obtain ⟨tree, hparse, hlower⟩ := h
  exact Tree.lower_natural (natural_of_parse hparse) symbols node _ (Prod.ext hlower rfl)

/-- Of two legible nodes that rules are lowered to, the bytes tell which is which. -/
theorem Node.eq_of_bytes_eq {symbols symbols' : SymbolTable} {text text' : String} {a b : Node}
    (ha : Means symbols text a) (hb : Means symbols' text' b) (hlegible : a.Legible)
    (hlegible' : b.Legible) (h : a.bytes = b.bytes) : a = b := by
  have hspell : a.spell ++ [] = b.spell ++ [] :=
    congrArg (String.toList · ++ []) (spelling_eq_of_bytes h)
  exact (spell_inj a (ha.natural.and hlegible) (hb.natural.and hlegible') (.inl rfl) (.inl rfl)
    hspell).1

/-- Two rules of which one has an idle conjunct: they are the same node. -/
theorem Node.here_eq_of_bytes : ∃ a b : Node,
    Means .empty "not here('Sword')" a ∧ Means .empty "not (True and here('Sword'))" b ∧
      a.Legible ∧ b.Legible ∧ a.bytes = b.bytes ∧ a = b := by
  have hmeans : Means .empty "not here('Sword')" (.invert (.call 0 [.string "Sword"])) :=
    ⟨.not (.call (.identifier "here") [.string "Sword"]), by cbv, by cbv⟩
  have hmeans' : Means .empty "not (True and here('Sword'))"
      (.invert (.call 0 [.string "Sword"])) :=
    ⟨.not (.connect .and (.bool true) (.call (.identifier "here") [.string "Sword"])), by cbv,
      by cbv⟩
  have hlegible : (Node.invert (.call 0 [.string "Sword"])).Legible :=
    .invert trivial (.invoke ⟨rfl, by decide⟩ (.identifier trivial)
      (List.forall_mem_singleton.mpr (.string (show Node.Silent "Sword".toList by decide))))
  exact ⟨_, _, hmeans, hmeans', hlegible, hlegible, rfl,
    Node.eq_of_bytes_eq hmeans hmeans' hlegible hlegible rfl⟩

/-- A tag inside a text may as well stand between two texts. -/
theorem Node.bytes_texts (op : Comparison) (first middle last : String) :
    (Node.compare op (.string first) (.string (middle ++ ("string" ++ last)))).bytes =
      (Node.compare op (.string (first ++ ("string" ++ middle))) (.string last)).bytes := by
  simp only [bytes, appendBytes_eq, spelling, String.append_assoc]

/-- Two rules of the same bytes that compare different texts. -/
theorem Node.bytes_ambiguous : ∃ a b : Node,
    Means .empty "'a' == 'bstringc'" a ∧ Means .empty "'astringb' == 'c'" b ∧
      a.bytes = b.bytes ∧ a ≠ b := by
  have hmeans : Means .empty "'a' == 'bstringc'"
      (.compare .equal (.string "a") (.string "bstringc")) :=
    ⟨.compare .equal (.string "a") (.string "bstringc"), by cbv, by cbv⟩
  have hmeans' : Means .empty "'astringb' == 'c'"
      (.compare .equal (.string "astringb") (.string "c")) :=
    ⟨.compare .equal (.string "astringb") (.string "c"), by cbv, by cbv⟩
  refine ⟨_, _, hmeans, hmeans', bytes_texts .equal "a" "b" "c", fun h => ?_⟩
  have htext : "a" = "astringb" := by
    injection h with _ h _
    injection h
  exact absurd htext (by decide)

end Passage

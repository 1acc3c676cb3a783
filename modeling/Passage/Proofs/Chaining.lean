import Passage.Proofs.Printing

/-!
# Chains of operators

Operands with operators between them, and no parentheses around them, are grouped by how tightly
the operators bind: `Groups` splits a chain at the last one of its loosest operators, and both
parts likewise. Every chain is grouped in one way, and the parser finds it
(`Rule.parse_chain`).
-/

namespace Passage

open Rule Rule.Parser

namespace Rule

/-- Glyphs with a blank between any two of them. -/
def spaced : List Glyph → List Char
  | [] => []
  | g :: gs => g.characters ++ gs.flatMap fun other => ' ' :: other.characters

theorem written_spaced {gs : List Glyph} (h : ∀ g ∈ gs, g.WellFormed) : Written gs (spaced gs) := by
  have hhead : ∀ gs : List Glyph, ∀ c ∈ (gs.flatMap fun other => ' ' :: other.characters).head?,
      isSeparator c = true := by
    rintro (_ | ⟨other, others⟩) c hc
    · exact absurd hc nofun
    · obtain rfl : ' ' = c := Option.some.inj hc
      decide
  have hrest : ∀ gs : List Glyph, (∀ g ∈ gs, g.WellFormed) →
      Written gs (gs.flatMap fun other => ' ' :: other.characters) := by
    intro gs hgs
    induction gs with
    | nil => exact .done (List.forall_mem_nil _)
    | cons other others ih =>
      obtain ⟨hother, hothers⟩ := List.forall_mem_cons.mp hgs
      exact .glyph (List.forall_mem_singleton.mpr (by decide : isBlank ' ' = true)) hother
        (fun _ => hhead others) (ih hothers)
  cases gs with
  | nil => exact .done (List.forall_mem_nil _)
  | cons g gs =>
    obtain ⟨hg, hgs⟩ := List.forall_mem_cons.mp h
    exact .glyph (List.forall_mem_nil _) hg (fun _ => hhead gs) (hrest gs hgs)

/-- What stands between operators: a name, a literal, or a print-out that ends by itself. -/
structure Operand where
  tree : Tree
  glyphs : List Glyph
  prints : Prints (.operand tree) glyphs
  wellFormed : ∀ g ∈ glyphs, g.WellFormed

/-- An operator and the operand behind it. -/
structure Link where
  op : Operator
  operand : Operand

namespace Link

def rank (link : Link) : Nat := link.op.precedence.rank

def glyphs (link : Link) : List Glyph := link.op.glyph :: link.operand.glyphs

end Link

/-- An operand, and operators with operands behind it. -/
structure Chain where
  first : Operand
  links : List Link

namespace Chain

def glyphs (c : Chain) : List Glyph := c.first.glyphs ++ c.links.flatMap Link.glyphs

/-- The tree is that of the chain, which is split at the last one of its loosest operators, and so
are both parts. -/
inductive Groups : Chain → Tree → Prop
  | single (first : Operand) : Groups ⟨first, []⟩ first.tree
  | split {first : Operand} {link : Link} {lhs rhs : Tree} (before after : List Link) :
      (∀ other ∈ before, link.rank ≤ other.rank) → (∀ other ∈ after, link.rank < other.rank) →
      Groups ⟨first, before⟩ lhs → Groups ⟨link.operand, after⟩ rhs →
      Groups ⟨first, before ++ link :: after⟩ (link.op.tree lhs rhs)

/-- A text in which the chain is written, with any blanks around the glyphs. -/
def WrittenAs (c : Chain) (text : String) : Prop := Written c.glyphs text.toList

/-- The chain with one blank on both sides of every operator. -/
def text (c : Chain) : String := .ofList (spaced c.glyphs)

/-! ## Grouping -/

/-- Of some operators, one is the last of the loosest. -/
theorem exists_loosest {links : List Link} (hne : links ≠ []) :
    ∃ (before : List Link) (link : Link) (after : List Link), links = before ++ link :: after ∧
      (∀ other ∈ before, link.rank ≤ other.rank) ∧ ∀ other ∈ after, link.rank < other.rank := by
  induction links with
  | nil => exact absurd rfl hne
  | cons first rest ih =>
    by_cases hnil : rest = []
    · exact ⟨[], first, [], by rw [hnil]; rfl, List.forall_mem_nil _, List.forall_mem_nil _⟩
    · obtain ⟨before, link, after, rfl, hbefore, hafter⟩ := ih hnil
      by_cases hle : link.rank ≤ first.rank
      · exact ⟨first :: before, link, after, rfl, List.forall_mem_cons.mpr ⟨hle, hbefore⟩, hafter⟩
      · have hlt : first.rank < link.rank := Nat.lt_of_not_le hle
        refine ⟨[], first, before ++ link :: after, rfl, List.forall_mem_nil _, ?_⟩
        refine List.forall_mem_append.mpr ⟨fun other hother => ?_, List.forall_mem_cons.mpr
          ⟨hlt, fun other hother => ?_⟩⟩
        · exact Nat.lt_of_lt_of_le hlt (hbefore other hother)
        · exact Nat.lt_trans hlt (hafter other hother)

/-- Every chain can be grouped. -/
theorem exists_groups (c : Chain) : ∃ tree, c.Groups tree := by
  obtain ⟨first, links⟩ := c
  by_cases hne : links = []
  · exact ⟨first.tree, hne ▸ .single first⟩
  · obtain ⟨before, link, after, rfl, hbefore, hafter⟩ := exists_loosest hne
    obtain ⟨lhs, hlhs⟩ := exists_groups ⟨first, before⟩
    obtain ⟨rhs, hrhs⟩ := exists_groups ⟨link.operand, after⟩
    exact ⟨_, .split _ _ hbefore hafter hlhs hrhs⟩
termination_by c.links.length

/-! ## Glyphs -/

theorem glyphs_single (first : Operand) : (Chain.mk first []).glyphs = first.glyphs :=
  List.append_nil _

theorem glyphs_split (first : Operand) (before : List Link) (link : Link) (after : List Link) :
    (Chain.mk first (before ++ link :: after)).glyphs =
      (Chain.mk first before).glyphs ++ link.op.glyph :: (Chain.mk link.operand after).glyphs := by
  rw [glyphs, List.flatMap_append, List.flatMap_cons, ← List.append_assoc]
  rfl

theorem glyphs_ne_nil (c : Chain) : c.glyphs ≠ [] :=
  List.append_ne_nil_of_left_ne_nil c.first.prints.ne_nil _

theorem glyphs_wellFormed (c : Chain) : ∀ g ∈ c.glyphs, g.WellFormed := by
  refine List.forall_mem_append.mpr ⟨c.first.wellFormed, fun g hg => ?_⟩
  obtain ⟨link, -, hg⟩ := List.mem_flatMap.mp hg
  obtain rfl | hg := List.mem_cons.mp hg
  · exact link.op.wellFormed
  · exact link.operand.wellFormed g hg

theorem writtenAs_text (c : Chain) : c.WrittenAs c.text := by
  rw [WrittenAs, text, String.toList_ofList]
  exact written_spaced c.glyphs_wellFormed

/-- A chain closes what it opens. -/
theorem glyphs_neutral (c : Chain) : Glyph.Neutral c.glyphs := by
  refine c.first.prints.neutral.append ?_
  induction c.links with
  | nil => exact .nil
  | cons link rest ih =>
    rw [List.flatMap_cons]
    exact (Glyph.Neutral.cons link.op.not_closer link.op.depthBehind
      link.operand.prints.neutral).append ih

/-! ## Parsing -/

/-- The parser reads a chain wherever all operators of it bind more tightly than those around it,
up to a glyph that binds no more tightly than any of them. -/
theorem Groups.arrives {c : Chain} {tree : Tree} (h : c.Groups tree) {p : Parser} {fuel : Nat}
    {min : Precedence} {rest : List Glyph} (hp : p.At (c.glyphs ++ rest))
    (hmin : min.rank ≤ Precedence.compare.rank) (hinside : ∀ link ∈ c.links, min.rank < link.rank)
    (hbehind : ∀ link ∈ c.links, pull rest ≤ link.rank) (hfuel : 4 * c.glyphs.length + 4 ≤ fuel) :
    p.Arrives fuel min (4 * c.glyphs.length) tree rest := by
  induction h generalizing p fuel min rest with
  | single first =>
    rw [glyphs_single] at hp hfuel ⊢
    exact first.prints.arrives hp hmin hfuel
  | @split first link lhs rhs before after hbefore hafter _ _ ihl ihr =>
    obtain ⟨hinside, hlink, -⟩ := List.forall_mem_append.mp hinside |>.imp_right
      List.forall_mem_cons.mp
    obtain ⟨-, hlink', hbehind⟩ := List.forall_mem_append.mp hbehind |>.imp_right
      List.forall_mem_cons.mp
    rw [glyphs_split] at hp hfuel ⊢
    rw [List.append_assoc, List.cons_append] at hp
    rw [List.length_append, List.length_cons] at hfuel ⊢
    have hlhs : p.Arrives fuel min (4 * (Chain.mk first before).glyphs.length) lhs
        (link.op.glyph :: ((Chain.mk link.operand after).glyphs ++ rest)) := by
      refine ihl hp hmin hinside (fun other hother => ?_) (by omega)
      rw [link.op.pull_glyph]
      exact hbefore other hother
    refine (hlhs.binary link.op hlink (glyphs_ne_nil _) hlink' (fun hp' hfuel' => ?_)
      (by omega)).mono (by omega)
    exact ihr hp' link.op.precedence_le hafter hbehind hfuel'

/-- A text in which a chain is written is parsed to the tree that the chain is grouped to. -/
theorem Groups.parse {c : Chain} {tree : Tree} (h : c.Groups tree) {text : String}
    (htext : c.WrittenAs text) : parse text = .ok tree := by
  refine parse_of_isRead htext c.glyphs_neutral c.glyphs_ne_nil (IsRead.of_arrives ?_)
  intro p fuel rest hp hrest hfuel
  exact h.arrives hp (Nat.zero_le _) (fun link _ => link.op.precedence_pos)
    (fun link _ => hrest ▸ Nat.zero_le _) hfuel

end Chain

/-- A text in which a chain of operators is written, such as the one with single blanks, is parsed
to the one tree that the chain is grouped to, by splitting it at the last one of its loosest
operators. -/
theorem parse_chain (c : Chain) :
    c.WrittenAs c.text ∧
      ∀ text, c.WrittenAs text →
        ∃ tree, parse text = .ok tree ∧ ∀ other, c.Groups other ↔ other = tree := by
  refine ⟨c.writtenAs_text, fun text htext => ?_⟩
  obtain ⟨tree, htree⟩ := c.exists_groups
  have hparse := htree.parse htext
  refine ⟨tree, hparse, fun other => ⟨fun hother => ?_, fun heq => heq ▸ htree⟩⟩
  exact Except.ok.inj ((hother.parse htext).symm.trans hparse)

/-- A name of one letter. -/
def Operand.letter (c : Char) (hkind : TokenKind.ofWord (String.singleton c) = .identifier)
    (hstart : isWordStart c = true) : Operand where
  tree := .identifier (String.singleton c)
  glyphs := [.lexeme (.word (String.singleton c))]
  prints := .identifier hkind
  wellFormed := List.forall_mem_singleton.mpr
    (Lexeme.wellFormed_word (String.toList_singleton c) hstart rfl)

/-- Operators of all three classes, with two of the loosest and two of the tightest. -/
def Chain.mixed : Chain :=
  ⟨.letter 'a' (by decide) (by decide),
    [⟨.connect .or, .letter 'b' (by decide) (by decide)⟩,
      ⟨.connect .and, .letter 'c' (by decide) (by decide)⟩,
      ⟨.compare .less, .letter 'd' (by decide) (by decide)⟩,
      ⟨.within, .letter 'e' (by decide) (by decide)⟩,
      ⟨.connect .or, .letter 'f' (by decide) (by decide)⟩]⟩

theorem parse_chain_mixed :
    let name (c : Char) : Tree := .identifier (String.singleton c)
    parse "a or b and c < d in e or f" =
      .ok (.connect .or
        (.connect .or (name 'a')
          (.connect .and (name 'b') (.within (.compare .less (name 'c') (name 'd')) (name 'e'))))
        (name 'f')) := by
  intro name
  have htext : "a or b and c < d in e or f" = Chain.mixed.text :=
    String.toList_inj.mp ((by decide : _ = spaced Chain.mixed.glyphs).trans
      (String.toList_ofList).symm)
  rw [htext]
  obtain ⟨tree, hparse, honly⟩ := (parse_chain Chain.mixed).2 _ (parse_chain Chain.mixed).1
  rw [hparse, ← (honly _).mp]
  refine .split [_, _, _, _] [] (by decide) (by decide) ?_ (.single _)
  refine .split [] [_, _, _] (by decide) (by decide) (.single _) ?_
  refine .split [] [_, _] (by decide) (by decide) (.single _) ?_
  refine .split [_] [] (by decide) (by decide) ?_ (.single _)
  exact .split [] [] (by decide) (by decide) (.single _) (.single _)

end Rule

end Passage

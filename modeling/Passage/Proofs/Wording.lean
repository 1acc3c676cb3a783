import Passage.Proofs.Coding

/-!
# The texts of a pool

Where a text lies in the arena depends on the texts that were entered before it, and on nothing
else: numbers take entries of the pool, but no room in the arena. `ObjectPool.wording` is what
a pool holds of texts, and compiling a node does to it what entering the words of the node in
order does (`Node.compile_wording`). So two ways to compile a node that differ in
instructions and numbers still give every text the same object.
-/

namespace Passage

/-- An arena of texts, and the objects of those that lie in it. -/
structure Wording where
  arena : ByteArray
  object? : String → Option Object

/-- Enters a text behind the others, unless it has an object. -/
def Wording.enter (w : Wording) (s : String) : Wording :=
  if (w.object? s).isSome then w
  else
    { arena := w.arena ++ s.toUTF8
      object? := fun s' =>
        if s = s' then some (.ofString ⟨UInt32.ofNat w.arena.size, UInt16.ofNat s.utf8ByteSize⟩)
        else w.object? s' }

namespace ObjectPool

variable {p p' : ObjectPool}

/-- What the pool holds of texts. -/
def wording (p : ObjectPool) : Wording := ⟨p.strings, p.text?⟩

/-- Entries behind those of a sound pool are objects of no text. -/
theorem text?_push (hp : p.Sound) (o : Object) (s : String) :
    (p.texts[s]?.bind fun index => (p.values.push o)[index]?) = p.text? s := by
  rw [text?]
  rcases htext : p.texts[s]? with _ | index
  · rfl
  · obtain ⟨o', hget, -⟩ := hp.texts htext
    exact (getElem?_push_of_some o hget).trans hget.symm

/-- A number changes nothing about texts. -/
theorem internNumber_wording (hp : p.Sound) {x : Number} {index : ObjectIndex}
    (h : p.internNumber x = (.ok index, p')) : p'.wording = p.wording := by
  obtain ⟨e, h'⟩ | ⟨i, -, h'⟩ | ⟨-, -, h'⟩ := internNumber_cases p x <;> rw [h'] at h <;> cases h
  · rfl
  · have htexts : (p.numbered x.bits).text? = p.text? := funext fun s => text?_push hp _ s
    rw [wording, wording, htexts]
    rfl

/-- A text is entered behind the others, unless it is there. -/
theorem internString_wording (hp : p.Sound) {s : String} {index : ObjectIndex}
    (h : p.internString s = (.ok index, p')) : p'.wording = p.wording.enter s := by
  obtain ⟨e, h'⟩ | ⟨i, htext, h'⟩ | ⟨hnew, -, -, -, h'⟩ := internString_cases p s <;>
    rw [h'] at h <;> cases h
  · obtain ⟨o, hget, -⟩ := hp.texts htext
    have hthere : p.wording.object? s = some o := by
      show p.text? s = some o
      rw [text?, htext]
      exact hget
    rw [Wording.enter, hthere]
    rfl
  · have hnone : p.wording.object? s = none := by
      show p.text? s = none
      rw [text?, hnew]
      rfl
    rw [Wording.enter, hnone]
    refine congrArg (Wording.mk _) (funext fun s' => ?_)
    show ((p.texts.insert s p.values.size)[s']?.bind fun index => (p.values.push _)[index]?) = _
    rw [Std.ExtTreeMap.getElem?_insert]
    simp only [Std.LawfulEqCmp.compare_eq_iff_eq]
    by_cases hs : s = s'
    · rw [if_pos hs, if_pos hs]
      exact Array.getElem?_push_size
    · rw [if_neg hs, if_neg hs]
      exact text?_push hp _ s'

end ObjectPool

/-! ## Words of nodes -/

mutual

/-- The texts of a node, in the order in which its code enters them. -/
def Node.words : Node → List String
  | .anyOf items => wordsAll items
  | .every items => wordsAll items
  | .boolean _ => []
  | .compare _ lhs rhs => words rhs ++ words lhs
  | .identifier _ => []
  | .invert inner => words inner
  | .invoke _ args => wordsAll args
  | .number _ => []
  | .string value => [value]

def Node.wordsAll : List Node → List String
  | [] => []
  | node :: rest => words node ++ wordsAll rest

end

/-- A call that is written as a quantity check has no words. -/
theorem SymbolTable.wordsAll_of_quantityAsked? {symbols : SymbolTable} {fast : Bool}
    {target : Node} {args : List Node} {item : SymbolId} {quantity : UInt8}
    (h : symbols.quantityAsked? fast target args = some (item, quantity)) :
    Node.wordsAll args = [] := by
  unfold quantityAsked? at h
  split at h
  · rfl
  · exact absurd h nofun

namespace Drafting

open Node (wordsAll)

variable {symbols : SymbolTable} {fast : Bool}

/-- The code that was written has entered the words, and no other texts. -/
def Spells (words : List String) (d d' : Draft) : Prop :=
  d'.pool.wording = words.foldl Wording.enter d.pool.wording

theorem Spells.nothing {d d' : Draft} (h : d'.pool = d.pool) : Spells [] d d' :=
  congrArg ObjectPool.wording h

theorem Spells.append {words more : List String} {d d' d'' : Draft} (h : Spells words d d')
    (h' : Spells more d' d'') : Spells (words ++ more) d d'' := by
  rw [Spells, List.foldl_append, ← show d'.pool.wording = _ from h]
  exact h'

/-- A call that no fast operation wrote enters the words of its arguments. -/
theorem call_spells {callee : SymbolId} {args : List Node} {d d' : Draft}
    (hargs : ∀ {d'}, visitAll symbols (FastOps.enabled fast) args d = (.ok (), d') →
      Spells (wordsAll args) d d')
    (h : (if args.isEmpty then do
        let index ← pointerOf symbols callee
        emit .invokeBare (.word index)
      else do
        let count ← operandCount args
        visitAll symbols (FastOps.enabled fast) args
        visit symbols (FastOps.enabled fast) (.identifier callee)
        emit .invoke (.word count) : Drafting Unit) d = (.ok (), d')) :
    Spells (wordsAll args) d d' := by
  cases args with
  | nil =>
    obtain ⟨word, d₁, hpointer, hemit⟩ := bind_eq_ok h
    obtain ⟨index, -, -, hpool, -⟩ := pointerOf_eq_ok hpointer
    cases hemit
    exact .nothing hpool
  | cons arg rest =>
    obtain ⟨count, d₁, hcount, hrest⟩ := bind_eq_ok h
    obtain ⟨-, -, rfl⟩ := operandCount_eq_ok hcount
    obtain ⟨⟨⟩, d₂, hall, hrest⟩ := bind_eq_ok hrest
    obtain ⟨⟨⟩, d₃, hvisit, hemit⟩ := bind_eq_ok hrest
    rw [visit_identifier] at hvisit
    obtain ⟨word, d₄, hpush, hpure⟩ := bind_eq_ok hvisit
    obtain ⟨index, -, -, hpool, -⟩ := pushIdentifier_eq_ok hpush
    cases hpure
    cases hemit
    rw [← List.append_nil (Node.wordsAll (arg :: rest))]
    exact (hargs hall).append (.nothing hpool)

mutual

/-- Code generation that succeeds has entered the words of the node in order. -/
theorem visit_spells {d d' : Draft} (hd : d.pool.Sound) :
    (node : Node) → visit symbols (FastOps.enabled fast) node d = (.ok (), d') →
      Spells node.words d d'
  | .anyOf items, h | .every items, h => by
    rw [visit] at h
    obtain ⟨count, d₁, hcount, h⟩ := bind_eq_ok h
    obtain ⟨-, -, heq⟩ := operandCount_eq_ok hcount
    obtain ⟨⟨⟩, d₂, hall, h⟩ := bind_eq_ok h
    cases h
    have hspells : Spells (wordsAll items) d d₂ := visitAll_spells hd items (heq ▸ hall)
    exact hspells
  | .boolean value, h => by
    rw [visit] at h
    cases h
    exact .nothing rfl
  | .compare op lhs rhs, h => by
    rw [visit] at h
    obtain ⟨⟨⟩, d₁, hrhs, h⟩ := bind_eq_ok h
    obtain ⟨⟨⟩, d₂, hlhs, h⟩ := bind_eq_ok h
    cases h
    have hmiddle : d₁.pool.Sound := (visit_wrote hd rhs hrhs).sound hd
    have hspells : Spells (rhs.words ++ lhs.words) d d₂ :=
      Spells.append (visit_spells hd rhs hrhs) (visit_spells hmiddle lhs hlhs)
    exact hspells
  | .identifier id, h => by
    rw [visit_identifier] at h
    obtain ⟨word, d₁, hpush, h⟩ := bind_eq_ok h
    obtain ⟨index, -, -, hpool, -⟩ := pushIdentifier_eq_ok hpush
    cases h
    exact .nothing hpool
  | .invert inner, h => by
    rw [visit] at h
    obtain ⟨⟨⟩, d₁, hinner, h⟩ := bind_eq_ok h
    cases h
    have hspells : Spells inner.words d d₁ := visit_spells hd inner hinner
    exact hspells
  | .invoke target args, h => by
    rw [visit] at h
    obtain ⟨⟨callee, name⟩, d₁, hcallee, hrest⟩ := bind_eq_ok h
    obtain ⟨rfl, hname, -, rfl⟩ := calleeName_eq_ok hcallee
    dsimp only at hrest
    rcases hlookup : (FastOps.enabled fast).lookup name with _ | fastOp <;>
      rw [hlookup] at hrest
    · exact call_spells (fun hall => visitAll_spells hd args hall) hrest
    · obtain ⟨hfast, rfl, rfl⟩ := FastOps.lookup_enabled hlookup
      obtain ⟨written, d₂, hhas, hcall⟩ := bind_eq_ok hrest
      obtain ⟨rfl, rfl, -⟩ | ⟨rfl, item, quantity, index, hasked, -, hpool, -⟩ :=
        FastOps.has_eq_ok hfast hname hhas
      · exact call_spells (fun hall => visitAll_spells hd args hall) hcall
      · cases hcall
        rw [Node.words, SymbolTable.wordsAll_of_quantityAsked? hasked]
        exact .nothing hpool
  | .number value, h => by
    rw [visit] at h
    obtain ⟨index, hop, -⟩ := pushConstant_eq_ok h
    exact ObjectPool.internNumber_wording hd hop
  | .string value, h => by
    rw [visit] at h
    obtain ⟨index, hop, -⟩ := pushConstant_eq_ok h
    exact ObjectPool.internString_wording hd hop

theorem visitAll_spells {d d' : Draft} (hd : d.pool.Sound) :
    (nodes : List Node) → visitAll symbols (FastOps.enabled fast) nodes d = (.ok (), d') →
      Spells (wordsAll nodes) d d'
  | [], h => by
    rw [visitAll] at h
    cases h
    exact .nothing rfl
  | node :: rest, h => by
    rw [visitAll] at h
    obtain ⟨⟨⟩, d₁, hnode, h⟩ := bind_eq_ok h
    have hmiddle : d₁.pool.Sound := (visit_wrote hd node hnode).sound hd
    exact Spells.append (visit_spells hd node hnode) (visitAll_spells hmiddle rest h)

end

end Drafting

/-- Compiling a node enters its words, and no other texts. -/
theorem Node.compile_wording {node : Node} {symbols : SymbolTable} {fast : Bool}
    {pool pool' : ObjectPool} {code : Code} (hp : pool.Sound)
    (h : node.compile symbols (FastOps.enabled fast) pool = (.ok code, pool')) :
    pool'.wording = node.words.foldl Wording.enter pool.wording := by
  unfold Node.compile at h
  rcases hvisit : (Drafting.visit symbols (FastOps.enabled fast) node).run.run (.start pool)
    with ⟨e | ⟨⟩, draft⟩ <;> rw [hvisit] at h
  · exact absurd (congrArg Prod.fst h) nofun
  · cases h
    exact Drafting.visit_spells (d := Draft.start pool) hp node hvisit

end Passage

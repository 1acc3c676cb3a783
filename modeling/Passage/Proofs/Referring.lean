import Passage.Proofs.Assembling
import Passage.Proofs.Coding
import Passage.Proofs.Snapshots

/-!
# What code refers to

A code lists the entries of the pool that its instructions refer to, and names those of them that
are pointers of symbols (`Code.Accounted`). Code generation keeps these lists by itself, beside the
tape that it writes; `Node.compile_accounted` shows that they tell what the tape tells, whatever
pool the code was written in. It rests on two facts: in a pool that was made by its operations,
no number or text is found where a symbol has its pointer (`ObjectPool.Separate`), and every
instruction that refers to an entry is written together with the mention of the entry
(`Draft.Accounts`).
-/

namespace Passage

/-! ## Literals -/

namespace ObjectPool

/-- The index is one of an entry that is no pointer of a symbol. -/
structure IsLiteral (p : ObjectPool) (index : ObjectIndex) : Prop where
  entered : index < p.size
  apart : ∀ symbol : SymbolId, p.pointers[symbol]? ≠ some index

/-- The numbers and texts that a pool finds are no pointers of symbols. -/
structure Separate (p : ObjectPool) : Prop where
  numbers : ∀ {bits : UInt64} {index : ObjectIndex}, p.numbers[bits]? = some index →
    p.IsLiteral index
  texts : ∀ {s : String} {index : ObjectIndex}, p.texts[s]? = some index → p.IsLiteral index

section

variable {p p' : ObjectPool} {index : ObjectIndex}

/-- An entry behind all others is the pointer of no symbol that had one. -/
theorem Bounded.isLiteral_next (hp : p.Bounded) (hsize : p.size < p'.size)
    (hpointers : p'.pointers = p.pointers) : p'.IsLiteral p.size where
  entered := hsize
  apart _ h := Nat.lt_irrefl _ (hp.pointers (hpointers ▸ h))

theorem IsLiteral.step (h : p.IsLiteral index) (hstep : p.Step p') : p'.IsLiteral index := by
  have hgrown : ∀ o : Object, index < (p.values.push o).size := fun o => by
    rw [Array.size_push]
    exact Nat.lt_succ_of_lt h.entered
  cases hstep with
  | same => exact h
  | number => exact ⟨hgrown _, h.apart⟩
  | text => exact ⟨hgrown _, h.apart⟩
  | pointer =>
    refine ⟨hgrown _, fun symbol' hsymbol' => ?_⟩
    simp only [pointed, Std.ExtTreeMap.getElem?_insert, Std.LawfulEqCmp.compare_eq_iff_eq]
      at hsymbol'
    split at hsymbol'
    · exact Nat.ne_of_gt h.entered (Option.some.inj hsymbol')
    · exact h.apart symbol' hsymbol'

theorem IsLiteral.rollback (h : p.IsLiteral index) {mark : Checkpoint} (hlt : index < mark.values) :
    (p.rollback mark).IsLiteral index where
  entered := by
    rw [ObjectPool.size, size_values_rollback]
    exact Nat.lt_min.mpr ⟨hlt, h.entered⟩
  apart symbol hsymbol := h.apart symbol (getElem?_filter_lt_iff.mp hsymbol).1

theorem Step.separate (hp : p.Bounded) (h : p.Separate) (hstep : p.Step p') : p'.Separate := by
  have hnumbers : ∀ {bits : UInt64} {index : ObjectIndex}, p.numbers[bits]? = some index →
      p'.IsLiteral index := fun hfound => (h.numbers hfound).step hstep
  have htexts : ∀ {s : String} {index : ObjectIndex}, p.texts[s]? = some index →
      p'.IsLiteral index := fun hfound => (h.texts hfound).step hstep
  have hnext : ∀ o : Object, p.size < (p.values.push o).size := fun o => by
    rw [Array.size_push]
    exact Nat.lt_succ_self _
  cases hstep with
  | same => exact h
  | number =>
    refine ⟨fun {bits index} hfound => ?_, htexts⟩
    simp only [numbered, Std.ExtTreeMap.getElem?_insert, Std.LawfulEqCmp.compare_eq_iff_eq]
      at hfound
    split at hfound
    · exact Option.some.inj hfound ▸ hp.isLiteral_next (hnext _) rfl
    · exact hnumbers hfound
  | text =>
    refine ⟨hnumbers, fun {s index} hfound => ?_⟩
    simp only [texted, Std.ExtTreeMap.getElem?_insert, Std.LawfulEqCmp.compare_eq_iff_eq] at hfound
    split at hfound
    · exact Option.some.inj hfound ▸ hp.isLiteral_next (hnext _) rfl
    · exact htexts hfound
  | pointer => exact ⟨hnumbers, htexts⟩

theorem Separate.rollback (h : p.Separate) (mark : Checkpoint) : (p.rollback mark).Separate where
  numbers hfound := by
    obtain ⟨hfound, hlt⟩ := getElem?_filter_lt_iff.mp hfound
    exact (h.numbers hfound).rollback hlt
  texts hfound := by
    obtain ⟨hfound, hlt⟩ := getElem?_filter_lt_iff.mp hfound
    exact (h.texts hfound).rollback hlt

/-- In every pool that is made, literals and pointers are kept apart. -/
theorem Made.separate (h : p.Made) : p.Separate := by
  induction h with
  | empty =>
    exact ⟨fun h => by simp [ObjectPool.empty] at h, fun h => by simp [ObjectPool.empty] at h⟩
  | internNumber x hp ih => exact (internNumber_step _ x).separate hp.bounded ih
  | internString s hp ih => exact (internString_step _ s).separate hp.bounded ih
  | associate symbol pointer hp ih =>
    exact (associate_enters _ symbol pointer).1.separate hp.bounded ih
  | @define p symbol pointer signature _ hp ih =>
    have hentered := (associate_enters p symbol pointer).1.separate hp.bounded ih
    unfold ObjectPool.define
    rcases hassociate : p.associate symbol pointer with ⟨e | index, p'⟩ <;>
      rw [hassociate] at hentered
    · exact hentered
    · refine ⟨fun hfound => ?_, fun hfound => ?_⟩
      · exact ⟨(hentered.numbers hfound).entered, (hentered.numbers hfound).apart⟩
      · exact ⟨(hentered.texts hfound).entered, (hentered.texts hfound).apart⟩
  | rollback _ _ ih => exact ih.rollback _

/-- A step that enters literals alone: where it succeeds, its answer is where one is found. -/
structure EntersLiteral (op : ObjectPool → Except PoolError ObjectIndex × ObjectPool) : Prop where
  made : ∀ {p : ObjectPool}, p.Made → (op p).2.Made
  interns : ∀ p : ObjectPool, p.Interns (op p).2
  literal : ∀ {p p' : ObjectPool} {index : ObjectIndex}, p.Made → op p = (.ok index, p') →
    p'.IsLiteral index

theorem internNumber_entersLiteral (x : Number) : EntersLiteral (·.internNumber x) where
  made hp := hp.internNumber x
  interns p := internNumber_interns p x
  literal {p p' index} hp h := by
    have hp' : p'.Made := by
      have hmade := hp.internNumber x
      rwa [h] at hmade
    have hfound : p'.numbers[x.bits]? = some index := by
      obtain ⟨e, h'⟩ | ⟨i, hn, h'⟩ | ⟨-, -, h'⟩ := internNumber_cases p x <;> rw [h'] at h <;>
        cases h
      · exact hn
      · simp [numbered]
    exact hp'.separate.numbers hfound

theorem internString_entersLiteral (s : String) : EntersLiteral (·.internString s) where
  made hp := hp.internString s
  interns p := internString_interns p s
  literal {p p' index} hp h := by
    have hp' : p'.Made := by
      have hmade := hp.internString s
      rwa [h] at hmade
    exact hp'.separate.texts (internString_eq_ok h)

end

end ObjectPool

/-! ## The lists of a code -/

/-- The entry of the pool that an instruction refers to. -/
def Instruction.constant? (i : Instruction) : Option UInt16 :=
  match i.op, i.operands with
  | .pushConst, .word a | .invokeBare, .word a => some a
  | .checkQuantity, .wordByte a _ => some a
  | _, _ => none

theorem Instruction.constants_singleton {i : Instruction} {used : UInt16}
    (h : i.constant? = some used) (word : UInt16) :
    (∃ j ∈ [i], j.constant? = some word) ↔ word = used := by
  simp only [List.mem_singleton, exists_eq_left, h, Option.some.injEq]
  exact eq_comm

/-- The lists of a code tell what its instructions refer to, which are entries of the pool, and the
names of the symbols whose pointers these are. -/
structure Code.Accounted (code : Code) (symbols : SymbolTable) (pool : ObjectPool)
    (listing : List (Nat × Instruction)) : Prop where
  ascending : code.consts.Pairwise (· < ·)
  used : ∀ word, word ∈ code.consts ↔ ∃ entry ∈ listing, entry.2.constant? = some word
  entered : ∀ word ∈ code.consts, word.toNat < pool.size
  once : (code.names.map (·.1)).Nodup
  named : ∀ word name, code.names.lookup word = some name ↔ word ∈ code.consts ∧
    ∃ id : SymbolId, pool.pointers[id]? = some word.toNat ∧ symbols.nameOf? id = some name
  /-- No pointer of a symbol is left without a name. -/
  known : ∀ word ∈ code.consts, ∀ id : SymbolId, pool.pointers[id]? = some word.toNat →
    ∃ name, symbols.nameOf? id = some name

namespace Draft

theorem mem_insertConst_iff {word index : UInt16} {consts : List UInt16} :
    word ∈ insertConst index consts ↔ word = index ∨ word ∈ consts := by
  refine ⟨mem_insertConst, fun h => ?_⟩
  induction consts with
  | nil => exact List.mem_singleton.mpr (h.resolve_right List.not_mem_nil)
  | cons other rest ih =>
    rw [insertConst]
    split
    · exact List.mem_cons.mpr h
    · split
      · next heq =>
        obtain rfl | h := h
        · exact heq ▸ List.mem_cons_self
        · exact h
      · obtain h | h := h
        · exact List.mem_cons_of_mem _ (ih (.inl h))
        · obtain rfl | h := List.mem_cons.mp h
          · exact List.mem_cons_self
          · exact List.mem_cons_of_mem _ (ih (.inr h))

/-- A name is kept for an index that has no other one. -/
theorem lookup_keepName {index : UInt16} {name : String} {names : List (UInt16 × String)}
    (h : ∀ old, names.lookup index = some old → old = name) (word : UInt16) (name' : String) :
    (keepName index name names).lookup word = some name' ↔
      names.lookup word = some name' ∨ (word = index ∧ name' = name) := by
  unfold keepName
  split
  · next hsome =>
    obtain ⟨old, hold⟩ := Option.isSome_iff_exists.mp hsome
    refine ⟨.inl, fun h' => ?_⟩
    obtain h' | ⟨rfl, rfl⟩ := h'
    · exact h'
    · exact h old hold ▸ hold
  · next hnone =>
    have hnone := Option.not_isSome_iff_eq_none.mp hnone
    rw [List.lookup_append]
    by_cases heq : word = index
    · subst heq
      simp [hnone, eq_comm]
    · have hother : List.lookup word [(index, name)] = none := by
        rw [List.lookup_cons, beq_false_of_ne heq]
        rfl
      simp [hother, heq]

/-- A draft whose lists tell what the instructions refer to that were written so far. -/
structure Accounts (symbols : SymbolTable) (d : Draft) : Prop where
  pool : d.pool.Made
  written : ∃ code, (∀ i ∈ code, i.WellFormed) ∧ d.assembler = Assembler.empty.emitAll code ∧
    ∀ word, word ∈ d.consts ↔ ∃ i ∈ code, i.constant? = some word
  entered : ∀ word ∈ d.consts, word.toNat < d.pool.size
  named : ∀ word name, d.names.lookup word = some name ↔ word ∈ d.consts ∧
    ∃ id : SymbolId, d.pool.pointers[id]? = some word.toNat ∧ symbols.nameOf? id = some name
  known : ∀ word ∈ d.consts, ∀ id : SymbolId, d.pool.pointers[id]? = some word.toNat →
    ∃ name, symbols.nameOf? id = some name

section

variable {symbols : SymbolTable} {d : Draft}

theorem start_accounts {pool : ObjectPool} (h : pool.Made) : (start pool).Accounts symbols where
  pool := h
  written := ⟨[], List.forall_mem_nil _, rfl, by simp [start]⟩
  entered _ hword := absurd hword List.not_mem_nil
  named := by simp [start]
  known _ hword := absurd hword List.not_mem_nil

/-- An instruction that refers to nothing new. -/
theorem Accounts.emit (h : d.Accounts symbols) {i : Instruction} (hi : i.WellFormed)
    (hold : ∀ word, i.constant? = some word → word ∈ d.consts) :
    Accounts symbols { d with assembler := d.assembler.emit i.op i.operands } where
  pool := h.pool
  written := by
    obtain ⟨code, hcode, hassembler, hconsts⟩ := h.written
    refine ⟨code ++ [i], ?_, ?_, fun word => ?_⟩
    · exact List.forall_mem_append.mpr ⟨hcode, List.forall_mem_singleton.mpr hi⟩
    · rw [Assembler.emitAll_append, ← hassembler]
      rfl
    · simp only [List.mem_append, or_and_right, exists_or, List.mem_singleton, exists_eq_left,
        ← hconsts]
      exact ⟨.inl, fun hword => hword.elim id (hold word)⟩
  entered := h.entered
  named := h.named
  known := h.known

/-- Instructions that refer to one entry, which is listed. -/
theorem Accounts.refer (h : d.Accounts symbols) {pool : ObjectPool} (hpool : pool.Made)
    (hinterns : d.pool.Interns pool) {index : ObjectIndex} (hindex : index < pool.size)
    (code : List Instruction) (hcode : ∀ i ∈ code, i.WellFormed)
    (hconstants : ∀ word, (∃ i ∈ code, i.constant? = some word) ↔ word = UInt16.ofNat index)
    {names : List (UInt16 × String)}
    (hnames : ∀ word name, names.lookup word = some name ↔ d.names.lookup word = some name ∨
      (word = UInt16.ofNat index ∧ ∃ id : SymbolId, pool.pointers[id]? = some index ∧
        symbols.nameOf? id = some name))
    (hknown : ∀ id : SymbolId, pool.pointers[id]? = some index →
      ∃ name, symbols.nameOf? id = some name) :
    Accounts symbols
      ⟨pool, d.assembler.emitAll code, insertConst (UInt16.ofNat index) d.consts, names⟩ := by
  have hword : (UInt16.ofNat index).toNat = index :=
    UInt16.toNat_ofNat_of_lt (Nat.lt_of_lt_of_le hindex hpool.bounded.size)
  refine ⟨hpool, ?_, fun word hmem => ?_, fun word name => ?_, fun word hmem id => ?_⟩
  · obtain ⟨before, hbefore, hassembler, hconsts⟩ := h.written
    refine ⟨before ++ code, List.forall_mem_append.mpr ⟨hbefore, hcode⟩, ?_, fun word => ?_⟩
    · rw [Assembler.emitAll_append, ← hassembler]
    · simp only [List.mem_append, or_and_right, exists_or, ← hconsts, hconstants]
      rw [mem_insertConst_iff, or_comm]
  · obtain rfl | hold := mem_insertConst hmem
    · exact hword.symm ▸ hindex
    · exact Nat.lt_of_lt_of_le (h.entered word hold) hinterns.size
  · dsimp only
    rw [hnames, h.named, ← hinterns.pointers_eq, mem_insertConst_iff]
    constructor
    · rintro (⟨hold, hid⟩ | ⟨rfl, hid⟩)
      · exact ⟨.inr hold, hid⟩
      · exact ⟨.inl rfl, hword.symm ▸ hid⟩
    · rintro ⟨rfl | hold, hid⟩
      · exact .inr ⟨rfl, hword ▸ hid⟩
      · exact .inl ⟨hold, hid⟩
  · obtain rfl | hold := mem_insertConst hmem
    · exact hword.symm ▸ hknown id
    · exact hinterns.pointers_eq ▸ h.known word hold id

/-- Instructions that refer to a literal. -/
theorem Accounts.literal (h : d.Accounts symbols)
    {op : ObjectPool → Except PoolError ObjectIndex × ObjectPool}
    (hop : ObjectPool.EntersLiteral op)
    {index : ObjectIndex} {pool : ObjectPool} (hok : op d.pool = (.ok index, pool)) :
    Accounts symbols ⟨pool, d.assembler.emitAll [.push index],
      insertConst (UInt16.ofNat index) d.consts, d.names⟩ := by
  have hmade := hop.made h.pool
  have hinterns := hop.interns d.pool
  have hliteral := hop.literal h.pool hok
  rw [hok] at hmade hinterns
  refine h.refer hmade hinterns hliteral.entered [.push index]
    (List.forall_mem_singleton.mpr rfl) (Instruction.constants_singleton rfl) (fun word name => ?_)
    fun id hid => absurd hid (hliteral.apart id)
  refine ⟨.inl, fun hname => hname.resolve_right ?_⟩
  rintro ⟨-, id, hid, -⟩
  exact hliteral.apart id hid

/-- Instructions that refer to the pointer of a symbol. -/
theorem Accounts.pointer (h : d.Accounts symbols) {id : SymbolId} {index : ObjectIndex}
    {known : Symbol} (hpointer : d.pool.pointers[id]? = some index)
    (hsymbol : symbols.get? id = some known) (code : List Instruction)
    (hcode : ∀ i ∈ code, i.WellFormed)
    (hconstants : ∀ word, (∃ i ∈ code, i.constant? = some word) ↔ word = UInt16.ofNat index) :
    Accounts symbols ⟨d.pool, d.assembler.emitAll code, insertConst (UInt16.ofNat index) d.consts,
      keepName (UInt16.ofNat index) known.name d.names⟩ := by
  have hindex : index < d.pool.size := h.pool.bounded.pointers hpointer
  have hword : (UInt16.ofNat index).toNat = index :=
    UInt16.toNat_ofNat_of_lt (Nat.lt_of_lt_of_le hindex h.pool.bounded.size)
  have hname : symbols.nameOf? id = some known.name := by
    rw [SymbolTable.nameOf?, hsymbol]
    rfl
  -- No other symbol has its pointer there.
  have honly : ∀ {id' : SymbolId}, d.pool.pointers[id']? = some index → id' = id :=
    fun hid' => h.pool.bounded.apart hid' hpointer
  refine h.refer h.pool (.refl d.pool) hindex code hcode hconstants (fun word name => ?_)
    fun id' hid' => ⟨_, honly hid' ▸ hname⟩
  rw [lookup_keepName]
  · refine or_congr_right (and_congr_right fun _ => ⟨?_, ?_⟩)
    · rintro rfl
      exact ⟨id, hpointer, hname⟩
    · rintro ⟨id', hid', hname'⟩
      rw [honly hid', hname] at hname'
      exact (Option.some.inj hname').symm
  · intro old hold
    obtain ⟨-, id', hid', hname'⟩ := (h.named _ _).mp hold
    rw [hword] at hid'
    rw [honly hid', hname] at hname'
    exact (Option.some.inj hname').symm

end

end Draft

/-! ## Code generation -/

namespace Drafting

variable {symbols : SymbolTable} {d d' : Draft}

/-- What pushing a constant leaves behind. -/
theorem pushConstant_draft {op : ObjectPool → Except PoolError ObjectIndex × ObjectPool}
    (h : pushConstant op d = (.ok (), d')) :
    ∃ index pool, op d.pool = (.ok index, pool) ∧ d' = ⟨pool, d.assembler.emitAll [.push index],
      Draft.insertConst (UInt16.ofNat index) d.consts, d.names⟩ := by
  obtain ⟨word, d₁, hintern, h⟩ := bind_eq_ok h
  obtain ⟨pool, assembler, consts, names⟩ := d
  rcases hop : op pool with ⟨e | index, pool'⟩ <;> simp only [intern, hop] at hintern
  · exact absurd (congrArg Prod.fst hintern) (by simp)
  · cases hintern
    cases h
    exact ⟨index, pool', rfl, rfl⟩

/-- What referring to a pointer leaves behind. -/
theorem pointerOf_draft {id : SymbolId} {word : UInt16}
    (h : pointerOf symbols id d = (.ok word, d')) :
    ∃ index known, d.pool.pointers[id]? = some index ∧ symbols.get? id = some known ∧
      word = UInt16.ofNat index ∧ d' = { d with
        consts := Draft.insertConst (UInt16.ofNat index) d.consts
        names := Draft.keepName (UInt16.ofNat index) known.name d.names } := by
  obtain ⟨known, d₁, hsymbol, hrest⟩ := bind_eq_ok h
  obtain ⟨hget, rfl⟩ := symbol_eq_ok hsymbol
  rw [bind_ok (get_apply _)] at hrest
  unfold ObjectPool.pointerFor at hrest
  rcases hpointer : d₁.pool.pointers[id]? with _ | index <;> rw [hpointer] at hrest
  · exact absurd (congrArg Prod.fst hrest) (by simp [throw_apply])
  · cases hrest
    exact ⟨index, known, rfl, hget, rfl, rfl⟩

/-- A pointer that is pushed is listed. -/
theorem pushIdentifier_accounts (hd : d.Accounts symbols) {id : SymbolId} {word : UInt16}
    (h : pushIdentifier symbols id d = (.ok word, d')) :
    d'.Accounts symbols ∧ word ∈ d'.consts := by
  obtain ⟨s, d₁, hsymbol, hrest⟩ := bind_eq_ok h
  obtain ⟨-, rfl⟩ := symbol_eq_ok hsymbol
  split at hrest
  · obtain ⟨word', d₂, hpointer, hemit⟩ := bind_eq_ok hrest
    obtain ⟨index, known, hindex, hknown, rfl, rfl⟩ := pointerOf_draft hpointer
    cases hemit
    exact ⟨hd.pointer hindex hknown [.push index] (List.forall_mem_singleton.mpr rfl)
      (Instruction.constants_singleton rfl), Draft.mem_insertConst_iff.mpr (.inl rfl)⟩
  · exact absurd (congrArg Prod.fst hrest) (by simp [throw_apply])

/-- A function that is called without arguments is listed. -/
theorem invokeBare_accounts (hd : d.Accounts symbols) {callee : SymbolId}
    (h : (do
        let index ← pointerOf symbols callee
        emit .invokeBare (.word index) : Drafting Unit) d = (.ok (), d')) :
          d'.Accounts symbols := by
  obtain ⟨word, d₁, hpointer, hemit⟩ := bind_eq_ok h
  obtain ⟨index, known, hindex, hknown, rfl, rfl⟩ := pointerOf_draft hpointer
  cases hemit
  exact hd.pointer hindex hknown [⟨.invokeBare, .word (UInt16.ofNat index)⟩]
    (List.forall_mem_singleton.mpr rfl) (Instruction.constants_singleton rfl)

end Drafting

/-- A quantity check refers to the pointer that is pushed before it. -/
theorem FastOps.has_accounts {symbols : SymbolTable} {d d' : Draft} (hd : d.Accounts symbols)
    {args : List Node} {writeArgs : Drafting Unit} {written : Bool}
    (h : FastOps.has symbols args writeArgs d = (.ok written, d')) : d'.Accounts symbols := by
  unfold FastOps.has at h
  split at h
  · next item quantity =>
    rcases hbyte : quantity.byte? with _ | count <;> rw [hbyte] at h
    · cases h
      exact hd
    · by_cases hkind : symbols.kindOf? item = some .token
      · simp only [if_pos hkind] at h
        obtain ⟨word, d₁, hpush, hrest⟩ := bind_eq_ok h
        obtain ⟨hd₁, hword⟩ := Drafting.pushIdentifier_accounts hd hpush
        cases hrest
        refine hd₁.emit (i := ⟨.checkQuantity, .wordByte word count⟩) rfl fun word' hword' => ?_
        exact Option.some.inj hword' ▸ hword
      · simp only [if_neg hkind] at h
        cases h
        exact hd
  · cases h
    exact hd

namespace Drafting

variable {symbols : SymbolTable} {fast : Bool}

mutual

/-- Code generation that succeeds lists what the instructions refer to that it writes. -/
theorem visit_accounts {d d' : Draft} (hd : d.Accounts symbols) :
    (node : Node) → visit symbols (FastOps.enabled fast) node d = (.ok (), d') →
      d'.Accounts symbols
  | .anyOf items, h => by
    rw [visit] at h
    obtain ⟨count, d₁, hcount, h⟩ := bind_eq_ok h
    obtain ⟨-, rfl, heq⟩ := operandCount_eq_ok hcount
    obtain ⟨⟨⟩, d₂, hall, h⟩ := bind_eq_ok h
    cases h
    exact (visitAll_accounts hd items (heq ▸ hall)).emit (i := .junction .needAny items) rfl nofun
  | .every items, h => by
    rw [visit] at h
    obtain ⟨count, d₁, hcount, h⟩ := bind_eq_ok h
    obtain ⟨-, rfl, heq⟩ := operandCount_eq_ok hcount
    obtain ⟨⟨⟩, d₂, hall, h⟩ := bind_eq_ok h
    cases h
    exact (visitAll_accounts hd items (heq ▸ hall)).emit (i := .junction .needAll items) rfl nofun
  | .boolean value, h => by
    rw [visit] at h
    cases h
    cases value
    · exact hd.emit (i := ⟨.pushFalse, .bare⟩) rfl nofun
    · exact hd.emit (i := ⟨.pushTrue, .bare⟩) rfl nofun
  | .compare op lhs rhs, h => by
    rw [visit] at h
    obtain ⟨⟨⟩, d₁, hrhs, h⟩ := bind_eq_ok h
    obtain ⟨⟨⟩, d₂, hlhs, h⟩ := bind_eq_ok h
    cases h
    have hboth := visit_accounts (visit_accounts hd rhs hrhs) lhs hlhs
    cases op
    · exact hboth.emit (i := ⟨.compareEqual, .bare⟩) rfl nofun
    · exact hboth.emit (i := ⟨.compareUnequal, .bare⟩) rfl nofun
    · exact hboth.emit (i := ⟨.compareLess, .bare⟩) rfl nofun
  | .identifier id, h => by
    rw [visit_identifier] at h
    obtain ⟨word, d₁, hpush, h⟩ := bind_eq_ok h
    cases h
    exact (pushIdentifier_accounts hd hpush).1
  | .invert inner, h => by
    rw [visit] at h
    obtain ⟨⟨⟩, d₁, hinner, h⟩ := bind_eq_ok h
    cases h
    exact (visit_accounts hd inner hinner).emit (i := ⟨.invert, .bare⟩) rfl nofun
  | .invoke target args, h => by
    -- the call where no fast operation wrote it
    have hcall : ∀ {callee d}, d.Accounts symbols → (if args.isEmpty then do
          let index ← pointerOf symbols callee
          emit .invokeBare (.word index)
        else do
          let count ← operandCount args
          visitAll symbols (FastOps.enabled fast) args
          visit symbols (FastOps.enabled fast) target
          emit .invoke (.word count) : Drafting Unit) d = (.ok (), d') → d'.Accounts symbols := by
      intro callee d hd h
      split at h
      · exact invokeBare_accounts hd h
      · obtain ⟨count, d₁, hcount, hrest⟩ := bind_eq_ok h
        obtain ⟨-, rfl, rfl⟩ := operandCount_eq_ok hcount
        obtain ⟨⟨⟩, d₂, hall, hrest⟩ := bind_eq_ok hrest
        obtain ⟨⟨⟩, d₃, htarget, hemit⟩ := bind_eq_ok hrest
        cases hemit
        exact (visit_accounts (visitAll_accounts hd args hall) target htarget).emit
          (i := .junction .invoke args) rfl nofun
    rw [visit] at h
    obtain ⟨⟨callee, name⟩, d₁, hcallee, hrest⟩ := bind_eq_ok h
    obtain ⟨-, -, -, rfl⟩ := calleeName_eq_ok hcallee
    dsimp only at hrest
    rcases hlookup : (FastOps.enabled fast).lookup name with _ | fastOp <;> rw [hlookup] at hrest
    · exact hcall hd hrest
    · obtain ⟨-, -, rfl⟩ := FastOps.lookup_enabled hlookup
      obtain ⟨written, d₂, hhas, hrest⟩ := bind_eq_ok hrest
      have hd₂ := FastOps.has_accounts hd hhas
      cases written with
      | false => exact hcall hd₂ hrest
      | true =>
        cases hrest
        exact hd₂
  | .number value, h => by
    rw [visit] at h
    obtain ⟨index, pool, hop, rfl⟩ := pushConstant_draft h
    exact hd.literal (ObjectPool.internNumber_entersLiteral value) hop
  | .string value, h => by
    rw [visit] at h
    obtain ⟨index, pool, hop, rfl⟩ := pushConstant_draft h
    exact hd.literal (ObjectPool.internString_entersLiteral value) hop

theorem visitAll_accounts {d d' : Draft} (hd : d.Accounts symbols) :
    (nodes : List Node) → visitAll symbols (FastOps.enabled fast) nodes d = (.ok (), d') →
      d'.Accounts symbols
  | [], h => by
    rw [visitAll] at h
    cases h
    exact hd
  | node :: rest, h => by
    rw [visitAll] at h
    obtain ⟨⟨⟩, d₁, hnode, h⟩ := bind_eq_ok h
    exact visitAll_accounts (visit_accounts hd node hnode) rest h

end

end Drafting

/-- The lists of the code of a node tell what its tape tells: they list the entries of the pool that
the instructions refer to, ascending, and name those that are pointers of symbols. -/
theorem Node.compile_accounted {pool pool' : ObjectPool} (hpool : pool.Made) {symbols : SymbolTable}
    {fast : Bool} {node : Node} {code : Code}
    (h : node.compile symbols (FastOps.enabled fast) pool = (.ok code, pool')) :
    ∃ listing, decodeTape code.tape = .ok listing ∧ code.Accounted symbols pool' listing := by
  have htidy :=
    (Drafting.upkeep_tidy symbols).visit ((Drafting.upkeep_tidy symbols).enabled fast) node
    (node.mentions_of_forall fun _ => trivial) (.start pool) ⟨List.Pairwise.nil, List.nodup_nil⟩
  unfold Node.compile at h
  rcases hvisit : (Drafting.visit symbols (FastOps.enabled fast) node).run.run (.start pool) with
    ⟨e | ⟨⟩, draft⟩ <;> rw [hvisit] at h <;>
    rw [show Drafting.visit symbols (FastOps.enabled fast) node (.start pool) = _ from hvisit]
      at htidy
  · exact absurd (congrArg Prod.fst h) nofun
  · cases h
    have haccounts := Drafting.visit_accounts (Draft.start_accounts hpool) node hvisit
    obtain ⟨instructions, hinstructions, hassembler, hconsts⟩ := haccounts.written
    have htape : Listing.ofTape draft.code.tape =
        ⟨Instruction.placed 0 instructions, .complete⟩ := by
      rw [Draft.code, hassembler]
      exact Listing.ofTape_emitAll hinstructions
    refine ⟨Instruction.placed 0 instructions, decodeTape_eq_ok.mpr htape, htidy.consts,
      fun word => (hconsts word).trans ?_, haccounts.entered, htidy.names, haccounts.named,
      haccounts.known⟩
    nth_rewrite 1 [← Instruction.map_placed 0 instructions]
    simp only [List.mem_map, exists_exists_and_eq_and]

/-- A question for two swords, behind one for more of them than a byte counts. -/
def chestRules : Node :=
  .every [chestRule, .invoke (.identifier 0) [.identifier 1, .number (.ofNat 2)]]

def chestRulesCode : Code :=
  ⟨⟨#[35, 1, 0, 35, 3, 0, 35, 0, 0, 81, 2, 0, 35, 1, 0, 65, 1, 0, 2, 50, 2, 0]⟩, [0, 1, 3],
    [(1, "Sword"), (0, "has")], 3⟩

set_option maxRecDepth 4000 in
/-- The sword is referred to three times, and listed and named once; the quantity has no name. -/
theorem chestRules_accounted :
    (chestRules.compile chestSymbols (FastOps.enabled true) chest).1 = .ok chestRulesCode ∧
      ∃ listing, decodeTape chestRulesCode.tape = .ok listing ∧
        listing.filterMap (·.2.constant?) = [1, 3, 0, 1, 1] ∧
        chestRulesCode.Accounted chestSymbols
          (chestRules.compile chestSymbols (FastOps.enabled true) chest).2 listing := by
  have hcompile : (chestRules.compile chestSymbols (FastOps.enabled true) chest).1 =
      .ok chestRulesCode := by
    decide +kernel
  obtain ⟨listing, hlisting, haccounted⟩ :=
    Node.compile_accounted chest_made (Prod.ext hcompile rfl)
  have hparts : (decodeTape chestRulesCode.tape).map (·.filterMap (·.2.constant?)) =
      .ok [1, 3, 0, 1, 1] := by
    decide
  rw [hlisting] at hparts
  exact ⟨hcompile, listing, hlisting, Except.ok.inj hparts, haccounted⟩

end Passage

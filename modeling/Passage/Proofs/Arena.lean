import Passage.Proofs.Entries

/-!
# Room in the arena

An entry puts at most one string into the arena, and rolling back takes entries and arena to what
they were together. So the arena has at most the bytes of the longest string for each entry
(`Ample`), whatever was undone, also by going back to marks that had been undone themselves. With
the capacity of the pool, that is less than offsets can reach, and even when the pool is full there
is room for one string more: it is never the arena that is full (`Ample.internString_eq`).

That the strings lie in the arena is another matter. It holds as long as one goes back only to
marks that are still part of the history; a stale mark can leave an entry whose bytes are gone
(`stale_mark_cuts_text`).
-/

namespace Passage

namespace ObjectPool

variable {p q : ObjectPool} {index : ObjectIndex} {ref : StringRef}

/-! ## Within the arena -/

/-- The pools that calls make of the empty one, and undoing to the mark of any such pool: of one
that this pool was, or was before it was undone, or never was. -/
inductive Reached : ObjectPool → Prop
  | empty : Reached empty
  | answer {p : ObjectPool} (op : Op) : Reached p → Reached (p.answer op).2
  | rollback {p q : ObjectPool} : Reached p → Reached q → Reached (p.rollback q.checkpoint)

/-- The reference is that of a text under the index. Its offset is the size that the arena had,
which the entries before it bounded. -/
def Interned (p : ObjectPool) (index : ObjectIndex) (ref : StringRef) : Prop :=
  ∃ (s : String) (offset : Nat), p.texts[s]? = some index ∧ s.utf8ByteSize ≤ longestString ∧
    offset ≤ index * longestString ∧
    ref = ⟨UInt32.ofNat offset, UInt16.ofNat s.utf8ByteSize⟩

/-- The object under the index was given for a symbol. -/
def Given (p : ObjectPool) (index : ObjectIndex) : Prop :=
  ∃ symbol : SymbolId, p.pointers[symbol]? = some index

/-- A pool whose arena has no more than the longest string for each entry, and whose references
were given to it, or made for texts. -/
structure Ample (p : ObjectPool) : Prop where
  size : p.values.size ≤ capacity
  arena : p.strings.size ≤ p.values.size * longestString
  strings : ∀ {index : ObjectIndex} {ref : StringRef}, p.get? index = some (.ofString ref) →
    p.Given index ∨ p.Interned index ref

theorem empty_ample : empty.Ample where
  size := by decide
  arena := by decide
  strings h := by simp [empty, get?] at h

/-- An entry leaves room for those that may follow. -/
theorem Ample.entered (hp : p.Ample) (hstep : p.Step q) {o : Object}
    (hcapacity : p.values.size < capacity) (hvalues : q.values = p.values.push o)
    (harena : q.strings.size ≤ p.strings.size + longestString)
    (hnew : ∀ ref, o = .ofString ref →
      q.Given p.values.size ∨ q.Interned p.values.size ref) : q.Ample where
  size := by
    rw [hvalues, Array.size_push]
    exact hcapacity
  arena := by
    have hold := hp.arena
    rw [hvalues, Array.size_push, Nat.succ_mul]
    omega
  strings {index ref} href := by
    have hkeep := hstep.grows
    rw [get?, hvalues, Array.getElem?_push] at href
    split at href
    · next hindex => exact hindex ▸ hnew ref (Option.some.inj href)
    · obtain ⟨symbol, hsymbol⟩ | ⟨s, offset, hs, hrest⟩ := hp.strings href
      · exact .inl ⟨symbol, hkeep.pointers hsymbol⟩
      · exact .inr ⟨s, offset, hkeep.texts hs, hrest⟩

/-- What is interned as a number refers to no string. -/
theorem category_of_internNumber {x : Number} (h : p.internNumber x = (.ok index, q)) :
    (⟨x.bits⟩ : Object).category = .number := by
  unfold internNumber at h
  rcases ho : Object.ofNumber x with e | o <;> rw [ho] at h
  · exact absurd (congrArg Prod.fst h) nofun
  · exact Object.eq_of_ofNumber ho ▸ Object.category_ofNumber ho

theorem internNumber_ample (hp : p.Ample) (x : Number) : (p.internNumber x).2.Ample := by
  obtain ⟨e, h⟩ | ⟨index, -, h⟩ | ⟨hn, hc, h⟩ := internNumber_cases p x
  · exact h ▸ hp
  · exact h ▸ hp
  · have hnumber := category_of_internNumber h
    rw [h]
    refine hp.entered (.number hn hc) hc rfl (Nat.le_add_right _ _) fun ref href => ?_
    rw [href, Object.category_ofString] at hnumber
    exact absurd hnumber nofun

theorem internString_ample (hp : p.Ample) (s : String) : (p.internString s).2.Ample := by
  obtain ⟨e, h⟩ | ⟨index, -, h⟩ | ⟨ht, hc, hlength, hroom, h⟩ := internString_cases p s <;> rw [h]
  · exact hp
  · exact hp
  · refine hp.entered (.text ht hc hlength hroom) hc rfl ?_ fun ref href => .inr ?_
    · rw [texted, ByteArray.size_append, String.toUTF8_eq_toByteArray, String.size_toByteArray]
      exact Nat.add_le_add_left hlength _
    · refine ⟨s, p.strings.size, by simp [texted], hlength, hp.arena, ?_⟩
      exact Object.ofString_injective href.symm

theorem associate_ample (hp : p.Ample) (symbol : SymbolId) (o : Object) :
    (p.associate symbol o).2.Ample := by
  unfold associate
  rcases hn : p.pointers[symbol]? with _ | index
  · by_cases hc : p.values.size < capacity
    · have hpush : p.push o = (.ok p.values.size, { p with values := p.values.push o }) := if_pos hc
      rw [hpush]
      exact hp.entered (.pointer hn hc) hc rfl (Nat.le_add_right _ _) fun _ _ =>
        .inl ⟨symbol, by simp⟩
    · have hpush : p.push o = (.error .tableFull, p) := if_neg hc
      rw [hpush]
      exact hp
  · dsimp only
    split <;> exact hp

theorem answer_ample (hp : p.Ample) (op : Op) : (p.answer op).2.Ample := by
  cases op with
  | number x => exact internNumber_ample hp x
  | text s => exact internString_ample hp s
  | pointer symbol o => exact associate_ample hp symbol o
  | function symbol o signature =>
    have hp' := associate_ample hp symbol o
    simp only [answer, define]
    rcases hassociate : p.associate symbol o with ⟨e | index, p'⟩ <;> rw [hassociate] at hp'
    · exact hp'
    · exact ⟨hp'.size, hp'.arena, hp'.strings⟩

/-- Entries and arena are cut to what another pool had of them, which was in proportion too. -/
theorem rollback_ample (hp : p.Ample) (hq : q.Ample) : (p.rollback q.checkpoint).Ample := by
  have hvalues : (p.rollback q.checkpoint).values.size = min q.values.size p.values.size :=
    size_values_rollback p q.checkpoint
  have hstrings : (p.rollback q.checkpoint).strings.size = min q.strings.size p.strings.size := by
    rw [rollback, ByteArray.size_extract, Nat.sub_zero]
    rfl
  refine ⟨?_, ?_, fun {index ref} href => ?_⟩
  · rw [hvalues]
    exact Nat.le_trans (Nat.min_le_right _ _) hp.size
  · have hparena := hp.arena
    have hqarena := hq.arena
    unfold longestString at hparena hqarena ⊢
    omega
  · obtain ⟨hold, hindex⟩ := get?_rollback_iff.mp href
    obtain ⟨symbol, hsymbol⟩ | ⟨s, offset, hs, hrest⟩ := hp.strings hold
    · exact .inl ⟨symbol, getElem?_filter_lt_iff.mpr ⟨hsymbol, hindex⟩⟩
    · exact .inr ⟨s, offset, getElem?_filter_lt_iff.mpr ⟨hs, hindex⟩, hrest⟩

theorem Reached.ample (h : p.Reached) : p.Ample := by
  induction h with
  | empty => exact empty_ample
  | answer op _ hp => exact answer_ample hp op
  | rollback _ _ hp hq => exact rollback_ample hp hq

/-! ## Texts and symbols -/

/-- A pool whose texts and symbols have entries, and none of these in common. -/
structure Apart (p : ObjectPool) : Prop where
  texts : ∀ {s : String} {index : ObjectIndex}, p.texts[s]? = some index → index < p.values.size
  pointers : ∀ {symbol : SymbolId} {index : ObjectIndex}, p.pointers[symbol]? = some index →
    index < p.values.size
  apart : ∀ {s : String} {symbol : SymbolId} {index : ObjectIndex}, p.texts[s]? = some index →
    p.pointers[symbol]? ≠ some index

theorem empty_apart : empty.Apart where
  texts h := by simp [empty] at h
  pointers h := by simp [empty] at h
  apart h := by simp [empty] at h

/-- A new entry is at most that of a text or that of a symbol. -/
theorem Apart.entered (hp : p.Apart) {o : Object} (hvalues : q.values = p.values.push o)
    (htexts : ∀ {s : String} {index : ObjectIndex}, q.texts[s]? = some index →
      p.texts[s]? = some index ∨ index = p.values.size ∧ q.pointers = p.pointers)
    (hpointers : ∀ {symbol : SymbolId} {index : ObjectIndex}, q.pointers[symbol]? = some index →
      p.pointers[symbol]? = some index ∨ index = p.values.size ∧ q.texts = p.texts) : q.Apart := by
  have hsize : q.values.size = p.values.size + 1 := by rw [hvalues, Array.size_push]
  refine ⟨fun h => ?_, fun h => ?_, fun hs hsymbol => ?_⟩
  · rw [hsize]
    obtain h | ⟨rfl, -⟩ := htexts h
    · exact Nat.lt_succ_of_lt (hp.texts h)
    · exact Nat.lt_succ_self _
  · rw [hsize]
    obtain h | ⟨rfl, -⟩ := hpointers h
    · exact Nat.lt_succ_of_lt (hp.pointers h)
    · exact Nat.lt_succ_self _
  · obtain h | ⟨rfl, hsame⟩ := htexts hs
    · obtain h' | ⟨rfl, -⟩ := hpointers hsymbol
      · exact hp.apart h h'
      · exact Nat.lt_irrefl _ (hp.texts h)
    · rw [hsame] at hsymbol
      exact Nat.lt_irrefl _ (hp.pointers hsymbol)

theorem associate_apart (hp : p.Apart) (symbol : SymbolId) (o : Object) :
    (p.associate symbol o).2.Apart := by
  unfold associate
  rcases hn : p.pointers[symbol]? with _ | index
  · by_cases hc : p.values.size < capacity
    · have hpush : p.push o = (.ok p.values.size, { p with values := p.values.push o }) := if_pos hc
      rw [hpush]
      refine hp.entered rfl .inl fun h => ?_
      simp only [Std.ExtTreeMap.getElem?_insert, Std.LawfulEqCmp.compare_eq_iff_eq] at h
      split at h
      · exact .inr ⟨(Option.some.inj h).symm, rfl⟩
      · exact .inl h
    · have hpush : p.push o = (.error .tableFull, p) := if_neg hc
      rw [hpush]
      exact hp
  · dsimp only
    split <;> exact hp

theorem answer_apart (hp : p.Apart) (op : Op) : (p.answer op).2.Apart := by
  cases op with
  | number x =>
    obtain ⟨e, h⟩ | ⟨index, -, h⟩ | ⟨-, -, h⟩ := internNumber_cases p x <;> rw [answer, h]
    · exact hp
    · exact hp
    · exact hp.entered rfl .inl .inl
  | text s =>
    obtain ⟨e, h⟩ | ⟨index, -, h⟩ | ⟨-, -, -, -, h⟩ := internString_cases p s <;> rw [answer, h]
    · exact hp
    · exact hp
    · refine hp.entered rfl (fun h => ?_) .inl
      simp only [texted, Std.ExtTreeMap.getElem?_insert, Std.LawfulEqCmp.compare_eq_iff_eq] at h
      split at h
      · exact .inr ⟨(Option.some.inj h).symm, rfl⟩
      · exact .inl h
  | pointer symbol o => exact associate_apart hp symbol o
  | function symbol o signature =>
    have hp' := associate_apart hp symbol o
    simp only [answer, define]
    rcases hassociate : p.associate symbol o with ⟨e | index, p'⟩ <;> rw [hassociate] at hp'
    · exact hp'
    · exact ⟨hp'.texts, hp'.pointers, hp'.apart⟩

theorem rollback_apart (hp : p.Apart) (mark : Checkpoint) : (p.rollback mark).Apart := by
  refine ⟨fun h => ?_, fun h => ?_, fun hs hsymbol => ?_⟩
  · obtain ⟨h, hindex⟩ := getElem?_filter_lt_iff.mp h
    rw [size_values_rollback]
    exact Nat.lt_min.mpr ⟨hindex, hp.texts h⟩
  · obtain ⟨h, hindex⟩ := getElem?_filter_lt_iff.mp h
    rw [size_values_rollback]
    exact Nat.lt_min.mpr ⟨hindex, hp.pointers h⟩
  · exact hp.apart (getElem?_filter_lt_iff.mp hs).1 (getElem?_filter_lt_iff.mp hsymbol).1

theorem Reached.apart (h : p.Reached) : p.Apart := by
  induction h with
  | empty => exact empty_apart
  | answer op _ hp => exact answer_apart hp op
  | rollback _ _ hp _ => exact rollback_apart hp _

/-- What was given for a symbol is the object of no text. -/
theorem Reached.not_given (h : p.Reached) {s : String} (hs : p.texts[s]? = some index) :
    ¬ p.Given index :=
  fun ⟨_, hsymbol⟩ => h.apart.apart hs hsymbol

/-! ## Interning without a look at the arena -/

/-- The index of a string, which is entered if it is new, whatever the size of the arena. -/
def internUnchecked (p : ObjectPool) (s : String) : Except PoolError ObjectIndex × ObjectPool :=
  match p.texts[s]? with
  | some index => (.ok index, p)
  | none =>
      if longestString < s.utf8ByteSize then (.error (.stringTooLong s.utf8ByteSize), p)
      else if p.values.size < capacity then (.ok p.values.size, p.texted s)
      else (.error .tableFull, p)

theorem Ample.internString_eq (hp : p.Ample) (s : String) :
    p.internString s = p.internUnchecked s := by
  have harena := hp.arena
  have hsize := hp.size
  unfold internString internUnchecked
  cases p.texts[s]? with
  | some index => rfl
  | none =>
    by_cases hlong : longestString < s.utf8ByteSize
    · simp only [if_pos hlong]
    · -- Of a full pool the arena and a longest string are one byte short of what offsets reach.
      have hroom : ¬ arenaCapacity ≤ p.strings.size + s.utf8ByteSize := by
        unfold longestString at hlong harena
        unfold capacity at hsize
        unfold arenaCapacity
        omega
      by_cases hcapacity : p.values.size < capacity
      · simp only [if_neg hlong, if_neg hroom, push, if_pos hcapacity]
        rfl
      · simp only [if_neg hlong, if_neg hroom, push, if_neg hcapacity]

theorem internUnchecked_ne_arenaFull (p : ObjectPool) (s : String) :
    (p.internUnchecked s).1 ≠ .error .arenaFull := by
  unfold internUnchecked
  split
  · simp
  · split
    · simp
    · split <;> simp

/-! ## Where strings end -/

/-- Each object that refers to a string was given for a symbol, or is that of a text of the pool,
as long as the text, and ends within a bound. In a pool that was reached it is not both
(`Reached.not_given`), so that the strings of all texts end within the bound (`StringsEnd.text`). -/
def StringsEnd (p : ObjectPool) (bound : Nat) : Prop :=
  ∀ (index : ObjectIndex) (ref : StringRef), p.get? index = some (.ofString ref) →
    p.Given index ∨
      (∃ s : String, p.texts[s]? = some index ∧ ref.length.toNat = s.utf8ByteSize) ∧
        ref.offset.toNat + ref.length.toNat ≤ bound

/-- The strings of all texts end within the bound. -/
theorem StringsEnd.text {bound : Nat} (hp : p.StringsEnd bound) (h : p.Reached) {s : String}
    (hs : p.texts[s]? = some index) (href : p.get? index = some (.ofString ref)) :
    ref.offset.toNat + ref.length.toNat ≤ bound := by
  obtain hgiven | ⟨-, hend⟩ := hp index ref href
  · exact absurd hgiven (h.not_given hs)
  · exact hend

theorem Ample.arena_le (hp : p.Ample) : p.strings.size ≤ capacity * longestString :=
  Nat.le_trans hp.arena (Nat.mul_le_mul_right _ hp.size)

theorem Ample.stringsEnd (hp : p.Ample) : p.StringsEnd (capacity * longestString) := by
  intro index ref href
  obtain hgiven | ⟨s, offset, hs, hlength, hoffset, rfl⟩ := hp.strings href
  · exact .inl hgiven
  have hindex := Nat.lt_of_lt_of_le (get?_eq_some_lt href) hp.size
  have hend : offset + s.utf8ByteSize ≤ capacity * longestString := by
    unfold capacity at hindex ⊢
    unfold longestString at hlength hoffset ⊢
    omega
  have hreach : offset < arenaCapacity := by
    unfold capacity longestString at hend
    unfold arenaCapacity
    omega
  refine .inr ⟨⟨s, hs, toNat_length hlength⟩, ?_⟩
  rw [toNat_offset hreach, toNat_length hlength]
  exact hend

/-- In a pool that holds its entries the strings end in the arena. -/
theorem Holds.stringsEnd {entries : List Entry} (h : p.Holds entries) (hp : p.Ample) :
    p.StringsEnd p.strings.size := by
  intro index ref href
  obtain hgiven | ⟨s, -, hs, -⟩ := hp.strings href
  · exact .inl hgiven
  have hentry := h.text_iff.mp hs
  obtain ⟨before, after, harena, hobject, hlength, hreach⟩ := h.lies hentry
  obtain rfl : ref = ⟨UInt32.ofNat before.utf8ByteSize, UInt16.ofNat s.utf8ByteSize⟩ := by
    have htext := h.objects hentry
    rw [Entry.object, hobject, href] at htext
    exact Object.ofString_injective (Option.some.inj htext)
  have hoffset := toNat_offset (Nat.lt_of_le_of_lt (Nat.le_add_right _ _) hreach)
  refine .inr ⟨⟨s, hs, toNat_length hlength⟩, ?_⟩
  rw [hoffset, toNat_length hlength, harena, String.size_toByteArray, String.utf8ByteSize_append,
    String.utf8ByteSize_append]
  exact Nat.le_add_right _ _

/-! ## After every history -/

/-- The pools of a history are reached, and its marks are theirs. -/
theorem undoable_reached : undoable.Lawful (fun _ _ : Unit => True) (fun p _ => p.Reached)
    fun mark _ => ∃ q : ObjectPool, q.Reached ∧ mark = q.checkpoint where
  refl _ := trivial
  trans _ _ := trivial
  call h op := ⟨(), trivial, .answer op h⟩
  mark h := ⟨_, h, rfl⟩
  back := by
    rintro p _ _ _ hp ⟨q, hq, rfl⟩ -
    exact .rollback hp hq

theorem reached_of_history (deeds : List (Deed Op)) : (undoable.run empty deeds).Reached := by
  obtain ⟨-, -, h⟩ := undoable_reached.run (a := ()) Reached.empty deeds
  exact h

theorem holds_of_history (deeds : List (Deed Op)) :
    ∃ entries, (undoable.run empty deeds).Holds entries := by
  obtain ⟨entries, -, h⟩ := Logged.undoable_lawful.run (s := ⟨empty, []⟩)
    ⟨empty_holds, fun e i => by simp⟩ deeds
  exact ⟨entries, Logged.pool_run ⟨empty, []⟩ deeds ▸ h.holds⟩

/-- However a pool came about, its arena is never full: to intern a string needs no look at the
arena, which stays below what offsets can reach, as do the ends of the strings. If marks were gone
back to only while they were part of the history, the strings end within the arena. -/
theorem arena_never_full :
    (∀ p : ObjectPool, p.Reached →
      (∀ s, p.internString s = p.internUnchecked s ∧
        (p.internString s).1 ≠ .error .arenaFull) ∧
      p.strings.size ≤ capacity * longestString ∧ p.StringsEnd (capacity * longestString)) ∧
    ∀ deeds : List (Deed Op), (undoable.run empty deeds).Reached ∧
      (undoable.run empty deeds).StringsEnd (undoable.run empty deeds).strings.size := by
  refine ⟨fun p h => ?_, fun deeds => ?_⟩
  · have hp := h.ample
    refine ⟨fun s => ⟨hp.internString_eq s, ?_⟩, hp.arena_le, hp.stringsEnd⟩
    rw [hp.internString_eq]
    exact internUnchecked_ne_arenaFull p s
  · have hreached := reached_of_history deeds
    obtain ⟨entries, h⟩ := holds_of_history deeds
    exact ⟨hreached, h.stringsEnd hreached.ample⟩

/-- So too where a mark was gone back to that had been undone, and after a history that undoes. -/
theorem arena_never_full_undone :
    let numbered := (empty.internNumber (.ofNat 1)).2
    let texted := ((numbered.rollback empty.checkpoint).internString "Lost Woods").2
    let p := texted.rollback numbered.checkpoint
    let deeds : List (Deed Op) :=
      [.call (.text "Kokiri Forest"), .mark, .call (.text "Lost Woods"), .back 0,
        .call (.text "Lake")]
    p.Reached ∧ p.values.size = 1 ∧ p.strings.size = 0 ∧
      p.internString "Lake" = p.internUnchecked "Lake" ∧
      (p.internString "Lake").1 ≠ .error .arenaFull ∧
      p.strings.size ≤ capacity * longestString ∧ p.StringsEnd (capacity * longestString) ∧
      (undoable.run empty deeds).StringsEnd (undoable.run empty deeds).strings.size := by
  intro numbered texted p deeds
  have hnumbered : numbered.Reached := .answer (.number (.ofNat 1)) .empty
  have htexted : texted.Reached := .answer (.text "Lost Woods") (.rollback hnumbered .empty)
  have hp : p.Reached := .rollback htexted hnumbered
  obtain ⟨hintern, harena, hstrings⟩ := arena_never_full.1 p hp
  exact ⟨hp, by rfl, by rfl, (hintern "Lake").1, (hintern "Lake").2, harena, hstrings,
    (arena_never_full.2 deeds).2⟩

/-- A mark whose entry was undone keeps the entry that is in its place now, but none of its bytes:
the mark is of a number, which took none. An object that refers to a string is held as it is given,
so it need not lie in the arena either. -/
theorem stale_mark_cuts_text :
    let numbered := (empty.internNumber (.ofNat 1)).2
    let texted := ((numbered.rollback empty.checkpoint).internString "Lost Woods").2
    let p := texted.rollback numbered.checkpoint
    let pointed := (empty.associate 4 (.ofString ⟨100, 5⟩)).2
    (p.Reached ∧ p.texts["Lost Woods"]? = some 0 ∧ p.get? 0 = some (.ofString ⟨0, 10⟩) ∧
      p.strings.size = 0 ∧ ¬ p.StringsEnd p.strings.size) ∧
      pointed.Reached ∧ pointed.get? 0 = some (.ofString ⟨100, 5⟩) ∧ pointed.strings.size = 0 := by
  intro numbered texted p pointed
  have hnumbered : numbered.Reached := .answer (.number (.ofNat 1)) .empty
  have htexted : texted.Reached := .answer (.text "Lost Woods") (.rollback hnumbered .empty)
  have hintern : (numbered.rollback empty.checkpoint).internString "Lost Woods" =
      (.ok 0, texted) := by
    rfl
  have hfound : p.texts["Lost Woods"]? = some 0 :=
    getElem?_filter_lt_iff.mpr ⟨internString_eq_ok hintern, by decide⟩
  have hobject : p.get? 0 = some (.ofString ⟨0, 10⟩) := by rfl
  have hcut : p.strings.size = 0 := by rfl
  refine ⟨⟨.rollback htexted hnumbered, hfound, hobject, hcut, fun h => ?_⟩,
    .answer (.pointer 4 _) .empty, by rfl, by rfl⟩
  obtain ⟨symbol, hsymbol⟩ | ⟨-, hend⟩ := h 0 _ hobject
  · have hnone : p.pointers[symbol]? = none := by
      show (((∅ : Std.ExtTreeMap SymbolId ObjectIndex).filter fun _ index => index < 0).filter
        fun _ index => index < 1)[symbol]? = none
      simp
    exact absurd (hnone.symm.trans hsymbol) nofun
  · rw [hcut] at hend
    exact absurd hend (by decide)

end ObjectPool

end Passage

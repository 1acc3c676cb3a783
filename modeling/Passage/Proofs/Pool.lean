import Passage.Object.Pool
import Passage.Proofs.Objects

/-!
# Growth of the object pool

A sound pool finds under each number, text and symbol the entry that was made
for it, and its arena is the UTF-8 form of a text in which every interned text
lies as a whole. `Step` says once what a single entry does to a pool, and `Grows`
what a sequence of entries leaves as it was: the entries before, and what undoing
gives. From this come the two facts that compilation relies on. Rolling back to
the mark of a sound pool restores that pool (`Grows.rollback_eq`), and a string
object decodes to the string it was made for, also in every later pool
(`Sound.decodeString`).
-/

namespace Passage

namespace ObjectPool

/-- The entry of a text that lies behind `before` in the arena. -/
def textObject (before s : String) : Object :=
  .ofString ⟨UInt32.ofNat before.utf8ByteSize, UInt16.ofNat s.utf8ByteSize⟩

/-- A text lies in the arena, and an object refers to it. -/
def Lies (strings : ByteArray) (s : String) (o : Object) : Prop :=
  ∃ before after : String, strings = (before ++ s ++ after).toByteArray ∧
    o = textObject before s ∧ s.utf8ByteSize ≤ longestString ∧
    before.utf8ByteSize + s.utf8ByteSize < arenaCapacity

/-- A pool that finds what was entered. -/
structure Sound (p : ObjectPool) : Prop where
  size : p.values.size ≤ capacity
  numbers : ∀ {bits : UInt64} {index : ObjectIndex}, p.numbers[bits]? = some index →
    p.get? index = some ⟨bits⟩
  texts : ∀ {s : String} {index : ObjectIndex}, p.texts[s]? = some index →
    ∃ o, p.get? index = some o ∧ Lies p.strings s o
  pointers : ∀ {symbol : SymbolId} {index : ObjectIndex}, p.pointers[symbol]? = some index →
    index < p.values.size
  arena : ∃ text : String, p.strings = text.toByteArray
  definitions : ∀ entry ∈ p.definitions, p.hasPointer entry.1 = true

theorem get?_eq_some_lt {p : ObjectPool} {index : ObjectIndex} {o : Object}
    (h : p.get? index = some o) : index < p.values.size :=
  (Array.getElem?_eq_some_iff.mp h).1

theorem get?_of_lt {p : ObjectPool} {index : ObjectIndex} (h : index < p.values.size) :
    ∃ o, p.get? index = some o :=
  ⟨p.values[index], Array.getElem?_eq_getElem h⟩

theorem empty_sound : empty.Sound where
  size := by decide
  numbers h := by simp [empty] at h
  texts h := by simp [empty] at h
  pointers h := by simp [empty] at h
  arena := ⟨"", rfl⟩
  definitions _ h := absurd h (List.not_mem_nil)

/-! ## What an entry does -/

/-- The pool with an entry for a number. -/
def numbered (p : ObjectPool) (bits : UInt64) : ObjectPool :=
  { p with
    values := p.values.push ⟨bits⟩
    numbers := p.numbers.insert bits p.values.size }

/-- The pool with an entry for a text. -/
def texted (p : ObjectPool) (s : String) : ObjectPool :=
  { p with
    values := p.values.push
      (.ofString ⟨UInt32.ofNat p.strings.size, UInt16.ofNat s.utf8ByteSize⟩)
    strings := p.strings ++ s.toUTF8
    texts := p.texts.insert s p.values.size }

/-- The pool with a pointer for a symbol. -/
def pointed (p : ObjectPool) (symbol : SymbolId) (pointer : Object) : ObjectPool :=
  { p with
    values := p.values.push pointer
    pointers := p.pointers.insert symbol p.values.size }

/-- What a single entry can do to a pool. -/
inductive Step (p : ObjectPool) : ObjectPool → Prop
  | same : Step p p
  | number {bits : UInt64} :
      p.numbers[bits]? = none → p.values.size < capacity → Step p (p.numbered bits)
  | text {s : String} :
      p.texts[s]? = none → p.values.size < capacity → s.utf8ByteSize ≤ longestString →
      p.strings.size + s.utf8ByteSize < arenaCapacity → Step p (p.texted s)
  | pointer {symbol : SymbolId} {o : Object} :
      p.pointers[symbol]? = none → p.values.size < capacity → Step p (p.pointed symbol o)

/-- A number is refused, or found, or entered. -/
theorem internNumber_cases (p : ObjectPool) (x : Number) :
    (∃ e, p.internNumber x = (.error e, p)) ∨
    (∃ index, p.numbers[x.bits]? = some index ∧ p.internNumber x = (.ok index, p)) ∨
    (p.numbers[x.bits]? = none ∧ p.values.size < capacity ∧
      p.internNumber x = (.ok p.values.size, p.numbered x.bits)) := by
  unfold internNumber
  rcases ho : Object.ofNumber x with e | o
  · exact .inl ⟨_, rfl⟩
  · obtain rfl := Object.eq_of_ofNumber ho
    rcases hn : p.numbers[x.bits]? with _ | index
    · by_cases hc : p.values.size < capacity
      · exact .inr (.inr ⟨rfl, hc, by simp only [push, if_pos hc]; rfl⟩)
      · exact .inl ⟨_, by simp only [push, if_neg hc]; rfl⟩
    · exact .inr (.inl ⟨index, rfl, rfl⟩)

/-- A text is refused, or found, or entered. -/
theorem internString_cases (p : ObjectPool) (s : String) :
    (∃ e, p.internString s = (.error e, p)) ∨
    (∃ index, p.texts[s]? = some index ∧ p.internString s = (.ok index, p)) ∨
    (p.texts[s]? = none ∧ p.values.size < capacity ∧ s.utf8ByteSize ≤ longestString ∧
      p.strings.size + s.utf8ByteSize < arenaCapacity ∧
      p.internString s = (.ok p.values.size, p.texted s)) := by
  unfold internString
  rcases ht : p.texts[s]? with _ | index
  · by_cases hlong : longestString < s.utf8ByteSize
    · exact .inl ⟨_, by simp only [if_pos hlong]; rfl⟩
    by_cases hfull : arenaCapacity ≤ p.strings.size + s.utf8ByteSize
    · exact .inl ⟨_, by simp only [if_neg hlong, if_pos hfull]; rfl⟩
    by_cases hc : p.values.size < capacity
    · exact .inr (.inr ⟨rfl, hc, Nat.le_of_not_lt hlong, Nat.lt_of_not_le hfull, by
        simp only [if_neg hlong, if_neg hfull, push, if_pos hc]; rfl⟩)
    · exact .inl ⟨_, by simp only [if_neg hlong, if_neg hfull, push, if_neg hc]; rfl⟩
  · exact .inr (.inl ⟨index, rfl, rfl⟩)

/-- A pointer is refused, or is the one that the symbol has, or is entered. -/
theorem associate_cases {p : ObjectPool} (hp : p.Sound) (symbol : SymbolId) (pointer : Object) :
    (∃ e, p.associate symbol pointer = (.error e, p)) ∨
    (∃ index, p.pointers[symbol]? = some index ∧ p.get? index = some pointer ∧
      p.associate symbol pointer = (.ok index, p)) ∨
    (p.pointers[symbol]? = none ∧ p.values.size < capacity ∧
      p.associate symbol pointer = (.ok p.values.size, p.pointed symbol pointer)) := by
  unfold associate
  rcases hn : p.pointers[symbol]? with _ | index
  · by_cases hc : p.values.size < capacity
    · exact .inr (.inr ⟨rfl, hc, by simp only [push, if_pos hc]; rfl⟩)
    · exact .inl ⟨_, by simp only [push, if_neg hc]; rfl⟩
  · obtain ⟨o, ho⟩ := get?_of_lt (hp.pointers hn)
    by_cases he : o = pointer
    · subst he
      exact .inr (.inl ⟨index, rfl, ho, by simp [ho]⟩)
    · exact .inl ⟨_, by simp only [ho, Option.getD_some, if_neg he]; rfl⟩

/-- A number that is interned has its object under its index. -/
theorem internNumber_eq_ok {p p' : ObjectPool} (hp : p.Sound) {x : Number} {index : ObjectIndex}
    (h : p.internNumber x = (.ok index, p')) :
    ∃ o, Object.ofNumber x = .ok o ∧ p'.get? index = some o := by
  have hobject : Object.ofNumber x = .ok ⟨x.bits⟩ := by
    unfold Object.ofNumber
    by_cases hnan : x.isNaN
    · have hofNumber : Object.ofNumber x = .error .notANumber := if_pos hnan
      rw [internNumber, hofNumber] at h
      exact absurd (congrArg Prod.fst h) (by simp)
    · exact if_neg hnan
  refine ⟨_, hobject, ?_⟩
  obtain ⟨e, h'⟩ | ⟨i, hn, h'⟩ | ⟨-, -, h'⟩ := internNumber_cases p x <;> rw [h'] at h <;> cases h
  · exact hp.numbers hn
  · exact Array.getElem?_push_size

/-- A text that is interned is found under its index. -/
theorem internString_eq_ok {p p' : ObjectPool} {s : String} {index : ObjectIndex}
    (h : p.internString s = (.ok index, p')) : p'.texts[s]? = some index := by
  obtain ⟨e, h'⟩ | ⟨i, ht, h'⟩ | ⟨-, -, -, -, h'⟩ := internString_cases p s <;>
    rw [h'] at h <;> cases h
  · exact ht
  · simp [texted]

theorem internNumber_step (p : ObjectPool) (x : Number) : p.Step (p.internNumber x).2 := by
  obtain ⟨e, h⟩ | ⟨index, -, h⟩ | ⟨hn, hc, h⟩ := internNumber_cases p x <;> rw [h]
  · exact .same
  · exact .same
  · exact .number hn hc

theorem internString_step (p : ObjectPool) (s : String) : p.Step (p.internString s).2 := by
  obtain ⟨e, h⟩ | ⟨index, -, h⟩ | ⟨hn, hc, hlong, hfull, h⟩ := internString_cases p s <;> rw [h]
  · exact .same
  · exact .same
  · exact .text hn hc hlong hfull

theorem associate_step {p : ObjectPool} (hp : p.Sound) (symbol : SymbolId) (pointer : Object) :
    p.Step (p.associate symbol pointer).2 := by
  obtain ⟨e, h⟩ | ⟨index, -, -, h⟩ | ⟨hn, hc, h⟩ := associate_cases hp symbol pointer <;> rw [h]
  · exact .same
  · exact .same
  · exact .pointer hn hc

/-! ## Undoing -/

/-- Of the indices in a map those below a bound stay. -/
theorem getElem?_filter_lt_iff {κ : Type} [Ord κ] [Std.TransOrd κ] [Std.LawfulEqOrd κ]
    {m : Std.ExtTreeMap κ ObjectIndex} {bound : Nat} {k : κ} {index : ObjectIndex} :
    (m.filter fun _ i => i < bound)[k]? = some index ↔ m[k]? = some index ∧ index < bound := by
  rw [Std.ExtTreeMap.getElem?_filter', Option.filter_eq_some_iff, decide_eq_true_iff]

theorem size_values_rollback (p : ObjectPool) (mark : Checkpoint) :
    (p.rollback mark).values.size = min mark.values p.values.size := by
  rw [rollback, Array.take_eq_extract, Array.size_extract, Nat.sub_zero]

/-- Of the objects those below the mark stay. -/
theorem get?_rollback_iff {p : ObjectPool} {mark : Checkpoint} {index : ObjectIndex} {o : Object} :
    (p.rollback mark).get? index = some o ↔ p.get? index = some o ∧ index < mark.values := by
  rw [get?, rollback, Array.take_eq_extract, Array.getElem?_extract, Nat.zero_add, Nat.sub_zero]
  constructor
  · intro h
    obtain ⟨hindex, ho⟩ := Option.ite_none_right_eq_some.mp h
    exact ⟨ho, Nat.lt_of_lt_of_le hindex (Nat.min_le_left _ _)⟩
  · rintro ⟨ho, hindex⟩
    rw [if_pos (Nat.lt_min.mpr ⟨hindex, get?_eq_some_lt ho⟩)]
    exact ho

/-- Indices below a bound are found in a map as before, after one above it has entered. -/
theorem filter_insert_above {κ : Type} [Ord κ] [Std.TransOrd κ] [Std.LawfulEqOrd κ]
    {m : Std.ExtTreeMap κ ObjectIndex} {k : κ} {index bound : Nat} (hk : m[k]? = none)
    (h : bound ≤ index) :
    ((m.insert k index).filter fun _ i => i < bound) = m.filter fun _ i => i < bound := by
  apply Std.ExtTreeMap.ext_getElem?
  intro k'
  simp only [Std.ExtTreeMap.getElem?_filter', Std.ExtTreeMap.getElem?_insert,
    Std.LawfulEqCmp.compare_eq_iff_eq]
  by_cases hk' : k = k'
  · subst hk'
    have habove : ¬ index < bound := Nat.not_lt.mpr h
    simp [hk, Option.filter, habove]
  · simp [hk']

/-- Each index that the map finds is below the bound. -/
def Below {κ : Type} [Ord κ] [Std.TransOrd κ] (m : Std.ExtTreeMap κ ObjectIndex) (bound : Nat) :
    Prop :=
  ∀ (k : κ) (index : ObjectIndex), m[k]? = some index → index < bound

/-- Nothing is dropped from a map whose indices all lie below the bound. -/
theorem filter_below {κ : Type} [Ord κ] [Std.TransOrd κ] [Std.LawfulEqOrd κ]
    {m : Std.ExtTreeMap κ ObjectIndex} {bound : Nat} (h : Below m bound) :
    (m.filter fun _ i => i < bound) = m := by
  apply Std.ExtTreeMap.ext_getElem?
  intro k
  rw [Std.ExtTreeMap.getElem?_filter']
  rcases hk : m[k]? with _ | index
  · rfl
  · simp [Option.filter, h k index hk]

theorem extract_append_of_le {a : ByteArray} (b : ByteArray) {n : Nat} (h : n ≤ a.size) :
    (a ++ b).extract 0 n = a.extract 0 n := by
  rw [ByteArray.extract_append, Nat.sub_eq_zero_of_le h, Nat.sub_eq_zero_of_le (Nat.zero_le _)]
  simp

/-- How far undoing may go: not beyond what the pool holds. -/
structure Checkpoint.Within (mark : Checkpoint) (p : ObjectPool) : Prop where
  values : mark.values ≤ p.values.size
  strings : mark.strings ≤ p.strings.size

theorem checkpoint_within (p : ObjectPool) : p.checkpoint.Within p :=
  ⟨Nat.le_refl _, Nat.le_refl _⟩

theorem rollback_numbered {p : ObjectPool} {mark : Checkpoint} {bits : UInt64}
    (hn : p.numbers[bits]? = none) (hm : mark.Within p) :
    (p.numbered bits).rollback mark = p.rollback mark := by
  simp only [rollback, numbered, filter_insert_above hn hm.values, ObjectPool.mk.injEq, and_true]
  exact Array.extract_push_of_le hm.values

theorem rollback_texted {p : ObjectPool} {mark : Checkpoint} {s : String}
    (ht : p.texts[s]? = none) (hm : mark.Within p) :
    (p.texted s).rollback mark = p.rollback mark := by
  simp only [rollback, texted, filter_insert_above ht hm.values, ObjectPool.mk.injEq, and_true]
  exact ⟨Array.extract_push_of_le hm.values, extract_append_of_le _ hm.strings⟩

theorem rollback_pointed {p : ObjectPool} {mark : Checkpoint} {symbol : SymbolId} (o : Object)
    (hn : p.pointers[symbol]? = none) (hm : mark.Within p) :
    (p.pointed symbol o).rollback mark = p.rollback mark := by
  simp only [rollback, pointed, filter_insert_above hn hm.values, ObjectPool.mk.injEq, and_true]
  exact Array.extract_push_of_le hm.values

/-- A pool that finds no index but its own, and defines no symbol that has no pointer. -/
structure Settled (p : ObjectPool) : Prop where
  numbers : Below p.numbers p.values.size
  texts : Below p.texts p.values.size
  pointers : Below p.pointers p.values.size
  definitions : ∀ entry ∈ p.definitions, p.hasPointer entry.1 = true

theorem Sound.settled {p : ObjectPool} (hp : p.Sound) : p.Settled where
  numbers _ _ h := get?_eq_some_lt (hp.numbers h)
  texts _ _ h := by
    obtain ⟨o, ho, -⟩ := hp.texts h
    exact get?_eq_some_lt ho
  pointers _ _ h := hp.pointers h
  definitions := hp.definitions

/-- Undoing to the present changes nothing in a settled pool. -/
theorem Settled.rollback_checkpoint {p : ObjectPool} (hp : p.Settled) :
    p.rollback p.checkpoint = p := by
  have hdefinitions : (p.definitions.filter fun entry => p.pointers[entry.1]?.isSome) =
      p.definitions :=
    List.filter_eq_self.mpr hp.definitions
  have hstrings : p.strings.extract 0 p.strings.size = p.strings := by simp
  dsimp only [rollback, checkpoint]
  rw [filter_below hp.numbers, filter_below hp.texts, filter_below hp.pointers, hdefinitions,
    hstrings, Array.take_eq_extract, Array.extract_size]

/-! ## Growth -/

theorem Lies.append {strings : ByteArray} {s : String} {o : Object} (h : Lies strings s o)
    (more : String) : Lies (strings ++ more.toByteArray) s o := by
  obtain ⟨before, after, harena, ho, hlong, hfull⟩ := h
  refine ⟨before, after ++ more, ?_, ho, hlong, hfull⟩
  rw [harena, ← String.toByteArray_append, String.append_assoc]

theorem getElem?_push_of_some {values : Array Object} {index : Nat} {o : Object} (new : Object)
    (h : values[index]? = some o) : (values.push new)[index]? = some o := by
  have hlt := (Array.getElem?_eq_some_iff.mp h).1
  rw [Array.getElem?_push, if_neg (Nat.ne_of_lt hlt), h]

theorem numbered_sound {p : ObjectPool} (hp : p.Sound) {bits : UInt64}
    (hc : p.values.size < capacity) : (p.numbered bits).Sound where
  size := by simpa [numbered] using Nat.succ_le_of_lt hc
  numbers := by
    intro bits' index h
    simp only [numbered, Std.ExtTreeMap.getElem?_insert, Std.LawfulEqCmp.compare_eq_iff_eq] at h
    by_cases hb : bits = bits'
    · rw [if_pos hb] at h
      rw [← Option.some.inj h, ← hb]
      exact Array.getElem?_push_size
    · rw [if_neg hb] at h
      exact getElem?_push_of_some _ (hp.numbers h)
  texts := by
    intro s index h
    obtain ⟨o, ho, hlies⟩ := hp.texts h
    exact ⟨o, getElem?_push_of_some _ ho, hlies⟩
  pointers := by
    intro symbol index h
    have := hp.pointers h
    simp only [numbered, Array.size_push]
    exact Nat.lt_succ_of_lt this
  arena := hp.arena
  definitions := hp.definitions

theorem texted_sound {p : ObjectPool} (hp : p.Sound) {s : String}
    (hc : p.values.size < capacity) (hlong : s.utf8ByteSize ≤ longestString)
    (hfull : p.strings.size + s.utf8ByteSize < arenaCapacity) : (p.texted s).Sound where
  size := by simpa [texted] using Nat.succ_le_of_lt hc
  numbers := by
    intro bits index h
    exact getElem?_push_of_some _ (hp.numbers h)
  texts := by
    intro s' index h
    simp only [texted, Std.ExtTreeMap.getElem?_insert, Std.LawfulEqCmp.compare_eq_iff_eq] at h
    by_cases hs : s = s'
    · obtain ⟨text, htext⟩ := hp.arena
      rw [if_pos hs] at h
      rw [← Option.some.inj h, ← hs]
      refine ⟨_, Array.getElem?_push_size, text, "", ?_, ?_, hlong, ?_⟩
      · rw [texted, htext, String.toUTF8_eq_toByteArray, String.append_empty,
          String.toByteArray_append]
      · rw [textObject, htext, String.size_toByteArray]
      · rw [htext, String.size_toByteArray] at hfull
        exact hfull
    · rw [if_neg hs] at h
      obtain ⟨o, ho, hlies⟩ := hp.texts h
      exact ⟨o, getElem?_push_of_some _ ho, hlies.append s⟩
  pointers := by
    intro symbol index h
    have := hp.pointers h
    simp only [texted, Array.size_push]
    exact Nat.lt_succ_of_lt this
  arena := by
    obtain ⟨text, htext⟩ := hp.arena
    exact ⟨text ++ s, by rw [texted, htext, String.toUTF8_eq_toByteArray,
      String.toByteArray_append]⟩
  definitions := hp.definitions

theorem pointed_sound {p : ObjectPool} (hp : p.Sound) {symbol : SymbolId} (o : Object)
    (hc : p.values.size < capacity) : (p.pointed symbol o).Sound where
  size := by simpa [pointed] using Nat.succ_le_of_lt hc
  numbers := by
    intro bits index h
    exact getElem?_push_of_some _ (hp.numbers h)
  texts := by
    intro s index h
    obtain ⟨o', ho, hlies⟩ := hp.texts h
    exact ⟨o', getElem?_push_of_some _ ho, hlies⟩
  pointers := by
    intro symbol' index h
    simp only [pointed, Std.ExtTreeMap.getElem?_insert, Std.LawfulEqCmp.compare_eq_iff_eq] at h
    simp only [pointed, Array.size_push]
    by_cases hs : symbol = symbol'
    · rw [if_pos hs] at h
      rw [← Option.some.inj h]
      exact Nat.lt_succ_self _
    · rw [if_neg hs] at h
      exact Nat.lt_succ_of_lt (hp.pointers h)
  arena := hp.arena
  definitions := by
    intro entry h
    have hentry := hp.definitions entry h
    simp only [hasPointer, pointed, Std.ExtTreeMap.getElem?_insert,
      Std.LawfulEqCmp.compare_eq_iff_eq] at hentry ⊢
    by_cases hs : symbol = entry.1
    · simp [hs]
    · rw [if_neg hs]
      exact hentry

theorem Step.sound {p p' : ObjectPool} (hp : p.Sound) (h : p.Step p') : p'.Sound := by
  cases h with
  | same => exact hp
  | number _ hc => exact numbered_sound hp hc
  | text _ hc hlong hfull => exact texted_sound hp hc hlong hfull
  | pointer _ hc => exact pointed_sound hp _ hc

/-- The second pool has grown from the first: it is as sound, it has kept every
entry and every pointer, it defines the same functions, and what undoing gives is
not changed by the growth. -/
structure Grows (p p' : ObjectPool) : Prop where
  sound : p.Sound → p'.Sound
  values : ∀ {index : ObjectIndex} {o : Object}, p.get? index = some o → p'.get? index = some o
  size : p.values.size ≤ p'.values.size
  strings : ∃ more : String, p'.strings = p.strings ++ more.toByteArray
  pointers : ∀ {symbol : SymbolId} {index : ObjectIndex}, p.pointers[symbol]? = some index →
    p'.pointers[symbol]? = some index
  texts : ∀ {s : String} {index : ObjectIndex}, p.texts[s]? = some index →
    p'.texts[s]? = some index
  definitions : p'.definitions = p.definitions
  undo : ∀ {mark : Checkpoint}, mark.Within p → p'.rollback mark = p.rollback mark

theorem Grows.refl (p : ObjectPool) : p.Grows p :=
  ⟨id, id, Nat.le_refl _, ⟨"", by simp⟩, id, id, rfl, fun _ => rfl⟩

theorem Grows.within {p p' : ObjectPool} (h : p.Grows p') {mark : Checkpoint}
    (hm : mark.Within p) : mark.Within p' := by
  obtain ⟨more, hmore⟩ := h.strings
  refine ⟨Nat.le_trans hm.values h.size, Nat.le_trans hm.strings ?_⟩
  rw [hmore, ByteArray.size_append]
  exact Nat.le_add_right _ _

theorem Grows.trans {p q r : ObjectPool} (h : p.Grows q) (h' : q.Grows r) : p.Grows r where
  sound hp := h'.sound (h.sound hp)
  values hv := h'.values (h.values hv)
  size := Nat.le_trans h.size h'.size
  strings := by
    obtain ⟨more, hmore⟩ := h.strings
    obtain ⟨more', hmore'⟩ := h'.strings
    exact ⟨more ++ more', by rw [hmore', hmore, String.toByteArray_append,
      ByteArray.append_assoc]⟩
  pointers hn := h'.pointers (h.pointers hn)
  texts hn := h'.texts (h.texts hn)
  definitions := h'.definitions.trans h.definitions
  undo hm := (h'.undo (h.within hm)).trans (h.undo hm)

theorem Step.grows {p p' : ObjectPool} (h : p.Step p') : p.Grows p' := by
  have hsound (hp : p.Sound) := h.sound hp
  cases h with
  | same => exact .refl p
  | number hn _ =>
    exact ⟨hsound, getElem?_push_of_some _, by simp [numbered], ⟨"", by simp [numbered]⟩, id, id,
      rfl, rollback_numbered hn⟩
  | @text s ht _ _ _ =>
    refine ⟨hsound, getElem?_push_of_some _, by simp [texted], ⟨_, rfl⟩, id,
      fun {s' index} h => ?_, rfl, rollback_texted ht⟩
    simp only [texted, Std.ExtTreeMap.getElem?_insert, Std.LawfulEqCmp.compare_eq_iff_eq]
    rw [if_neg, h]
    rintro rfl
    rw [ht] at h
    exact absurd h (by simp)
  | @pointer symbol o hn _ =>
    refine ⟨hsound, getElem?_push_of_some _, by simp [pointed], ⟨"", by simp [pointed]⟩,
      fun {symbol' index} h => ?_, id, rfl, rollback_pointed o hn⟩
    simp only [pointed, Std.ExtTreeMap.getElem?_insert, Std.LawfulEqCmp.compare_eq_iff_eq]
    rw [if_neg, h]
    rintro rfl
    rw [hn] at h
    exact absurd h (by simp)

/-- The second pool goes on from the first: it has kept every entry, text and pointer, and
its functions are defined behind those of the first. -/
structure Continues (p p' : ObjectPool) : Prop where
  values : ∀ {index : ObjectIndex} {o : Object}, p.get? index = some o → p'.get? index = some o
  pointers : ∀ {symbol : SymbolId} {index : ObjectIndex}, p.pointers[symbol]? = some index →
    p'.pointers[symbol]? = some index
  texts : ∀ {s : String} {index : ObjectIndex}, p.texts[s]? = some index →
    p'.texts[s]? = some index
  definitions : p.definitions <+: p'.definitions

theorem Continues.refl (p : ObjectPool) : p.Continues p := ⟨id, id, id, List.prefix_rfl⟩

theorem Continues.trans {p q r : ObjectPool} (h : p.Continues q) (h' : q.Continues r) :
    p.Continues r where
  values hv := h'.values (h.values hv)
  pointers hn := h'.pointers (h.pointers hn)
  texts hn := h'.texts (h.texts hn)
  definitions := h.definitions.trans h'.definitions

theorem Grows.continues {p p' : ObjectPool} (h : p.Grows p') : p.Continues p' where
  values := h.values
  pointers := h.pointers
  texts := h.texts
  definitions := h.definitions ▸ List.prefix_rfl

/-- A signature that was found is found. -/
theorem Continues.lookup {p p' : ObjectPool} (h : p.Continues p') {symbol : SymbolId}
    {signature : Signature} (hs : p.definitions.lookup symbol = some signature) :
    p'.definitions.lookup symbol = some signature := by
  obtain ⟨more, hmore⟩ := h.definitions
  rw [← hmore, List.lookup_append, hs, Option.some_or]

/-- The pool has grown by numbers and texts, and by no pointer. -/
structure Interns (p p' : ObjectPool) : Prop extends p.Grows p' where
  pointers_eq : p'.pointers = p.pointers

theorem Interns.refl (p : ObjectPool) : p.Interns p := ⟨.refl p, rfl⟩

theorem Interns.trans {p q r : ObjectPool} (h : p.Interns q) (h' : q.Interns r) : p.Interns r :=
  ⟨h.toGrows.trans h'.toGrows, h'.pointers_eq.trans h.pointers_eq⟩

theorem internNumber_interns (p : ObjectPool) (x : Number) : p.Interns (p.internNumber x).2 := by
  refine ⟨(internNumber_step p x).grows, ?_⟩
  obtain ⟨e, h⟩ | ⟨index, -, h⟩ | ⟨-, -, h⟩ := internNumber_cases p x <;> rw [h]
  rfl

theorem internString_interns (p : ObjectPool) (s : String) : p.Interns (p.internString s).2 := by
  refine ⟨(internString_step p s).grows, ?_⟩
  obtain ⟨e, h⟩ | ⟨index, -, h⟩ | ⟨-, -, -, -, h⟩ := internString_cases p s <;> rw [h]
  rfl

/-- Rolling back a pool that has grown gives back the pool that it grew from. -/
theorem Grows.rollback_eq {p p' : ObjectPool} (hp : p.Sound) (h : p.Grows p') :
    p'.rollback p.checkpoint = p := by
  rw [h.undo (checkpoint_within p), hp.settled.rollback_checkpoint]

/-- The second pool is sound, and has the entries and pointers of the first. -/
structure Retains (p p' : ObjectPool) : Prop where
  sound : p'.Sound
  values : ∀ {index : ObjectIndex} {o : Object}, p.get? index = some o → p'.get? index = some o
  pointers : ∀ {symbol : SymbolId} {index : ObjectIndex}, p.pointers[symbol]? = some index →
    p'.pointers[symbol]? = some index

theorem Grows.retains {p p' : ObjectPool} (hp : p.Sound) (h : p.Grows p') :
    p.Retains p' :=
  ⟨h.sound hp, h.values, h.pointers⟩

theorem mem_putDefinition {symbol : SymbolId} {signature : Signature}
    {definitions : List (SymbolId × Signature)} {entry : SymbolId × Signature}
    (h : entry ∈ putDefinition symbol signature definitions) :
    entry = (symbol, signature) ∨ entry ∈ definitions := by
  induction definitions with
  | nil => exact .inl (List.mem_singleton.mp h)
  | cons other rest ih =>
    rw [putDefinition] at h
    split at h
    · obtain rfl | h := List.mem_cons.mp h
      · exact .inl rfl
      · exact .inr (List.mem_cons_of_mem _ h)
    · obtain rfl | h := List.mem_cons.mp h
      · exact .inr List.mem_cons_self
      · exact (ih h).imp id (List.mem_cons_of_mem _)

/-- What is true of the signatures, and of a further one, is true when that is recorded. -/
theorem forall_putDefinition {Q : SymbolId × Signature → Prop} {symbol : SymbolId}
    {signature : Signature} {definitions : List (SymbolId × Signature)}
    (h : ∀ entry ∈ definitions, Q entry) (hnew : Q (symbol, signature)) :
    ∀ entry ∈ putDefinition symbol signature definitions, Q entry := by
  intro entry hentry
  obtain rfl | hold := mem_putDefinition hentry
  · exact hnew
  · exact h entry hold

/-- A symbol that is given a pointer has one. -/
theorem hasPointer_associate {p p' : ObjectPool} (hp : p.Sound) {symbol : SymbolId}
    {pointer : Object} {index : ObjectIndex}
    (h : p.associate symbol pointer = (.ok index, p')) :
    p'.pointers[symbol]? = some index ∧ p'.get? index = some pointer := by
  obtain ⟨e, h'⟩ | ⟨i, hn, ho, h'⟩ | ⟨hn, -, h'⟩ := associate_cases hp symbol pointer <;>
    rw [h'] at h
  · exact absurd (congrArg Prod.fst h) (by simp)
  · cases h
    exact ⟨hn, ho⟩
  · cases h
    exact ⟨by simp [pointed], by simp [get?, pointed]⟩

/-- Defining a function enters its pointer, and keeps all that was there. -/
theorem define_retains {p : ObjectPool} (hp : p.Sound) (symbol : SymbolId) (pointer : Object)
    (signature : Signature) : p.Retains (p.define symbol pointer signature).2 := by
  have hgrows := (associate_step hp symbol pointer).grows
  unfold define
  rcases h : p.associate symbol pointer with ⟨e | index, p'⟩ <;> rw [h] at hgrows
  · exact hgrows.retains hp
  · have hsound := hgrows.sound hp
    have hpointer : p'.hasPointer symbol = true :=
      Option.isSome_of_eq_some (hasPointer_associate hp h).1
    exact ⟨⟨hsound.size, hsound.numbers, hsound.texts, hsound.pointers, hsound.arena,
      forall_putDefinition hsound.definitions hpointer⟩, hgrows.values, hgrows.pointers⟩

/-! ## Decoding -/

/-- A byte that begins a character continues none. -/
theorem ne_two_of_isUTF8FirstByte (b : UInt8) (h : b.IsUTF8FirstByte) : b.toNat / 64 ≠ 2 := by
  have hbytes : ∀ n < 256, (UInt8.ofNat n).IsUTF8FirstByte → n / 64 ≠ 2 := by decide +kernel
  have hb : UInt8.ofNat b.toNat = b := UInt8.ofNat_toNat
  exact hbytes b.toNat b.toNat_lt (hb.symm ▸ h)

/-- A character begins, or the arena ends, where one of two texts ends. -/
theorem isBoundary_append (before after : String) :
    ObjectTable.isBoundary (before ++ after).toByteArray before.utf8ByteSize = true := by
  have hbefore : before.toByteArray.size = before.utf8ByteSize := String.size_toByteArray
  rw [ObjectTable.isBoundary]
  split
  · next h =>
    have hpos : 0 < after.toByteArray.size := by
      rw [String.toByteArray_append, ByteArray.size_append, hbefore] at h
      omega
    have hfirst := after.isValidUTF8.isUTF8FirstByte_getElem_zero hpos
    have hbyte : (before ++ after).toByteArray[before.utf8ByteSize] = after.toByteArray[0] := by
      simp only [String.toByteArray_append]
      rw [ByteArray.getElem_append_right (by omega)]
      simp [hbefore]
    rw [hbyte]
    simpa using ne_two_of_isUTF8FirstByte _ hfirst
  · next h =>
    rw [String.toByteArray_append, ByteArray.size_append, hbefore] at h ⊢
    simp only [beq_iff_eq]
    omega

/-- A text is found in an arena where it lies between two others. -/
theorem slice?_append (before s after : String) :
    ObjectTable.slice? (before ++ s ++ after).toByteArray before.utf8ByteSize s.utf8ByteSize =
      some s := by
  have hstart := isBoundary_append before (s ++ after)
  have hend := isBoundary_append (before ++ s) after
  rw [← String.append_assoc] at hstart
  rw [String.utf8ByteSize_append] at hend
  have hbytes : (before ++ s ++ after).toByteArray.extract before.utf8ByteSize
      (before.utf8ByteSize + s.utf8ByteSize) = s.toByteArray := by
    rw [String.toByteArray_append, String.toByteArray_append, ByteArray.append_assoc,
      ← String.size_toByteArray, ← String.size_toByteArray]
    have h := ByteArray.extract_append_size_add (a := before.toByteArray)
      (b := s.toByteArray ++ after.toByteArray) (i := 0) (j := s.toByteArray.size)
    rw [Nat.add_zero] at h
    rw [h, ByteArray.extract_append_eq_left rfl]
  rw [ObjectTable.slice?, hstart, hend, hbytes]
  show String.fromUTF8? s.toByteArray = some s
  rw [String.fromUTF8?, dif_pos s.isValidUTF8]
  rfl

/-- No offset into the arena is cut off by its 32 bits. -/
theorem toNat_offset {offset : Nat} (h : offset < arenaCapacity) :
    (UInt32.ofNat offset).toNat = offset := by
  rw [UInt32.toNat_ofNat']
  exact Nat.mod_eq_of_lt h

/-- No length of a string is cut off by its sixteen bits. -/
theorem toNat_length {length : Nat} (h : length ≤ longestString) :
    (UInt16.ofNat length).toNat = length := by
  rw [UInt16.toNat_ofNat']
  exact Nat.mod_eq_of_lt (Nat.lt_succ_of_le h)

/-- The object of a text that lies in the arena decodes to the text. -/
theorem Lies.decodeString {t : ObjectTable} {s : String} {o : Object} (h : Lies t.strings s o) :
    t.decodeString o = .ok s := by
  obtain ⟨before, after, harena, ho, hlong, hfull⟩ := h
  have hoffset := toNat_offset (Nat.lt_of_le_of_lt (Nat.le_add_right _ _) hfull)
  rw [ObjectTable.decodeString, ho, textObject, Object.asString_ofString]
  dsimp only [bind, Except.bind]
  rw [hoffset, toNat_length hlong, harena, slice?_append]
  rfl

end ObjectPool

end Passage

import Passage.Proofs.Histories
import Passage.Proofs.Pool

/-!
# The entries of a pool

A pool is the list of its entries, in three maps, a sequence of objects and an arena. `Holds` says
so: each index has one entry, its object stands there, each map finds the entries of its kind and
nothing else, and the arena is the texts one after another. A call that succeeds answers with the
index of its entry, which is found, or put behind the others (`Holds.answer`); rolling back takes
the list to the length that it had (`Holds.rollback`). So after every history the pool holds the
entries that were asked for and not undone, under the indices that were answered
(`faithful_of_history`).
-/

namespace Passage

/-! ## What a pool holds -/

/-- What an index of the pool was given for. -/
inductive Entry where
  | number (bits : UInt64)
  | text (s : String)
  | pointer (symbol : SymbolId) (o : Object)

namespace Entry

def number? : Entry → Option UInt64
  | .number bits => some bits
  | _ => none

def text? : Entry → Option String
  | .text s => some s
  | _ => none

def symbol? : Entry → Option SymbolId
  | .pointer symbol _ => some symbol
  | _ => none

/-- What the entry puts into the arena. -/
def bytes : Entry → String
  | .text s => s
  | _ => ""

/-- The object of an entry, whose text lies behind `before`. -/
def object (before : String) : Entry → Object
  | .number bits => ⟨bits⟩
  | .text s => ObjectPool.textObject before s
  | .pointer _ o => o

@[simp] theorem number?_eq_some {e : Entry} {bits : UInt64} :
    e.number? = some bits ↔ e = .number bits := by
  cases e <;> simp [number?]

@[simp] theorem text?_eq_some {e : Entry} {s : String} : e.text? = some s ↔ e = .text s := by
  cases e <;> simp [text?]

@[simp] theorem symbol?_eq_some {e : Entry} {symbol : SymbolId} :
    e.symbol? = some symbol ↔ ∃ o, e = .pointer symbol o := by
  cases e <;> simp [symbol?]

end Entry

/-- The texts of entries, one after another. -/
def arenaText (entries : List Entry) : String := String.join (entries.map Entry.bytes)

@[simp] theorem arenaText_append (entries more : List Entry) :
    arenaText (entries ++ more) = arenaText entries ++ arenaText more := by
  simp [arenaText]

@[simp] theorem arenaText_singleton (e : Entry) : arenaText [e] = e.bytes := by
  simp [arenaText]

/-- An entry splits the arena into what comes before it, its own text, and what follows. -/
theorem arenaText_split {entries : List Entry} {i : Nat} {e : Entry} (h : entries[i]? = some e) :
    arenaText entries =
      arenaText (entries.take i) ++ e.bytes ++ arenaText (entries.drop (i + 1)) := by
  obtain ⟨hi, he⟩ := List.getElem?_eq_some_iff.mp h
  rw [← arenaText_singleton e, ← arenaText_append, ← arenaText_append, ← he,
    List.take_append_getElem, List.take_append_drop]

theorem getElem?_concat_bind {κ : Type} (entries : List Entry) (e : Entry)
    (key : Entry → Option κ) (i : Nat) :
    (entries ++ [e])[i]?.bind key =
      if i = entries.length then key e else entries[i]?.bind key := by
  by_cases hi : i = entries.length
  · simp [hi]
  · rw [if_neg hi]
    obtain hlt | hgt := Nat.lt_or_gt_of_ne hi
    · rw [List.getElem?_append_left hlt]
    · rw [List.getElem?_eq_none (by simp; omega), List.getElem?_eq_none (by omega)]

/-- A map finds the entries that have a key, each under its own, and nothing else. -/
def Finds {κ : Type} [Ord κ] [Std.TransOrd κ] (m : Std.ExtTreeMap κ ObjectIndex)
    (key : Entry → Option κ) (entries : List Entry) : Prop :=
  ∀ (k : κ) (i : ObjectIndex), m[k]? = some i ↔ entries[i]?.bind key = some k

namespace Finds

variable {κ : Type} [Ord κ] [Std.TransOrd κ] {m : Std.ExtTreeMap κ ObjectIndex}
  {key : Entry → Option κ} {entries more : List Entry} {e : Entry}

/-- An entry of another kind is not looked for. -/
theorem skip (h : Finds m key entries) (he : key e = none) : Finds m key (entries ++ [e]) := by
  intro k i
  rw [h k i, getElem?_concat_bind]
  by_cases hi : i = entries.length
  · simp [hi, he]
  · rw [if_neg hi]

variable [Std.LawfulEqOrd κ]

/-- A new key is found where its entry is put. -/
theorem insert (h : Finds m key entries) {k : κ} (he : key e = some k) (hk : m[k]? = none) :
    Finds (m.insert k entries.length) key (entries ++ [e]) := by
  intro k' i
  rw [getElem?_concat_bind, Std.ExtTreeMap.getElem?_insert]
  by_cases hi : i = entries.length
  · subst hi
    have hlast : m[k']? ≠ some entries.length := by simp [h k' entries.length]
    by_cases hk' : k = k' <;> simp [he, hk', hlast]
  · rw [if_neg hi, ← h k' i]
    by_cases hk' : k = k'
    · subst hk'
      simp [hk, Ne.symm hi]
    · simp [hk']

/-- Of the indices below a length, those of the entries up to it are found. -/
theorem undo (h : Finds m key (entries ++ more)) :
    Finds (m.filter fun _ i => i < entries.length) key entries := by
  intro k i
  rw [ObjectPool.getElem?_filter_lt_iff, h k i]
  by_cases hi : i < entries.length
  · simp only [hi, and_true, List.getElem?_append_left hi]
  · simp [hi]

end Finds

namespace ObjectPool

/-- The pool holds the entries, in their order, and nothing else. -/
structure Holds (p : ObjectPool) (entries : List Entry) : Prop where
  size : p.values.size = entries.length
  room : entries.length ≤ capacity
  objects : ∀ {i : ObjectIndex} {e : Entry}, entries[i]? = some e →
    p.get? i = some (e.object (arenaText (entries.take i)))
  arena : p.strings = (arenaText entries).toByteArray
  arenaRoom : (arenaText entries).utf8ByteSize < arenaCapacity
  lengths : ∀ {e : Entry}, e ∈ entries → e.bytes.utf8ByteSize ≤ longestString
  numbers : Finds p.numbers Entry.number? entries
  texts : Finds p.texts Entry.text? entries
  pointers : Finds p.pointers Entry.symbol? entries
  definitions : ∀ entry ∈ p.definitions, p.hasPointer entry.1 = true

section

variable {p p' : ObjectPool} {entries more : List Entry} {i : ObjectIndex}

theorem Holds.number_iff (h : p.Holds entries) {bits : UInt64} :
    p.numbers[bits]? = some i ↔ entries[i]? = some (.number bits) := by
  simp [h.numbers bits i, Option.bind_eq_some_iff]

theorem Holds.text_iff (h : p.Holds entries) {s : String} :
    p.texts[s]? = some i ↔ entries[i]? = some (.text s) := by
  simp [h.texts s i, Option.bind_eq_some_iff]

theorem Holds.pointer_iff (h : p.Holds entries) {symbol : SymbolId} :
    p.pointers[symbol]? = some i ↔ ∃ o, entries[i]? = some (.pointer symbol o) := by
  rw [h.pointers symbol i, Option.bind_eq_some_iff]
  constructor
  · rintro ⟨e, he, hsymbol⟩
    obtain ⟨o, rfl⟩ := Entry.symbol?_eq_some.mp hsymbol
    exact ⟨o, he⟩
  · rintro ⟨o, ho⟩
    exact ⟨_, ho, rfl⟩

/-- An interned text lies in the arena, where its object says. -/
theorem Holds.lies (h : p.Holds entries) {s : String} (hs : entries[i]? = some (.text s)) :
    Lies p.strings s (textObject (arenaText (entries.take i)) s) := by
  have hsplit := arenaText_split hs
  have hroom := h.arenaRoom
  refine ⟨_, _, h.arena.trans (congrArg _ hsplit), rfl,
    h.lengths (e := .text s) (List.mem_of_getElem? hs), ?_⟩
  rw [hsplit, String.utf8ByteSize_append, String.utf8ByteSize_append] at hroom
  exact Nat.lt_of_le_of_lt (Nat.le_add_right _ _) hroom

theorem Holds.sound (h : p.Holds entries) : p.Sound where
  size := h.size ▸ h.room
  numbers hn := h.objects (h.number_iff.mp hn)
  texts hs := ⟨_, h.objects (h.text_iff.mp hs), h.lies (h.text_iff.mp hs)⟩
  pointers hp := by
    obtain ⟨o, ho⟩ := h.pointer_iff.mp hp
    exact get?_eq_some_lt (h.objects ho)
  arena := ⟨_, h.arena⟩
  definitions := h.definitions

theorem empty_holds : empty.Holds [] where
  size := rfl
  room := by decide
  objects h := by simp at h
  arena := rfl
  arenaRoom := by decide
  lengths h := absurd h List.not_mem_nil
  numbers _ _ := by simp [empty]
  texts _ _ := by simp [empty]
  pointers _ _ := by simp [empty]
  definitions _ h := absurd h List.not_mem_nil

/-! ## A further entry -/

/-- What makes a pool hold a further entry, besides the maps. -/
theorem Holds.concat (h : p.Holds entries) {e : Entry} (hcapacity : p.values.size < capacity)
    (hvalues : p'.values = p.values.push (e.object (arenaText entries)))
    (hstrings : p'.strings = p.strings ++ e.bytes.toByteArray)
    (hroom : p.strings.size + e.bytes.utf8ByteSize < arenaCapacity)
    (hlength : e.bytes.utf8ByteSize ≤ longestString)
    (numbers : Finds p'.numbers Entry.number? (entries ++ [e]))
    (texts : Finds p'.texts Entry.text? (entries ++ [e]))
    (pointers : Finds p'.pointers Entry.symbol? (entries ++ [e]))
    (definitions : ∀ entry ∈ p'.definitions, p'.hasPointer entry.1 = true) :
    p'.Holds (entries ++ [e]) where
  size := by simp [hvalues, h.size]
  room := by
    rw [List.length_append, ← h.size]
    exact hcapacity
  objects := by
    intro i e' he'
    simp only [get?, hvalues]
    -- The arena in front of an entry is not changed by what is put behind it.
    obtain hi | rfl | hi := Nat.lt_trichotomy i entries.length
    · rw [List.getElem?_append_left hi] at he'
      rw [List.take_append_of_le_length (Nat.le_of_lt hi)]
      exact getElem?_push_of_some _ (h.objects he')
    · rw [List.getElem?_concat_length] at he'
      rw [List.take_left' rfl, ← h.size, Array.getElem?_push_size, Option.some.inj he']
    · rw [List.getElem?_eq_none (by simpa using hi)] at he'
      exact absurd he' (by simp)
  arena := by
    rw [hstrings, h.arena, arenaText_append, arenaText_singleton, String.toByteArray_append]
  arenaRoom := by
    rw [h.arena, String.size_toByteArray] at hroom
    rwa [arenaText_append, arenaText_singleton, String.utf8ByteSize_append]
  lengths := by
    intro e' he'
    obtain hold | hnew := List.mem_append.mp he'
    · exact h.lengths hold
    · rwa [List.mem_singleton.mp hnew]
  numbers := numbers
  texts := texts
  pointers := pointers
  definitions := definitions

theorem Holds.numbered (h : p.Holds entries) {bits : UInt64} (hn : p.numbers[bits]? = none)
    (hc : p.values.size < capacity) : (p.numbered bits).Holds (entries ++ [Entry.number bits]) := by
  have hnumbers := h.numbers.insert (e := .number bits) rfl hn
  rw [← h.size] at hnumbers
  have hroom : p.strings.size < arenaCapacity := by
    rw [h.arena, String.size_toByteArray]
    exact h.arenaRoom
  exact h.concat hc rfl (by simp [ObjectPool.numbered, Entry.bytes]) (by simpa [Entry.bytes])
    (Nat.zero_le _) hnumbers (h.texts.skip rfl) (h.pointers.skip rfl) h.definitions

theorem Holds.texted (h : p.Holds entries) {s : String} (ht : p.texts[s]? = none)
    (hc : p.values.size < capacity) (hlong : s.utf8ByteSize ≤ longestString)
    (hfull : p.strings.size + s.utf8ByteSize < arenaCapacity) :
    (p.texted s).Holds (entries ++ [Entry.text s]) := by
  have htexts := h.texts.insert (e := .text s) rfl ht
  rw [← h.size] at htexts
  have hobject : (p.texted s).values = p.values.push (textObject (arenaText entries) s) := by
    rw [ObjectPool.texted, textObject, h.arena, String.size_toByteArray]
  exact h.concat hc hobject rfl hfull hlong (h.numbers.skip rfl) htexts (h.pointers.skip rfl)
    h.definitions

theorem Holds.pointed (h : p.Holds entries) {symbol : SymbolId} (o : Object)
    (hn : p.pointers[symbol]? = none) (hc : p.values.size < capacity) :
    (p.pointed symbol o).Holds (entries ++ [Entry.pointer symbol o]) := by
  have hpointers := h.pointers.insert (e := .pointer symbol o) rfl hn
  rw [← h.size] at hpointers
  have hroom : p.strings.size < arenaCapacity := by
    rw [h.arena, String.size_toByteArray]
    exact h.arenaRoom
  exact h.concat hc rfl (by simp [ObjectPool.pointed, Entry.bytes]) (by simpa [Entry.bytes])
    (Nat.zero_le _) (h.numbers.skip rfl) (h.texts.skip rfl) hpointers
    (pointed_sound h.sound o hc).definitions

/-! ## Calls -/

/-- What a pool is asked for. -/
inductive Op where
  | number (x : Number)
  | text (s : String)
  | pointer (symbol : SymbolId) (o : Object)
  | function (symbol : SymbolId) (o : Object) (signature : Signature)

/-- The entry that is to be found or made. -/
def Op.entry : Op → Entry
  | .number x => .number x.bits
  | .text s => .text s
  | .pointer symbol o => .pointer symbol o
  | .function symbol o _ => .pointer symbol o

def answer (p : ObjectPool) : Op → Except PoolError ObjectIndex × ObjectPool
  | .number x => p.internNumber x
  | .text s => p.internString s
  | .pointer symbol o => p.associate symbol o
  | .function symbol o signature => p.define symbol o signature

/-- A call fails and changes nothing, or answers with the index of its entry, among the entries
there were or behind them. -/
inductive Answers (p : ObjectPool) (entries : List Entry) (e : Entry) :
    Except PoolError ObjectIndex × ObjectPool → Prop
  | refused (error : PoolError) : Answers p entries e (.error error, p)
  | found {i : ObjectIndex} {p' : ObjectPool} :
      entries[i]? = some e → p'.Holds entries → Answers p entries e (.ok i, p')
  | entered {p' : ObjectPool} :
      p'.Holds (entries ++ [e]) → Answers p entries e (.ok entries.length, p')

theorem Holds.associate (h : p.Holds entries) (symbol : SymbolId) (o : Object) :
    Answers p entries (.pointer symbol o) (p.associate symbol o) := by
  obtain ⟨e, ha⟩ | ⟨i, hi, ho, ha⟩ | ⟨hn, hc, ha⟩ := associate_cases h.sound symbol o <;> rw [ha]
  · exact .refused e
  -- The map finds an entry of the symbol, and the object that stands there is the one asked for.
  · obtain ⟨o', ho'⟩ := h.pointer_iff.mp hi
    have hsame : some o' = some o := (h.objects ho').symm.trans ho
    exact .found (Option.some.inj hsame ▸ ho') h
  · rw [h.size]
    exact .entered (h.pointed o hn hc)

/-- To define a function adds to an association only the signature. -/
theorem Holds.redefined (h : p.Holds entries) {symbol : SymbolId} (hs : p.hasPointer symbol = true)
    (signature : Signature) :
    ({ p with definitions := putDefinition symbol signature p.definitions } : ObjectPool).Holds
      entries where
  __ := h
  definitions := forall_putDefinition h.definitions hs

theorem Holds.define (h : p.Holds entries) (symbol : SymbolId) (o : Object)
    (signature : Signature) :
    Answers p entries (.pointer symbol o) (p.define symbol o signature) := by
  have hassociate := h.associate symbol o
  have hpointer : ∀ {i : ObjectIndex} {p' : ObjectPool}, p.associate symbol o = (.ok i, p') →
      p'.hasPointer symbol = true := fun ha =>
    Option.isSome_of_eq_some (hasPointer_associate h.sound ha).1
  unfold ObjectPool.define
  generalize ha : p.associate symbol o = answer at hassociate
  cases hassociate with
  | refused e => exact .refused e
  | found hi hp' => exact .found hi (hp'.redefined (hpointer ha) signature)
  | entered hp' => exact .entered (hp'.redefined (hpointer ha) signature)

theorem Holds.answer (h : p.Holds entries) (op : Op) :
    Answers p entries op.entry (p.answer op) := by
  cases op with
  | number x =>
    simp only [ObjectPool.answer]
    obtain ⟨e, ha⟩ | ⟨i, hi, ha⟩ | ⟨hn, hc, ha⟩ := internNumber_cases p x <;> rw [ha]
    · exact .refused e
    · exact .found (h.number_iff.mp hi) h
    · rw [h.size]
      exact .entered (h.numbered hn hc)
  | text s =>
    simp only [ObjectPool.answer]
    obtain ⟨e, ha⟩ | ⟨i, hi, ha⟩ | ⟨hn, hc, hlong, hfull, ha⟩ := internString_cases p s <;> rw [ha]
    · exact .refused e
    · exact .found (h.text_iff.mp hi) h
    · rw [h.size]
      exact .entered (h.texted hn hc hlong hfull)
  | pointer symbol o => exact h.associate symbol o
  | function symbol o signature => exact h.define symbol o signature

/-! ## Undoing -/

/-- The mark of a pool that holds the entries. -/
def markOf (entries : List Entry) : Checkpoint :=
  ⟨entries.length, (arenaText entries).utf8ByteSize⟩

theorem Holds.checkpoint (h : p.Holds entries) : p.checkpoint = markOf entries := by
  rw [ObjectPool.checkpoint, markOf, h.size, h.arena, String.size_toByteArray]

/-- Rolling back leaves the entries that there were at the mark. -/
theorem Holds.rollback (h : p.Holds (entries ++ more)) :
    (p.rollback (markOf entries)).Holds entries where
  size := by simp [ObjectPool.rollback, markOf, h.size]
  room := Nat.le_trans (by simp) h.room
  objects := by
    intro i e he
    have hi := (List.getElem?_eq_some_iff.mp he).1
    have htake : (entries ++ more).take i = entries.take i :=
      List.take_append_of_le_length (Nat.le_of_lt hi)
    rw [get?_rollback_iff, ← htake]
    exact ⟨h.objects ((List.getElem?_append_left hi).trans he), hi⟩
  arena := by
    simp only [ObjectPool.rollback, markOf, h.arena, arenaText_append, String.toByteArray_append]
    exact ByteArray.extract_append_eq_left String.size_toByteArray.symm
  arenaRoom := by
    have hroom := h.arenaRoom
    rw [arenaText_append, String.utf8ByteSize_append] at hroom
    exact Nat.lt_of_le_of_lt (Nat.le_add_right _ _) hroom
  lengths he := h.lengths (List.mem_append_left _ he)
  numbers := h.numbers.undo
  texts := h.texts.undo
  pointers := h.pointers.undo
  definitions _ hentry := (List.mem_filter.mp hentry).2

/-! ## After every history -/

/-- The pool with its calls, marks and undoing; a call that fails leaves what it leaves. -/
def undoable : Undoable ObjectPool Op Checkpoint where
  call p op := (p.answer op).2
  mark := checkpoint
  back := rollback

/-- A pool with the answers that its calls were given, but for those that were undone. -/
structure Logged where
  pool : ObjectPool
  answers : List (Entry × ObjectIndex)

namespace Logged

def call (l : Logged) (op : Op) : Logged :=
  match l.pool.answer op with
  | (.ok index, pool) => ⟨pool, (op.entry, index) :: l.answers⟩
  | (.error _, pool) => ⟨pool, l.answers⟩

/-- Undoing the pool forgets the answers since the mark. -/
def undoable : Undoable Logged Op (Checkpoint × List (Entry × ObjectIndex)) where
  call := call
  mark l := (l.pool.checkpoint, l.answers)
  back l mark := ⟨l.pool.rollback mark.1, mark.2⟩

/-- The answers name the entries, each under its index, and nothing else. -/
def Names (answers : List (Entry × ObjectIndex)) (entries : List Entry) : Prop :=
  ∀ (e : Entry) (i : ObjectIndex), (e, i) ∈ answers ↔ entries[i]? = some e

/-- The pool holds the entries that its answers name. -/
structure Stands (l : Logged) (entries : List Entry) : Prop where
  holds : l.pool.Holds entries
  names : Names l.answers entries

theorem Names.found {answers : List (Entry × ObjectIndex)} (h : Names answers entries) {e : Entry}
    (he : entries[i]? = some e) : Names ((e, i) :: answers) entries := by
  intro e' i'
  rw [List.mem_cons, h e' i', or_iff_right_of_imp]
  rintro heq
  obtain ⟨rfl, rfl⟩ := Prod.mk.inj heq
  exact he

theorem Names.entered {answers : List (Entry × ObjectIndex)} (h : Names answers entries)
    (e : Entry) : Names ((e, entries.length) :: answers) (entries ++ [e]) := by
  intro e' i'
  have hconcat := getElem?_concat_bind entries e some i'
  rw [Option.bind_fun_some, Option.bind_fun_some] at hconcat
  rw [List.mem_cons, h e' i', hconcat, Prod.mk.injEq]
  by_cases hi : i' = entries.length
  · simp [hi, eq_comm]
  · simp [hi]

theorem Names.apart {answers : List (Entry × ObjectIndex)} (h : Names answers entries)
    {e e' : Entry} (he : (e, i) ∈ answers) (he' : (e', i) ∈ answers) : e = e' := by
  rw [h] at he he'
  exact Option.some.inj (he.symm.trans he')

/-- Entries that one map finds share an index if they share the key. -/
theorem Names.same {κ : Type} [Ord κ] [Std.TransOrd κ] {m : Std.ExtTreeMap κ ObjectIndex}
    {key : Entry → Option κ} {answers : List (Entry × ObjectIndex)} (h : Names answers entries)
    (hm : Finds m key entries) {e e' : Entry} {k k' : κ} {i' : ObjectIndex} (hk : key e = some k)
    (hk' : key e' = some k') (he : (e, i) ∈ answers) (he' : (e', i') ∈ answers) :
    i = i' ↔ k = k' := by
  constructor
  · rintro rfl
    rw [h.apart he he', hk'] at hk
    exact (Option.some.inj hk).symm
  · rintro rfl
    have hi : m[k]? = some i := (hm k i).mpr (by rw [(h e i).mp he, Option.bind_some, hk])
    have hi' : m[k]? = some i' := (hm k i').mpr (by rw [(h e' i').mp he', Option.bind_some, hk'])
    exact Option.some.inj (hi.symm.trans hi')

theorem Stands.call {l : Logged} (h : l.Stands entries) (op : Op) :
    ∃ now, entries <+: now ∧ (l.call op).Stands now := by
  have hanswer := h.holds.answer op
  unfold Logged.call
  generalize l.pool.answer op = answer at hanswer
  cases hanswer with
  | refused error => exact ⟨entries, List.prefix_rfl, h⟩
  | found hi hp' => exact ⟨entries, List.prefix_rfl, hp', h.names.found hi⟩
  | entered hp' => exact ⟨_, List.prefix_append _ _, hp', h.names.entered _⟩

theorem undoable_lawful :
    undoable.Lawful (· <+: ·) Stands
      fun mark entries => mark.1 = markOf entries ∧ Names mark.2 entries where
  refl _ := List.prefix_rfl
  trans := List.IsPrefix.trans
  call := Stands.call
  mark h := ⟨h.holds.checkpoint, h.names⟩
  back := by
    rintro l ⟨mark, answers⟩ entries _ h ⟨rfl, hnames⟩ ⟨more, rfl⟩
    exact ⟨h.holds.rollback, hnames⟩

/-- The answers are kept beside the pool, and nothing is decided by them. -/
theorem pool_run (l : Logged) (deeds : List (Deed Op)) :
    (undoable.run l deeds).pool = ObjectPool.undoable.run l.pool deeds := by
  refine (Undoable.run_view (f := Logged.pool) (g := Prod.fst) ?_ ?_ ?_ l deeds).symm
  · intro l op
    simp only [undoable, call, ObjectPool.undoable]
    split <;> simp [*]
  · exact fun _ => rfl
  · exact fun _ _ => rfl

/-- A pool keeps what its answers say. -/
structure Faithful (l : Logged) : Prop where
  /-- The maps record the answers and nothing else. -/
  numbers : ∀ bits i, l.pool.numbers[bits]? = some i ↔ (.number bits, i) ∈ l.answers
  texts : ∀ s i, l.pool.texts[s]? = some i ↔ (.text s, i) ∈ l.answers
  pointers : ∀ symbol i, l.pool.pointers[symbol]? = some i ↔
    ∃ o, (.pointer symbol o, i) ∈ l.answers
  /-- Numbers share an index if they have the same bits, and only then; so do texts and symbols. -/
  sameNumber : ∀ bits bits' i i', (.number bits, i) ∈ l.answers → (.number bits', i') ∈ l.answers →
    (i = i' ↔ bits = bits')
  sameText : ∀ s s' i i', (.text s, i) ∈ l.answers → (.text s', i') ∈ l.answers →
    (i = i' ↔ s = s')
  samePointer : ∀ symbol symbol' o o' i i', (.pointer symbol o, i) ∈ l.answers →
    (.pointer symbol' o', i') ∈ l.answers → (i = i' ↔ symbol = symbol')
  /-- No index serves two entries, be they of one kind or not. -/
  apart : ∀ e e' i, (e, i) ∈ l.answers → (e', i) ∈ l.answers → e = e'
  /-- An index is one of the pool, and the object of its entry stands there. -/
  below : ∀ e i, (e, i) ∈ l.answers → i < l.pool.size
  number : ∀ bits i, (.number bits, i) ∈ l.answers → l.pool.get? i = some ⟨bits⟩
  text : ∀ s i, (.text s, i) ∈ l.answers →
    ∃ o, l.pool.freeze.get? i = some o ∧ l.pool.freeze.decodeString o = .ok s
  pointer : ∀ symbol o i, (.pointer symbol o, i) ∈ l.answers → l.pool.get? i = some o
  size : l.pool.size ≤ capacity
  /-- What fails changes nothing. -/
  fails : ∀ op e, (l.pool.answer op).1 = .error e → (l.pool.answer op).2 = l.pool

theorem Stands.faithful {l : Logged} (h : l.Stands entries) : l.Faithful where
  numbers bits i := by rw [h.holds.number_iff, h.names]
  texts s i := by rw [h.holds.text_iff, h.names]
  pointers symbol i := by simp only [h.holds.pointer_iff, h.names _ i]
  sameNumber _ _ _ _ := h.names.same h.holds.numbers rfl rfl
  sameText _ _ _ _ := h.names.same h.holds.texts rfl rfl
  samePointer _ _ _ _ _ _ := h.names.same h.holds.pointers rfl rfl
  apart _ _ _ := h.names.apart
  below e i he := get?_eq_some_lt (h.holds.objects ((h.names e i).mp he))
  number bits i he := h.holds.objects ((h.names _ i).mp he)
  text s i he :=
    ⟨_, h.holds.objects ((h.names _ i).mp he), (h.holds.lies ((h.names _ i).mp he)).decodeString⟩
  pointer symbol o i he := h.holds.objects ((h.names _ i).mp he)
  size := h.holds.sound.size
  fails op e he := by
    have hanswer := h.holds.answer op
    generalize l.pool.answer op = answer at hanswer he
    cases hanswer with
    | refused error => rfl
    | found => exact absurd he (by simp)
    | entered => exact absurd he (by simp)

end Logged

/-- Whatever is asked for, marked and undone, the pool keeps what it has answered. -/
theorem faithful_of_history (deeds : List (Deed Op)) :
    ∃ answers, Logged.Faithful ⟨undoable.run empty deeds, answers⟩ ∧
      Logged.undoable.run ⟨empty, []⟩ deeds = ⟨undoable.run empty deeds, answers⟩ := by
  obtain ⟨entries, -, h⟩ := Logged.undoable_lawful.run (s := ⟨empty, []⟩)
    ⟨empty_holds, fun e i => by simp⟩ deeds
  rw [← Logged.pool_run ⟨empty, []⟩ deeds]
  exact ⟨_, h.faithful, rfl⟩

end

end ObjectPool

end Passage

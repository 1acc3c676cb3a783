import Passage.Proofs.Pool

/-!
# Pools in the making

All pools that there are, `Made`, are made from the empty one by the operations, also by
undoing to marks that were set long ago or in other pools. Such a pool need not find what it
holds. It stays within its bounds, though (`Bounded`): its entries are counted with sixteen
bits and its arena with 32, the arena is a text, and the defined symbols have pointers of
their own, so the signatures are as few as the entries (`Bounded.length_builtIns_le`).
-/

namespace Passage

/-- What can be told of a function: its name is counted in 64 bits, and its parameters are
in 32 signed ones. -/
structure Signature.Bounded (s : Signature) : Prop where
  name : s.name.utf8ByteSize < 2 ^ 64
  low : -2 ^ 31 ≤ s.params
  high : s.params < 2 ^ 31

namespace ObjectPool

/-- A pool that was made, by operations that succeed or fail. Undoing must not cut a character
of the arena in two. -/
inductive Made : ObjectPool → Prop
  | empty : Made empty
  | internNumber {p : ObjectPool} (x : Number) : Made p → Made (p.internNumber x).2
  | internString {p : ObjectPool} (s : String) : Made p → Made (p.internString s).2
  | associate {p : ObjectPool} (symbol : SymbolId) (pointer : Object) :
      Made p → Made (p.associate symbol pointer).2
  | define {p : ObjectPool} (symbol : SymbolId) (pointer : Object) {signature : Signature} :
      signature.Bounded → Made p → Made (p.define symbol pointer signature).2
  | rollback {p : ObjectPool} {mark : Checkpoint} :
      (p.strings.extract 0 mark.strings).IsValidUTF8 → Made p → Made (p.rollback mark)

/-- A pool within its bounds. -/
structure Bounded (p : ObjectPool) : Prop where
  size : p.values.size ≤ capacity
  arena : ∃ text : String, p.strings = text.toByteArray
  strings : p.strings.size ≤ arenaCapacity
  pointers : ∀ {symbol : SymbolId} {index : ObjectIndex}, p.pointers[symbol]? = some index →
    index < p.values.size
  /-- No entry is the pointer of two symbols. -/
  apart : ∀ {symbol symbol' : SymbolId} {index : ObjectIndex}, p.pointers[symbol]? = some index →
    p.pointers[symbol']? = some index → symbol = symbol'
  defined : ∀ entry ∈ p.definitions, p.hasPointer entry.1 = true
  once : (p.definitions.map (·.1)).Nodup
  signatures : ∀ entry ∈ p.definitions, entry.2.Bounded

/-! ## Entries -/

theorem empty_bounded : empty.Bounded where
  size := by decide
  arena := ⟨"", rfl⟩
  strings := by decide
  pointers h := by simp [empty] at h
  apart h := by simp [empty] at h
  defined _ h := absurd h List.not_mem_nil
  once := List.nodup_nil
  signatures _ h := absurd h List.not_mem_nil

theorem hasPointer_pointed {p : ObjectPool} {symbol symbol' : SymbolId} {o : Object}
    (h : p.hasPointer symbol' = true) : (p.pointed symbol o).hasPointer symbol' = true := by
  simp only [hasPointer, pointed, Std.ExtTreeMap.getElem?_insert,
    Std.LawfulEqCmp.compare_eq_iff_eq] at h ⊢
  split
  · rfl
  · exact h

/-- An entry leaves a pool within its bounds. -/
theorem Step.bounded {p p' : ObjectPool} (hp : p.Bounded) (h : p.Step p') : p'.Bounded := by
  have hgrown (o : Object) : ∀ {symbol : SymbolId} {index : ObjectIndex},
      p.pointers[symbol]? = some index → index < (p.values.push o).size := by
    intro symbol index hindex
    rw [Array.size_push]
    exact Nat.lt_succ_of_lt (hp.pointers hindex)
  have hroom (o : Object) (hc : p.values.size < capacity) : (p.values.push o).size ≤ capacity := by
    rw [Array.size_push]
    exact hc
  cases h with
  | same => exact hp
  | number _ hc =>
    exact { hp with size := hroom _ hc, pointers := hgrown _ }
  | @text s _ hc _ hfull =>
    obtain ⟨text, htext⟩ := hp.arena
    refine { hp with size := hroom _ hc, pointers := hgrown _, arena := ?_, strings := ?_ }
    · exact ⟨text ++ s, by rw [texted, htext, String.toUTF8_eq_toByteArray,
        String.toByteArray_append]⟩
    · rw [texted, ByteArray.size_append, String.toUTF8_eq_toByteArray, String.size_toByteArray]
      exact Nat.le_of_lt hfull
  | @pointer symbol o hn hc =>
    have hfound : ∀ {symbol' : SymbolId} {index : ObjectIndex},
        (p.pointed symbol o).pointers[symbol']? = some index →
          (symbol = symbol' ∧ index = p.values.size) ∨ p.pointers[symbol']? = some index := by
      intro symbol' index h
      simp only [pointed, Std.ExtTreeMap.getElem?_insert, Std.LawfulEqCmp.compare_eq_iff_eq] at h
      split at h
      · next hs => exact .inl ⟨hs, (Option.some.inj h).symm⟩
      · exact .inr h
    refine { hp with size := hroom _ hc, pointers := ?_, apart := ?_, defined := ?_ }
    · intro symbol' index h
      obtain ⟨-, rfl⟩ | hold := hfound h
      · rw [pointed, Array.size_push]
        exact Nat.lt_succ_self _
      · exact hgrown o hold
    · intro symbol' symbol'' index h h'
      obtain ⟨rfl, rfl⟩ | hold := hfound h <;> obtain ⟨rfl, heq⟩ | hold' := hfound h'
      · rfl
      · exact absurd (hp.pointers hold') (Nat.lt_irrefl _)
      · exact absurd (hp.pointers hold) (heq ▸ Nat.lt_irrefl _)
      · exact hp.apart hold hold'
    · exact fun entry hentry => hasPointer_pointed (hp.defined entry hentry)

/-- The pointer of a symbol is entered, or the pool stays as it was; where that succeeds, the
symbol has the pointer. -/
theorem associate_enters (p : ObjectPool) (symbol : SymbolId) (pointer : Object) :
    p.Step (p.associate symbol pointer).2 ∧ ∀ index, (p.associate symbol pointer).1 = .ok index →
      (p.associate symbol pointer).2.hasPointer symbol = true := by
  unfold associate
  rcases hn : p.pointers[symbol]? with _ | index
  · by_cases hc : p.values.size < capacity
    · have hpush : p.push pointer =
          (.ok p.values.size, { p with values := p.values.push pointer }) := if_pos hc
      rw [hpush]
      exact ⟨.pointer hn hc, fun _ _ => by simp [hasPointer]⟩
    · have hpush : p.push pointer = (.error .tableFull, p) := if_neg hc
      rw [hpush]
      exact ⟨.same, by rintro _ ⟨⟩⟩
  · dsimp only
    split
    · exact ⟨.same, fun _ _ => by simp [hasPointer, hn]⟩
    · exact ⟨.same, by rintro _ ⟨⟩⟩

/-- A symbol that is defined again keeps its place. -/
theorem nodup_putDefinition (symbol : SymbolId) (signature : Signature)
    {definitions : List (SymbolId × Signature)} (h : (definitions.map (·.1)).Nodup) :
    ((putDefinition symbol signature definitions).map (·.1)).Nodup := by
  induction definitions with
  | nil => exact List.nodup_singleton symbol
  | cons entry rest ih =>
    obtain ⟨hfirst, hrest⟩ := List.nodup_cons.mp h
    rw [putDefinition]
    split
    · next heq =>
      subst heq
      exact h
    · next hne =>
      refine List.nodup_cons.mpr ⟨fun hmem => ?_, ih hrest⟩
      obtain ⟨entry', hentry', heq⟩ := List.mem_map.mp hmem
      obtain rfl | hold := mem_putDefinition hentry'
      · exact hne heq.symm
      · exact hfirst (List.mem_map.mpr ⟨entry', hold, heq⟩)

theorem define_bounded {p : ObjectPool} (hp : p.Bounded) (symbol : SymbolId) (pointer : Object)
    {signature : Signature} (hs : signature.Bounded) :
    (p.define symbol pointer signature).2.Bounded := by
  obtain ⟨hstep, hpointer⟩ := associate_enters p symbol pointer
  have hp' := hstep.bounded hp
  unfold define
  rcases hassociate : p.associate symbol pointer with ⟨e | index, p'⟩ <;>
    rw [hassociate] at hp' hpointer
  · exact hp'
  · exact { hp' with
      defined := forall_putDefinition hp'.defined (hpointer index rfl)
      once := nodup_putDefinition symbol signature hp'.once
      signatures := forall_putDefinition hp'.signatures hs }

/-! ## Undoing -/

/-- Undoing leaves a pool within its bounds, whatever the mark was set for. -/
theorem rollback_bounded {p : ObjectPool} (hp : p.Bounded) {mark : Checkpoint}
    (hwhole : (p.strings.extract 0 mark.strings).IsValidUTF8) : (p.rollback mark).Bounded := by
  have hkept : ∀ {symbol : SymbolId} {index : ObjectIndex},
      (p.rollback mark).pointers[symbol]? = some index →
        p.pointers[symbol]? = some index ∧ index < mark.values := getElem?_filter_lt_iff.mp
  have hsize := size_values_rollback p mark
  exact {
    size := hsize ▸ Nat.le_trans (Nat.min_le_right _ _) hp.size
    arena := ⟨String.ofByteArray _ hwhole, rfl⟩
    strings := by
      rw [rollback, ByteArray.size_extract]
      have := hp.strings
      omega
    pointers := fun h => by
      obtain ⟨hold, hlt⟩ := hkept h
      exact hsize ▸ Nat.lt_min.mpr ⟨hlt, hp.pointers hold⟩
    apart := fun h h' => hp.apart (hkept h).1 (hkept h').1
    defined := fun entry hentry => (List.mem_filter.mp hentry).2
    once := hp.once.sublist (List.filter_sublist.map _)
    signatures := fun entry hentry => hp.signatures entry (List.mem_filter.mp hentry).1 }

/-- Every pool that is made is within its bounds. -/
theorem Made.bounded {p : ObjectPool} (h : p.Made) : p.Bounded := by
  induction h with
  | empty => exact empty_bounded
  | internNumber x _ hp => exact (internNumber_step _ x).bounded hp
  | internString s _ hp => exact (internString_step _ s).bounded hp
  | associate symbol pointer _ hp => exact (associate_enters _ symbol pointer).1.bounded hp
  | define symbol pointer hs _ hp => exact define_bounded hp symbol pointer hs
  | rollback hwhole _ hp => exact rollback_bounded hp hwhole

/-- Undoing to what a pool has grown from cuts no character in two. -/
theorem Made.undo {p p' : ObjectPool} (hp : p.Made) (hp' : p'.Made) (h : p.Grows p') :
    (p'.rollback p.checkpoint).Made := by
  refine .rollback ?_ hp'
  obtain ⟨more, hmore⟩ := h.strings
  obtain ⟨text, htext⟩ := hp.bounded.arena
  have hcut : p'.strings.extract 0 p.checkpoint.strings = text.toByteArray := by
    rw [hmore, checkpoint, extract_append_of_le _ (Nat.le_refl _), ByteArray.extract_zero_size,
      htext]
  exact hcut ▸ text.isValidUTF8

/-! ## Functions -/

/-- A frozen table has no more functions than a pool has entries: each defined symbol has an
entry of its own. -/
theorem Bounded.length_builtIns_le {p : ObjectPool} (h : p.Bounded) :
    p.freeze.builtIns.length ≤ capacity := by
  let index (symbol : SymbolId) : Nat := (p.pointers[symbol]?).getD 0
  have hindex : ∀ symbol ∈ p.definitions.map (·.1), p.pointers[symbol]? = some (index symbol) := by
    intro symbol hsymbol
    obtain ⟨entry, hentry, rfl⟩ := List.mem_map.mp hsymbol
    obtain ⟨i, hi⟩ := Option.isSome_iff_exists.mp (h.defined entry hentry)
    simp [index, hi]
  have hapart : ((p.definitions.map (·.1)).map index).Nodup :=
    h.once.map_on fun symbol hsymbol symbol' hsymbol' heq =>
      h.apart (hindex symbol hsymbol) (heq ▸ hindex symbol' hsymbol')
  have hbelow : (p.definitions.map (·.1)).map index ⊆ List.range p.values.size := by
    intro i hi
    obtain ⟨symbol, hsymbol, rfl⟩ := List.mem_map.mp hi
    exact List.mem_range.mpr (h.pointers (hindex symbol hsymbol))
  have hle := (List.subperm_of_subset hapart hbelow).length_le
  rw [List.length_map, List.length_map, List.length_range] at hle
  exact Nat.le_trans (List.length_filterMap_le _ _) (Nat.le_trans hle h.size)

end ObjectPool

end Passage

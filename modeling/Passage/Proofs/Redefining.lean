import Passage.Proofs.Entries
import Passage.Proofs.Functions
import Passage.Proofs.Making

/-!
# Functions that are defined again

A mark counts the entries of a pool and the bytes of its arena. Signatures it does not count:
rolling back drops those of the symbols whose pointers are dropped, and no others. So what is
entered after a mark is undone (`Since.step`), and a function that is defined after it is undone
if its symbol was new. A symbol that had its pointer before the mark keeps the signature that
it was given last, and `redefined` follows what the calls make of these signatures. The pool of
the mark is restored just if none of them has changed in the end (`rollback_asked`).
-/

namespace Passage

namespace ObjectPool

variable {p q q' : ObjectPool} {definitions : List (SymbolId × Signature)}

/-! ## Settled pools -/

section

variable {κ : Type} [Ord κ] [Std.TransOrd κ] {m : Std.ExtTreeMap κ ObjectIndex} {bound : Nat}

theorem Below.next (h : Below m bound) : Below m (bound + 1) :=
  fun k index hk => Nat.lt_succ_of_lt (h k index hk)

theorem Below.insert [Std.LawfulEqOrd κ] (h : Below m bound) (k : κ) :
    Below (m.insert k bound) (bound + 1) := by
  intro k' index hk'
  rw [Std.ExtTreeMap.getElem?_insert] at hk'
  split at hk'
  · exact Option.some.inj hk' ▸ Nat.lt_succ_self bound
  · exact h.next k' index hk'

theorem Below.undo [Std.LawfulEqOrd κ] (h : Below m bound) (mark : Nat) :
    Below (m.filter fun _ index => index < mark) (min mark bound) := by
  intro k index hk
  obtain ⟨hold, hlt⟩ := getElem?_filter_lt_iff.mp hk
  exact Nat.lt_min.mpr ⟨hlt, h k index hold⟩

end

/-- An entry leaves a pool settled. -/
theorem Step.settled (hp : p.Settled) (h : p.Step q) : q.Settled := by
  have hpush (o : Object) : (p.values.push o).size = p.values.size + 1 := Array.size_push o
  cases h with
  | same => exact hp
  | @number bits =>
    exact ⟨hpush _ ▸ hp.numbers.insert bits, hpush _ ▸ hp.texts.next, hpush _ ▸ hp.pointers.next,
      hp.definitions⟩
  | @text s =>
    exact ⟨hpush _ ▸ hp.numbers.next, hpush _ ▸ hp.texts.insert s, hpush _ ▸ hp.pointers.next,
      hp.definitions⟩
  | @pointer symbol =>
    exact ⟨hpush _ ▸ hp.numbers.next, hpush _ ▸ hp.texts.next, hpush _ ▸ hp.pointers.insert symbol,
      fun entry hentry => hasPointer_pointed (hp.definitions entry hentry)⟩

/-- So does a signature for a symbol with a pointer. -/
theorem Settled.signed (hp : p.Settled) {symbol : SymbolId} (hs : p.hasPointer symbol = true)
    (signature : Signature) :
    Settled { p with definitions := putDefinition symbol signature p.definitions } where
  __ := hp
  definitions := forall_putDefinition hp.definitions hs

theorem Settled.define (hp : p.Settled) (symbol : SymbolId) (pointer : Object)
    (signature : Signature) : (p.define symbol pointer signature).2.Settled := by
  obtain ⟨hstep, hpointer⟩ := associate_enters p symbol pointer
  have hp' := hstep.settled hp
  unfold ObjectPool.define
  rcases hassociate : p.associate symbol pointer with ⟨e | index, p'⟩ <;>
    rw [hassociate] at hp' hpointer
  · exact hp'
  · exact hp'.signed (hpointer index rfl) signature

theorem Settled.rollback (hp : p.Settled) (mark : Checkpoint) : (p.rollback mark).Settled := by
  have hsize := size_values_rollback p mark
  exact ⟨hsize ▸ hp.numbers.undo _, hsize ▸ hp.texts.undo _, hsize ▸ hp.pointers.undo _,
    fun _ hentry => (List.mem_filter.mp hentry).2⟩

theorem empty_settled : empty.Settled where
  numbers _ _ h := by simp [empty] at h
  texts _ _ h := by simp [empty] at h
  pointers _ _ h := by simp [empty] at h
  definitions _ h := absurd h List.not_mem_nil

theorem Made.settled (h : p.Made) : p.Settled := by
  induction h with
  | empty => exact empty_settled
  | internNumber x _ hp => exact (internNumber_step _ x).settled hp
  | internString s _ hp => exact (internString_step _ s).settled hp
  | associate symbol pointer _ hp => exact (associate_enters _ symbol pointer).1.settled hp
  | define symbol pointer _ _ hp => exact hp.define symbol pointer _
  | rollback _ _ hp => exact hp.rollback _

/-! ## Lists of signatures -/

/-- A symbol that is left out takes its signature with it. -/
theorem filter_putDefinition (keep : SymbolId → Bool) (symbol : SymbolId) (signature : Signature)
    (definitions : List (SymbolId × Signature)) :
    ((putDefinition symbol signature definitions).filter fun entry => keep entry.1) =
      if keep symbol then
        putDefinition symbol signature (definitions.filter fun entry => keep entry.1)
      else definitions.filter fun entry => keep entry.1 := by
  induction definitions with
  | nil => cases hkeep : keep symbol <;> simp [putDefinition, hkeep]
  | cons entry rest ih =>
    rw [putDefinition]
    by_cases hentry : entry.1 = symbol
    · subst hentry
      cases hkeep : keep entry.1 <;> simp [putDefinition, hkeep]
    · rw [if_neg hentry, List.filter_cons, List.filter_cons, ih]
      cases keep entry.1 <;> cases keep symbol <;> simp [putDefinition, hentry]

/-- The symbols with signatures stay in their order. -/
theorem keys_putDefinition (symbol : SymbolId) (signature : Signature)
    (definitions : List (SymbolId × Signature)) :
    definitions.map (·.1) <+: (putDefinition symbol signature definitions).map (·.1) := by
  induction definitions with
  | nil => exact List.nil_prefix
  | cons entry rest ih =>
    rw [putDefinition]
    split
    · next heq =>
      rw [List.map_cons, List.map_cons, heq]
    · exact List.cons_prefix_cons.mpr ⟨rfl, ih⟩

theorem lookup_eq_none_of_notMem {symbol : SymbolId} (h : symbol ∉ definitions.map (·.1)) :
    definitions.lookup symbol = none :=
  List.lookup_eq_none_iff.mpr fun entry hentry =>
    bne_iff_ne.mpr fun heq => h (List.mem_map.mpr ⟨entry, hentry, heq.symm⟩)

/-- Signatures are the same if the symbols come in the same order, and each has the same. -/
theorem eq_of_lookup {known now : List (SymbolId × Signature)}
    (hkeys : known.map (·.1) <+: now.map (·.1)) (honce : (now.map (·.1)).Nodup)
    (h : ∀ symbol, now.lookup symbol = known.lookup symbol) : now = known := by
  induction known generalizing now with
  | nil =>
    cases now with
    | nil => rfl
    | cons entry rest =>
      have hentry := h entry.1
      rw [List.lookup_cons_self] at hentry
      exact absurd hentry (by simp)
  | cons entry rest ih =>
    cases now with
    | nil => exact absurd hkeys (by simp)
    | cons entry' rest' =>
      obtain ⟨symbol, signature⟩ := entry
      obtain ⟨symbol', signature'⟩ := entry'
      obtain ⟨heq, hrest⟩ := List.cons_prefix_cons.mp hkeys
      cases heq
      obtain ⟨hfresh, honce'⟩ := List.nodup_cons.mp honce
      have hfirst := h symbol
      rw [List.lookup_cons_self, List.lookup_cons_self] at hfirst
      -- The first symbol is found nowhere in the tails, so they agree on it too.
      have htail : rest' = rest := by
        refine ih hrest honce' fun other => ?_
        by_cases hother : other = symbol
        · rw [hother, lookup_eq_none_of_notMem hfresh,
            lookup_eq_none_of_notMem fun hmem => hfresh (hrest.subset hmem)]
        · have hsame := h other
          rwa [List.lookup_cons, List.lookup_cons, beq_false_of_ne hother] at hsame
      rw [Option.some.inj hfirst, htail]

/-! ## Calls after a mark -/

/-- The pool that calls leave, one after another. -/
def asked (p : ObjectPool) (ops : List Op) : ObjectPool :=
  ops.foldl (fun p op => (p.answer op).2) p

/-- What a call does to the signatures of the symbols that have pointers: to define a function
for such a symbol, with the pointer that it has, gives it a signature, in place of the one that
it may have. -/
def redefined (p : ObjectPool) (definitions : List (SymbolId × Signature)) :
    Op → List (SymbolId × Signature)
  | .function symbol o signature =>
      if p.pointer? symbol = some o then putDefinition symbol signature definitions
      else definitions
  | .number _ | .text _ | .pointer .. => definitions

/-- The second pool has the entries of the first, and is rolled back to it, but for the
signatures. -/
structure Since (p q : ObjectPool) (definitions : List (SymbolId × Signature)) : Prop where
  within : p.checkpoint.Within q
  values : ∀ {index : ObjectIndex} {o : Object}, p.get? index = some o → q.get? index = some o
  pointers : ∀ {symbol : SymbolId} {index : ObjectIndex}, p.pointers[symbol]? = some index →
    q.pointers[symbol]? = some index
  undo : q.rollback p.checkpoint = { p with definitions := definitions }

namespace Since

theorem refl (hp : p.Settled) : p.Since p p.definitions :=
  ⟨checkpoint_within p, id, id, hp.rollback_checkpoint⟩

/-- A further entry is undone. -/
theorem step (h : p.Since q definitions) (hstep : q.Step q') : p.Since q' definitions where
  within := hstep.grows.within h.within
  values hv := hstep.grows.values (h.values hv)
  pointers hn := hstep.grows.pointers (h.pointers hn)
  undo := (hstep.grows.undo h.within).trans h.undo

/-- The symbols that keep their pointers are those of the first pool. -/
theorem undone_pointers (h : p.Since q definitions) :
    (q.pointers.filter fun _ index => index < p.checkpoint.values) = p.pointers :=
  congrArg ObjectPool.pointers h.undo

theorem undone_definitions (h : p.Since q definitions) :
    (q.definitions.filter fun entry => p.hasPointer entry.1) = definitions := by
  have hdefinitions := congrArg ObjectPool.definitions h.undo
  simp only [ObjectPool.rollback, h.undone_pointers] at hdefinitions
  exact hdefinitions

/-- A further signature is undone unless the symbol had a pointer. -/
theorem signed (h : p.Since q definitions) (symbol : SymbolId) (signature : Signature) :
    p.Since { q with definitions := putDefinition symbol signature q.definitions }
      (if p.hasPointer symbol then putDefinition symbol signature definitions
        else definitions) where
  within := ⟨h.within.values, h.within.strings⟩
  values := h.values
  pointers := h.pointers
  undo := by
    have hput := filter_putDefinition p.hasPointer symbol signature q.definitions
    rw [h.undone_definitions] at hput
    have hundo := h.undo
    simp only [ObjectPool.rollback, h.undone_pointers, ObjectPool.mk.injEq] at hundo ⊢
    obtain ⟨hvalues, hstrings, hnumbers, htexts, -, -⟩ := hundo
    exact ⟨hvalues, hstrings, hnumbers, htexts, trivial, hput⟩

/-- A symbol with a pointer is given that one and no other. -/
theorem associate_again (hp : p.Settled) (h : p.Since q definitions) {symbol : SymbolId}
    {index : ObjectIndex} (hs : p.pointers[symbol]? = some index) (o : Object) :
    (p.pointer? symbol = some o ∧ q.associate symbol o = (.ok index, q)) ∨
    (p.pointer? symbol ≠ some o ∧ ∃ e, q.associate symbol o = (.error e, q)) := by
  obtain ⟨existing, hexisting⟩ := get?_of_lt (hp.pointers symbol index hs)
  have hpointer : p.pointer? symbol = some existing := by
    rw [ObjectPool.pointer?, hs]
    exact hexisting
  unfold ObjectPool.associate
  rw [h.pointers hs, hpointer]
  by_cases ho : existing = o
  · exact .inl ⟨congrArg some ho, by simp [h.values hexisting, ho]⟩
  · exact .inr ⟨fun heq => ho (Option.some.inj heq), _, by simp [h.values hexisting, ho]; rfl⟩

theorem function (hp : p.Settled) (h : p.Since q definitions) (symbol : SymbolId) (o : Object)
    (signature : Signature) :
    p.Since (q.define symbol o signature).2
      (p.redefined definitions (.function symbol o signature)) := by
  have hstep := h.step (associate_enters q symbol o).1
  -- A pointer that is entered now is dropped again, and takes the signature with it.
  cases hs : p.pointers[symbol]? with
  | none =>
    have hnew : p.pointer? symbol ≠ some o := by simp [ObjectPool.pointer?, hs]
    have hdropped : p.hasPointer symbol = false := by simp [hasPointer, hs]
    rw [redefined, if_neg hnew]
    unfold ObjectPool.define
    rcases ha : q.associate symbol o with ⟨e | index, q'⟩ <;> rw [ha] at hstep
    · exact hstep
    · have hsigned := hstep.signed symbol signature
      rwa [hdropped] at hsigned
  | some index =>
    have hkept : p.hasPointer symbol = true := by simp [hasPointer, hs]
    unfold ObjectPool.define
    obtain ⟨hsame, ha⟩ | ⟨hother, e, ha⟩ := h.associate_again hp hs o <;> rw [ha, redefined]
    · have hsigned := h.signed symbol signature
      rw [if_pos hsame]
      rwa [if_pos hkept] at hsigned
    · rwa [if_neg hother]

/-- What a call enters is undone, but for the signature of a symbol that had a pointer. -/
theorem call (hp : p.Settled) (h : p.Since q definitions) (op : Op) :
    p.Since (q.answer op).2 (p.redefined definitions op) := by
  cases op with
  | number x => exact h.step (internNumber_step q x)
  | text s => exact h.step (internString_step q s)
  | pointer symbol o => exact h.step (associate_enters q symbol o).1
  | function symbol o signature => exact h.function hp symbol o signature

theorem run (hp : p.Settled) (ops : List Op) (h : p.Since q definitions) :
    p.Since (q.asked ops) (ops.foldl p.redefined definitions) := by
  induction ops generalizing q definitions with
  | nil => exact h
  | cons op ops ih => exact ih (h.call hp op)

end Since

/-! ## What rolling back restores -/

theorem redefined_cases (p : ObjectPool) (definitions : List (SymbolId × Signature)) (op : Op) :
    p.redefined definitions op = definitions ∨ ∃ symbol signature,
      p.redefined definitions op = putDefinition symbol signature definitions := by
  cases op with
  | number | text | pointer => exact .inl rfl
  | function symbol o signature =>
    rw [redefined]
    split
    · exact .inr ⟨symbol, signature, rfl⟩
    · exact .inl rfl

/-- Symbols keep their places among the signatures, and have one each. -/
theorem keys_redefined (p : ObjectPool) (ops : List Op) (honce : (definitions.map (·.1)).Nodup) :
    definitions.map (·.1) <+: (ops.foldl p.redefined definitions).map (·.1) ∧
      ((ops.foldl p.redefined definitions).map (·.1)).Nodup := by
  induction ops generalizing definitions with
  | nil => exact ⟨List.prefix_rfl, honce⟩
  | cons op ops ih =>
    rw [List.foldl_cons]
    obtain hsame | ⟨symbol, signature, hput⟩ := redefined_cases p definitions op
    · rw [hsame]
      exact ih honce
    · rw [hput]
      obtain ⟨hkeys, honce'⟩ := ih (nodup_putDefinition symbol signature honce)
      exact ⟨(keys_putDefinition symbol signature definitions).trans hkeys, honce'⟩

theorem definitionOf_eq_iff {symbol : SymbolId} :
    q.definitionOf symbol = p.definitionOf symbol ↔
      q.definitions.lookup symbol = p.definitions.lookup symbol := by
  unfold definitionOf
  cases q.definitions.lookup symbol <;> cases p.definitions.lookup symbol <;> simp

theorem Made.rollback_eq (h : p.Made) (ops : List Op) :
    (p.asked ops).rollback p.checkpoint =
      { p with definitions := ops.foldl p.redefined p.definitions } :=
  ((Since.refl h.settled).run h.settled ops).undo

/-- Rolling back to a mark restores all but the signatures: they are those of the mark, as the
calls since then have changed them for the symbols that had pointers. So the pool is restored
if, and only if, each of these symbols has in the end the signature that it had. -/
theorem rollback_asked (h : p.Made) (ops : List Op) :
    (p.asked ops).rollback p.checkpoint =
        { p with definitions := ops.foldl p.redefined p.definitions } ∧
      ((p.asked ops).rollback p.checkpoint = p ↔ ∀ symbol, p.hasPointer symbol = true →
        (p.asked ops).definitionOf symbol = p.definitionOf symbol) := by
  have hsince := (Since.refl h.settled).run h.settled ops
  have hrestored : (p.asked ops).rollback p.checkpoint = p ↔
      ops.foldl p.redefined p.definitions = p.definitions := by
    rw [hsince.undo]
    exact ⟨congrArg ObjectPool.definitions, fun heq => by rw [heq]⟩
  -- Only symbols with pointers in `p` are left when the pool is rolled back.
  have hlookup (symbol : SymbolId) : (ops.foldl p.redefined p.definitions).lookup symbol =
      if p.hasPointer symbol then (p.asked ops).definitions.lookup symbol else none := by
    rw [← hsince.undone_definitions, List.lookup_filter_key]
  refine ⟨hsince.undo, hrestored.trans ⟨fun heq symbol hs => ?_, fun hsame => ?_⟩⟩
  · rw [definitionOf_eq_iff, ← heq, hlookup, if_pos hs]
  · obtain ⟨hkeys, honce⟩ := keys_redefined p ops h.bounded.once
    refine eq_of_lookup hkeys honce fun symbol => ?_
    rw [hlookup]
    split
    · next hs => exact definitionOf_eq_iff.mp (hsame symbol hs)
    · next hs =>
      refine (lookup_eq_none_of_notMem fun hmem => hs ?_).symm
      obtain ⟨entry, hentry, rfl⟩ := List.mem_map.mp hmem
      exact h.settled.definitions entry hentry

/-- A text, and functions for a symbol that is new and for one that had a pointer, which is given
another signature and then its own again. -/
theorem rollback_asked_forest :
    let p := ((empty.internString "Kokiri Forest").2.define 4 (functionPointer 0) ⟨"has", 2⟩).2
    (p.asked [.text "Lost Woods", .function 5 (functionPointer 1) ⟨"can_use", 1⟩,
      .function 4 (functionPointer 0) ⟨"has", 3⟩,
      .function 4 (functionPointer 0) ⟨"has", 2⟩]).rollback p.checkpoint = p := by
  intro p
  have hbounded : Signature.Bounded ⟨"has", 2⟩ := ⟨by decide, by decide, by decide⟩
  have hmade : p.Made := .define _ _ hbounded (.internString _ .empty)
  refine (rollback_asked hmade _).1.trans ?_
  have hold : p.pointer? 4 = some (functionPointer 0) := by rfl
  have hnew : p.pointer? 5 = none := by rfl
  simp only [List.foldl_cons, List.foldl_nil, redefined, hold, hnew, if_true]
  rfl

/-- The signature of a symbol that had its pointer before the mark stays when all else that came
after the mark is undone. -/
theorem rollback_keeps_signature :
    let p := (empty.associate 4 (functionPointer 0)).2
    let undone := (p.asked [.function 4 (functionPointer 0) ⟨"has", 2⟩]).rollback p.checkpoint
    p.Made ∧ p.definitionOf 4 = .error (.missingDefinition 4) ∧ p.freeze.builtIns = [] ∧
      undone.definitionOf 4 = .ok ⟨"has", 2⟩ ∧
      undone.freeze.builtIns = [(functionPointer 0, ⟨"has", 2⟩)] ∧ undone ≠ p := by
  intro p undone
  have hmade : p.Made := .associate _ _ .empty
  have hpointer : p.pointer? 4 = some (functionPointer 0) := by rfl
  have hundone : undone = { p with definitions := [(4, ⟨"has", 2⟩)] } := by
    refine (hmade.rollback_eq _).trans ?_
    rw [List.foldl_cons, List.foldl_nil, redefined, if_pos hpointer]
    rfl
  refine ⟨hmade, rfl, rfl, ?_, ?_, ?_⟩ <;> rw [hundone]
  · rfl
  · rfl
  · exact fun heq => absurd (congrArg (·.definitions.length) heq) (by decide)

end ObjectPool

end Passage

import Passage.Proofs.Tapes

/-!
# Assembling and taking apart

What is taken apart from a tape are the instructions that it was written with, each at the size
that the tape had before it; and a tape that can be taken apart is the one that is written with
its parts (`Assembler.decodeTape_emitAll`).
-/

namespace Passage

namespace Opcode

/-- No byte but its own stands for an opcode. -/
theorem byte_of_ofByte? {b : UInt8} {op : Opcode} (h : ofByte? b = some op) : op.byte = b := by
  unfold ofByte? at h
  split at h
  case h_18 => exact absurd h nofun
  all_goals exact Option.some.inj h ▸ rfl

end Opcode

namespace Operands

theorem toNat_ofWordBytes (low high : UInt8) :
    (ofWordBytes low high).toNat = low.toNat + 256 * high.toNat := by
  have hlow := low.toNat_lt
  have hhigh := high.toNat_lt
  have hsum := Nat.shiftLeft_add_eq_or_of_lt (i := 8) hlow high.toNat
  rw [Nat.shiftLeft_eq] at hsum
  simp only [ofWordBytes, UInt16.toNat_or, UInt16.toNat_shiftLeft, UInt8.toNat_toUInt16,
    Nat.shiftLeft_eq, UInt16.reduceToNat, Nat.reduceMod]
  rw [Nat.mod_eq_of_lt (by omega), Nat.or_comm, ← hsum]
  omega

/-- Two bytes are those of the word that they make. -/
theorem wordBytes_ofWordBytes (low high : UInt8) :
    wordBytes (ofWordBytes low high) = [low, high] := by
  have hlow := low.toNat_lt
  have hhigh := high.toNat_lt
  have hfirst : (ofWordBytes low high).toUInt8 = low := by
    apply UInt8.toNat_inj.mp
    rw [UInt16.toNat_toUInt8, toNat_ofWordBytes]
    omega
  have hsecond : (ofWordBytes low high >>> 8).toUInt8 = high := by
    apply UInt8.toNat_inj.mp
    rw [UInt16.toNat_toUInt8, UInt16.toNat_shiftRight, toNat_ofWordBytes]
    simp only [UInt16.reduceToNat, Nat.reduceMod, Nat.shiftRight_eq_div_pow]
    omega
  rw [wordBytes, hfirst, hsecond]

end Operands

namespace Instruction

theorem map_placed (offset : Nat) (code : List Instruction) :
    (placed offset code).map Prod.snd = code := by
  induction code generalizing offset with
  | nil => rfl
  | cons i rest ih => rw [placed, List.map_cons, ih]

theorem bytes_bare {op : Opcode} {b : UInt8} (h : Opcode.ofByte? b = some op) :
    bytes ⟨op, .bare⟩ = [b] := by
  rw [← Opcode.byte_of_ofByte? h]
  rfl

theorem bytes_word {op : Opcode} {b : UInt8} (h : Opcode.ofByte? b = some op) (low high : UInt8) :
    bytes ⟨op, .word (Operands.ofWordBytes low high)⟩ = [b, low, high] := by
  rw [bytes, Operands.bytes, Operands.wordBytes_ofWordBytes, Opcode.byte_of_ofByte? h]

theorem bytes_wordByte {op : Opcode} {b : UInt8} (h : Opcode.ofByte? b = some op)
    (low high last : UInt8) :
    bytes ⟨op, .wordByte (Operands.ofWordBytes low high) last⟩ = [b, low, high, last] := by
  rw [bytes, Operands.bytes, Operands.wordBytes_ofWordBytes, Opcode.byte_of_ofByte? h]
  rfl

end Instruction

namespace Listing

/-- Bytes that were read, behind the instructions before them, to a whole listing. -/
def Parts (offset : Nat) (done : List (Nat × Instruction)) (bytes : List UInt8)
    (listing : List (Nat × Instruction)) : Prop :=
  ∃ code, (∀ i ∈ code, i.WellFormed) ∧ bytes = Instruction.allBytes code ∧
    listing = done.reverse ++ Instruction.placed offset code

theorem Parts.cons {offset : Nat} {done listing : List (Nat × Instruction)} {rest : List UInt8}
    {i : Instruction} (hi : i.WellFormed)
    (h : Parts (offset + i.bytes.length) ((offset, i) :: done) rest listing) :
    Parts offset done (i.bytes ++ rest) listing := by
  obtain ⟨code, hcode, rfl, rfl⟩ := h
  refine ⟨i :: code, List.forall_mem_cons.mpr ⟨hi, hcode⟩, rfl, ?_⟩
  rw [List.reverse_cons, List.append_assoc]
  rfl

/-- Bytes that are read to the end are those of the instructions that are read. -/
theorem parts_of_read {offset : Nat} {done listing : List (Nat × Instruction)} {bytes : List UInt8}
    (h : read offset done bytes = ⟨listing, .complete⟩) : Parts offset done bytes listing := by
  induction offset, done, bytes using read.induct with
  | case1 offset done =>
    obtain ⟨rfl, -⟩ := Listing.mk.inj h
    exact ⟨[], List.forall_mem_nil _, rfl, (List.append_nil _).symm⟩
  | case2 offset done byte rest hop =>
    rw [read, hop] at h
    cases (Listing.mk.inj h).2
  | case3 offset done byte op hop rest hlayout ih =>
    rw [read, hop] at h
    simp only [hlayout] at h
    have hparts := (ih h).cons (i := ⟨op, .bare⟩) hlayout.symm
    rwa [Instruction.bytes_bare hop] at hparts
  | case4 offset done byte op hop low high rest hlayout ih =>
    rw [read, hop] at h
    simp only [hlayout] at h
    have hparts := (ih h).cons (i := ⟨op, .word _⟩) hlayout.symm
    rwa [Instruction.bytes_word hop] at hparts
  | case5 offset done byte op hop low high b rest hlayout ih =>
    rw [read, hop] at h
    simp only [hlayout] at h
    have hparts := (ih h).cons (i := ⟨op, .wordByte _ b⟩) hlayout.symm
    rwa [Instruction.bytes_wordByte hop] at hparts
  | case6 offset done byte rest op hop hbare hword hwordByte =>
    rw [read, hop] at h
    dsimp only at h
    split at h
    · exact absurd ‹_› hbare
    · exact absurd rfl (hword _ _ _ ‹_›)
    · exact absurd rfl (hwordByte _ _ _ _ ‹_›)
    · cases (Listing.mk.inj h).2

end Listing

theorem decodeTape_eq_ok {tape : ByteArray} {listing : List (Nat × Instruction)} :
    decodeTape tape = .ok listing ↔ Listing.ofTape tape = ⟨listing, .complete⟩ := by
  unfold decodeTape
  dsimp only
  constructor
  · intro h
    split at h
    · rename_i hending
      rw [← Except.ok.inj h, ← hending]
    · exact absurd h nofun
    · exact absurd h nofun
  · intro h
    rw [h]

namespace Assembler

/-- Instructions with the sizes that the tape has when they are written in order. -/
def written (s : Assembler) : List Instruction → List (Nat × Instruction)
  | [] => []
  | i :: rest => (s.tape.size, i) :: (s.emit i.op i.operands).written rest

theorem size_emit (s : Assembler) (i : Instruction) :
    (s.emit i.op i.operands).tape.size = s.tape.size + i.bytes.length := by
  have htape := congrArg List.length (s.emit_tape i)
  rwa [List.length_append] at htape

/-- Instructions are written where they are placed one behind the other. -/
theorem written_eq_placed (s : Assembler) (code : List Instruction) :
    s.written code = Instruction.placed s.tape.size code := by
  induction code generalizing s with
  | nil => rfl
  | cons i rest ih => rw [written, Instruction.placed, ih, size_emit]

theorem map_written (s : Assembler) (code : List Instruction) :
    (s.written code).map Prod.snd = code := by
  rw [written_eq_placed, Instruction.map_placed]

theorem emitAll_empty_tape (code : List Instruction) :
    (empty.emitAll code).tape.data.toList = Instruction.allBytes code :=
  empty.emitAll_tape code

/-- A tape that is written with instructions is taken apart into them, each at the size of the tape
that it was written behind; and a tape that can be taken apart is the one that is written with its
parts. -/
theorem decodeTape_emitAll :
    (∀ code : List Instruction, (∀ i ∈ code, i.WellFormed) →
      decodeTape (empty.emitAll code).tape = .ok (empty.written code) ∧
        (empty.written code).map Prod.snd = code) ∧
    ∀ (tape : ByteArray) (listing : List (Nat × Instruction)), decodeTape tape = .ok listing →
      (∀ entry ∈ listing, entry.2.WellFormed) ∧
        (empty.emitAll (listing.map Prod.snd)).tape = tape := by
  refine ⟨fun code hcode => ⟨?_, map_written empty code⟩, fun tape listing h => ?_⟩
  · rw [decodeTape_eq_ok, Listing.ofTape_emitAll hcode, written_eq_placed]
    rfl
  · obtain ⟨code, hcode, hbytes, rfl⟩ := Listing.parts_of_read (decodeTape_eq_ok.mp h)
    refine ⟨fun entry hentry => hcode _ ?_, ?_⟩
    · rw [← Instruction.map_placed 0 code]
      exact List.mem_map_of_mem hentry
    · rw [List.reverse_nil, List.nil_append, Instruction.map_placed]
      apply ByteArray.ext
      apply Array.toList_inj.mp
      rw [emitAll_empty_tape, hbytes]

/-- One instruction of each layout, written and taken apart again. -/
theorem decodeTape_emitAll_layouts :
    let code : List Instruction :=
      [⟨.pushConst, .word 0x1234⟩, ⟨.checkQuantity, .wordByte 3 1⟩, ⟨.invert, .bare⟩]
    let tape := (empty.emitAll code).tape
    tape.data.toList = [0x23, 0x34, 0x12, 0x41, 0x03, 0x00, 0x01, 0x31] ∧
      decodeTape tape = .ok [(0, ⟨.pushConst, .word 0x1234⟩), (3, ⟨.checkQuantity, .wordByte 3 1⟩),
        (7, ⟨.invert, .bare⟩)] ∧
      (empty.emitAll ((empty.written code).map Prod.snd)).tape = tape := by
  intro code tape
  have hcode : ∀ i ∈ code, i.WellFormed := List.forall_mem_cons.mpr
    ⟨rfl, List.forall_mem_cons.mpr ⟨rfl, List.forall_mem_singleton.mpr rfl⟩⟩
  obtain ⟨hdecode, -⟩ := decodeTape_emitAll.1 code hcode
  exact ⟨rfl, hdecode, (decodeTape_emitAll.2 tape _ hdecode).2⟩

end Assembler

end Passage

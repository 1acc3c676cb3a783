import Mathlib
import Passage.Code.Tape

/-!
# Tapes of instructions

The tape of a list of instructions reads back as that list, each instruction at its
offset (`Listing.ofTape_emitAll`). The account of the operand stack never understates:
it is monotone, and as long as it stays far below its bounds it moves by exactly what
the instructions say (`Assembler.depth_emit`).
-/

namespace Passage

namespace Operands

/-- A word is made of its two bytes. -/
theorem ofWordBytes_wordBytes (a : UInt16) : ofWordBytes a.toUInt8 (a >>> 8).toUInt8 = a := by
  have hlow : a.toNat % 256 < 2 ^ 8 := Nat.mod_lt _ (by decide)
  have hhigh : a.toNat / 256 % 256 * 256 % 65536 = a.toNat / 256 * 256 := by
    have := a.toNat_lt
    omega
  apply UInt16.toNat_inj.mp
  simp only [ofWordBytes, UInt16.toNat_or, UInt16.toNat_shiftLeft, UInt8.toNat_toUInt16,
    UInt16.toNat_toUInt8, UInt16.toNat_shiftRight, Nat.shiftLeft_eq, Nat.shiftRight_eq_div_pow]
  simp only [UInt16.reduceToNat, Nat.reduceMod, Nat.reducePow, hhigh]
  have hsum := Nat.shiftLeft_add_eq_or_of_lt hlow (a.toNat / 256)
  rw [Nat.shiftLeft_eq] at hsum
  rw [Nat.or_comm, ← hsum]
  omega

end Operands

namespace Instruction

/-- The bytes of instructions in order. -/
def allBytes (code : List Instruction) : List UInt8 := code.flatMap Instruction.bytes

theorem allBytes_cons (i : Instruction) (rest : List Instruction) :
    allBytes (i :: rest) = i.bytes ++ allBytes rest := List.flatMap_cons

/-- Instructions with their offsets, the first at the given one. -/
def placed (offset : Nat) : List Instruction → List (Nat × Instruction)
  | [] => []
  | i :: rest => (offset, i) :: placed (offset + i.bytes.length) rest

end Instruction

namespace Listing

/-- What is read from the bytes of one instruction, whatever follows it. -/
theorem read_bytes {i : Instruction} (hi : i.WellFormed) (offset : Nat)
    (done : List (Nat × Instruction)) (rest : List UInt8) :
    read offset done (i.bytes ++ rest) =
      read (offset + i.bytes.length) ((offset, i) :: done) rest := by
  obtain ⟨op, operands⟩ := i
  have hlayout : op.layout = operands.layout := hi.symm
  show read offset done (op.byte :: (operands.bytes ++ rest)) = _
  rw [read, Opcode.ofByte?_byte]
  dsimp only
  rw [hlayout]
  cases operands with
  | bare => rfl
  | word a =>
    show read (offset + 3) ((offset, ⟨op, .word (Operands.ofWordBytes _ _)⟩) :: done) rest = _
    rw [Operands.ofWordBytes_wordBytes]
    rfl
  | wordByte a b =>
    show read (offset + 4) ((offset, ⟨op, .wordByte (Operands.ofWordBytes _ _) b⟩) :: done) rest = _
    rw [Operands.ofWordBytes_wordBytes]
    rfl

/-- What is read from the bytes of instructions are the instructions. -/
theorem read_allBytes {code : List Instruction} (hcode : ∀ i ∈ code, i.WellFormed) (offset : Nat)
    (done : List (Nat × Instruction)) :
    read offset done (Instruction.allBytes code) =
      ⟨done.reverse ++ Instruction.placed offset code, .complete⟩ := by
  induction code generalizing offset done with
  | nil =>
    rw [Instruction.placed, List.append_nil]
    rfl
  | cons i rest ih =>
    rw [Instruction.allBytes_cons, read_bytes (hcode i List.mem_cons_self),
      ih fun j hj => hcode j (List.mem_cons_of_mem _ hj), List.reverse_cons, List.append_assoc]
    rfl

end Listing

namespace Assembler

/-- Writes instructions in order. -/
def emitAll (s : Assembler) (code : List Instruction) : Assembler :=
  code.foldl (fun s i => s.emit i.op i.operands) s

theorem emitAll_append (s : Assembler) (code more : List Instruction) :
    s.emitAll (code ++ more) = (s.emitAll code).emitAll more :=
  List.foldl_append

theorem emitAll_cons (s : Assembler) (i : Instruction) (rest : List Instruction) :
    s.emitAll (i :: rest) = (s.emit i.op i.operands).emitAll rest := rfl

theorem emitAll_singleton (s : Assembler) (i : Instruction) :
    s.emitAll [i] = s.emit i.op i.operands := rfl

/-! ## What is written -/

theorem foldl_push_toList (bytes : List UInt8) (tape : ByteArray) :
    (bytes.foldl ByteArray.push tape).data.toList = tape.data.toList ++ bytes := by
  induction bytes generalizing tape with
  | nil => simp
  | cons b rest ih =>
    rw [List.foldl_cons, ih]
    simp [ByteArray.push]

theorem emit_tape (s : Assembler) (i : Instruction) :
    (s.emit i.op i.operands).tape.data.toList = s.tape.data.toList ++ i.bytes := by
  have hwritten : (s.emit i.op i.operands).tape =
      i.operands.bytes.foldl ByteArray.push (s.tape.push i.op.byte) := by
    unfold emit
    dsimp only
    split <;> rfl
  rw [hwritten, foldl_push_toList, Instruction.bytes]
  simp [ByteArray.push]

theorem emitAll_tape (s : Assembler) (code : List Instruction) :
    (s.emitAll code).tape.data.toList = s.tape.data.toList ++ Instruction.allBytes code := by
  induction code generalizing s with
  | nil => simp [emitAll, Instruction.allBytes]
  | cons i rest ih =>
    rw [emitAll_cons, ih, emit_tape, Instruction.allBytes_cons, List.append_assoc]

end Assembler

/-- The tape that is written with instructions reads back as them. -/
theorem Listing.ofTape_emitAll {code : List Instruction} (hcode : ∀ i ∈ code, i.WellFormed) :
    Listing.ofTape (Assembler.empty.emitAll code).tape =
      ⟨Instruction.placed 0 code, .complete⟩ := by
  have htape := Assembler.empty.emitAll_tape code
  rw [Listing.ofTape, htape]
  exact read_allBytes hcode 0 []

namespace Assembler

/-! ## The stack account -/

theorem deepest_le_emit (s : Assembler) (op : Opcode) (operands : Operands) :
    s.deepest ≤ (s.emit op operands).deepest := by
  unfold emit
  dsimp only
  split
  · exact Nat.le_max_left _ _
  · exact Nat.le_refl _

theorem deepest_le_emitAll (s : Assembler) (code : List Instruction) :
    s.deepest ≤ (s.emitAll code).deepest := by
  induction code generalizing s with
  | nil => exact Nat.le_refl _
  | cons i rest ih => exact Nat.le_trans (s.deepest_le_emit i.op i.operands) (ih _)

/-- An account that is not deeper than the deepest, and stays so. -/
theorem depth_le_emit {s : Assembler} (hs : s.depth ≤ s.deepest) (op : Opcode)
    (operands : Operands) : (s.emit op operands).depth ≤ (s.emit op operands).deepest := by
  unfold emit
  dsimp only
  split
  · exact Nat.le_max_right _ _
  · exact hs

theorem depth_le_emitAll {s : Assembler} (hs : s.depth ≤ s.deepest) (code : List Instruction) :
    (s.emitAll code).depth ≤ (s.emitAll code).deepest := by
  induction code generalizing s with
  | nil => exact hs
  | cons i rest ih => exact ih (depth_le_emit hs i.op i.operands)

/-- The account never exceeds what can be told apart. -/
theorem deepest_emit_le {s : Assembler} (hs : s.deepest ≤ deepestCount) (op : Opcode)
    (operands : Operands) : (s.emit op operands).deepest ≤ deepestCount := by
  unfold emit
  dsimp only
  split
  · exact Nat.max_le.mpr ⟨hs, Nat.min_le_right _ _⟩
  · exact hs

theorem deepest_emitAll_le {s : Assembler} (hs : s.deepest ≤ deepestCount)
    (code : List Instruction) : (s.emitAll code).deepest ≤ deepestCount := by
  induction code generalizing s with
  | nil => exact hs
  | cons i rest ih => exact ih (deepest_emit_le hs i.op i.operands)

/-- Below its bounds, the account moves by what the instruction says. -/
theorem depth_emit {s : Assembler} {op : Opcode} {operands : Operands} {delta : Int} {depth : Nat}
    (ha : account op operands = some delta) (hd : (s.depth : Int) + delta = depth)
    (hdepth : depth ≤ deepestCount) : (s.emit op operands).depth = depth := by
  unfold emit
  simp only [ha, adjust]
  rw [hd]
  exact Nat.min_eq_left hdepth

end Assembler

end Passage

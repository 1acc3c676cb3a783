import Mathlib
import Passage.Object.Basic

/-!
# Packed values

A packed value is read back from its word: the marker gives its category, the
low 48 bits its payload. Pointers, string references and booleans of different
values are therefore different words.
-/

namespace Passage

namespace Object

/-- The bits above the payload of a packed value. -/
def marker (category : Category) : Nat :=
  codeOf category / 4 * 0x8000 + 0x7FFC + codeOf category % 4

theorem codeOf_lt (category : Category) : codeOf category < 8 := by
  cases category <;> decide

theorem toNat_boxed (category : Category) (payload : Nat) :
    (boxed category payload).bits.toNat =
      marker category * 0x1_0000_0000_0000 + payload % 0x1_0000_0000_0000 := by
  have hcode := codeOf_lt category
  have hmarker : marker category < 0x1_0000 := by
    unfold marker
    omega
  show (UInt64.ofNat (marker category <<< 48 + payload % 0x1_0000_0000_0000)).toNat = _
  rw [UInt64.toNat_ofNat', Nat.shiftLeft_eq]
  omega

theorem head_boxed (category : Category) (payload : Nat) :
    (boxed category payload).head = marker category := by
  rw [head, toNat_boxed, Nat.shiftRight_eq_div_pow]
  omega

@[simp] theorem payload_boxed (category : Category) (payload : Nat) :
    (boxed category payload).payload = payload % 0x1_0000_0000_0000 := by
  rw [Object.payload, toNat_boxed]
  omega

/-- A packed value is of the category it was packed as. -/
theorem category_boxed {category : Category} (payload : Nat)
    (h : category ≠ .number ∧ category ≠ .reserved) :
    (boxed category payload).category = category := by
  rw [Object.category, isBoxed, head_boxed]
  cases category <;> simp_all [marker, codeOf, categoryOfCode]

/-- A packed value reads as its payload. -/
theorem expect_boxed {α : Type} {category : Category} {payload : Nat} (read : Nat → α)
    (h : category ≠ .number ∧ category ≠ .reserved) (hp : payload < 0x1_0000_0000_0000) :
    (boxed category payload).expect category read = .ok (read payload) := by
  rw [expect, if_pos (category_boxed payload h), payload_boxed, Nat.mod_eq_of_lt hp]

/-! ## Round trips -/

theorem asBool_ofBool (b : Bool) : (ofBool b).asBool = .ok b := by
  rw [asBool, ofBool, expect_boxed _ (by decide) (by cases b <;> decide)]
  cases b <;> rfl

theorem pointer_payload_lt (p : Pointer) :
    p.tag.code <<< 32 + p.address.toNat < 0x1_0000_0000_0000 := by
  have haddress := p.address.toNat_lt
  rw [Nat.shiftLeft_eq]
  cases p.tag <;> simp only [PointerTag.code] <;> omega

theorem asPointer_ofPointer (p : Pointer) : (ofPointer p).asPointer = .ok p := by
  have haddress := p.address.toNat_lt
  have hcode : (p.tag.code <<< 32 + p.address.toNat) >>> 32 = p.tag.code := by
    rw [Nat.shiftLeft_eq, Nat.shiftRight_eq_div_pow]
    omega
  have hlow : UInt32.ofNat (p.tag.code <<< 32 + p.address.toNat) = p.address := by
    apply UInt32.toNat_inj.mp
    rw [UInt32.toNat_ofNat', Nat.shiftLeft_eq]
    omega
  rw [asPointer, ofPointer, expect_boxed id (by decide) (pointer_payload_lt p)]
  dsimp only [bind, Except.bind, id]
  rw [hcode, PointerTag.ofCode?_code]
  show Except.ok (⟨p.tag, UInt32.ofNat (p.tag.code <<< 32 + p.address.toNat)⟩ : Pointer) = .ok p
  rw [hlow]

theorem ofPointer_injective {p q : Pointer} (h : ofPointer p = ofPointer q) : p = q := by
  have hread := asPointer_ofPointer p
  rw [h, asPointer_ofPointer] at hread
  exact (Except.ok.inj hread).symm

theorem asString_ofString (s : StringRef) : (ofString s).asString = .ok s := by
  have hoffset := s.offset.toNat_lt
  have hlength := s.length.toNat_lt
  have hlt : s.length.toNat <<< 32 + s.offset.toNat < 0x1_0000_0000_0000 := by
    rw [Nat.shiftLeft_eq]
    omega
  have hlow : UInt32.ofNat (s.length.toNat <<< 32 + s.offset.toNat) = s.offset := by
    apply UInt32.toNat_inj.mp
    rw [UInt32.toNat_ofNat', Nat.shiftLeft_eq]
    omega
  have hhigh : UInt16.ofNat ((s.length.toNat <<< 32 + s.offset.toNat) >>> 32) = s.length := by
    apply UInt16.toNat_inj.mp
    rw [UInt16.toNat_ofNat', Nat.shiftLeft_eq, Nat.shiftRight_eq_div_pow]
    omega
  rw [asString, ofString, expect_boxed _ (by decide) hlt, hlow, hhigh]

theorem category_ofString (s : StringRef) : (ofString s).category = .string :=
  category_boxed _ (by decide)

theorem ofString_injective {s t : StringRef} (h : ofString s = ofString t) : s = t := by
  have hread := asString_ofString s
  rw [h, asString_ofString] at hread
  exact (Except.ok.inj hread).symm

/-- A number is packed as its own bits. -/
theorem eq_of_ofNumber {x : Number} {o : Object} (h : ofNumber x = .ok o) : o = ⟨x.bits⟩ := by
  unfold ofNumber at h
  split at h
  · exact absurd h nofun
  · exact (Except.ok.inj h).symm

/-- A number that is packed is no other value. -/
theorem category_ofNumber {x : Number} {o : Object} (h : ofNumber x = .ok o) :
    o.category = .number := by
  unfold ofNumber at h
  split at h
  · exact absurd h nofun
  · rename_i hnan
    obtain rfl := Except.ok.inj h
    have hmagnitude : x.bits.toNat % 0x8000_0000_0000_0000 ≤ Number.infiniteMagnitude := by
      unfold Number.isNaN Number.magnitude at hnan
      simpa using hnan
    have hplain : (⟨x.bits⟩ : Object).isBoxed = false := by
      unfold Number.infiniteMagnitude at hmagnitude
      rw [isBoxed, head, Nat.shiftRight_eq_div_pow, beq_eq_false_iff_ne]
      show x.bits.toNat / 2 ^ 48 % 0x8000 / 4 ≠ 0x1FFF
      omega
    rw [category, hplain]
    rfl

theorem asNumber_ofNumber {x : Number} {o : Object} (h : ofNumber x = .ok o) :
    o.asNumber = .ok x := by
  rw [asNumber, expect, if_pos (category_ofNumber h), eq_of_ofNumber h]

/-! ## Truth and absence -/

@[simp] theorem isTruthy_ofBool (b : Bool) : (ofBool b).isTruthy = b := by
  cases b <;> decide

@[simp] theorem isNull_ofBool (b : Bool) : (ofBool b).isNull = false := by
  cases b <;> decide

end Object

end Passage

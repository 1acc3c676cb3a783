import Passage.Proofs.Packing

/-!
# The truth of words that were not packed

A word is its head above its payload, and the head of a boxed word is the marker of its category
(`eq_boxed_iff`). Truth and absence compare whole words, whereas `unpack` goes by the category and
does not look at the payload of a null. A word of that category is packed with the payload zero,
but it may come otherwise from a snapshot or a host. It reads as null all the same, is true, and
is not absent (`spare_null_is_true`). On all other words that can be read, truth and absence are
those of the value (`truth_of_unpack`).
-/

namespace Passage

namespace Object

variable {o : Object} {v : Value} {category : Category}

/-! ## Heads and payloads -/

theorem toNat_bits (o : Object) : o.bits.toNat = o.head * 0x1_0000_0000_0000 + o.payload := by
  rw [head, payload, Nat.shiftRight_eq_div_pow]
  omega

theorem head_lt (o : Object) : o.head < 0x1_0000 := by
  have hbits := o.bits.toNat_lt
  rw [head, Nat.shiftRight_eq_div_pow]
  omega

/-- A category is marked by one code. -/
theorem codeOf_categoryOfCode {code : Nat} (h : categoryOfCode code = category)
    (hcategory : category ≠ .reserved) : codeOf category = code := by
  subst h
  unfold categoryOfCode at hcategory ⊢
  split at hcategory <;> first | rfl | exact absurd rfl hcategory

/-- Above the payload of a boxed word is the marker of its category. -/
theorem head_eq_marker (h : o.category = category) (hnumber : category ≠ .number)
    (hreserved : category ≠ .reserved) : o.head = marker category := by
  have hlt := o.head_lt
  unfold Object.category at h
  split at h
  · next hboxed =>
    have hcode := codeOf_categoryOfCode h hreserved
    have hmarked : o.head % 0x8000 / 4 = 0x1FFF := by simpa [isBoxed] using hboxed
    rw [marker, hcode]
    omega
  · exact absurd h.symm hnumber

/-- A boxed word is told by its category and its payload. -/
theorem eq_boxed_iff {n : Nat} (hcategory : category ≠ .number ∧ category ≠ .reserved)
    (hn : n < 0x1_0000_0000_0000) :
    o = boxed category n ↔ o.category = category ∧ o.payload = n := by
  constructor
  · rintro rfl
    exact ⟨category_boxed n hcategory, by rw [payload_boxed, Nat.mod_eq_of_lt hn]⟩
  · rintro ⟨hhead, rfl⟩
    have hbits : o.bits = (boxed category o.payload).bits := by
      rw [← UInt64.toNat_inj, toNat_boxed, Nat.mod_eq_of_lt hn, toNat_bits,
        head_eq_marker hhead hcategory.1 hcategory.2]
    show (⟨o.bits⟩ : Object) = ⟨(boxed category o.payload).bits⟩
    rw [hbits]

/-! ## Falsehood and absence -/

theorem unpack_eq_null_iff : o.unpack = .ok .null ↔ o.category = .null := by
  constructor
  · exact fun h => (category_of_unpack h).symm
  · intro h
    rw [unpack, h]

theorem unpack_eq_false_iff :
    o.unpack = .ok (.bool false) ↔ o.category = .bool ∧ o.payload = 0 := by
  constructor
  · intro h
    have hcategory : o.category = .bool := (category_of_unpack h).symm
    rw [unpack, hcategory, asBool, expect, if_pos hcategory] at h
    have hread : (o.payload != 0) = false := Value.bool.inj (Except.ok.inj h)
    exact ⟨hcategory, bne_eq_false_iff_eq.mp hread⟩
  · rintro ⟨hcategory, hpayload⟩
    rw [unpack, hcategory, asBool, expect, if_pos hcategory, hpayload]
    rfl

theorem isNull_iff (o : Object) : o.isNull = true ↔ o.unpack = .ok .null ∧ o.payload = 0 := by
  rw [isNull, beq_iff_eq, null, eq_boxed_iff (by decide) (by decide), unpack_eq_null_iff]

/-- Of the words that read as null one is not true, and so is the one that reads as false. -/
theorem isTruthy_iff (o : Object) :
    o.isTruthy = false ↔
      o.unpack = .ok (.bool false) ∨ o.unpack = .ok .null ∧ o.payload = 0 := by
  have hfalse : o = ofBool false ↔ o.unpack = .ok (.bool false) := by
    rw [ofBool, if_neg Bool.false_ne_true, eq_boxed_iff (by decide) (by decide),
      unpack_eq_false_iff]
  have hnull : o = null ↔ o.unpack = .ok .null ∧ o.payload = 0 := by
    rw [← isNull_iff, isNull, beq_iff_eq]
  rw [isTruthy_eq_false_iff, hfalse, hnull]

/-- Truth and absence of a word are those of the value that it reads as, just if that is not null
or the bits below the marker of null are zero. -/
theorem truth_of_unpack (h : o.unpack = .ok v) :
    (o.isTruthy = false ↔ v = .bool false ∨ v = .null ∧ o.payload = 0) ∧
      (o.isNull = true ↔ v = .null ∧ o.payload = 0) ∧
      (((o.isTruthy = false ↔ v = .bool false ∨ v = .null) ∧ (o.isNull = true ↔ v = .null)) ↔
        (v = .null → o.payload = 0)) := by
  have hreads (w : Value) : o.unpack = .ok w ↔ v = w := by rw [h, Except.ok.injEq]
  have htruth := isTruthy_iff o
  have hnull := isNull_iff o
  rw [hreads, hreads] at htruth
  rw [hreads] at hnull
  refine ⟨htruth, hnull, ?_⟩
  rw [htruth, hnull]
  constructor
  · exact fun hagree hv => (hagree.2.mpr hv).2
  · intro hzero
    have hand : v = .null ∧ o.payload = 0 ↔ v = .null := and_iff_left_of_imp hzero
    exact ⟨or_congr Iff.rfl hand, hand⟩

/-- Spare bits make a boolean true, and leave a null that is not absent. -/
theorem truth_of_unpack_at_spare_bits :
    (⟨0xFFFE_8000_0000_0000⟩ : Object).unpack = .ok (.bool true) ∧
      (⟨0xFFFE_8000_0000_0000⟩ : Object).isTruthy = true ∧
      (⟨0xFFFF_0000_0001_0000⟩ : Object).unpack = .ok .null ∧
      ¬ (((⟨0xFFFF_0000_0001_0000⟩ : Object).isTruthy = false ↔
            Value.null = .bool false ∨ Value.null = .null) ∧
          ((⟨0xFFFF_0000_0001_0000⟩ : Object).isNull = true ↔ Value.null = .null)) := by
  have hbool : (⟨0xFFFE_8000_0000_0000⟩ : Object).unpack = .ok (.bool true) := by decide
  have hnull : (⟨0xFFFF_0000_0001_0000⟩ : Object).unpack = .ok .null := by decide
  refine ⟨hbool, ?_, hnull, fun hagree => ?_⟩
  · exact Bool.eq_true_of_not_eq_false fun hfalse =>
      absurd ((truth_of_unpack hbool).1.mp hfalse) (by simp)
  · exact absurd ((truth_of_unpack hnull).2.2.mp hagree rfl) (by decide)

/-- A null with a spare bit. -/
theorem spare_null_is_true :
    (⟨0xFFFF_0000_0000_0001⟩ : Object).unpack = .ok .null ∧
      (⟨0xFFFF_0000_0000_0001⟩ : Object).isTruthy = true ∧
      (⟨0xFFFF_0000_0000_0001⟩ : Object).isNull = false := by
  decide

end Object

end Passage

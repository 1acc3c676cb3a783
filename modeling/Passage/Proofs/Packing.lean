import Passage.Proofs.Objects

/-!
# Packing loses nothing

A value that is no NaN packs into a word of its own category, and the word reads back as the very
value (`unpack_of_pack`), so that different values are packed into different words. Of the accessors
the one for the category of a word reads what `unpack` reads, and all others name the two categories
that differ (`accessor_eq`). `Packed` puts this together with truth, and `packing_faithful` says it
of all values, and of all words that are read, packed again and read again.
-/

namespace Passage

/-- Whether the value is a number that is no number. -/
def Value.isNaN : Value → Bool
  | .number x => x.isNaN
  | _ => false

namespace Object

/-! ## Round trips of bytes and integers -/

theorem asBytes_ofBytes (b : SixBytes) : (ofBytes b).asBytes = .ok b := by
  obtain ⟨b0, b1, b2, b3, b4, b5⟩ := b
  have h0 := b0.toNat_lt
  have h1 := b1.toNat_lt
  have h2 := b2.toNat_lt
  have h3 := b3.toNat_lt
  have h4 := b4.toNat_lt
  have h5 := b5.toNat_lt
  rw [asBytes, ofBytes]
  simp only [Nat.shiftLeft_eq]
  rw [expect_boxed _ (by decide) (by omega)]
  -- Each byte is the payload above the bytes before it, up to its own eight bits.
  simp only [Nat.shiftRight_eq_div_pow, Except.ok.injEq, SixBytes.mk.injEq, ← UInt8.toNat_inj,
    UInt8.toNat_ofNat']
  omega

theorem asSigned_ofSigned (n : Int32) : (ofSigned n).asSigned = .ok n := by
  have hword := n.toUInt32.toNat_lt
  rw [asSigned, ofSigned, expect_boxed _ (by decide) (by omega), UInt32.ofNat_toNat]
  rfl

theorem asUnsigned_ofUnsigned (n : UInt32) : (ofUnsigned n).asUnsigned = .ok n := by
  have hword := n.toNat_lt
  rw [asUnsigned, ofUnsigned, expect_boxed _ (by decide) (by omega), UInt32.ofNat_toNat]

/-! ## Accessors -/

/-- The accessors with the categories that they read, each telling a value. -/
def accessors : List (Category × (Object → Except ObjectError Value)) :=
  [(.number, fun o => o.asNumber.map .number), (.pointer, fun o => o.asPointer.map .pointer),
   (.string, fun o => o.asString.map .string), (.bytes, fun o => o.asBytes.map .bytes),
   (.signed, fun o => o.asSigned.map .signed), (.unsigned, fun o => o.asUnsigned.map .unsigned),
   (.bool, fun o => o.asBool.map .bool)]

theorem expect_of_ne {α : Type} {o : Object} {category : Category} (read : Nat → α)
    (h : o.category ≠ category) : o.expect category read =
      .error (.wrongType category o.category) :=
  if_neg h

/-- The accessor of the word's category reads the word, and any other one refuses it. -/
theorem accessor_eq {category : Category} {read : Object → Except ObjectError Value}
    (h : (category, read) ∈ accessors) (o : Object) :
    read o = if o.category = category then o.unpack
      else .error (.wrongType category o.category) := by
  simp only [accessors, List.mem_cons, Prod.mk.injEq, List.not_mem_nil, or_false] at h
  by_cases hcategory : o.category = category
  · rw [if_pos hcategory, unpack, hcategory]
    obtain ⟨rfl, rfl⟩ | ⟨rfl, rfl⟩ | ⟨rfl, rfl⟩ | ⟨rfl, rfl⟩ | ⟨rfl, rfl⟩ | ⟨rfl, rfl⟩
      | ⟨rfl, rfl⟩ := h
      <;> rfl
  · rw [if_neg hcategory]
    obtain ⟨rfl, rfl⟩ | ⟨rfl, rfl⟩ | ⟨rfl, rfl⟩ | ⟨rfl, rfl⟩ | ⟨rfl, rfl⟩ | ⟨rfl, rfl⟩
      | ⟨rfl, rfl⟩ := h
    all_goals
      simp only [asNumber, asPointer, asString, asBytes, asSigned, asUnsigned, asBool,
        expect_of_ne _ hcategory]
      rfl

/-! ## Packing -/

variable {v v' : Value} {o : Object}

/-- Only NaN is refused. -/
theorem exists_pack_iff : (∃ o, pack v = .ok o) ↔ v.isNaN = false := by
  cases v with
  | number x =>
    rcases hx : x.isNaN with _ | _ <;> simp [pack, ofNumber, Value.isNaN, hx]
  | _ => simp [pack, Value.isNaN]

theorem category_of_pack (h : pack v = .ok o) : o.category = v.category := by
  cases v with
  | number x => exact category_ofNumber h
  | _ =>
    obtain rfl := Except.ok.inj h
    exact category_boxed _ (by decide)

/-- A packed value reads as the value. -/
theorem unpack_of_pack (h : pack v = .ok o) : o.unpack = .ok v := by
  rw [unpack, category_of_pack h]
  cases v with
  | number x =>
    rw [Value.category, asNumber_ofNumber h]
    rfl
  | pointer p =>
    obtain rfl := Except.ok.inj h
    rw [Value.category, asPointer_ofPointer]
    rfl
  | string s =>
    obtain rfl := Except.ok.inj h
    rw [Value.category, asString_ofString]
    rfl
  | bytes b =>
    obtain rfl := Except.ok.inj h
    rw [Value.category, asBytes_ofBytes]
    rfl
  | signed n =>
    obtain rfl := Except.ok.inj h
    rw [Value.category, asSigned_ofSigned]
    rfl
  | unsigned n =>
    obtain rfl := Except.ok.inj h
    rw [Value.category, asUnsigned_ofUnsigned]
    rfl
  | bool b =>
    obtain rfl := Except.ok.inj h
    rw [Value.category, asBool_ofBool]
    rfl
  | null => rfl

/-- Different values are packed into different words. -/
theorem pack_inj (h : pack v = .ok o) (h' : pack v' = .ok o) : v = v' :=
  Except.ok.inj ((unpack_of_pack h).symm.trans (unpack_of_pack h'))

/-- Two words are not true. -/
theorem isTruthy_eq_false_iff (o : Object) : o.isTruthy = false ↔ o = ofBool false ∨ o = null := by
  rw [isTruthy, Bool.and_eq_false_iff, bne_eq_false_iff_eq, bne_eq_false_iff_eq]

/-- False and null are packed into the two words that are not true, and no other value is. -/
theorem isTruthy_of_pack (h : pack v = .ok o) :
    o.isTruthy = false ↔ v = .bool false ∨ v = .null := by
  rw [isTruthy_eq_false_iff]
  constructor
  · rintro (rfl | rfl)
    · exact .inl (pack_inj h rfl)
    · exact .inr (pack_inj h rfl)
  · rintro (rfl | rfl)
    · exact .inl (Except.ok.inj h).symm
    · exact .inr (Except.ok.inj h).symm

/-- What is found in the word that a value is packed into. -/
structure Packed (v : Value) (o : Object) : Prop where
  unpack : o.unpack = .ok v
  category : o.category = v.category
  truth : o.isTruthy = false ↔ v = .bool false ∨ v = .null
  accessors : ∀ category read, (category, read) ∈ accessors →
    read o = if v.category = category then .ok v else .error (.wrongType category o.category)

theorem packed_of_pack (h : pack v = .ok o) : Packed v o where
  unpack := unpack_of_pack h
  category := category_of_pack h
  truth := isTruthy_of_pack h
  accessors category read hread := by
    rw [accessor_eq hread, category_of_pack h, unpack_of_pack h]

/-- What a word reads as is of the category of the word, whatever its spare bits are. -/
theorem category_of_unpack (h : o.unpack = .ok v) : v.category = o.category := by
  have hmap : ∀ {α : Type} {tell : α → Value} {read : Except ObjectError α},
      read.map tell = .ok v → ∃ a, v = tell a := by
    rintro α tell (e | a) hread
    · exact absurd hread nofun
    · exact ⟨a, (Except.ok.inj hread).symm⟩
  rw [unpack] at h
  cases hcategory : o.category <;> rw [hcategory] at h
  case null => exact congrArg Value.category (Except.ok.inj h).symm
  case reserved => exact absurd h nofun
  all_goals
    obtain ⟨a, rfl⟩ := hmap h
    rfl

/-- Every value but NaN is packed and found again, values are told apart by their words, and what
any word reads as is packed, unless it is NaN, into a word of that category which reads the same. -/
theorem packing_faithful :
    (∀ v : Value, v.isNaN = false → ∃ o, pack v = .ok o ∧ Packed v o) ∧
      (∀ (v v' : Value) (o : Object), pack v = .ok o → pack v' = .ok o → v = v') ∧
      ∀ (o : Object) (v : Value), o.unpack = .ok v → v.isNaN = false →
        ∃ o', pack v = .ok o' ∧ o'.unpack = .ok v ∧ o'.category = o.category := by
  refine ⟨fun v hv => ?_, fun v v' o => pack_inj, fun o v hread hv => ?_⟩
  · obtain ⟨o, ho⟩ := exists_pack_iff.mpr hv
    exact ⟨o, ho, packed_of_pack ho⟩
  · obtain ⟨o', ho'⟩ := exists_pack_iff.mpr hv
    exact ⟨o', ho', unpack_of_pack ho', (category_of_pack ho').trans (category_of_unpack hread)⟩

/-- The infinity below all numbers is packed, the zeros are told apart, and an integer below spare
bits that are set is packed without them. -/
theorem packing_faithful_at_edges :
    (∃ o, pack (.number ⟨0xFFF0_0000_0000_0000⟩) = .ok o ∧
        Packed (.number ⟨0xFFF0_0000_0000_0000⟩) o) ∧
      pack (.number ⟨0x8000_0000_0000_0000⟩) ≠ pack (.number ⟨0⟩) ∧
      (⟨0xFFFD_1234_0000_0007⟩ : Object).unpack = .ok (.unsigned 7) ∧
      ∃ o', pack (.unsigned 7) = .ok o' ∧ o'.unpack = .ok (.unsigned 7) ∧
        o'.category = (⟨0xFFFD_1234_0000_0007⟩ : Object).category := by
  obtain ⟨hpacks, hapart, hagain⟩ := packing_faithful
  have hzero : pack (.number ⟨0⟩) = .ok ⟨0⟩ := by decide
  have hspare : (⟨0xFFFD_1234_0000_0007⟩ : Object).unpack = .ok (.unsigned 7) := by decide
  refine ⟨hpacks _ (by decide), fun heq => ?_, hspare, hagain _ _ hspare (by decide)⟩
  exact absurd (hapart _ _ _ (heq.trans hzero) hzero) (by decide)

end Object

end Passage

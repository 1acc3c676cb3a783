import Passage.Number.Notation
import Passage.Proofs.Literals
import Passage.Proofs.Numerals

/-!
# Written numbers read back

Different numbers have different digits, in each base up to sixteen (`toDigits_injective`).
The number of a natural number is whole, so that its fixed notation is the digits of its
whole part and zeros (`fixedText_natural`), and that notation tells all of them apart
(`eq_of_wholePart`).
-/

namespace Passage

/-! ## Digits -/

theorem digitChar_injective : ∀ m n : Fin 16, (m : Nat).digitChar = (n : Nat).digitChar →
    m = n := by
  decide

theorem toDigits_injective {base : Nat} (hbase : 1 < base) (hbase' : base ≤ 16) :
    Function.Injective (Nat.toDigits base) := by
  intro m
  induction m using Nat.strongRecOn with
  | ind m ih =>
    intro n h
    have hdigit : ∀ {i j : Nat}, i < base → j < base → i.digitChar = j.digitChar → i = j :=
      fun hi hj heq => congrArg Fin.val (digitChar_injective ⟨_, Nat.lt_of_lt_of_le hi hbase'⟩
        ⟨_, Nat.lt_of_lt_of_le hj hbase'⟩ heq)
    have hlength : ∀ (k : Nat) (c d : Char), [c] ≠ Nat.toDigits base k ++ [d] := by
      intro k c d heq
      have hlen := congrArg List.length heq
      have hpos : 0 < (Nat.toDigits base k).length := Nat.length_toDigits_pos
      simp only [List.length_append, List.length_singleton] at hlen
      omega
    by_cases hm : m < base
    · rw [Nat.toDigits_of_lt_base hm] at h
      by_cases hn : n < base
      · rw [Nat.toDigits_of_lt_base hn] at h
        exact hdigit hm hn (List.singleton_inj.mp h)
      · rw [Nat.toDigits_of_base_le hbase (Nat.not_lt.mp hn)] at h
        exact absurd h (hlength _ _ _)
    · rw [Nat.toDigits_of_base_le hbase (Nat.not_lt.mp hm)] at h
      by_cases hn : n < base
      · rw [Nat.toDigits_of_lt_base hn] at h
        exact absurd h.symm (hlength _ _ _)
      · rw [Nat.toDigits_of_base_le hbase (Nat.not_lt.mp hn)] at h
        have hpos : 0 < base := by omega
        have hquotient := ih (m / base) (Nat.div_lt_self (by omega) hbase)
          (List.append_inj_left' h rfl)
        have hremainder := hdigit (Nat.mod_lt m hpos) (Nat.mod_lt n hpos)
          (List.singleton_inj.mp (List.append_inj_right' h rfl))
        rw [← Nat.div_add_mod m base, ← Nat.div_add_mod n base, hquotient, hremainder]

/-- The characters that digits up to base sixteen are written with. -/
def IsHex (c : Char) : Prop := c ∈ "0123456789abcdef".toList

instance : DecidablePred IsHex := fun c => inferInstanceAs (Decidable (c ∈ _))

theorem isHex_digitChar : ∀ n : Fin 16, IsHex (n : Nat).digitChar := by decide

theorem isHex_of_mem_toDigits {base : Nat} (hbase : 1 < base) (hbase' : base ≤ 16) {n : Nat}
    {c : Char} (h : c ∈ Nat.toDigits base n) : IsHex c := by
  induction n using Nat.strongRecOn with
  | ind n ih =>
    by_cases hn : n < base
    · rw [Nat.toDigits_of_lt_base hn] at h
      exact List.mem_singleton.mp h ▸ isHex_digitChar ⟨n, Nat.lt_of_lt_of_le hn hbase'⟩
    · rw [Nat.toDigits_of_base_le hbase (Nat.not_lt.mp hn)] at h
      obtain hhigh | hlow := List.mem_append.mp h
      · exact ih (n / base) (Nat.div_lt_self (by omega) hbase) hhigh
      · have hlt := Nat.lt_of_lt_of_le (Nat.mod_lt n (Nat.zero_lt_of_lt hbase)) hbase'
        exact List.mem_singleton.mp hlow ▸ isHex_digitChar ⟨n % base, hlt⟩

/-- The number that a hexadecimal digit stands for. -/
def hexValue (c : Char) : Nat := if c.toNat < 'a'.toNat then c.toNat - '0'.toNat else
    c.toNat - 'a'.toNat + 10

theorem hexValue_digitChar : ∀ n : Fin 16, hexValue (n : Nat).digitChar = n := by decide

/-- The number that hexadecimal digits stand for, behind others. -/
def ofHex (init : Nat) (digits : List Char) : Nat :=
  digits.foldl (fun n c => 16 * n + hexValue c) init

theorem ofHex_toDigits (n : Nat) : ofHex 0 (Nat.toDigits 16 n) = n := by
  induction n using Nat.strongRecOn with
  | ind n ih =>
    by_cases hn : n < 16
    · rw [Nat.toDigits_of_lt_base hn]
      exact (Nat.zero_add _).trans (hexValue_digitChar ⟨n, hn⟩)
    · have hvalue := hexValue_digitChar ⟨n % 16, Nat.mod_lt n (by decide)⟩
      rw [Nat.toDigits_of_base_le (by decide) (Nat.not_lt.mp hn), ofHex, List.foldl_append]
      change 16 * ofHex 0 (Nat.toDigits 16 (n / 16)) + hexValue (n % 16).digitChar = n
      rw [ih (n / 16) (Nat.div_lt_self (by omega) (by decide)), hvalue]
      exact Nat.div_add_mod n 16

/-- Zeros in front do not change a number, so that padded digits tell numbers apart. -/
theorem hexPadded_injective (width : Nat) : Function.Injective (Text.hexPadded width) := by
  have hvalue : ∀ n, ofHex 0 (Text.hexPadded width n).toList = n := by
    intro n
    have hzeros : ∀ places, ofHex 0 (List.replicate places '0') = 0 := by
      intro places
      induction places with
      | zero => rfl
      | succ places ih => exact ih
    rw [Text.hexPadded, Text.padLeft, String.toList_append, String.toList_ofList, ofHex,
      List.foldl_append]
    change ofHex (ofHex 0 _) (Text.hex n).toList = n
    rw [hzeros, Text.hex, String.toList_ofList, ofHex_toDigits]
  intro m n h
  rw [← hvalue m, ← hvalue n, h]

theorem length_hexPadded {n : Nat} (h : n < 16 ^ 16) : (Text.hexPadded 16 n).length = 16 := by
  have hlength : (Nat.toDigits 16 n).length ≤ 16 :=
    (Nat.length_toDigits_le_iff (by decide) (by decide)).mpr h
  rw [Text.hexPadded, Text.padLeft, String.length_append, String.length_ofList,
    List.length_replicate, Text.hex, String.length_ofList]
  omega

/-- A zero behind the digits is a factor of the base. -/
theorem toDigits_mul_pow {n : Nat} (hn : 0 < n) (places : Nat) :
    Nat.toDigits 10 (n * 10 ^ places) = Nat.toDigits 10 n ++ List.replicate places '0' := by
  induction places with
  | zero => rw [Nat.pow_zero, Nat.mul_one, List.replicate_zero, List.append_nil]
  | succ places ih =>
    have hpos : 0 < n * 10 ^ places := Nat.mul_pos hn (Nat.pow_pos (by decide))
    have hsplit : n * 10 ^ (places + 1) = 10 * (n * 10 ^ places) + 0 := by
      rw [Nat.pow_succ, ← Nat.mul_assoc, Nat.mul_comm, Nat.add_zero]
    rw [hsplit, ← Nat.toDigits_append_toDigits (by decide) hpos (by decide), ih,
      Nat.toDigits_zero, List.append_assoc, List.replicate_succ']

/-- A whole number, written with a point. -/
theorem toList_positional (n : Nat) {places : Nat} (hplaces : places ≠ 0) :
    (positional (n * 10 ^ places) places).toList =
      Nat.toDigits 10 n ++ '.' :: List.replicate places '0' := by
  have htext : (Text.padLeft (places + 1) '0' (toString (n * 10 ^ places))).toList =
      Nat.toDigits 10 n ++ List.replicate places '0' := by
    rw [Text.padLeft, String.toList_append, String.toList_ofList]
    by_cases hn : n = 0
    · subst hn
      rw [Nat.zero_mul, Nat.toDigits_zero]
      exact List.replicate_succ'.symm.trans List.replicate_succ
    · have hdigits : (toString (n * 10 ^ places)).toList =
          Nat.toDigits 10 n ++ List.replicate places '0' := by
        rw [← toDigits_mul_pow (Nat.pos_of_ne_zero hn)]
        exact Nat.toList_repr
      have hlength : places + 1 ≤ (toString (n * 10 ^ places)).length := by
        have hpos : 0 < (Nat.toDigits 10 n).length := Nat.length_toDigits_pos
        rw [← String.length_toList, hdigits, List.length_append, List.length_replicate]
        omega
      rw [Nat.sub_eq_zero_of_le hlength, List.replicate_zero, List.nil_append, hdigits]
  unfold positional
  rw [if_neg hplaces]
  dsimp only
  rw [htext, List.length_append, List.length_replicate, Nat.add_sub_cancel,
    List.take_left, List.drop_left]
  simp only [String.toList_append, String.toList_ofList]
  rw [List.append_assoc]
  rfl

/-! ## Fixed notation -/

theorem roundDiv_mul (n : Nat) {den : Nat} (hden : 0 < den) : roundDiv (n * den) den = n := by
  unfold roundDiv
  rw [Nat.mul_mod_left, Nat.mul_div_cancel _ hden, Nat.mul_zero]
  have hlt : compare 0 den = .lt := Nat.compare_eq_lt.mpr hden
  rw [hlt]

namespace Number

/-- A whole number, written with decimal places. -/
theorem fixedText_of_whole {x : Number} (hwhole : x.isWhole = true) (hsign : x.isNegative = false)
    {places : Nat} (hplaces : places ≠ 0) :
    (x.fixedText places).toList =
      Nat.toDigits 10 x.wholePart ++ '.' :: List.replicate places '0' := by
  unfold isWhole at hwhole
  rw [Bool.and_eq_true, beq_iff_eq] at hwhole
  obtain ⟨hfinite, hdivides⟩ := hwhole
  have hspecial : x.specialText? = none := by
    unfold isFinite at hfinite
    have hlt := of_decide_eq_true hfinite
    unfold specialText? isNaN isInfinite
    rw [if_neg (by simpa using Nat.le_of_lt hlt), if_neg (by simpa using Nat.ne_of_lt hlt)]
  have hsignText : x.signText = "" := by
    unfold signText
    rw [hsign]
    rfl
  have hden : 0 < 1 <<< (-x.exponent).toNat := by
    rw [Nat.one_shiftLeft]
    exact Nat.two_pow_pos _
  have hpart : x.significand <<< x.exponent.toNat =
      x.wholePart * 1 <<< (-x.exponent).toNat := by
    rw [wholePart, Nat.shiftRight_eq_div_pow, ← Nat.one_shiftLeft]
    exact (Nat.div_mul_cancel (Nat.dvd_of_mod_eq_zero hdivides)).symm
  have hscaled : (x.significand * tenPower places) <<< x.exponent.toNat =
      x.wholePart * 10 ^ places * 1 <<< (-x.exponent).toNat := by
    calc (x.significand * tenPower places) <<< x.exponent.toNat
        = x.significand <<< x.exponent.toNat * 10 ^ places := by
          rw [Nat.shiftLeft_eq, Nat.shiftLeft_eq, Nat.mul_right_comm]
          rfl
      _ = x.wholePart * 10 ^ places * 1 <<< (-x.exponent).toNat := by
          rw [hpart, Nat.mul_right_comm]
  unfold fixedText
  rw [hscaled, roundDiv_mul _ hden, hspecial, hsignText]
  dsimp only [Option.getD]
  rw [String.empty_append, toList_positional _ hplaces]

/-- The number of a natural number is whole, unless it is infinite. -/
theorem isWhole_ofNat {n : Nat} (h : (ofNat n).isFinite = true) : (ofNat n).isWhole = true := by
  unfold isWhole
  rw [h, Bool.true_and, beq_iff_eq]
  by_cases hn : n < 2 ^ 53
  · by_cases hzero : n = 0
    · subst hzero
      decide
    · have hlog := (Nat.log2_lt hzero).mpr hn
      have hup : ((n.log2 : Int) - 52).toNat = 0 := by omega
      have hdown : (-((n.log2 : Int) - 52)).toNat = 52 - n.log2 := by omega
      rw [significand_ofNat hzero hn, exponent_ofNat hzero hn, hup, hdown, Nat.shiftLeft_zero,
        Nat.one_shiftLeft, Nat.mul_mod_left]
  · have hlarge : 1075 * hiddenBit ≤ (ofNat n).magnitude :=
      Nat.le_trans (by decide) (magnitude_ofNat_large (Nat.not_lt.mp hn))
    obtain ⟨hexponent, -⟩ := wholePart_of_large hlarge
    have hdown : (-(ofNat n).exponent).toNat = 0 := by
      rw [hexponent]
      omega
    rw [hdown, Nat.shiftLeft_zero, Nat.mod_one]

/-- The whole part of a large number determines the number. -/
theorem magnitude_eq_of_wholePart {x y : Number} (hx : 1075 * hiddenBit ≤ x.magnitude)
    (hy : 1075 * hiddenBit ≤ y.magnitude) (h : x.wholePart = y.wholePart) :
    x.magnitude = y.magnitude := by
  have hlog : ∀ {z : Number}, 1075 * hiddenBit ≤ z.magnitude →
      z.wholePart.log2 = z.magnitude / hiddenBit - 1075 + 52 := by
    intro z hz
    obtain ⟨-, hwhole⟩ := wholePart_of_large hz
    have hfraction : z.magnitude % hiddenBit < hiddenBit := Nat.mod_lt _ (by decide)
    have hlow : 2 ^ (z.magnitude / hiddenBit - 1075 + 52) ≤ z.wholePart := by
      rw [hwhole, Nat.pow_add, ← hiddenBit_eq, Nat.mul_comm]
      exact Nat.mul_le_mul_right _ (Nat.le_add_right _ _)
    have hhigh : z.wholePart < 2 ^ (z.magnitude / hiddenBit - 1075 + 52 + 1) := by
      rw [hwhole, Nat.pow_succ, Nat.pow_add, ← hiddenBit_eq, Nat.mul_comm _ hiddenBit,
        Nat.mul_right_comm]
      exact Nat.mul_lt_mul_of_pos_right (by omega) (Nat.two_pow_pos _)
    have hpos := Nat.two_pow_pos (z.magnitude / hiddenBit - 1075 + 52)
    exact (Nat.log2_eq_iff (by omega)).mpr ⟨hlow, hhigh⟩
  have hexponent : x.magnitude / hiddenBit = y.magnitude / hiddenBit := by
    have hsame := (hlog hx).symm.trans ((congrArg Nat.log2 h).trans (hlog hy))
    unfold hiddenBit at *
    omega
  have hfraction : x.magnitude % hiddenBit = y.magnitude % hiddenBit := by
    rw [(wholePart_of_large hx).2, (wholePart_of_large hy).2, hexponent] at h
    exact Nat.add_left_cancel (Nat.eq_of_mul_eq_mul_right (Nat.two_pow_pos _) h)
  rw [← Nat.div_add_mod x.magnitude hiddenBit, ← Nat.div_add_mod y.magnitude hiddenBit,
    hexponent, hfraction]

theorem ofNat_eq_of_magnitude {n m : Nat} (h : (ofNat n).magnitude = (ofNat m).magnitude) :
    ofNat n = ofNat m := by
  rw [magnitude_ofNat, magnitude_ofNat] at h
  rw [ofNat_eq, ofNat_eq m, h]

/-- Natural numbers with one whole part are one number. -/
theorem ofNat_eq_of_wholePart {n m : Nat} (h : (ofNat n).wholePart = (ofNat m).wholePart) :
    ofNat n = ofNat m := by
  by_cases hn : n < 2 ^ 53 <;> by_cases hm : m < 2 ^ 53
  · rw [wholePart_ofNat hn, wholePart_ofNat hm] at h
    rw [h]
  · have hlarge := le_wholePart (Nat.not_lt.mp hm)
    rw [← h, wholePart_ofNat hn] at hlarge
    exact absurd hn (Nat.not_lt.mpr hlarge)
  · have hlarge := le_wholePart (Nat.not_lt.mp hn)
    rw [h, wholePart_ofNat hm] at hlarge
    exact absurd hm (Nat.not_lt.mpr hlarge)
  · exact ofNat_eq_of_magnitude (magnitude_eq_of_wholePart
      (Nat.le_trans (by decide) (magnitude_ofNat_large (Nat.not_lt.mp hn)))
      (Nat.le_trans (by decide) (magnitude_ofNat_large (Nat.not_lt.mp hm))) h)

/-- The notation of a natural number: digits and a point, or else the word for infinity. -/
theorem fixedText_ofNat (n : Nat) :
    ((ofNat n).isFinite = true ∧ ((ofNat n).fixedText 6).toList =
      Nat.toDigits 10 (ofNat n).wholePart ++ '.' :: List.replicate 6 '0') ∨
    ((ofNat n).magnitude = infiniteMagnitude ∧ (ofNat n).fixedText 6 = "inf") := by
  rcases hfinite : (ofNat n).isFinite with _ | _
  · have hmagnitude : (ofNat n).magnitude = infiniteMagnitude := by
      have hle : (ofNat n).magnitude ≤ infiniteMagnitude := by
        rw [magnitude_ofNat]
        exact Nat.min_le_left _ _
      exact Nat.le_antisymm hle (Nat.not_lt.mp (of_decide_eq_false hfinite))
    refine .inr ⟨hmagnitude, ?_⟩
    unfold fixedText specialText? signText
    rw [isNaN_ofNat, isNegative_ofNat, isInfinite, hmagnitude]
    rfl
  · exact .inl ⟨rfl, fixedText_of_whole (isWhole_ofNat hfinite) (isNegative_ofNat n) (by decide)⟩

end Number

end Passage

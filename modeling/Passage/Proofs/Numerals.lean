import Passage.Machine.Inventory
import Passage.Proofs.Objects

/-!
# Natural numbers as numbers

Rules write quantities as natural numbers, and the machine holds them as binary64.
Below `2 ^ 53` nothing is lost, and beyond it no quantity comes to look like a small one:
a number with the value of a byte is the number of that byte only (`toNat_of_byte?`), and
only the number of one is the same as one (`eq_one_of_same`). From `2 ^ 1024` on all
natural numbers are infinite, so that a numeral may stop growing there
(`ofNat_of_overflow`).
-/

namespace Passage

/-! ## Rounding -/

theorem roundDiv_one (num : Nat) : roundDiv num 1 = num := by
  unfold roundDiv
  rw [Nat.mod_one, Nat.div_one]
  rfl

theorem le_roundDiv (num den : Nat) : num / den ≤ roundDiv num den := by
  unfold roundDiv
  dsimp only
  split
  · exact Nat.le_refl _
  · exact Nat.le_succ _
  · split
    · exact Nat.le_refl _
    · exact Nat.le_succ _

theorem roundDiv_le (num den : Nat) : roundDiv num den ≤ num / den + 1 := by
  unfold roundDiv
  dsimp only
  split
  · exact Nat.le_succ _
  · exact Nat.le_refl _
  · split
    · exact Nat.le_succ _
    · exact Nat.le_refl _

theorem ratioLog2_one {n : Nat} (hn : n ≠ 0) : ratioLog2 n 1 = n.log2 := by
  unfold ratioLog2
  have hguess : ((n.log2 : Int) - (1 : Nat).log2) = n.log2 := by
    rw [show (1 : Nat).log2 = 0 from rfl]
    omega
  have hneg : (-(n.log2 : Int)).toNat = 0 := by omega
  have hpos : (n.log2 : Int).toNat = n.log2 := by omega
  dsimp only
  rw [hguess, hneg, hpos, Nat.shiftLeft_zero, Nat.one_shiftLeft,
    if_neg (Nat.not_lt.mpr (Nat.log2_self_le hn))]

namespace Number

/-! ## The word of a natural number -/

/-- The significand of a natural number on the binary grid. -/
def rounded (n : Nat) : Nat := roundDiv (n <<< (52 - n.log2)) (1 <<< (n.log2 - 52))

/-- The magnitude of a natural number, before it is cut off at infinity: its exponent
above its significand. -/
def scale (n : Nat) : Nat := if n = 0 then 0 else (n.log2 + 1022) * hiddenBit + rounded n

theorem hiddenBit_eq : hiddenBit = 2 ^ 52 := by decide

theorem infiniteMagnitude_eq : infiniteMagnitude = 2047 * hiddenBit := by decide

theorem ofNat_eq (n : Nat) : ofNat n = ofMagnitude false (min infiniteMagnitude (scale n)) := by
  by_cases hn : n = 0
  · subst hn
    rfl
  have hunit : max ((n.log2 : Int) - 52) (-1074) = n.log2 - 52 := by omega
  have hneg : (-((n.log2 : Int) - 52)).toNat = 52 - n.log2 := by omega
  have hpos : ((n.log2 : Int) - 52).toNat = n.log2 - 52 := by omega
  have hexponent : ((n.log2 : Int) - 52 + 1074).toNat = n.log2 + 1022 := by omega
  unfold ofNat nearest scale
  rw [if_neg hn, if_neg hn]
  dsimp only
  rw [ratioLog2_one hn, hunit, hneg, hpos, hexponent]
  rfl

/-- A significand lies between the leading bit and its double. -/
theorem rounded_bounds {n : Nat} (hn : n ≠ 0) :
    hiddenBit ≤ rounded n ∧ rounded n ≤ 2 * hiddenBit := by
  have hlow := Nat.log2_self_le hn
  have hhigh : n < 2 ^ (n.log2 + 1) := Nat.lt_log2_self
  unfold rounded
  rw [Nat.shiftLeft_eq, Nat.one_shiftLeft, hiddenBit_eq]
  by_cases hsmall : n.log2 ≤ 52
  · have hshift : n.log2 - 52 = 0 := by omega
    rw [hshift, Nat.pow_zero, roundDiv_one]
    have hsplit : 2 ^ n.log2 * 2 ^ (52 - n.log2) = 2 ^ 52 := by
      rw [← Nat.pow_add]
      congr 1
      omega
    have hsplit' : 2 ^ (n.log2 + 1) * 2 ^ (52 - n.log2) = 2 * 2 ^ 52 := by
      rw [← Nat.pow_add, ← Nat.pow_succ']
      congr 1
      omega
    constructor
    · rw [← hsplit]
      exact Nat.mul_le_mul_right _ hlow
    · rw [← hsplit']
      exact Nat.mul_le_mul_right _ (Nat.le_of_lt hhigh)
  · have hshift : 52 - n.log2 = 0 := by omega
    rw [hshift, Nat.pow_zero, Nat.mul_one]
    have hsplit : 2 ^ 52 * 2 ^ (n.log2 - 52) = 2 ^ n.log2 := by
      rw [← Nat.pow_add]
      congr 1
      omega
    have hquotient : 2 ^ 52 ≤ n / 2 ^ (n.log2 - 52) := by
      rw [Nat.le_div_iff_mul_le (Nat.two_pow_pos _), hsplit]
      exact hlow
    have hquotient' : n / 2 ^ (n.log2 - 52) < 2 * 2 ^ 52 := by
      rw [Nat.div_lt_iff_lt_mul (Nat.two_pow_pos _), Nat.mul_assoc, hsplit, ← Nat.pow_succ']
      exact hhigh
    exact ⟨Nat.le_trans hquotient (le_roundDiv _ _),
      Nat.le_trans (roundDiv_le _ _) hquotient'⟩

/-- Below `2 ^ 53` nothing is rounded. -/
theorem rounded_of_lt {n : Nat} (h : n < 2 ^ 53) : rounded n = n * 2 ^ (52 - n.log2) := by
  have hlog : n.log2 - 52 = 0 := by
    by_cases hn : n = 0
    · subst hn
      rfl
    · have hlt := (Nat.log2_lt hn).mpr h
      omega
  unfold rounded
  rw [hlog, Nat.shiftLeft_zero, roundDiv_one, Nat.shiftLeft_eq]

theorem rounded_lt_of_lt {n : Nat} (hn : n ≠ 0) (h : n < 2 ^ 53) : rounded n < 2 * hiddenBit := by
  have hhigh : n < 2 ^ (n.log2 + 1) := Nat.lt_log2_self
  have hlt := (Nat.log2_lt hn).mpr h
  rw [rounded_of_lt h, hiddenBit_eq]
  calc n * 2 ^ (52 - n.log2) < 2 ^ (n.log2 + 1) * 2 ^ (52 - n.log2) :=
        Nat.mul_lt_mul_of_pos_right hhigh (Nat.two_pow_pos _)
    _ = 2 * 2 ^ 52 := by
        rw [← Nat.pow_add, ← Nat.pow_succ']
        congr 1
        omega

/-! ## Magnitudes -/

theorem magnitude_ofMagnitude {m : Nat} (h : m ≤ infiniteMagnitude) :
    (ofMagnitude false m).magnitude = m := by
  unfold infiniteMagnitude at h
  unfold magnitude ofMagnitude
  rw [UInt64.toNat_ofNat']
  simp only [Bool.false_eq_true, if_false]
  omega

theorem isNegative_ofMagnitude {m : Nat} (h : m ≤ infiniteMagnitude) :
    (ofMagnitude false m).isNegative = false := by
  unfold infiniteMagnitude at h
  unfold isNegative ofMagnitude
  rw [UInt64.toNat_ofNat', Nat.shiftRight_eq_div_pow]
  simp only [Bool.false_eq_true, if_false, beq_eq_false_iff_ne]
  omega

theorem rank_ofMagnitude {m : Nat} (h : m ≤ infiniteMagnitude) :
    (ofMagnitude false m).rank = m := by
  rw [rank, isNegative_ofMagnitude h, magnitude_ofMagnitude h]
  rfl

theorem isNegative_ofNat (n : Nat) : (ofNat n).isNegative = false := by
  rw [ofNat_eq, isNegative_ofMagnitude (Nat.min_le_left _ _)]

theorem magnitude_ofNat (n : Nat) : (ofNat n).magnitude = min infiniteMagnitude (scale n) := by
  rw [ofNat_eq, magnitude_ofMagnitude (Nat.min_le_left _ _)]

theorem rank_ofNat (n : Nat) : (ofNat n).rank = (min infiniteMagnitude (scale n) : Nat) := by
  rw [ofNat_eq, rank_ofMagnitude (Nat.min_le_left _ _)]

/-- Natural numbers are numbers. -/
theorem isNaN_ofNat (n : Nat) : (ofNat n).isNaN = false := by
  rw [isNaN, magnitude_ofNat]
  exact decide_eq_false (Nat.not_lt.mpr (Nat.min_le_left _ _))

theorem ofNumber_ofNat (n : Nat) : Object.ofNumber (ofNat n) = .ok ⟨(ofNat n).bits⟩ := by
  rw [Object.ofNumber, isNaN_ofNat]
  rfl

theorem scale_of_ne_zero {n : Nat} (hn : n ≠ 0) :
    scale n = (n.log2 + 1022) * hiddenBit + rounded n :=
  if_neg hn

/-- The larger exponent is the larger magnitude. -/
theorem le_scale {n : Nat} {e : Nat} (h : 2 ^ e ≤ n) : (e + 1023) * hiddenBit ≤ scale n := by
  have hn : n ≠ 0 := by
    have hpos := Nat.two_pow_pos e
    omega
  have hlog : e ≤ n.log2 := (Nat.le_log2 hn).mpr h
  obtain ⟨hlow, -⟩ := rounded_bounds hn
  calc (e + 1023) * hiddenBit ≤ (n.log2 + 1022 + 1) * hiddenBit :=
        Nat.mul_le_mul_right _ (by omega)
    _ = (n.log2 + 1022) * hiddenBit + hiddenBit := Nat.succ_mul _ _
    _ ≤ (n.log2 + 1022) * hiddenBit + rounded n := Nat.add_le_add_left hlow _
    _ = scale n := (scale_of_ne_zero hn).symm

theorem scale_lt {n : Nat} {e : Nat} (h : n < 2 ^ e) (he : e ≤ 53) :
    scale n < (e + 1023) * hiddenBit := by
  by_cases hn : n = 0
  · subst hn
    unfold scale hiddenBit
    rw [if_pos rfl]
    omega
  · have hlog : n.log2 < e := (Nat.log2_lt hn).mpr h
    have hhigh := rounded_lt_of_lt hn (Nat.lt_of_lt_of_le h (Nat.pow_le_pow_right (by decide) he))
    rw [scale_of_ne_zero hn]
    unfold hiddenBit at *
    omega

/-! ## What is infinite -/

/-- A natural number that is too large is infinite. -/
theorem ofNat_of_overflow {n : Nat} (h : overflow ≤ n) : ofNat n = ofNat overflow := by
  have hinfinite : ∀ {k : Nat}, overflow ≤ k → min infiniteMagnitude (scale k) =
      infiniteMagnitude := by
    intro k hk
    rw [overflow, Nat.one_shiftLeft] at hk
    have hscale := le_scale hk
    rw [infiniteMagnitude_eq]
    exact Nat.min_eq_left hscale
  rw [ofNat_eq, ofNat_eq overflow, hinfinite h, hinfinite (Nat.le_refl _)]

/-! ## What is exact -/

/-- What is below `2 ^ 53` is finite. -/
theorem magnitude_ofNat_of_lt {n : Nat} (h : n < 2 ^ 53) : (ofNat n).magnitude = scale n := by
  have hlt := scale_lt h (Nat.le_refl _)
  rw [magnitude_ofNat, infiniteMagnitude_eq]
  exact Nat.min_eq_right (by omega)

theorem significand_ofNat {n : Nat} (hn : n ≠ 0) (h : n < 2 ^ 53) :
    (ofNat n).significand = n * 2 ^ (52 - n.log2) := by
  obtain ⟨hlow, -⟩ := rounded_bounds hn
  have hhigh := rounded_lt_of_lt hn h
  rw [← rounded_of_lt h]
  unfold significand
  rw [magnitude_ofNat_of_lt h, scale_of_ne_zero hn]
  unfold hiddenBit at *
  dsimp only
  rw [if_neg (by omega)]
  omega

theorem exponent_ofNat {n : Nat} (hn : n ≠ 0) (h : n < 2 ^ 53) :
    (ofNat n).exponent = (n.log2 : Int) - 52 := by
  obtain ⟨hlow, -⟩ := rounded_bounds hn
  have hhigh := rounded_lt_of_lt hn h
  unfold exponent
  rw [magnitude_ofNat_of_lt h, scale_of_ne_zero hn]
  unfold hiddenBit at *
  rw [if_neg (by omega)]
  omega

/-- Below `2 ^ 53`, the whole part of a number is the natural number that it was made of. -/
theorem wholePart_ofNat {n : Nat} (h : n < 2 ^ 53) : (ofNat n).wholePart = n := by
  by_cases hn : n = 0
  · subst hn
    decide
  · have hlog := (Nat.log2_lt hn).mpr h
    have hup : ((n.log2 : Int) - 52).toNat = 0 := by omega
    have hdown : (-((n.log2 : Int) - 52)).toNat = 52 - n.log2 := by omega
    rw [wholePart, significand_ofNat hn h, exponent_ofNat hn h, hup, hdown, Nat.shiftLeft_zero,
      Nat.shiftRight_eq_div_pow, Nat.mul_div_cancel _ (Nat.two_pow_pos _)]

/-! ## What is beyond -/

theorem magnitude_ofNat_large {n : Nat} (h : 2 ^ 53 ≤ n) :
    1076 * hiddenBit ≤ (ofNat n).magnitude := by
  have hscale := le_scale h
  rw [magnitude_ofNat, infiniteMagnitude_eq]
  exact Nat.le_min.mpr ⟨Nat.mul_le_mul_right _ (by decide), hscale⟩

/-- A number that is large enough is whole, its significand standing in front of its
exponent. -/
theorem wholePart_of_large {x : Number} (h : 1075 * hiddenBit ≤ x.magnitude) :
    x.exponent = (x.magnitude / hiddenBit - 1075 : Nat) ∧
      x.wholePart = (hiddenBit + x.magnitude % hiddenBit) *
        2 ^ (x.magnitude / hiddenBit - 1075) := by
  have hnormal : ¬ x.magnitude < hiddenBit := by
    unfold hiddenBit at *
    omega
  have hexponent : x.exponent = (x.magnitude / hiddenBit - 1075 : Nat) := by
    unfold exponent
    rw [if_neg hnormal]
    unfold hiddenBit at *
    omega
  refine ⟨hexponent, ?_⟩
  have hup : ((x.magnitude / hiddenBit - 1075 : Nat) : Int).toNat =
      x.magnitude / hiddenBit - 1075 := Int.toNat_natCast _
  have hdown : (-((x.magnitude / hiddenBit - 1075 : Nat) : Int)).toNat = 0 := by omega
  have hsignificand : x.significand = hiddenBit + x.magnitude % hiddenBit := if_neg hnormal
  rw [wholePart, hexponent, hup, hdown, Nat.shiftRight_zero, Nat.shiftLeft_eq, hsignificand]

/-- From `2 ^ 53` on, whole parts stay there. -/
theorem le_wholePart {n : Nat} (h : 2 ^ 53 ≤ n) : 2 ^ 53 ≤ (ofNat n).wholePart := by
  have hlarge := magnitude_ofNat_large h
  obtain ⟨-, hwhole⟩ := wholePart_of_large (Nat.le_trans (by decide) hlarge)
  have hexponent : 1 ≤ (ofNat n).magnitude / hiddenBit - 1075 := by
    unfold hiddenBit at *
    omega
  rw [hwhole]
  calc 2 ^ 53 = hiddenBit * 2 ^ 1 := by decide
    _ ≤ (hiddenBit + (ofNat n).magnitude % hiddenBit) *
        2 ^ ((ofNat n).magnitude / hiddenBit - 1075) :=
      Nat.mul_le_mul (Nat.le_add_right _ _) (Nat.pow_le_pow_right (by decide) hexponent)

/-- A quantity with the value of a byte is the number of that byte. -/
theorem toNat_of_byte? {n : Nat} {k : UInt8} (h : (ofNat n).byte? = some k) : k.toNat = n := by
  unfold byte? at h
  split at h
  · rename_i hbyte
    simp only [Bool.and_eq_true, decide_eq_true_eq] at hbyte
    obtain ⟨-, hle⟩ := hbyte
    by_cases hn : n < 2 ^ 53
    · rw [wholePart_ofNat hn] at h hle
      rw [← Option.some.inj h, UInt8.toNat_ofNat']
      omega
    · have hlarge := le_wholePart (Nat.not_lt.mp hn)
      omega
  · exact absurd h nofun

/-- A whole number loses nothing where its significand is shifted to its whole part. -/
theorem significand_of_isWhole {x : Number} (h : x.isWhole = true) :
    x.significand <<< x.exponent.toNat = x.wholePart * 2 ^ (-x.exponent).toNat := by
  unfold isWhole at h
  simp only [Bool.and_eq_true, beq_iff_eq, Nat.one_shiftLeft] at h
  rw [wholePart, Nat.shiftRight_eq_div_pow]
  exact (Nat.div_mul_cancel (Nat.dvd_of_mod_eq_zero h.2)).symm

/-- The leading bit of a significand is that of the whole part behind it. -/
theorem log2_of_significand {fraction whole places : Nat} (hfraction : fraction < hiddenBit)
    (h : hiddenBit + fraction = whole * 2 ^ places) :
    whole ≠ 0 ∧ places ≤ 52 ∧ whole.log2 = 52 - places := by
  have hwhole : whole ≠ 0 := by
    rintro rfl
    unfold hiddenBit at h
    omega
  have hplaces : places ≤ 52 := by
    have hle := Nat.le_mul_of_pos_left (2 ^ places) (Nat.pos_of_ne_zero hwhole)
    have hpow : 2 ^ places < 2 ^ 53 := by
      unfold hiddenBit at *
      omega
    exact Nat.le_of_lt_succ ((Nat.pow_lt_pow_iff_right (by decide)).mp hpow)
  have hsplit : 2 ^ (52 - places) * 2 ^ places = hiddenBit := by
    rw [← Nat.pow_add, Nat.sub_add_cancel hplaces, hiddenBit_eq]
  refine ⟨hwhole, hplaces, (Nat.log2_eq_iff hwhole).mpr ⟨?_, ?_⟩⟩
  · refine Nat.le_of_mul_le_mul_right ?_ (Nat.two_pow_pos places)
    rw [hsplit, ← h]
    exact Nat.le_add_right _ _
  · refine Nat.lt_of_mul_lt_mul_right (a := 2 ^ places) ?_
    rw [Nat.pow_succ, Nat.mul_right_comm, hsplit, ← h]
    omega

/-- A whole number with a whole part below `2 ^ 52` has the magnitude of that natural number. -/
theorem magnitude_of_isWhole {x : Number} (hwhole : x.isWhole = true)
    (hlt : x.wholePart < 2 ^ 52) : x.magnitude = scale x.wholePart := by
  have hexact := significand_of_isWhole hwhole
  by_cases hsubnormal : x.magnitude < hiddenBit
  · have hexponent : x.exponent = -1074 := if_pos hsubnormal
    have hsignificand : x.significand = x.magnitude := by
      unfold significand
      dsimp only
      rw [if_pos hsubnormal, Nat.mod_eq_of_lt hsubnormal]
    have hdown : 52 ≤ (-x.exponent).toNat := by omega
    have hup : x.exponent.toNat = 0 := by omega
    rw [hup, hsignificand, Nat.shiftLeft_zero] at hexact
    -- A magnitude below the leading bit is no multiple of a power above it, but zero.
    have hzero : x.wholePart = 0 := by
      refine Nat.eq_zero_of_not_pos fun hpos => ?_
      have hle := Nat.le_mul_of_pos_left (2 ^ (-x.exponent).toNat) hpos
      have hpow : hiddenBit ≤ 2 ^ (-x.exponent).toNat :=
        hiddenBit_eq ▸ Nat.pow_le_pow_right (by decide) hdown
      rw [← hexact] at hle
      exact Nat.not_le_of_lt hsubnormal (Nat.le_trans hpow hle)
    rw [hexact, hzero, Nat.zero_mul]
    rfl
  · by_cases hlarge : 1075 * hiddenBit ≤ x.magnitude
    · have hlow : 2 ^ 52 ≤ x.wholePart := by
        rw [(wholePart_of_large hlarge).2, ← hiddenBit_eq]
        exact Nat.le_trans (Nat.le_add_right _ _) (Nat.le_mul_of_pos_right _ (Nat.two_pow_pos _))
      omega
    · have hfraction : x.magnitude % hiddenBit < hiddenBit := Nat.mod_lt _ (by decide)
      have hexponent : x.exponent = (x.magnitude / hiddenBit : Nat) - 1075 := if_neg hsubnormal
      have hsignificand : x.significand = hiddenBit + x.magnitude % hiddenBit := if_neg hsubnormal
      have hup : x.exponent.toNat = 0 := by
        unfold hiddenBit at *
        omega
      have hdown : x.magnitude / hiddenBit + (-x.exponent).toNat = 1075 := by
        unfold hiddenBit at *
        omega
      rw [hup, hsignificand, Nat.shiftLeft_zero] at hexact
      obtain ⟨hpos, hplaces, hlog⟩ := log2_of_significand hfraction hexact
      have hback : 52 - (52 - (-x.exponent).toNat) = (-x.exponent).toNat := by omega
      rw [scale_of_ne_zero hpos, rounded_of_lt (by omega), hlog, hback, ← hexact]
      unfold hiddenBit at *
      omega

/-- A number with the value of a byte is the same quantity as the number of that byte, also
if it is the negative zero. -/
theorem same_of_byte? {x : Number} {k : UInt8} (h : x.byte? = some k) :
    x.same (ofNat k.toNat) = true := by
  unfold byte? at h
  split at h
  · rename_i hbyte
    simp only [Bool.and_eq_true, decide_eq_true_eq] at hbyte
    obtain ⟨⟨hwhole, hrank⟩, hle⟩ := hbyte
    have hk : k.toNat = x.wholePart := by
      rw [← Option.some.inj h, UInt8.toNat_ofNat']
      omega
    have hnan : x.isNaN = false := by
      unfold isWhole at hwhole
      have hfinite : x.isFinite = true := (Bool.and_eq_true_iff.mp hwhole).1
      exact decide_eq_false (Nat.lt_asymm (of_decide_eq_true hfinite))
    have hpositive : x.rank = x.magnitude := by
      unfold rank at hrank ⊢
      by_cases hsign : x.isNegative = true
      · rw [if_pos hsign] at hrank ⊢
        omega
      · exact if_neg hsign
    have hsame : x.rank = (ofNat k.toNat).rank := by
      rw [hpositive, magnitude_of_isWhole hwhole (by omega), rank_ofNat, ← magnitude_ofNat,
        magnitude_ofNat_of_lt (by omega), hk]
    rw [same, hnan, isNaN_ofNat, hsame, beq_self_eq_true]
    rfl
  · exact absurd h nofun

/-- Only one is the same quantity as one. -/
theorem eq_one_of_same {n : Nat} (h : (ofNat n).same (ofNat 1) = true) : n = 1 := by
  unfold same at h
  rw [rank_ofNat, rank_ofNat, Bool.and_eq_true, beq_iff_eq, Int.ofNat_inj] at h
  have hrank := h.2
  by_cases hn : n < 2 ^ 53
  · have hsame : ofNat n = ofNat 1 := by rw [ofNat_eq, ofNat_eq 1, hrank]
    have hwhole := congrArg wholePart hsame
    rwa [wholePart_ofNat hn, wholePart_ofNat (by decide)] at hwhole
  · have hscale := le_scale (Nat.not_lt.mp hn)
    have hone : scale 1 = 1023 * hiddenBit := by decide
    rw [hone, infiniteMagnitude_eq] at hrank
    unfold hiddenBit at *
    omega

/-! ## Order -/

theorem scale_lt_scale {n m : Nat} (h : n < m) (hm : m < 2 ^ 53) : scale n < scale m := by
  have hm0 : m ≠ 0 := Nat.ne_zero_of_lt h
  have hlow := Nat.log2_self_le hm0
  have hhigh : m < 2 ^ (m.log2 + 1) := Nat.lt_log2_self
  have hlog : m.log2 < 53 := (Nat.log2_lt hm0).mpr hm
  by_cases hn : n < 2 ^ m.log2
  · -- The exponent of the smaller number is smaller.
    exact Nat.lt_of_lt_of_le (scale_lt hn (Nat.le_of_lt hlog)) (le_scale hlow)
  · -- The exponents agree, and the significands decide.
    have hn0 : n ≠ 0 := by
      have hpos := Nat.two_pow_pos m.log2
      omega
    have hsame : n.log2 = m.log2 :=
      (Nat.log2_eq_iff hn0).mpr ⟨Nat.not_lt.mp hn, Nat.lt_trans h hhigh⟩
    rw [scale_of_ne_zero hn0, scale_of_ne_zero hm0, rounded_of_lt (Nat.lt_trans h hm),
      rounded_of_lt hm, hsame]
    exact Nat.add_lt_add_left (Nat.mul_lt_mul_of_pos_right h (Nat.two_pow_pos _)) _

/-- Below `2 ^ 53`, a count is at least a quantity where the natural numbers say so. -/
theorem atMost_ofNat (n : Nat) {count : Nat} (h : count < 2 ^ 53) :
    (ofNat n).atMost (ofNat count) = decide (n ≤ count) := by
  have hcount : min infiniteMagnitude (scale count) = scale count := by
    rw [← magnitude_ofNat, magnitude_ofNat_of_lt h]
  unfold atMost
  rw [isNaN_ofNat, isNaN_ofNat, rank_ofNat, rank_ofNat, hcount]
  simp only [Bool.not_false, Bool.true_and, Int.ofNat_le]
  refine decide_eq_decide.mpr ⟨fun hle => ?_, fun hle => ?_⟩
  · refine Nat.not_lt.mp fun hlt => ?_
    by_cases hn : n < 2 ^ 53
    · have hscale := scale_lt_scale hlt hn
      have hfinite := scale_lt hn (Nat.le_refl _)
      rw [infiniteMagnitude_eq] at hle
      omega
    · have hscale := le_scale (Nat.not_lt.mp hn)
      have hfinite := scale_lt h (Nat.le_refl _)
      rw [infiniteMagnitude_eq] at hle
      unfold hiddenBit at *
      omega
  · obtain hlt | rfl := Nat.lt_or_eq_of_le hle
    · exact Nat.le_trans (Nat.min_le_right _ _) (Nat.le_of_lt (scale_lt_scale hlt h))
    · exact Nat.min_le_right _ _

end Number

end Passage

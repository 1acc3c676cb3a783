import Mathlib
import Passage.Pass.Fold

/-!
# The order of numbers and texts

Numbers are compared by an integer that is read off their bits. That is the order of the values
they stand for: of the rational numbers, with an infinity at either end, while NaN stands for
nothing (`Number.same_iff`, `Number.less_iff`). Texts are compared by their characters, which is
the order of their bytes (`lt_iff_bytesOf_lt`).
-/

namespace Passage

/-! ## Numbers -/

namespace Number

/-- The value of a finite number. -/
def value (x : Number) : ℚ :=
  (if x.isNegative then -1 else 1) * (x.significand * 2 ^ x.exponent)

/-- What a number stands for on the extended line: a value or an infinity. NaN stands for
nothing. -/
def meaning? (x : Number) : Option (WithBot (WithTop ℚ)) :=
  if x.isNaN then none
  else if x.isInfinite then
    some (if x.isNegative then ⊥ else ((⊤ : WithTop ℚ) : WithBot (WithTop ℚ)))
  else some ((x.value : WithTop ℚ) : WithBot (WithTop ℚ))

/-- Both numbers stand for one value. -/
def Equals (x y : Number) : Prop := ∃ v, x.meaning? = some v ∧ y.meaning? = some v

/-- Both numbers stand for values, the first one for the smaller. -/
def Precedes (x y : Number) : Prop :=
  ∃ v v', x.meaning? = some v ∧ y.meaning? = some v' ∧ v < v'

/-- The significand and the exponent that a magnitude encodes. -/
def scaledAt (magnitude : Nat) : Nat × ℤ :=
  if magnitude < hiddenBit then (magnitude % hiddenBit, -1074)
  else (hiddenBit + magnitude % hiddenBit, (magnitude / hiddenBit : Nat) - 1075)

/-- The absolute value that a magnitude encodes. -/
def absolute (magnitude : Nat) : ℚ := (scaledAt magnitude).1 * 2 ^ (scaledAt magnitude).2

/-- From one magnitude to the next, the significand goes up by one, or is halved with twice the
scale. -/
theorem scaledAt_succ (n : Nat) :
    scaledAt (n + 1) = ((scaledAt n).1 + 1, (scaledAt n).2) ∨
      2 * (scaledAt (n + 1)).1 = (scaledAt n).1 + 1 ∧
        (scaledAt (n + 1)).2 = (scaledAt n).2 + 1 := by
  unfold scaledAt
  obtain hsame | hlast : n % hiddenBit + 1 < hiddenBit ∨ n % hiddenBit + 1 = hiddenBit := by
    unfold hiddenBit
    omega
  · have hdiv : (n + 1) / hiddenBit = n / hiddenBit := by unfold hiddenBit at *; omega
    have hmod : (n + 1) % hiddenBit = n % hiddenBit + 1 := by unfold hiddenBit at *; omega
    have hlow : n + 1 < hiddenBit ↔ n < hiddenBit := by unfold hiddenBit at *; omega
    simp only [hdiv, hmod, hlow]
    left
    split <;> rfl
  · have hdiv : (n + 1) / hiddenBit = n / hiddenBit + 1 := by unfold hiddenBit at *; omega
    have hmod : (n + 1) % hiddenBit = 0 := by unfold hiddenBit at *; omega
    have hhigh : ¬ n + 1 < hiddenBit := by unfold hiddenBit at *; omega
    rw [if_neg hhigh, hdiv, hmod]
    split
    -- The first numbers with a leading bit have the scale of those without it.
    · have hzero : n / hiddenBit = 0 := Nat.div_eq_of_lt ‹_›
      rw [hzero, hlast]
      exact .inl rfl
    · right
      constructor
      · omega
      · push_cast
        ring

theorem absolute_strictMono : StrictMono absolute := by
  refine strictMono_nat_of_lt_succ fun n => ?_
  have hstep : absolute (n + 1) = absolute n + 2 ^ (scaledAt n).2 := by
    unfold absolute
    obtain h | ⟨hsig, hexp⟩ := scaledAt_succ n
    · rw [h]
      push_cast
      ring
    · rw [hexp, zpow_add_one₀ two_ne_zero]
      have hsig' : (2 : ℚ) * (scaledAt (n + 1)).1 = (scaledAt n).1 + 1 := by exact_mod_cast hsig
      linear_combination (2 : ℚ) ^ (scaledAt n).2 * hsig'
  rw [hstep]
  exact lt_add_of_pos_right _ (zpow_pos two_pos _)

theorem absolute_zero : absolute 0 = 0 := by
  unfold absolute scaledAt hiddenBit
  norm_num

/-- The value at a rank. -/
def valueAt (rank : ℤ) : ℚ := rank.sign * absolute rank.natAbs

theorem valueAt_natCast (n : Nat) : valueAt n = absolute n := by
  unfold valueAt
  rcases n with _ | n
  · rw [Int.natAbs_natCast, absolute_zero, mul_zero]
  · rw [Int.sign_natCast_of_ne_zero n.succ_ne_zero, Int.natAbs_natCast, Int.cast_one, one_mul]

theorem valueAt_neg (rank : ℤ) : valueAt (-rank) = -valueAt rank := by
  unfold valueAt
  rw [Int.sign_neg, Int.natAbs_neg, Int.cast_neg, neg_mul]

theorem valueAt_strictMono : StrictMono valueAt := by
  refine strictMono_of_odd_strictMonoOn_nonneg valueAt_neg fun r hr r' hr' hlt => ?_
  obtain ⟨n, rfl⟩ := Int.eq_ofNat_of_zero_le hr
  obtain ⟨n', rfl⟩ := Int.eq_ofNat_of_zero_le hr'
  rw [valueAt_natCast, valueAt_natCast]
  exact absolute_strictMono (Int.ofNat_lt.mp hlt)

theorem value_eq (x : Number) : x.value = valueAt x.rank := by
  have habs : (x.significand : ℚ) * 2 ^ x.exponent = absolute x.magnitude := by
    unfold absolute scaledAt significand exponent
    split <;> rfl
  unfold value
  rw [habs, ← valueAt_natCast]
  unfold rank
  split
  · rw [valueAt_neg, neg_one_mul]
  · rw [one_mul]

/-- What stands at a rank between the infinities. -/
def placeAt (rank : ℤ) : WithBot (WithTop ℚ) :=
  if rank ≤ -infiniteMagnitude then ⊥
  else if infiniteMagnitude ≤ rank then ((⊤ : WithTop ℚ) : WithBot (WithTop ℚ))
  else ((valueAt rank : WithTop ℚ) : WithBot (WithTop ℚ))

theorem placeAt_lt {r r' : ℤ} (hr : -infiniteMagnitude ≤ r) (hr' : r' ≤ infiniteMagnitude)
    (h : r < r') : placeAt r < placeAt r' := by
  unfold placeAt
  rw [if_neg (show ¬ r' ≤ -infiniteMagnitude by omega),
    if_neg (show ¬ (infiniteMagnitude : ℤ) ≤ r by omega)]
  split <;> split
  · exact WithBot.bot_lt_coe _
  · exact WithBot.bot_lt_coe _
  · exact WithBot.coe_lt_coe.mpr (WithTop.coe_lt_top _)
  · exact WithBot.coe_lt_coe.mpr (WithTop.coe_lt_coe.mpr (valueAt_strictMono h))

variable {x y : Number}

theorem rank_bounds (h : x.isNaN = false) :
    -infiniteMagnitude ≤ x.rank ∧ x.rank ≤ infiniteMagnitude := by
  have hle : x.magnitude ≤ infiniteMagnitude := Nat.le_of_not_lt (of_decide_eq_false h)
  unfold rank
  split <;> omega

/-- What a number stands for is found by its rank. -/
theorem meaning?_eq (h : x.isNaN = false) : x.meaning? = some (placeAt x.rank) := by
  have hle : x.magnitude ≤ infiniteMagnitude := Nat.le_of_not_lt (of_decide_eq_false h)
  have hpos : 0 < infiniteMagnitude := by decide
  unfold meaning? placeAt
  rw [if_neg (by simp [h])]
  obtain hfinite | hinfinite := hle.lt_or_eq
  · have hbounds : -infiniteMagnitude < x.rank ∧ x.rank < infiniteMagnitude := by
      unfold rank
      split <;> omega
    rw [if_neg (show ¬ x.isInfinite = true by simp [isInfinite, hfinite.ne]),
      if_neg hbounds.1.not_ge, if_neg hbounds.2.not_ge, value_eq]
  · rw [if_pos (show x.isInfinite = true by simp [isInfinite, hinfinite])]
    unfold rank
    rw [hinfinite]
    split
    · rw [if_pos (le_refl _)]
    · rw [if_neg (by omega), if_pos (le_refl _)]

theorem meaning?_of_isNaN (h : x.isNaN = true) : x.meaning? = none := by
  rw [meaning?, if_pos h]

/-- A comparison that NaN fails compares the ranks of numbers that stand for something. -/
theorem compare_ranks_iff (related : ℤ → ℤ → Bool)
    (R : WithBot (WithTop ℚ) → WithBot (WithTop ℚ) → Prop)
    (hplaces : x.isNaN = false → y.isNaN = false →
      (related x.rank y.rank = true ↔ R (placeAt x.rank) (placeAt y.rank))) :
    (!x.isNaN && !y.isNaN && related x.rank y.rank) = true ↔
      ∃ v v', x.meaning? = some v ∧ y.meaning? = some v' ∧ R v v' := by
  rcases hx : x.isNaN with _ | _
  · rcases hy : y.isNaN with _ | _
    · rw [meaning?_eq hx, meaning?_eq hy]
      simpa using hplaces hx hy
    · rw [meaning?_of_isNaN hy]
      simp
  · rw [meaning?_of_isNaN hx]
    simp

/-- Numbers are the same if they stand for one value. -/
theorem same_iff : x.same y = true ↔ x.Equals y := by
  have hplaces (hx : x.isNaN = false) (hy : y.isNaN = false) :
      (x.rank == y.rank) = true ↔ placeAt x.rank = placeAt y.rank := by
    rw [beq_iff_eq]
    refine ⟨congrArg placeAt, fun heq => ?_⟩
    obtain hlt | hrank | hlt := lt_trichotomy x.rank y.rank
    · exact absurd heq (placeAt_lt (rank_bounds hx).1 (rank_bounds hy).2 hlt).ne
    · exact hrank
    · exact absurd heq (placeAt_lt (rank_bounds hy).1 (rank_bounds hx).2 hlt).ne'
  exact (compare_ranks_iff (· == ·) (· = ·) hplaces).trans
    ⟨fun ⟨v, _, hv, hv', heq⟩ => ⟨v, hv, heq ▸ hv'⟩, fun ⟨v, hv, hv'⟩ => ⟨v, v, hv, hv', rfl⟩⟩

/-- One number is less than another one if the value it stands for is. -/
theorem less_iff : x.less y = true ↔ x.Precedes y := by
  have hplaces (hx : x.isNaN = false) (hy : y.isNaN = false) :
      decide (x.rank < y.rank) = true ↔ placeAt x.rank < placeAt y.rank := by
    rw [decide_eq_true_iff]
    refine ⟨placeAt_lt (rank_bounds hx).1 (rank_bounds hy).2, fun hlt => ?_⟩
    by_contra hge
    obtain hrank | hlt' := (not_lt.mp hge).eq_or_lt
    · exact hlt.ne (congrArg placeAt hrank.symm)
    · exact hlt.asymm (placeAt_lt (rank_bounds hy).1 (rank_bounds hx).2 hlt')
  exact compare_ranks_iff (fun r r' => decide (r < r')) (· < ·) hplaces

end Number

/-! ## Texts -/

/-- The bytes of a text. -/
def bytesOf (s : String) : List UInt8 := s.toUTF8.data.toList

theorem bytesOf_eq (s : String) : bytesOf s = s.toList.flatMap String.utf8EncodeChar := by
  rw [bytesOf, String.toUTF8_eq_toByteArray, ← String.utf8Encode_toList, List.utf8Encode,
    List.toList_data_toByteArray]

/-- The bytes differ before one of the lists ends, first where those on the left are less. -/
def Before : List UInt8 → List UInt8 → Prop
  | x :: xs, y :: ys => x < y ∨ x = y ∧ Before xs ys
  | _, _ => False

theorem Before.append_lt {xs ys : List UInt8} (h : Before xs ys) (xs' ys' : List UInt8) :
    xs ++ xs' < ys ++ ys' := by
  induction xs generalizing ys with
  | nil => exact h.elim
  | cons x xs ih =>
    cases ys with
    | nil => exact h.elim
    | cons y ys =>
      obtain hlt | ⟨rfl, hrest⟩ := h
      · exact List.Lex.rel hlt
      · exact List.Lex.cons (ih hrest)

/-- Of two characters, the one with the smaller code comes first. -/
theorem before_of_char_lt {c d : Char} (h : c < d) :
    Before (String.utf8EncodeChar c) (String.utf8EncodeChar d) := by
  have hlt : c.val.toNat < d.val.toNat := h
  have hmax : d.val.toNat < 0x110000 := by
    have := d.valid
    rcases this with h | h <;> omega
  unfold String.utf8EncodeChar
  generalize c.val.toNat = m at hlt
  generalize d.val.toNat = n at hlt hmax
  dsimp only
  -- The first byte tells how many there are, and more of them come with greater codes.
  repeat' split
  all_goals
    simp only [Before, UInt8.lt_iff_toNat_lt, ← UInt8.toNat_inj, UInt8.toNat_ofNat']
    try simp (disch := omega) only [Nat.mod_eq_of_lt]
    omega

theorem flatMap_lt_of_lt {cs ds : List Char} (h : cs < ds) :
    cs.flatMap String.utf8EncodeChar < ds.flatMap String.utf8EncodeChar := by
  induction h with
  | @nil d ds =>
    rw [List.flatMap_nil]
    obtain ⟨byte, rest, hbytes⟩ := List.exists_cons_of_ne_nil
      (show (d :: ds).flatMap String.utf8EncodeChar ≠ [] by simp)
    rw [hbytes]
    exact List.nil_lt_cons byte rest
  | @rel c cs d ds hlt =>
    rw [List.flatMap_cons, List.flatMap_cons]
    exact (before_of_char_lt hlt).append_lt _ _
  | @cons c cs ds _ ih =>
    rw [List.flatMap_cons, List.flatMap_cons]
    exact List.append_left_lt ih

/-- The order of texts is that of their bytes. -/
theorem lt_iff_bytesOf_lt (s t : String) : s < t ↔ bytesOf s < bytesOf t := by
  have hlt : ∀ {s t : String}, s < t → bytesOf s < bytesOf t := by
    intro s t h
    rw [bytesOf_eq, bytesOf_eq]
    exact flatMap_lt_of_lt h
  refine ⟨hlt, fun h => ?_⟩
  obtain hst | rfl | hts := lt_trichotomy s t
  · exact hst
  · exact absurd h (List.lt_irrefl _)
  · exact absurd (hlt hts) (List.lt_asymm h)

/-! ## Comparisons -/

/-- What a comparison says of two things, from their equality and their order. -/
def Comparison.Relates (op : Comparison) (same less : Prop) : Prop :=
  match op with
  | .equal => same
  | .unequal => ¬ same
  | .less => less

theorem Comparison.decide_iff (op : Comparison) {same less : Bool} {Same Less : Prop}
    (hsame : same = true ↔ Same) (hless : less = true ↔ Less) :
    op.decide same less = true ↔ op.Relates Same Less := by
  cases op with
  | equal => exact hsame
  | unequal =>
    rw [Comparison.Relates, ← hsame, Comparison.decide, Bool.not_eq_true', Bool.not_eq_true]
  | less => exact hless

end Passage

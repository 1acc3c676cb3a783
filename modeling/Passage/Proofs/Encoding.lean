import Mathlib
import Passage.Snapshot.Varint

/-!
# Encodings

A decoder reads an encoding (`Decodes`) where it takes exactly these bytes in front of
whatever follows, and where no shorter part of them is enough. Encodings that are read
one behind the other are read as a whole (`Decodes.bind`), so a record, a sequence or a
text is read because its parts are.

Numbers come first: a number is read in a width that holds it (`decodes_varint`).
-/

namespace Passage.Snapshot

variable {α β : Type}

/-- In front of whatever follows, the decoder takes the bytes and gives the value; of no
proper part of the bytes does it give any. -/
structure Decodes (d : Decoder α) (bytes : List UInt8) (x : α) : Prop where
  whole : ∀ rest, d (bytes ++ rest) = .ok (x, rest)
  part : ∀ front back, bytes = front ++ back → back ≠ [] → ∃ e, d front = .error e

namespace Decodes

variable {d : Decoder α} {bytes : List UInt8} {x : α}

theorem pure (x : α) : Decodes (fun bytes => .ok (x, bytes)) [] x where
  whole _ := rfl
  part _ _ h hback := absurd (List.append_eq_nil_iff.mp h.symm).2 hback

/-- What is read behind other bytes. A part of both encodings ends inside the first one, or
behind it and inside the second. -/
theorem bind {k : α × List UInt8 → Except SnapshotError (β × List UInt8)} {more : List UInt8}
    {y : β} (h : Decodes d bytes x) (hk : Decodes (fun rest => k (x, rest)) more y) :
    Decodes (fun bytes => d bytes >>= k) (bytes ++ more) y where
  whole rest := by
    rw [List.append_assoc, h.whole]
    exact hk.whole rest
  part front back hsplit hback := by
    obtain ⟨beyond, rfl, hmore⟩ | ⟨missing, hbytes, -⟩ := List.append_eq_append_iff.mp hsplit
    · rw [h.whole beyond]
      exact hk.part beyond back hmore hback
    · rcases missing with _ | ⟨byte, missing⟩
      · obtain rfl := hbytes.trans (List.append_nil front)
        obtain rfl : more = back := List.append_cancel_left hsplit
        have hnone := h.whole []
        rw [List.append_nil] at hnone
        rw [hnone]
        exact hk.part [] more rfl hback
      · obtain ⟨e, he⟩ := h.part front _ hbytes (List.cons_ne_nil _ _)
        exact ⟨e, by rw [he]; rfl⟩

/-- What is read and then put into another form, which takes no more bytes. -/
theorem finish {k : α × List UInt8 → Except SnapshotError (β × List UInt8)} {y : β}
    (h : Decodes d bytes x) (hk : ∀ rest, k (x, rest) = .ok (y, rest)) :
    Decodes (fun bytes => d bytes >>= k) bytes y := by
  have hpure : Decodes (fun rest => k (x, rest)) [] y := by
    rw [funext hk]
    exact .pure y
  have hbind := h.bind hpure
  rwa [List.append_nil] at hbind

end Decodes

/-! ## Numbers -/

/-- A digit and those above it, in their places. -/
theorem digit_add_shift (n shift value : Nat) :
    value + (n % 128) <<< shift + (n / 128) <<< (shift + 7) = value + n <<< shift := by
  rw [Nat.shiftLeft_eq, Nat.shiftLeft_eq, Nat.shiftLeft_eq, Nat.pow_add]
  have hn := Nat.div_add_mod n 128
  calc value + n % 128 * 2 ^ shift + n / 128 * (2 ^ shift * 2 ^ 7)
      = value + (128 * (n / 128) + n % 128) * 2 ^ shift := by ring
    _ = value + n * 2 ^ shift := by rw [hn]

theorem toNat_ofNat {n : Nat} (h : n < 256) : (UInt8.ofNat n).toNat = n := by
  rw [UInt8.toNat_ofNat']
  exact Nat.mod_eq_of_lt h

/-- A byte that ends a number is read as its last digit. -/
theorem decodes_last {last shift value left n : Nat} (hn : n < 128) (hlast : left = 0 → n ≤ last) :
    Decodes (readVarint last shift value (left + 1)) [UInt8.ofNat n] (value + n <<< shift) where
  whole rest := by
    have hbyte : (UInt8.ofNat n).toNat = n := toNat_ofNat (by omega)
    have hfits : (left = 0 && last < n) = false := by
      simp only [Bool.and_eq_false_imp, decide_eq_true_eq, decide_eq_false_iff_not, Nat.not_lt]
      exact hlast
    rw [List.singleton_append, readVarint, hbyte, if_pos hn, Nat.mod_eq_of_lt hn]
    simp only [hfits, Bool.false_eq_true, if_false]
  part front back hsplit hback := by
    rcases front with _ | ⟨byte, front⟩
    · exact ⟨.unexpectedEnd, rfl⟩
    · obtain ⟨-, hrest⟩ := List.cons.inj hsplit
      exact absurd (List.append_eq_nil_iff.mp hrest.symm).2 hback

/-- A number is read in a width that holds it: its digits but the last take seven bits each,
and what is then left of it is at most `last`. -/
theorem decodes_varintWithin {last : Nat} (hlast : last < 128) {left : Nat} :
    ∀ {fuel n : Nat}, left ≤ fuel → n < (last + 1) * 128 ^ left → ∀ shift value,
      Decodes (readVarint last shift value (left + 1)) (varintWithin fuel n)
        (value + n <<< shift) := by
  induction left with
  | zero =>
    intro fuel n _ hn shift value
    have hsmall : n < 128 := by omega
    have hwritten : varintWithin fuel n = [UInt8.ofNat n] := by
      cases fuel with
      | zero => rfl
      | succ fuel => rw [varintWithin, if_pos hsmall]
    rw [hwritten]
    exact decodes_last hsmall fun _ => by omega
  | succ left ih =>
    intro fuel n hfuel hn shift value
    obtain ⟨fuel, rfl⟩ : ∃ fuel', fuel = fuel' + 1 := ⟨fuel - 1, by omega⟩
    rw [varintWithin]
    split
    · next hsmall => exact decodes_last hsmall nofun
    · have hdiv : n / 128 < (last + 1) * 128 ^ left := by
        rw [Nat.pow_succ, ← Nat.mul_assoc] at hn
        exact Nat.div_lt_of_lt_mul (by rwa [Nat.mul_comm])
      have hrest := ih (Nat.le_of_succ_le_succ hfuel) hdiv (shift + 7)
        (value + (n % 128) <<< shift)
      rw [digit_add_shift] at hrest
      have hbyte : (UInt8.ofNat (n % 128 + 128)).toNat = n % 128 + 128 :=
        toNat_ofNat (by omega)
      have hdigit : (n % 128 + 128) % 128 = n % 128 := by omega
      -- The byte goes on, so what is read behind it decides.
      have hread : ∀ bytes, readVarint last shift value (left + 1 + 1)
          (UInt8.ofNat (n % 128 + 128) :: bytes) =
            readVarint last (shift + 7) (value + (n % 128) <<< shift) (left + 1) bytes := by
        intro bytes
        rw [readVarint, hbyte, if_neg (by omega), hdigit]
      refine ⟨fun rest => ?_, fun front back hsplit hback => ?_⟩
      · rw [List.cons_append, hread]
        exact hrest.whole rest
      · rcases front with _ | ⟨byte, front⟩
        · exact ⟨.unexpectedEnd, rfl⟩
        · obtain ⟨rfl, hmore⟩ := List.cons.inj hsplit
          rw [hread]
          exact hrest.part front back hmore hback

/-- A number is read in each width that holds it. -/
theorem decodes_varint {last left n : Nat} (hlast : last < 128) (hleft : left ≤ 9)
    (hn : n < (last + 1) * 128 ^ left) :
    Decodes (readVarint last 0 0 (left + 1)) (varint n) n := by
  have h := decodes_varintWithin hlast hleft hn 0 0
  rwa [Nat.zero_add, Nat.shiftLeft_zero] at h

theorem decodes_nat16 {n : Nat} (h : n < 2 ^ 16) : Decodes nat16 (varint n) n :=
  decodes_varint (by decide) (by decide) h

theorem decodes_nat32 {n : Nat} (h : n < 2 ^ 32) : Decodes nat32 (varint n) n :=
  decodes_varint (by decide) (by decide) h

theorem decodes_nat64 {n : Nat} (h : n < 2 ^ 64) : Decodes nat64 (varint n) n :=
  decodes_varint (by decide) (by decide) h

theorem unzigzag_zigzag (n : Int) : unzigzag (zigzag n) = n := by
  unfold zigzag unzigzag
  split <;> split <;> omega

/-- A signed number of 32 bits is folded onto the naturals of 32 bits. -/
theorem zigzag_lt {n : Int} (hlow : -2 ^ 31 ≤ n) (hhigh : n < 2 ^ 31) : zigzag n < 2 ^ 32 := by
  unfold zigzag
  split <;> omega

/-! ## Sequences -/

theorem decodes_take (bytes : List UInt8) : Decodes (take bytes.length) bytes bytes where
  whole rest := by
    simp [take]
  part front back hsplit hback := by
    have hback := List.length_pos_iff.mpr hback
    have hshort : (front.take bytes.length).length < bytes.length := by
      rw [List.length_take, hsplit, List.length_append]
      omega
    exact ⟨.unexpectedEnd, if_pos hshort⟩

/-- Items are read one by one, behind those that are done. -/
theorem decodes_many {item : Decoder α} {write : α → List UInt8} {items : List α}
    (h : ∀ x ∈ items, Decodes item (write x) x) :
    ∀ done, Decodes (many item items.length done) (items.flatMap write)
      (done.reverse ++ items) := by
  induction items with
  | nil =>
    intro done
    rw [List.append_nil]
    exact .pure done.reverse
  | cons x items ih =>
    intro done
    have hitems := ih (fun x hx => h x (List.mem_cons_of_mem _ hx)) (x :: done)
    rw [List.reverse_cons, List.append_assoc] at hitems
    have hmany : many item (items.length + 1) done = fun bytes =>
        item bytes >>= fun (x, rest) => many item items.length (x :: done) rest := by
      funext bytes
      rw [many]
      cases item bytes <;> rfl
    rw [List.length_cons, hmany]
    exact (h x List.mem_cons_self).bind hitems

/-- A sequence is read whose items are, if 64 bits count them. -/
theorem decodes_sequence {item : Decoder α} {write : α → List UInt8} {items : List α}
    (hlength : items.length < 2 ^ 64) (h : ∀ x ∈ items, Decodes item (write x) x) :
    Decodes (sequence item) (sequenceBytes write items) items := by
  have hsequence : sequence item = fun bytes =>
      nat64 bytes >>= fun (count, rest) => many item count [] rest := by
    funext bytes
    rw [sequence]
    cases nat64 bytes <;> rfl
  rw [hsequence]
  exact (decodes_nat64 hlength).bind (decodes_many h [])

/-! ## Texts -/

/-- The text that bytes make, if they make one. -/
def characters (taken : List UInt8) : Decoder String := fun rest =>
  match String.fromUTF8? ⟨taken.toArray⟩ with
  | some s => .ok (s, rest)
  | none => .error .badText

theorem text_eq (bytes : List UInt8) :
    text bytes = nat64 bytes >>= fun (count, rest) =>
      take count rest >>= fun (taken, rest) => characters taken rest := by
  rw [text]
  rcases nat64 bytes with e | ⟨count, rest⟩
  · rfl
  · dsimp only [bind, Except.bind]
    cases take count rest <;> rfl

theorem characters_toUTF8 (s : String) (rest : List UInt8) :
    characters s.toUTF8.data.toList rest = .ok (s, rest) := by
  have hfound : String.fromUTF8? ⟨s.toUTF8.data.toList.toArray⟩ = some s := by
    rw [Array.toArray_toList]
    show String.fromUTF8? s.toByteArray = some s
    rw [String.fromUTF8?, dif_pos s.isValidUTF8]
    rfl
  rw [characters, hfound]

/-- A text is read, if 64 bits count its bytes. -/
theorem decodes_text {s : String} (hsize : s.utf8ByteSize < 2 ^ 64) :
    Decodes text (textBytes s) s := by
  have htake : Decodes (take s.utf8ByteSize) s.toUTF8.data.toList s.toUTF8.data.toList := by
    have h := decodes_take s.toUTF8.data.toList
    rwa [Array.length_toList, show s.toUTF8.data.size = s.utf8ByteSize from
      String.size_toByteArray] at h
  rw [funext text_eq, textBytes]
  exact (decodes_nat64 hsize).bind (htake.finish (characters_toUTF8 s))

/-! ## Snapshots -/

/-- A snapshot is lossless: what is loaded is what was dumped, whatever follows its bytes,
and a part of them loads nothing. -/
structure Lossless (dump : α → List UInt8) (load : List UInt8 → Except SnapshotError α) (x : α) :
    Prop where
  loads : ∀ more, load (dump x ++ more) = .ok x
  fails : ∀ front back, dump x = front ++ back → back ≠ [] → ∃ e, load front = .error e

theorem Decodes.lossless {d : Decoder α} {dump : α → List UInt8} {x : α}
    (h : Decodes d (dump x) x) : Lossless dump (fun bytes => (d bytes).map (·.1)) x where
  loads more := by rw [h.whole]; rfl
  fails front back hsplit hback := by
    obtain ⟨e, he⟩ := h.part front back hsplit hback
    exact ⟨e, by rw [he]; rfl⟩

end Passage.Snapshot

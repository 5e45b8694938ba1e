import Mathlib.Tactic
import RecordPack.Text.Utf8

/-!
# Text as bytes and back

Every text is read back from its bytes (`Utf8.decode_encode`). A lead byte opens a character of its length
(`lead?_of_two`, `lead?_of_three`, `lead?_of_four`), and a byte in the range that is due goes on with it
(`decodeFrom_more`, `decodeFrom_last`).
-/

namespace RecordPack.Utf8

theorem toNat_ofNat_of_lt {n : Nat} (h : n < 256) : (UInt8.ofNat n).toNat = n := by
  rw [UInt8.toNat_ofNat']
  exact Nat.mod_eq_of_lt h

/-! ## Lead bytes -/

theorem lead?_of_two {v : Nat} (hlo : 0x80 ≤ v) (hhi : v ≤ 0x7FF) (index : Nat) :
    lead? index (UInt8.ofNat (v / 64 % 32 + 192)) = some ⟨index, 1, 0, 0x80, 0xBF, v / 64⟩ := by
  have hb : (UInt8.ofNat (v / 64 % 32 + 192)).toNat = v / 64 + 192 := by
    rw [toNat_ofNat_of_lt (by omega)]
    omega
  have hrange : 0xC2 ≤ UInt8.ofNat (v / 64 % 32 + 192) ∧ UInt8.ofNat (v / 64 % 32 + 192) ≤ 0xDF := by
    simp only [UInt8.le_iff_toNat_le, hb, UInt8.reduceToNat]
    omega
  rw [lead?, if_pos hrange, hb, Nat.add_sub_cancel]

/-- The lead byte of a character of three bytes. The second byte is in the range that it asks for. -/
theorem lead?_of_three {v : Nat} (hlo : 0x800 ≤ v) (hhi : v ≤ 0xFFFF) (hvalid : v < 0xD800 ∨ 0xDFFF < v)
    (index : Nat) : ∃ low high, lead? index (UInt8.ofNat (v / 4096 % 16 + 224)) =
      some ⟨index, 1, 1, low, high, v / 4096⟩ ∧ low.toNat ≤ v / 64 % 64 + 128 ∧ v / 64 % 64 + 128 ≤ high.toNat := by
  have hb : (UInt8.ofNat (v / 4096 % 16 + 224)).toNat = v / 4096 + 224 := by
    rw [toNat_ofNat_of_lt (by omega)]
    omega
  simp only [lead?, UInt8.le_iff_toNat_le, ← UInt8.toNat_inj, hb, UInt8.reduceToNat]
  rw [if_neg (by omega)]
  split
  · exact ⟨0xA0, 0xBF, by simp; omega, by simp; omega, by simp; omega⟩
  · split
    · exact ⟨0x80, 0x9F, by simp; omega, by simp, by simp; omega⟩
    · exact ⟨0x80, 0xBF, by simp; omega, by simp, by simp; omega⟩

/-- The lead byte of a character of four bytes. The second byte is in the range that it asks for. -/
theorem lead?_of_four {v : Nat} (hlo : 0x10000 ≤ v) (hhi : v < 0x110000) (index : Nat) :
    ∃ low high, lead? index (UInt8.ofNat (v / 262144 % 8 + 240)) = some ⟨index, 1, 2, low, high, v / 262144⟩ ∧
      low.toNat ≤ v / 4096 % 64 + 128 ∧ v / 4096 % 64 + 128 ≤ high.toNat := by
  have hb : (UInt8.ofNat (v / 262144 % 8 + 240)).toNat = v / 262144 + 240 := by
    rw [toNat_ofNat_of_lt (by omega)]
    omega
  simp only [lead?, UInt8.le_iff_toNat_le, ← UInt8.toNat_inj, hb, UInt8.reduceToNat]
  rw [if_neg (by omega), if_neg (by omega), if_neg (by omega), if_neg (by omega)]
  split
  · exact ⟨0x90, 0xBF, by simp; omega, by simp; omega, by simp; omega⟩
  · split
    · exact ⟨0x80, 0xBF, by simp, by simp, by simp; omega⟩
    · rw [if_pos (by omega)]
      exact ⟨0x80, 0x8F, by simp; omega, by simp, by simp; omega⟩

/-! ## Characters -/

section Continue

variable {start seen code k : Nat} {low high : UInt8}

theorem mem_range (hk : k < 64) (h : low.toNat ≤ k + 128 ∧ k + 128 ≤ high.toNat) :
    low ≤ UInt8.ofNat (k + 128) ∧ UInt8.ofNat (k + 128) ≤ high := by
  simp only [UInt8.le_iff_toNat_le, toNat_ofNat_of_lt (show k + 128 < 256 by omega)]
  exact h

/-- A byte in the range that is due goes on with the character. -/
theorem decodeFrom_more (hk : k < 64) (h : low.toNat ≤ k + 128 ∧ k + 128 ≤ high.toNat) (due index : Nat)
    (rest : Bytes) :
    decodeFrom index (some ⟨start, seen, due + 1, low, high, code⟩) (UInt8.ofNat (k + 128) :: rest) =
      decodeFrom (index + 1) (some ⟨start, seen + 1, due, 0x80, 0xBF, code * 64 + k⟩) rest := by
  rw [decodeFrom, if_pos (mem_range hk h), toNat_ofNat_of_lt (by omega)]
  simp only [Nat.add_sub_cancel]

/-- The last byte that is due ends it. -/
theorem decodeFrom_last (hk : k < 64) (h : low.toNat ≤ k + 128 ∧ k + 128 ≤ high.toNat) (index : Nat) (rest : Bytes) :
    decodeFrom index (some ⟨start, seen, 0, low, high, code⟩) (UInt8.ofNat (k + 128) :: rest) =
      (decodeFrom (index + 1) none rest).map (Char.ofNat (code * 64 + k) :: ·) := by
  rw [decodeFrom, if_pos (mem_range hk h), toNat_ofNat_of_lt (by omega)]
  simp only [Nat.add_sub_cancel]

/-- After the second byte the range is that of all bytes that go on. -/
theorem range_of_lt (hk : k < 64) : (0x80 : UInt8).toNat ≤ k + 128 ∧ k + 128 ≤ (0xBF : UInt8).toNat := by
  simp only [UInt8.reduceToNat]
  omega

end Continue

theorem decodeFrom_lead {index : Nat} {b : UInt8} {p : Partial} (h : lead? index b = some p) (hb : 0x7F < b.toNat)
    (rest : Bytes) : decodeFrom index none (b :: rest) = decodeFrom (index + 1) (some p) rest := by
  have hlong : ¬ b ≤ 0x7F := by
    rw [UInt8.le_iff_toNat_le]
    exact Nat.not_le.2 hb
  rw [decodeFrom, if_neg hlong, h]

/-- A character is read from its bytes, whatever follows. -/
theorem decodeFrom_encodeChar (c : Char) (index : Nat) (rest : Bytes) :
    decodeFrom index none (String.utf8EncodeChar c ++ rest) =
      (decodeFrom (index + c.utf8Size) none rest).map (c :: ·) := by
  have hvalid : c.val.toNat < 0xD800 ∨ 0xDFFF < c.val.toNat ∧ c.val.toNat < 0x110000 := c.valid
  have hchar : Char.ofNat c.val.toNat = c := Char.ofNat_toNat c
  have hsize : (String.utf8EncodeChar c).length = c.utf8Size := String.length_utf8EncodeChar c
  rw [← hsize]
  unfold String.utf8EncodeChar
  generalize c.val.toNat = v at hvalid hchar
  have hlow : v % 64 < 64 := by omega
  simp only
  -- by the number of bytes
  split
  · next hone =>
    have hb : (UInt8.ofNat v).toNat = v := toNat_ofNat_of_lt (by omega)
    have hshort : UInt8.ofNat v ≤ 0x7F := by
      rw [UInt8.le_iff_toNat_le, hb]
      exact hone
    rw [List.singleton_append, decodeFrom, if_pos hshort, hb, hchar]
    rfl
  · split
    · next htwo =>
      have hlead := lead?_of_two (v := v) (by omega) htwo index
      have hcode : v / 64 * 64 + v % 64 = v := by omega
      simp only [List.cons_append, List.nil_append]
      rw [decodeFrom_lead hlead (by rw [toNat_ofNat_of_lt] <;> omega), decodeFrom_last hlow (range_of_lt hlow)]
      simp only [hcode, hchar, List.length_cons, List.length_nil, Nat.add_assoc]
    · split
      · next hthree =>
        obtain ⟨low, high, hlead, hrange⟩ := lead?_of_three (v := v) (by omega) hthree (by omega) index
        have hcode : (v / 4096 * 64 + v / 64 % 64) * 64 + v % 64 = v := by omega
        simp only [List.cons_append, List.nil_append]
        rw [decodeFrom_lead hlead (by rw [toNat_ofNat_of_lt] <;> omega), decodeFrom_more (by omega) hrange,
          decodeFrom_last hlow (range_of_lt hlow)]
        simp only [hcode, hchar, List.length_cons, List.length_nil, Nat.add_assoc]
      · next hfour =>
        obtain ⟨low, high, hlead, hrange⟩ := lead?_of_four (v := v) (by omega) (by omega) index
        have hmiddle : v / 64 % 64 < 64 := by omega
        have hcode : ((v / 262144 * 64 + v / 4096 % 64) * 64 + v / 64 % 64) * 64 + v % 64 = v := by omega
        simp only [List.cons_append, List.nil_append]
        rw [decodeFrom_lead hlead (by rw [toNat_ofNat_of_lt] <;> omega), decodeFrom_more (by omega) hrange,
          decodeFrom_more hmiddle (range_of_lt hmiddle), decodeFrom_last hlow (range_of_lt hlow)]
        simp only [hcode, hchar, List.length_cons, List.length_nil, Nat.add_assoc]

/-! ## Texts -/

theorem decodeFrom_encode (cs : List Char) : ∀ index, decodeFrom index none (encode cs) = .ok cs := by
  induction cs with
  | nil => intro index; rfl
  | cons c cs ih =>
    intro index
    rw [encode, List.flatMap_cons, decodeFrom_encodeChar]
    show (decodeFrom _ none (encode cs)).map _ = _
    rw [ih]
    rfl

/-- Every text is read back from its bytes. -/
theorem decode_encode (cs : List Char) : decode (encode cs) = .ok cs :=
  decodeFrom_encode cs 0

end RecordPack.Utf8

import Mathlib.Tactic
import RecordPack.Endian

/-!
# Numbers in bytes

Bytes back to back spell a number digit by digit, so the number of a big-endian text is that of its
head, shifted, and that of its tail.
-/

namespace RecordPack.Endian

theorem littleValue_lt (bs : Bytes) : littleValue bs < 256 ^ bs.length := by
  induction bs with
  | nil => simp [littleValue]
  | cons b bs ih =>
    have hb := b.toNat_lt
    rw [littleValue, List.length_cons, pow_succ]
    omega

theorem ofBytes_lt (e : Endian) (bs : Bytes) : e.ofBytes bs < 256 ^ bs.length := by
  cases e with
  | little => exact littleValue_lt bs
  | big => simpa [ofBytes] using littleValue_lt bs.reverse

/-- What fits its bytes reads back. -/
theorem ofBytes_toBytes_of_lt (e : Endian) {width n : Nat} (h : n < 256 ^ width) :
    e.ofBytes (e.toBytes width n) = n := by
  rw [ofBytes_toBytes]
  exact Nat.mod_eq_of_lt h

theorem littleValue_append (as bs : Bytes) :
    littleValue (as ++ bs) = littleValue as + 256 ^ as.length * littleValue bs := by
  induction as with
  | nil => simp [littleValue]
  | cons a as ih =>
    rw [List.cons_append, littleValue, littleValue, ih, List.length_cons, pow_succ]
    ring

theorem ofBytes_big_append (as bs : Bytes) :
    big.ofBytes (as ++ bs) = big.ofBytes as * 256 ^ bs.length + big.ofBytes bs := by
  simp only [ofBytes, List.reverse_append, littleValue_append, List.length_reverse]
  ring

theorem ofBytes_inj {e : Endian} {as bs : Bytes} (hlen : as.length = bs.length)
    (h : e.ofBytes as = e.ofBytes bs) : as = bs := by
  rw [← e.toBytes_ofBytes as, ← e.toBytes_ofBytes bs, hlen, h]

theorem toBytes_zero (e : Endian) (width : Nat) : e.toBytes width 0 = List.replicate width 0 := by
  have hlittle : littleBytes width 0 = List.replicate width 0 := by
    induction width with
    | zero => rfl
    | succ width ih =>
      rw [littleBytes, Nat.zero_div, ih]
      rfl
  cases e with
  | little => exact hlittle
  | big => rw [toBytes, hlittle, List.reverse_replicate]

/-- One byte has no order. -/
theorem toBytes_one (e : Endian) (n : Nat) : e.toBytes 1 n = [UInt8.ofNat n] := by
  cases e <;> rfl

theorem ofBytes_singleton (e : Endian) (b : UInt8) : e.ofBytes [b] = b.toNat := by
  cases e <;> simp [ofBytes, littleValue]

end RecordPack.Endian

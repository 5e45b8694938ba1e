import RecordPack.Bytes

/-!
# Byte order

The two ways to lay out a number over a given count of bytes. The little-endian layout is the basic
one; the big-endian layout is its reversal. What is written reads back, reduced to the bytes there
are, and bytes are determined by the number they spell.
-/

namespace RecordPack

/-- Which end of a number comes first. -/
inductive Endian where
  | little
  | big
deriving DecidableEq, Repr

namespace Endian

/-- The low `width` bytes of `n`, least significant first. -/
def littleBytes : (width n : Nat) → Bytes
  | 0, _ => []
  | width + 1, n => UInt8.ofNat n :: littleBytes width (n / 256)

/-- The number that bytes spell, least significant first. -/
def littleValue : Bytes → Nat
  | [] => 0
  | b :: bs => b.toNat + 256 * littleValue bs

/-- The low `width` bytes of `n`. -/
def toBytes : Endian → (width n : Nat) → Bytes
  | little, width, n => littleBytes width n
  | big, width, n => (littleBytes width n).reverse

def ofBytes : Endian → Bytes → Nat
  | little, bs => littleValue bs
  | big, bs => littleValue bs.reverse

@[simp] theorem length_littleBytes (width n : Nat) : (littleBytes width n).length = width := by
  induction width generalizing n with
  | zero => rfl
  | succ width ih => simp [littleBytes, ih]

@[simp] theorem length_toBytes (e : Endian) (width n : Nat) : (e.toBytes width n).length = width := by
  cases e <;> simp [toBytes]

theorem littleValue_littleBytes (width n : Nat) :
    littleValue (littleBytes width n) = n % Nat.pow 256 width := by
  induction width generalizing n with
  | zero => simp [littleBytes, littleValue, Nat.mod_one]
  | succ width ih =>
    have h : Nat.pow 256 (width + 1) = 256 * Nat.pow 256 width := Nat.mul_comm _ _
    rw [littleBytes, littleValue, ih, h, Nat.mod_mul]
    simp

theorem ofBytes_toBytes (e : Endian) (width n : Nat) :
    e.ofBytes (e.toBytes width n) = n % Nat.pow 256 width := by
  cases e <;> simp [toBytes, ofBytes, littleValue_littleBytes]

theorem littleBytes_littleValue (bs : Bytes) : littleBytes bs.length (littleValue bs) = bs := by
  induction bs with
  | nil => rfl
  | cons b bs ih =>
    have hb := b.toNat_lt
    have hdiv : (b.toNat + 256 * littleValue bs) / 256 = littleValue bs := by omega
    have hmod : UInt8.ofNat (b.toNat + 256 * littleValue bs) = b := by
      apply UInt8.toNat_inj.1
      simp only [UInt8.toNat_ofNat']
      omega
    rw [List.length_cons, littleValue, littleBytes, hdiv, hmod, ih]

theorem toBytes_ofBytes (e : Endian) (bs : Bytes) : e.toBytes bs.length (e.ofBytes bs) = bs := by
  cases e with
  | little => exact littleBytes_littleValue bs
  | big =>
    have h := littleBytes_littleValue bs.reverse
    rw [List.length_reverse] at h
    simp [toBytes, ofBytes, h]

end Endian

end RecordPack

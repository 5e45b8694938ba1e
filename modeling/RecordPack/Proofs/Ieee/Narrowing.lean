import Mathlib.Tactic
import RecordPack.Ieee.Binary

/-!
# Widening and narrowing

A magnitude is determined by its quanta (`ofQuanta_quanta`), and rounding leaves a number alone that
a format can represent (`nearest_exact`). So a single-precision number survives the way through
double precision and back, bit for bit (`toBinary32_toBinary64`). The one pattern of no number that
is covered is the quiet positive one.
-/

namespace RecordPack.Ieee

theorem nearestEven_mul {b : Nat} (hb : 0 < b) (q : Nat) : nearestEven (q * b) b = q := by
  simp only [nearestEven, Nat.mul_div_cancel q hb, Nat.mul_mod_left]
  simp [hb]

namespace Format

variable (f : Format)

theorem binade_eq : f.binade = 2 ^ f.fractionBits := rfl

theorem quantaPerOne_eq : f.quantaPerOne = 2 ^ f.quantumShift := rfl

theorem signWeight_eq : f.signWeight = 2 ^ f.exponentBits * f.binade := by
  show 2 ^ (f.fractionBits + f.exponentBits) = 2 ^ f.exponentBits * 2 ^ f.fractionBits
  rw [Nat.pow_add, Nat.mul_comm]

theorem binade_pos : 0 < f.binade := Nat.two_pow_pos _

theorem quantaPerOne_pos : 0 < f.quantaPerOne := Nat.two_pow_pos _

/-- The bits of a number of quanta beyond those that a pattern keeps. -/
def surplus (q : Nat) : Nat := q.log2 - f.fractionBits

/-- The magnitude of a number of quanta, of which the surplus bits are zero. -/
def ofQuanta (q : Nat) : Nat := f.surplus q * f.binade + q / 2 ^ f.surplus q

theorem div_surplus_lt (q : Nat) : q / 2 ^ f.surplus q < 2 * f.binade := by
  have hlog : q < 2 ^ (q.log2 + 1) := Nat.lt_log2_self
  have hexp : 2 ^ (q.log2 + 1) ≤ 2 ^ (f.fractionBits + 1 + f.surplus q) :=
    Nat.pow_le_pow_right (by omega) (by simp only [surplus]; omega)
  rw [Nat.div_lt_iff_lt_mul (Nat.two_pow_pos _), binade_eq, ← pow_succ', ← pow_add]
  exact hlog.trans_le hexp

theorem binade_le_div_surplus {q : Nat} (h : 0 < f.surplus q) : f.binade ≤ q / 2 ^ f.surplus q := by
  have hq : q ≠ 0 := by
    rintro rfl
    simp [surplus] at h
  have hlog : f.fractionBits + f.surplus q = q.log2 := by simp only [surplus] at h ⊢; omega
  rw [Nat.le_div_iff_mul_le (Nat.two_pow_pos _), binade_eq, ← pow_add, hlog]
  exact Nat.log2_self_le hq

/-- The quanta of a magnitude beyond the first binade: its significand, shifted. -/
theorem quanta_of_ge {m : Nat} (h : f.binade ≤ m) :
    f.quanta m = (f.binade + m % f.binade) * 2 ^ (m / f.binade - 1) := by
  rw [quanta, if_neg (Nat.not_lt.2 h)]
  rfl

theorem quanta_of_lt {m : Nat} (h : m < f.binade) : f.quanta m = m := if_pos h

theorem quanta_ofQuanta {q : Nat} (hd : 2 ^ f.surplus q ∣ q) : f.quanta (f.ofQuanta q) = q := by
  obtain ⟨t, ht⟩ : ∃ t, t = q / 2 ^ f.surplus q := ⟨_, rfl⟩
  have hq : t * 2 ^ f.surplus q = q := ht ▸ Nat.div_mul_cancel hd
  have hlt : t < 2 * f.binade := ht ▸ f.div_surplus_lt q
  have hpos := f.binade_pos
  have hM : f.ofQuanta q = f.surplus q * f.binade + t := by rw [ofQuanta, ht]
  rw [hM]
  by_cases hsmall : t < f.binade
  · -- below the first binade there is no surplus
    have hk : f.surplus q = 0 := by
      by_contra hne
      have := f.binade_le_div_surplus (Nat.pos_of_ne_zero hne)
      omega
    rw [hk, pow_zero, Nat.mul_one] at hq
    rw [hk, Nat.zero_mul, Nat.zero_add, f.quanta_of_lt hsmall, hq]
  · -- otherwise the leading bit carries into the exponent field
    obtain ⟨r, hr⟩ : ∃ r, t = f.binade + r := ⟨t - f.binade, by omega⟩
    have hform : f.surplus q * f.binade + t = r + (f.surplus q + 1) * f.binade := by rw [hr]; ring
    have hrlt : r < f.binade := by omega
    have hmod : (r + (f.surplus q + 1) * f.binade) % f.binade = r := by
      rw [Nat.add_mul_mod_self_right, Nat.mod_eq_of_lt hrlt]
    have hdiv : (r + (f.surplus q + 1) * f.binade) / f.binade = f.surplus q + 1 := by
      rw [Nat.add_mul_div_right _ _ hpos, Nat.div_eq_of_lt hrlt, Nat.zero_add]
    have hge : ¬ r + (f.surplus q + 1) * f.binade < f.binade := by
      have : f.binade ≤ (f.surplus q + 1) * f.binade := Nat.le_mul_of_pos_left _ (Nat.succ_pos _)
      omega
    rw [hform, f.quanta_of_ge (Nat.not_lt.1 hge), hmod, hdiv, Nat.add_sub_cancel, ← hr]
    exact hq

theorem surplus_quanta_of_lt {m : Nat} (h : m < f.binade) : f.surplus (f.quanta m) = 0 := by
  rw [f.quanta_of_lt h, surplus]
  by_cases hm : m = 0
  · simp [hm]
  · have : m.log2 < f.fractionBits := (Nat.log2_lt hm).2 h
    omega

theorem surplus_quanta_of_ge {m : Nat} (h : f.binade ≤ m) :
    f.surplus (f.quanta m) = m / f.binade - 1 := by
  have hpos := f.binade_pos
  have hr : m % f.binade < f.binade := Nat.mod_lt _ hpos
  have hne : (f.binade + m % f.binade) * 2 ^ (m / f.binade - 1) ≠ 0 :=
    Nat.mul_ne_zero (by omega) (Nat.two_pow_pos _).ne'
  have hlog : ((f.binade + m % f.binade) * 2 ^ (m / f.binade - 1)).log2 =
      f.fractionBits + (m / f.binade - 1) := by
    rw [Nat.log2_eq_iff hne]
    refine ⟨?_, ?_⟩
    · rw [pow_add, ← binade_eq]
      exact Nat.mul_le_mul_right _ (Nat.le_add_right _ _)
    · have hlt : f.binade + m % f.binade < 2 * f.binade := by omega
      calc (f.binade + m % f.binade) * 2 ^ (m / f.binade - 1)
          < 2 * f.binade * 2 ^ (m / f.binade - 1) := Nat.mul_lt_mul_of_pos_right hlt (Nat.two_pow_pos _)
        _ = 2 ^ (f.fractionBits + (m / f.binade - 1) + 1) := by rw [binade_eq]; ring
  rw [f.quanta_of_ge h, surplus, hlog]
  omega

theorem surplus_dvd_quanta (m : Nat) : 2 ^ f.surplus (f.quanta m) ∣ f.quanta m := by
  by_cases h : m < f.binade
  · rw [f.surplus_quanta_of_lt h, pow_zero]
    exact Nat.one_dvd _
  · have h := Nat.not_lt.1 h
    rw [f.surplus_quanta_of_ge h, f.quanta_of_ge h]
    exact Nat.dvd_mul_left _ _

theorem ofQuanta_quanta (m : Nat) : f.ofQuanta (f.quanta m) = m := by
  by_cases h : m < f.binade
  · rw [ofQuanta, f.surplus_quanta_of_lt h, f.quanta_of_lt h]
    simp
  · have h := Nat.not_lt.1 h
    have hdiv : 1 ≤ m / f.binade := (Nat.one_le_div_iff f.binade_pos).2 h
    rw [ofQuanta, f.surplus_quanta_of_ge h, f.quanta_of_ge h, Nat.mul_div_cancel _ (Nat.two_pow_pos _)]
    calc (m / f.binade - 1) * f.binade + (f.binade + m % f.binade)
        = (m / f.binade - 1 + 1) * f.binade + m % f.binade := by ring
      _ = m := by rw [Nat.sub_add_cancel hdiv, Nat.div_add_mod']

/-- A quotient that is a whole number of quanta, with no surplus bits set, is not rounded. -/
theorem nearest_exact {a b q : Nat} (hb : 0 < b) (hq : a * f.quantaPerOne = q * b)
    (hd : 2 ^ f.surplus q ∣ q) : f.nearest a b = min f.infinity (f.ofQuanta q) := by
  obtain ⟨t, ht⟩ := hd
  have hpow : 0 < 2 ^ f.surplus q := Nat.two_pow_pos _
  have hscaled : q * b = t * (b * 2 ^ f.surplus q) := by
    rw [Nat.mul_comm b, ← Nat.mul_assoc, Nat.mul_comm t, ← ht]
  have hround : nearestEven (q * b) (b * 2 ^ f.surplus q) = q / 2 ^ f.surplus q := by
    rw [hscaled, nearestEven_mul (Nat.mul_pos hb hpow)]
    exact (Nat.div_eq_of_eq_mul_right hpow ht).symm
  -- the quotient of the scaled operands is the number of quanta itself
  simp only [nearest, hq, Nat.mul_div_cancel _ hb]
  show min f.infinity (f.surplus q * f.binade + nearestEven (q * b) (b * 2 ^ f.surplus q)) = _
  rw [hround, ofQuanta]

/-! ## The parts of a pattern -/

variable {f}

theorem magnitude_withSign {m : Nat} (h : m < f.signWeight) (negative : Bool) :
    f.magnitude (f.withSign negative m) = m := by
  cases negative
  · exact Nat.mod_eq_of_lt h
  · simp only [withSign, magnitude, if_true]
    rw [Nat.add_mod_left, Nat.mod_eq_of_lt h]

theorem isNegative_withSign {m : Nat} (h : m < f.signWeight) (negative : Bool) :
    f.isNegative (f.withSign negative m) = negative := by
  cases negative <;> simp [withSign, isNegative, h]

/-- A pattern is its sign and its magnitude. -/
theorem withSign_magnitude {bits : Nat} (h : bits < 2 * f.signWeight) :
    f.withSign (f.isNegative bits) (f.magnitude bits) = bits := by
  by_cases hs : f.signWeight ≤ bits
  · have hmod : bits % f.signWeight = bits - f.signWeight := by
      rw [Nat.mod_eq_sub_mod hs, Nat.mod_eq_of_lt (by omega)]
    simp only [withSign, isNegative, magnitude, hs, decide_true, if_true, hmod]
    omega
  · have hlt := Nat.not_le.1 hs
    simp [withSign, isNegative, magnitude, hs, Nat.mod_eq_of_lt hlt]

theorem withSign_lt {m : Nat} (h : m < f.signWeight) (negative : Bool) :
    f.withSign negative m < 2 * f.signWeight := by
  cases negative <;> simp only [withSign, Bool.false_eq_true, if_false, if_true] <;> omega

theorem infinity_lt_signWeight : f.infinity < f.signWeight := by
  have hexp : 0 < Nat.pow 2 f.exponentBits := Nat.two_pow_pos _
  rw [signWeight_eq, infinity]
  exact Nat.mul_lt_mul_of_pos_right (Nat.sub_lt hexp Nat.one_pos) f.binade_pos

end Format

/-! ## Single precision inside double precision -/

/-- How many times the quantum of single precision is halved to get that of double precision. -/
def halvings : Nat := 925

theorem quantumShift_binary64 : binary64.quantumShift = halvings + binary32.quantumShift := by decide

theorem quantaPerOne_binary64 : binary64.quantaPerOne = 2 ^ halvings * binary32.quantaPerOne := by
  rw [Format.quantaPerOne_eq, Format.quantaPerOne_eq, quantumShift_binary64, pow_add]

theorem log2_mul_two_pow {q : Nat} (hq : q ≠ 0) (k : Nat) : (q * 2 ^ k).log2 = q.log2 + k := by
  rw [Nat.log2_eq_iff (Nat.mul_ne_zero hq (Nat.two_pow_pos _).ne')]
  refine ⟨?_, ?_⟩
  · rw [pow_add]
    exact Nat.mul_le_mul_right _ (Nat.log2_self_le hq)
  · rw [Nat.add_right_comm, pow_add]
    exact Nat.mul_lt_mul_of_pos_right Nat.lt_log2_self (Nat.two_pow_pos _)

/-- Double precision has a bit for every bit of a single-precision number. -/
theorem surplus_dvd_widened (m : Nat) :
    2 ^ binary64.surplus (binary32.quanta m * 2 ^ halvings) ∣ binary32.quanta m * 2 ^ halvings := by
  by_cases hq : binary32.quanta m = 0
  · simp [hq]
  · have hle : binary64.surplus (binary32.quanta m * 2 ^ halvings) ≤ binary32.surplus (binary32.quanta m) + halvings := by
      have h32 : binary32.fractionBits = 23 := rfl
      have h64 : binary64.fractionBits = 52 := rfl
      simp only [Format.surplus, log2_mul_two_pow hq, h32, h64, halvings]
      omega
    -- the lower bits are zero: those of the number were, and the halvings put zeros behind them
    have hdvd : 2 ^ (binary32.surplus (binary32.quanta m) + halvings) ∣ binary32.quanta m * 2 ^ halvings := by
      rw [pow_add]
      exact Nat.mul_dvd_mul_right (binary32.surplus_dvd_quanta m) _
    exact (pow_dvd_pow 2 hle).trans hdvd

theorem log2_quanta_lt {m : Nat} (hm : m < binary32.infinity) : (binary32.quanta m).log2 < 277 := by
  have hinf : binary32.infinity = 255 * binary32.binade := rfl
  have hbin : binary32.binade = 2 ^ 23 := rfl
  by_cases h : m < binary32.binade
  · by_cases hz : m = 0
    · simp [hz, Format.quanta, hbin]
    · have : m.log2 < 23 := (Nat.log2_lt hz).2 (hbin ▸ h)
      rw [Format.quanta_of_lt _ h]
      omega
  · have hge := Nat.not_lt.1 h
    have hsur := binary32.surplus_quanta_of_ge hge
    have hdiv : m / binary32.binade < 255 := (Nat.div_lt_iff_lt_mul binary32.binade_pos).2 (hinf ▸ hm)
    simp only [Format.surplus, show binary32.fractionBits = 23 from rfl] at hsur
    omega

theorem ofQuanta_widened_lt {m : Nat} (hm : m < binary32.infinity) :
    binary64.ofQuanta (binary32.quanta m * 2 ^ halvings) < binary64.infinity := by
  have hinf : binary64.infinity = 2047 * binary64.binade := rfl
  have hlt := binary64.div_surplus_lt (binary32.quanta m * 2 ^ halvings)
  have hlog := log2_quanta_lt hm
  have hsur : binary64.surplus (binary32.quanta m * 2 ^ halvings) ≤ 1200 := by
    by_cases hq : binary32.quanta m = 0
    · simp [Format.surplus, hq]
    · have h64 : binary64.fractionBits = 52 := rfl
      simp only [Format.surplus, log2_mul_two_pow hq, h64, halvings]
      omega
  -- an exponent of at most 1200 and a significand stay below the exponent 2047 of infinity
  have hmul := Nat.mul_le_mul_right binary64.binade hsur
  have hpos := binary64.binade_pos
  rw [Format.ofQuanta, hinf]
  omega

/-- A finite single-precision number has the same value in double precision. -/
theorem nearest_widened {m : Nat} (hm : m < binary32.infinity) :
    binary64.nearest (binary32.quanta m) binary32.quantaPerOne =
      binary64.ofQuanta (binary32.quanta m * 2 ^ halvings) := by
  have hq : binary32.quanta m * binary64.quantaPerOne =
      binary32.quanta m * 2 ^ halvings * binary32.quantaPerOne := by
    rw [quantaPerOne_binary64, Nat.mul_assoc]
  rw [binary64.nearest_exact (Format.quantaPerOne_pos _) hq (surplus_dvd_widened m)]
  exact Nat.min_eq_right (ofQuanta_widened_lt hm).le

theorem nearest_narrowed {m : Nat} (hm : m < binary32.infinity) :
    binary32.nearest (binary64.quanta (binary64.ofQuanta (binary32.quanta m * 2 ^ halvings)))
      binary64.quantaPerOne = m := by
  have hq : binary32.quanta m * 2 ^ halvings * binary32.quantaPerOne =
      binary32.quanta m * binary64.quantaPerOne := by
    rw [quantaPerOne_binary64, Nat.mul_assoc]
  rw [binary64.quanta_ofQuanta (surplus_dvd_widened m),
    binary32.nearest_exact (Format.quantaPerOne_pos _) hq (binary32.surplus_dvd_quanta m),
    binary32.ofQuanta_quanta]
  exact Nat.min_eq_right hm.le

/-- What the magnitude of a number of single precision is in double precision. -/
theorem convert_widened {bits : Nat} (hm : binary32.magnitude bits < binary32.infinity) :
    binary32.convert binary64 bits = binary64.withSign (binary32.isNegative bits)
      (binary64.ofQuanta (binary32.quanta (binary32.magnitude bits) * 2 ^ halvings)) := by
  simp only [Format.convert, if_pos hm, nearest_widened hm]

theorem convert_narrowed {bits : Nat} (hbits : bits < 2 * binary32.signWeight)
    (hm : binary32.magnitude bits ≤ binary32.infinity) :
    binary64.convert binary32 (binary32.convert binary64 bits) = bits := by
  rcases Nat.lt_or_eq_of_le hm with hfin | hinf
  · have hlt := ofQuanta_widened_lt hfin
    have hsw := hlt.trans Format.infinity_lt_signWeight
    rw [convert_widened hfin]
    simp only [Format.convert, Format.magnitude_withSign hsw, Format.isNegative_withSign hsw, if_pos hlt,
      nearest_narrowed hfin]
    exact Format.withSign_magnitude hbits
  · have hsw : binary64.infinity < binary64.signWeight := Format.infinity_lt_signWeight
    have hwide : binary32.convert binary64 bits =
        binary64.withSign (binary32.isNegative bits) binary64.infinity := by
      simp [Format.convert, hinf]
    rw [hwide]
    simp only [Format.convert, Format.magnitude_withSign hsw, Format.isNegative_withSign hsw, lt_irrefl,
      if_false, if_true]
    rw [← hinf]
    exact Format.withSign_magnitude hbits

theorem convert_lt (f g : Format) {bits : Nat} (hm : f.magnitude bits ≤ f.infinity) :
    f.convert g bits < 2 * g.signWeight := by
  have hinf : g.infinity < g.signWeight := Format.infinity_lt_signWeight
  apply Format.withSign_lt
  split
  · exact (Nat.min_le_left _ _).trans_lt hinf
  · split
    · exact hinf
    · omega

namespace Binary32

/-- The quiet positive pattern of no number. -/
def quietNaN : Binary32 := ⟨0x7FC00000⟩

/-- Whether a pattern is a number, infinities included, or the quiet positive pattern of none. -/
def IsSettled (x : Binary32) : Prop :=
  binary32.magnitude x.bits.toNat ≤ binary32.infinity ∨ x = quietNaN

theorem bits_lt (x : Binary32) : x.bits.toNat < 2 * binary32.signWeight := x.bits.toNat_lt

/-- Narrowing what was widened gives it back. -/
theorem toBinary32_toBinary64 {x : Binary32} (h : x.IsSettled) : x.toBinary64.toBinary32 = x := by
  rcases h with hnum | rfl
  · have hlt : binary32.convert binary64 x.bits.toNat < 2 ^ 64 := convert_lt binary32 binary64 hnum
    have hwide : x.toBinary64.bits.toNat = binary32.convert binary64 x.bits.toNat := by
      simp only [toBinary64, Format.toBinary64, UInt64.toNat_ofNat']
      exact Nat.mod_eq_of_lt hlt
    simp only [Binary64.toBinary32, hwide, convert_narrowed x.bits_lt hnum, UInt32.ofNat_toNat]
  · decide

/-- A settled number that is finite in double precision is no infinity. -/
theorem isInfinite_eq_false {x : Binary32} (h : x.toBinary64.isFinite = true) : x.isInfinite = false := by
  by_contra hne
  have hinf : binary32.magnitude x.bits.toNat = binary32.infinity := by simpa [isInfinite] using hne
  have hsw : binary64.infinity < binary64.signWeight := Format.infinity_lt_signWeight
  have hwide : binary32.convert binary64 x.bits.toNat =
      binary64.withSign (binary32.isNegative x.bits.toNat) binary64.infinity := by
    simp [Format.convert, hinf]
  have hlt : binary64.withSign (binary32.isNegative x.bits.toNat) binary64.infinity < 2 ^ 64 :=
    Format.withSign_lt hsw _
  simp only [Binary64.isFinite, Binary64.magnitude, toBinary64, Format.toBinary64, hwide,
    UInt64.toNat_ofNat', Nat.mod_eq_of_lt hlt, Format.magnitude_withSign hsw, lt_irrefl] at h
  simp at h

end Binary32

end RecordPack.Ieee

import RecordPack.Proofs.Ieee.Steps
import RecordPack.Proofs.Ieee.Twice
import RecordPack.Proofs.Json.Object
import RecordPack.Proofs.Json.Printed

/-!
# Numbers read back

A printed number is rounded back to itself if its decimal is rounded once (`rounds_printed`). A reader rounds the digits
and the power of ten before it divides, and the quotient again. So it comes to a number one step away for each of the two
that is no number of the format itself, and to the same number if both are (`Moderate.readsBack`). One is not passed on
the way (`IsSmall.scaled_le_one`).
-/

namespace RecordPack.Json

open Ieee (Binary64 Decimal Format binary64)

/-! ## Powers of ten -/

theorem powerOfTen_eq (k : Nat) : powerOfTen k = binary64.nearest (10 ^ k) 1 := rfl

theorem nearest_ten_pow_lt {k : Nat} (h : k ≤ maxPower) : binary64.nearest (10 ^ k) 1 < binary64.infinity := by
  have htop : binary64.nearest (10 ^ maxPower) 1 < binary64.infinity := by decide +kernel
  refine lt_of_le_of_lt ?_ htop
  exact binary64.nearest_mono Nat.one_pos Nat.one_pos
    (Nat.mul_le_mul_right 1 (Nat.pow_le_pow_right (by decide) h))

/-- The powers of ten up to the twenty-second are numbers of the format. -/
theorem holds_ten_pow : ∀ k ≤ 22, binary64.Holds (10 ^ k) := by decide +kernel

/-- So are the whole numbers up to two to the 53. -/
theorem holds_of_le {n : Nat} (h : n ≤ 2 ^ 53) : binary64.Holds n :=
  Ieee.quanta_nearest_of_le (Ieee.nearest_lt_of_le (h.trans (by decide))).1 h

/-! ## Scaling -/

theorem scaled_negSucc {s k : Nat} (hk : k + 1 ≤ maxPower) :
    scaled s (.negSucc k) = .ok (binary64.quotient (binary64.nearest s 1) (powerOfTen (k + 1))) := by
  simp only [scaled]
  rw [divideByPower, if_pos hk]

theorem scaled_ofNat {s k : Nat} (hk : k ≤ maxPower)
    (hfin : binary64.product (binary64.nearest s 1) (powerOfTen k) < binary64.infinity) :
    scaled s (.ofNat k) = .ok (binary64.product (binary64.nearest s 1) (powerOfTen k)) := by
  simp only [scaled]
  split
  · next hzero =>
    rw [hzero, Format.product, Format.quanta_zero, Nat.zero_mul, Format.nearest_zero]
  · rw [if_neg (Nat.not_lt.2 hk), if_neg hfin.ne]

variable {d : Decimal} {m s k : Nat}

/-- The magnitude `n` is at most as many steps away from `m` as the decimal is rounded. -/
def Within (d : Decimal) (m n : Nat) : Prop := n < binary64.infinity ∧ n ≤ m + d.roundings ∧ m ≤ n + d.roundings

theorem scaled_ofNat_within (hs : s ≤ 2 ^ 64) (hk : k ≤ 22)
    (hm : binary64.Rounds (s * 10 ^ k * binary64.quantaPerOne) 1 m) (hfin : m + 2 < binary64.infinity) :
    ∃ n, scaled s (.ofNat k) = .ok n ∧ Within ⟨s, .ofNat k⟩ m n := by
  have hsig := Format.near_nearest (Ieee.nearest_lt_of_le hs).1
  have hone := binary64.roundings_le s
  have hten : binary64.roundings (10 ^ k) = 0 := if_pos (holds_ten_pow k hk)
  have hround : Decimal.roundings ⟨s, .ofNat k⟩ = binary64.roundings s := by
    rw [Decimal.roundings]
    exact Nat.add_eq_left.2 hten
  obtain ⟨hup, hdown⟩ := Format.product_within Ieee.binade_binary64_even hsig (holds_ten_pow k hk) hone hm (by omega)
  rw [← powerOfTen_eq] at hup hdown
  have hlt : binary64.product (binary64.nearest s 1) (powerOfTen k) < binary64.infinity := by omega
  refine ⟨_, scaled_ofNat (hk.trans (by decide)) hlt, hlt, ?_⟩
  rw [hround]
  exact ⟨hup, hdown⟩

theorem scaled_negSucc_within (hs : s ≤ 2 ^ 64) (hk : k + 1 ≤ maxPower)
    (hm : binary64.Rounds (s * binary64.quantaPerOne) (10 ^ (k + 1)) m) (hfin : m + 2 < binary64.infinity) :
    ∃ n, scaled s (.negSucc k) = .ok n ∧ Within ⟨s, .negSucc k⟩ m n := by
  have hpos : 0 < 10 ^ (k + 1) := Nat.pow_pos (by decide)
  have hsig := Format.near_nearest (Ieee.nearest_lt_of_le hs).1
  have hten := Format.near_nearest (nearest_ten_pow_lt hk)
  have hone := binary64.roundings_le s
  have hone' := binary64.roundings_le (10 ^ (k + 1))
  obtain ⟨hup, hdown⟩ := Format.quotient_within Ieee.binade_binary64_even hsig hten hone hone' hpos
    (Ieee.Binary64.quanta_nearest_pos hpos) hm (by omega)
  rw [← powerOfTen_eq] at hup hdown
  exact ⟨_, scaled_negSucc hk, by omega, hup, hdown⟩

/-- Digits that fit the significand, and a power of ten that is neither tiny nor huge. -/
structure IsSmall (d : Decimal) : Prop where
  digits_lt : d.digits < UInt64.size
  low : -308 ≤ d.exponent
  high : d.exponent ≤ 22

theorem IsSmall.le_of_ofNat (h : IsSmall ⟨s, .ofNat k⟩) : k ≤ 22 := Int.ofNat_le.1 h.high

theorem IsSmall.le_of_negSucc (h : IsSmall ⟨s, .negSucc k⟩) : k + 1 ≤ maxPower := by
  have hlow : (-308 : Int) ≤ .negSucc k := h.low
  rw [maxPower]
  omega

/-- Digits are scaled to a magnitude that is no more steps away from the one that their decimal is rounded to than there
are roundings. -/
theorem IsSmall.scaled_within (h : IsSmall d) (hm : binary64.Rounds (d.numerator * binary64.quantaPerOne) d.denominator m)
    (hfin : m + 2 < binary64.infinity) : ∃ n, scaled d.digits d.exponent = .ok n ∧ Within d m n := by
  obtain ⟨s, e⟩ := d
  cases e with
  | ofNat k =>
    rw [Decimal.numerator_ofNat, Decimal.denominator_ofNat] at hm
    exact scaled_ofNat_within h.digits_lt.le h.le_of_ofNat hm hfin
  | negSucc k =>
    rw [Decimal.numerator_negSucc, Decimal.denominator_negSucc] at hm
    exact scaled_negSucc_within h.digits_lt.le h.le_of_negSucc hm hfin

/-- What is one at most is scaled to a magnitude that is. -/
theorem IsSmall.scaled_le_one {n : Nat} (h : IsSmall d) (hratio : d.numerator ≤ d.denominator)
    (hn : scaled d.digits d.exponent = .ok n) : n ≤ binary64.nearest 1 1 := by
  obtain ⟨s, e⟩ := d
  cases e with
  | ofNat k =>
    rw [Decimal.numerator_ofNat, Decimal.denominator_ofNat] at hratio
    have hk := h.le_of_ofNat
    have hs : s ≤ 1 := (Nat.le_mul_of_pos_right s (Nat.pow_pos (by decide))).trans hratio
    have hone := Format.product_le_one (holds_of_le (hs.trans (by decide))) (holds_ten_pow k hk) hratio
    have hlt : binary64.nearest 1 1 < binary64.infinity := by decide +kernel
    rw [← powerOfTen_eq] at hone
    rw [scaled_ofNat (hk.trans (by decide)) (hone.trans_lt hlt)] at hn
    exact (Except.ok.inj hn).symm.trans_le hone
  | negSucc k =>
    rw [Decimal.numerator_negSucc, Decimal.denominator_negSucc] at hratio
    rw [scaled_negSucc h.le_of_negSucc] at hn
    exact (Except.ok.inj hn).symm.trans_le (Ieee.Binary64.quotient_nearest_le (Nat.pow_pos (by decide)) hratio)

/-! ## Numbers that are printed -/

/-- A magnitude that is zero or not tiny, and not huge either. -/
structure Moderate (m : Nat) : Prop where
  low : m = 0 ∨ 53 ≤ binary64.exponent m
  high : m < binary64.nearest (2 ^ 65) 1

theorem Moderate.lt_infinity (h : Moderate m) : m + 2 < binary64.infinity := by
  have htop : binary64.nearest (2 ^ 65) 1 + 1 < binary64.infinity := by decide +kernel
  have := h.high
  omega

/-- The quotient of two counts of 64 bits is moderate. -/
theorem moderate_quotient {a b : Nat} (ha : a ≤ 2 ^ 64) (hb : b ≤ 2 ^ 64) (hpos : 0 < b) :
    Moderate (binary64.quotient (binary64.nearest a 1) (binary64.nearest b 1)) := by
  have hone : binary64.Holds 1 := holds_of_le (by decide)
  have htop : binary64.Holds (2 ^ 64) := by decide +kernel
  have hle : ∀ {n : Nat}, n ≤ 2 ^ 64 → binary64.quanta (binary64.nearest n 1) ≤ 2 ^ 64 * binary64.quantaPerOne :=
    fun h => (binary64.quanta_mono
      (binary64.nearest_mono Nat.one_pos Nat.one_pos (Nat.mul_le_mul_right 1 h))).trans_eq htop
  have hge : ∀ {n : Nat}, 0 < n → 1 * binary64.quantaPerOne ≤ binary64.quanta (binary64.nearest n 1) :=
    fun h => hone.symm.trans_le (binary64.quanta_mono
      (binary64.nearest_mono Nat.one_pos Nat.one_pos (Nat.mul_le_mul_right 1 h)))
  have hden := Ieee.Binary64.quanta_nearest_pos hpos
  refine ⟨?_, ?_⟩
  · rcases Nat.eq_zero_or_pos a with rfl | hapos
    · left
      rw [Format.nearest_zero, Format.quotient, Format.quanta_zero, Format.nearest_zero]
    · right
      have hleast : 53 ≤ binary64.exponent (binary64.nearest 1 (2 ^ 64)) := by decide +kernel
      exact hleast.trans (Format.exponent_mono (Format.le_quotient (by decide) hden (hge hapos) (hle hb)))
  · have hgreatest : binary64.nearest (2 ^ 64) 1 < binary64.nearest (2 ^ 65) 1 := by decide +kernel
    exact (Format.quotient_le Nat.one_pos hden (hle ha) (hge hpos)).trans_lt hgreatest

theorem Moderate.top_le (h : Moderate m) : binary64.top m ≤ 22 := by
  have hholds : binary64.quanta (binary64.nearest (2 ^ 65) 1) = 2 ^ 65 * binary64.quantaPerOne := by decide +kernel
  have hmono := binary64.quanta_mono (Nat.succ_le_of_lt h.high)
  rw [hholds, Nat.mul_comm] at hmono
  have hdiv : binary64.quanta (m + 1) / binary64.quantaPerOne ≤ 2 ^ 65 := Nat.div_le_of_le_mul hmono
  exact (Nat.length_toDigits_le_iff (by decide) (by decide)).2 (hdiv.trans_lt (by decide))

/-- The shortest decimal, and with it what is printed, is rounded to the number. -/
theorem rounds_shortest (m : Nat) : binary64.Rounds ((binary64.shortest .even m).numerator * binary64.quantaPerOne)
    (binary64.shortest .even m).denominator m := by
  rcases Nat.eq_zero_or_pos m with rfl | hm
  · exact Format.rounds_zero rfl
  · exact (Format.isShortest_shortest .even hm).rounds

theorem rounds_whole (h : binary64.Rounds (Decimal.numerator ⟨s, .ofNat k⟩ * binary64.quantaPerOne)
    (Decimal.denominator ⟨s, .ofNat k⟩) m) :
    binary64.Rounds (Decimal.numerator ⟨s * 10 ^ (k + 1), .negSucc 0⟩ * binary64.quantaPerOne)
      (Decimal.denominator ⟨s * 10 ^ (k + 1), .negSucc 0⟩) m := by
  rw [Decimal.numerator_ofNat, Decimal.denominator_ofNat] at h
  rw [Decimal.numerator_negSucc, Decimal.denominator_negSucc]
  refine h.congr Nat.one_pos (by decide) ?_
  ring

theorem rounds_printed (m : Nat) : binary64.Rounds ((printedParts m).decimal.numerator * binary64.quantaPerOne)
    (printedParts m).decimal.denominator m := by
  have hround := rounds_shortest m
  rcases decimal_printedParts m with heq | ⟨s, k, hshortest, -, heq⟩
  · rwa [heq]
  · rw [hshortest] at hround
    rw [heq]
    exact rounds_whole hround

/-- Numbers whose texts have the same parts are the same. -/
theorem printedParts_injective : Function.Injective printedParts := by
  intro m n h
  have hm := rounds_printed m
  rw [h] at hm
  exact hm.unique (Decimal.denominator_pos _) (rounds_printed n)

theorem Moderate.isSmall_shortest (h : Moderate m) : IsSmall (binary64.shortest .even m) := by
  rcases h.low with rfl | hlow
  · exact ⟨by decide, by decide, by decide⟩
  · have hm : 0 < m := by
      refine Nat.pos_of_ne_zero ?_
      rintro rfl
      exact absurd hlow (by decide)
    have hshortest := Format.isShortest_shortest .even hm
    have hdigits := hshortest.digits_lt
    have hbinade : 40 * binary64.binade ≤ UInt64.size := by decide +kernel
    have hle := hshortest.exponent_le
    have htop := h.top_le
    exact ⟨hdigits.trans_le hbinade, hshortest.le_exponent hlow, by omega⟩

/-- So is a whole decimal with a zero after the point. -/
theorem isSmall_whole (hleading : Decimal.leading ⟨s, .ofNat k⟩ < 16) : IsSmall ⟨s * 10 ^ (k + 1), .negSucc 0⟩ := by
  refine ⟨?_, (by decide : (-308 : Int) ≤ -1), (by decide : (-1 : Int) ≤ 22)⟩
  have hlen : 0 < (Nat.toDigits 10 s).length := Nat.length_toDigits_pos
  have hs : s < 10 ^ (Nat.toDigits 10 s).length := (Nat.length_toDigits_le_iff (by decide) hlen).1 (Nat.le_refl _)
  have hplace : (Nat.toDigits 10 s).length + (k + 1) ≤ 17 := by
    simp only [Decimal.leading, Int.ofNat_eq_natCast] at hleading
    omega
  calc s * 10 ^ (k + 1) < 10 ^ (Nat.toDigits 10 s).length * 10 ^ (k + 1) :=
        Nat.mul_lt_mul_of_pos_right hs (Nat.pow_pos (by decide))
    _ = 10 ^ ((Nat.toDigits 10 s).length + (k + 1)) := (Nat.pow_add ..).symm
    _ ≤ 10 ^ 17 := Nat.pow_le_pow_right (by decide) hplace
    _ < UInt64.size := by decide

theorem Moderate.isSmall_printed (h : Moderate m) : IsSmall (printedParts m).decimal := by
  rcases decimal_printedParts m with heq | ⟨s, k, -, hleading, heq⟩
  · rw [heq]
    exact h.isSmall_shortest
  · rw [heq]
    exact isSmall_whole hleading

/-- What is printed for a number that is one at most says one at most. -/
theorem numerator_printed_le (hone : m ≤ binary64.nearest 1 1) :
    (printedParts m).decimal.numerator ≤ (printedParts m).decimal.denominator := by
  rcases hone.lt_or_eq with hlt | heq
  · have hholds : binary64.Holds 1 := holds_of_le (by decide)
    exact (rounds_printed m).le_of_lt_one hholds hlt
  · rw [heq]
    decide +kernel

theorem value_printed (h : (printedParts m).decimal.digits < UInt64.size) : (printedParts m).value =
    (scaled (printedParts m).decimal.digits (printedParts m).decimal.exponent).map
      fun n => .real (.ofMagnitude false n) :=
  NumberText.value_of_real (printedParts_real m) (isForm_printedParts m).positive h

theorem value_of_negSucc (h : (printedParts m).decimal = ⟨s, .negSucc k⟩) (hs : s < UInt64.size) (hk : k + 1 ≤ maxPower) :
    (printedParts m).value =
      .ok (.real (.ofMagnitude false (binary64.quotient (binary64.nearest s 1) (powerOfTen (k + 1))))) := by
  rw [value_printed (by rwa [h]), h, scaled_negSucc hk]
  rfl

/-- It is read back as a number that is no more steps away than it is rounded. -/
theorem Moderate.exists_value (h : Moderate m) : ∃ n, (printedParts m).value = .ok (.real (.ofMagnitude false n)) ∧
    Within (printedParts m).decimal m n ∧ (m ≤ binary64.nearest 1 1 → n ≤ binary64.nearest 1 1) := by
  have hsmall := h.isSmall_printed
  obtain ⟨n, hscaled, hwithin⟩ := hsmall.scaled_within (rounds_printed m) h.lt_infinity
  refine ⟨n, ?_, hwithin, fun hone => hsmall.scaled_le_one (numerator_printed_le hone) hscaled⟩
  rw [value_printed hsmall.digits_lt, hscaled]
  rfl

/-- Nothing is rounded if the digits and the power of ten are numbers of the format. -/
theorem Within.eq_of_exact {n : Nat} (h : Within d m n) (hdigits : d.digits ≤ 2 ^ 53) (hpower : d.exponent.natAbs ≤ 22) :
    n = m := by
  obtain ⟨-, hup, hdown⟩ := h
  have hs : binary64.roundings d.digits = 0 := if_pos (holds_of_le hdigits)
  have hten : binary64.roundings (10 ^ d.exponent.natAbs) = 0 := if_pos (holds_ten_pow _ hpower)
  rw [Decimal.roundings, hs, hten] at hup hdown
  omega

/-! ## Reading what is printed -/

/-- A finite number that is not negative. -/
structure IsUnsigned (x : Binary64) : Prop where
  finite : x.isFinite = true
  positive : x.isNegative = false

theorem isUnsigned_ofMagnitude (h : m < binary64.infinity) : IsUnsigned (.ofMagnitude false m) := by
  refine ⟨?_, Ieee.Binary64.isNegative_ofMagnitude h.le⟩
  rw [Binary64.isFinite, Ieee.Binary64.magnitude_ofMagnitude h.le]
  exact decide_eq_true h

variable {x y : Binary64}

/-- The text of a number is cut into its parts again. -/
theorem IsUnsigned.read (hx : IsUnsigned x) {rest : List Char} (hrest : EndsNumber rest) :
    NumberText.read .cutShort ((numberText x).toList ++ rest) = .ok (printedParts x.magnitude, rest) := by
  rw [toList_numberText hx.finite hx.positive]
  exact NumberText.read_spell (isForm_printedParts _) .cutShort hrest

/-- A number is read back as the value of its parts. -/
theorem IsUnsigned.reads (hx : IsUnsigned x) {n : Number} (hvalue : (printedParts x.magnitude).value = .ok n) {key : String}
    (hkey : IsPlain key) : Member.Reads ⟨⟨key, .number⟩, numberText x, .number n.toBinary64⟩ := by
  refine ⟨hkey, ?_⟩
  intro rest hrest
  have hread := hx.read (endsNumber_of_ends hrest)
  rw [toList_numberText hx.finite hx.positive] at hread
  have hnumber : readNumber ((printedParts x.magnitude).spell ++ rest) = .ok (n, rest) := by
    rw [readNumber, hread]
    simp only [ok_bind, hvalue]
    rfl
  rw [toList_numberText hx.finite hx.positive]
  exact readItem_number (head_spell (isForm_printedParts _) rest) hnumber

/-- Texts that begin with numbers are the same only if the numbers are. -/
theorem IsUnsigned.append_inj (hx : IsUnsigned x) (hy : IsUnsigned y) {rest rest' : List Char} (hrest : EndsNumber rest)
    (hrest' : EndsNumber rest') (h : (numberText x).toList ++ rest = (numberText y).toList ++ rest') :
    x = y ∧ rest = rest' := by
  have hread := hx.read hrest
  rw [h, hy.read hrest'] at hread
  obtain ⟨hparts, hrests⟩ := Prod.mk.inj (Except.ok.inj hread)
  exact ⟨Ieee.Binary64.eq_of_magnitude hx.positive hy.positive (printedParts_injective hparts.symm), hrests.symm⟩

/-- How a number that was printed is read back: the text has the parts `t`, and if their digits or their power of ten have
to be rounded, another number may come of them, for each of the two one step away at most. -/
structure ReadsBack (x y : Binary64) (t : NumberText) : Prop where
  text : NumberText.read .cutShort (numberText x).toList = .ok (t, [])
  unsigned : IsUnsigned y
  within : Within t.decimal x.magnitude y.magnitude
  steps : t.decimal.roundings ≤ 2
  atMostOne : x.atMostOne = true → y.atMostOne = true
  exact : t.decimal.digits ≤ 2 ^ 53 → t.decimal.exponent.natAbs ≤ 22 → y = x

theorem Moderate.isUnsigned (h : Moderate m) : IsUnsigned (.ofMagnitude false m) :=
  isUnsigned_ofMagnitude ((Nat.le_add_right m 2).trans_lt h.lt_infinity)

/-- A number that is neither tiny nor huge is read back from its text, and so as a member of an object. -/
theorem Moderate.readsBack (h : Moderate m) : ∃ y, ReadsBack (.ofMagnitude false m) y (printedParts m) ∧
    ∀ key, IsPlain key → Member.Reads ⟨⟨key, .number⟩, numberText (.ofMagnitude false m), .number y⟩ := by
  obtain ⟨n, hvalue, hwithin, hone⟩ := h.exists_value
  have hm : m < binary64.infinity := (Nat.le_add_right m 2).trans_lt h.lt_infinity
  have hmag := Ieee.Binary64.magnitude_ofMagnitude hm.le
  have hmag' := Ieee.Binary64.magnitude_ofMagnitude hwithin.1.le
  refine ⟨.ofMagnitude false n, ⟨?_, isUnsigned_ofMagnitude hwithin.1, ?_, Decimal.roundings_le _, ?_, ?_⟩, ?_⟩
  · have hends : EndsNumber [] := nofun
    have hread := h.isUnsigned.read hends
    rwa [List.append_nil, hmag] at hread
  · rwa [hmag, hmag']
  · rw [Ieee.Binary64.atMostOne_ofMagnitude hm.le, Ieee.Binary64.atMostOne_ofMagnitude hwithin.1.le]
    exact hone
  · intro hdigits hpower
    rw [hwithin.eq_of_exact hdigits hpower]
  · intro key hkey
    exact h.isUnsigned.reads (by rwa [hmag]) hkey

end RecordPack.Json

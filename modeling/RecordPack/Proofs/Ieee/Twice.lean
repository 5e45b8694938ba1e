import RecordPack.Proofs.Ieee.Nearest

/-!
# Rounding twice

An integer becomes a single-precision number by way of double precision. The midpoints of single-precision numbers are
numbers of double precision, so rounding to double precision takes nothing across one; but it may take an integer onto
one, and the second rounding then follows the even significand and not the side that the integer was on. That is the
only way in which rounding twice differs from rounding once (`Binary64.ofInt_narrowed`).
-/

namespace RecordPack.Ieee

namespace Format

variable {f : Format} {a b q : Nat}

/-- A significand of as many bits as a pattern keeps has no surplus ones, wherever it stands. -/
theorem surplus_dvd_of_lt {c : Nat} (h : c < 2 * f.binade) (j : Nat) : 2 ^ f.surplus (c * 2 ^ j) ∣ c * 2 ^ j := by
  rcases Nat.eq_zero_or_pos c with rfl | hpos
  · simp
  · have hlog : c.log2 < f.fractionBits + 1 := (Nat.log2_lt hpos.ne').2 (by rwa [pow_succ', ← binade_eq])
    have hle : f.surplus (c * 2 ^ j) ≤ j := by
      rw [surplus, log2_mul_two_pow hpos.ne']
      omega
    exact (pow_dvd_pow 2 hle).trans (Nat.dvd_mul_left _ _)

theorem quanta_nearest_le (hb : 0 < b) (hd : 2 ^ f.surplus q ∣ q) (h : a * f.quantaPerOne ≤ q * b) :
    f.quanta (f.nearest a b) ≤ q := by
  have hmono := f.nearest_mono hb f.quantaPerOne_pos h
  rw [f.nearest_exact f.quantaPerOne_pos rfl hd] at hmono
  exact (f.quanta_mono (hmono.trans (Nat.min_le_right _ _))).trans_eq (f.quanta_ofQuanta hd)

theorem le_quanta_nearest (hb : 0 < b) (hd : 2 ^ f.surplus q ∣ q) (hfin : f.nearest a b < f.infinity)
    (h : q * b ≤ a * f.quantaPerOne) : q ≤ f.quanta (f.nearest a b) := by
  have hmono := f.nearest_mono f.quantaPerOne_pos hb h
  rw [f.nearest_exact f.quantaPerOne_pos rfl hd] at hmono
  have hle : f.ofQuanta q ≤ f.nearest a b := by omega
  exact (f.quanta_ofQuanta hd).symm.trans_le (f.quanta_mono hle)

end Format

/-! ## The midpoints of single precision -/

theorem binade_binary32_even : 2 ∣ binary32.binade := by decide

theorem binade_binary64_even : 2 ∣ binary64.binade := by decide

/-- The midpoint of a magnitude and the next one, in quanta of double precision. -/
def midpoint (m : Nat) : Nat := (binary32.quanta m + binary32.quanta (m + 1)) * 2 ^ (halvings - 1)

theorem surplus_dvd_midpoint (m : Nat) : 2 ^ binary64.surplus (midpoint m) ∣ midpoint m := by
  have hlt := binary32.significand_lt m
  have hbin : binary32.binade = 2 ^ 23 := rfl
  have hbin' : binary64.binade = 2 ^ 52 := rfl
  have hmid : midpoint m = (2 * binary32.significand m + 1) * 2 ^ (binary32.exponent m + (halvings - 1)) := by
    rw [midpoint, binary32.quanta_succ, binary32.quanta_eq]
    ring
  rw [hmid]
  exact Format.surplus_dvd_of_lt (by omega) _

variable {a d m n : Nat}

/-- A number of quanta of double precision against the midpoint. -/
theorem two_mul_midpoint (m : Nat) : (binary32.quanta m + binary32.quanta (m + 1)) * binary64.quantaPerOne =
    2 * (midpoint m * binary32.quantaPerOne) := by
  rw [midpoint, quantaPerOne_binary64, show halvings = halvings - 1 + 1 from rfl, pow_succ, Nat.add_sub_cancel]
  ring

theorem two_mul_quantaPerOne (a : Nat) :
    a * binary64.quantaPerOne = 2 * (a * binary32.quantaPerOne) * 2 ^ (halvings - 1) := by
  rw [quantaPerOne_binary64, show halvings = halvings - 1 + 1 from rfl, pow_succ, Nat.add_sub_cancel]
  ring

/-- An integer against the midpoint. -/
theorem midpoint_le_iff : midpoint m ≤ a * binary64.quantaPerOne ↔
    binary32.quanta m + binary32.quanta (m + 1) ≤ 2 * (a * binary32.quantaPerOne) := by
  rw [two_mul_quantaPerOne, midpoint]
  exact Nat.mul_le_mul_right_iff (Nat.two_pow_pos _)

theorem le_midpoint_iff : a * binary64.quantaPerOne ≤ midpoint m ↔
    2 * (a * binary32.quantaPerOne) ≤ binary32.quanta m + binary32.quanta (m + 1) := by
  rw [two_mul_quantaPerOne, midpoint]
  exact Nat.mul_le_mul_right_iff (Nat.two_pow_pos _)

/-- A number of quanta of double precision that is rounded to `m` lies between the midpoints. -/
theorem Format.Rounds.midpoint_le
    (h : binary32.Rounds (d * binary32.quantaPerOne) binary64.quantaPerOne m) (hn : n + 1 = m) :
    midpoint n + m % 2 ≤ d := by
  have hlow := h.low n hn
  rw [← hn, two_mul_midpoint, hn] at hlow
  have hmod := Nat.mod_lt m Nat.two_pos
  by_contra hlt
  rcases Nat.lt_or_ge d (midpoint n) with hd | hd
  · have := Nat.mul_lt_mul_of_pos_right hd binary32.quantaPerOne_pos
    omega
  · have heq : d = midpoint n := by omega
    rw [heq] at hlow
    omega

theorem Format.Rounds.le_midpoint
    (h : binary32.Rounds (d * binary32.quantaPerOne) binary64.quantaPerOne m) : d + m % 2 ≤ midpoint m := by
  have hhigh := h.high
  rw [two_mul_midpoint] at hhigh
  have hmod := Nat.mod_lt m Nat.two_pos
  by_contra hlt
  rcases Nat.lt_or_ge (midpoint m) d with hd | hd
  · have := Nat.mul_lt_mul_of_pos_right hd binary32.quantaPerOne_pos
    omega
  · have heq : d = midpoint m := by omega
    rw [heq] at hhigh
    omega

/-- An integer that was rounded to double precision stays on its side of every midpoint or comes to lie on it. So it is
rounded to the same magnitude of single precision as before, or it was beyond a midpoint that it now lies on. -/
theorem rounds_or_astray (hfin : binary64.nearest a 1 < binary64.infinity)
    (hd : binary64.quanta (binary64.nearest a 1) = d)
    (hm : binary32.Rounds (d * binary32.quantaPerOne) binary64.quantaPerOne m) :
    binary32.Rounds (a * binary32.quantaPerOne) 1 m ∨ m % 2 = 0 ∧
      ((∃ n, n + 1 = m ∧ d = midpoint n ∧ 2 * (a * binary32.quantaPerOne) < binary32.quanta n + binary32.quanta m) ∨
        d = midpoint m ∧ binary32.quanta m + binary32.quanta (m + 1) < 2 * (a * binary32.quantaPerOne)) := by
  have hmod := Nat.mod_lt m Nat.two_pos
  have hhigh := hm.le_midpoint
  -- midpoints are numbers of double precision
  have hbelow : ∀ p, 2 * (a * binary32.quantaPerOne) ≤ binary32.quanta p + binary32.quanta (p + 1) → d ≤ midpoint p := by
    intro p hp
    rw [← hd]
    exact Format.quanta_nearest_le Nat.one_pos (surplus_dvd_midpoint p) ((le_midpoint_iff.2 hp).trans_eq (by omega))
  have habove : ∀ p, binary32.quanta p + binary32.quanta (p + 1) ≤ 2 * (a * binary32.quantaPerOne) → midpoint p ≤ d := by
    intro p hp
    rw [← hd]
    exact Format.le_quanta_nearest Nat.one_pos (surplus_dvd_midpoint p) hfin
      ((Nat.mul_one _).trans_le (midpoint_le_iff.2 hp))
  by_cases hunder : ∃ n, n + 1 = m ∧ 2 * (a * binary32.quantaPerOne) < binary32.quanta n + binary32.quanta m
  · obtain ⟨n, hn, hlt⟩ := hunder
    have hlow := hm.midpoint_le hn
    have hle := hbelow n (hn.symm ▸ hlt.le)
    exact .inr ⟨by omega, .inl ⟨n, hn, by omega, hlt⟩⟩
  · by_cases hover : binary32.quanta m + binary32.quanta (m + 1) < 2 * (a * binary32.quantaPerOne)
    · have hge := habove m hover.le
      exact .inr ⟨by omega, .inr ⟨by omega, hover⟩⟩
    · -- an odd magnitude is not rounded to from the midpoint itself
      refine .inl ⟨?_, ?_⟩
      · intro n hn
        have hlow := hm.midpoint_le hn
        have hside : ¬ 2 * (a * binary32.quantaPerOne) < binary32.quanta n + binary32.quanta m :=
          fun hlt => hunder ⟨n, hn, hlt⟩
        have hon := hbelow n
        rw [hn] at hon
        omega
      · have hon := habove m
        omega

/-! ## Numbers -/

/-- Rounded to double precision, `x` lies midway between the number of `bits` and a neighbour of it, which was the
nearer one. -/
structure Astray (x : ℚ) (d bits other : Nat) : Prop where
  finite : binary32.IsFinite other
  sign : binary32.isNegative other = binary32.isNegative bits
  neighbour : binary32.magnitude other + 1 = binary32.magnitude bits ∨
    binary32.magnitude bits + 1 = binary32.magnitude other
  odd : ¬ Even (binary32.significand (binary32.magnitude other))
  midway : 2 * binary64.value d = binary32.value bits + binary32.value other
  nearer : |binary32.value other - x| < |binary32.value bits - x|

theorem Astray.not_isNearest {x : ℚ} {bits other : Nat} (h : Astray x d bits other) : ¬ binary32.IsNearest x bits :=
  fun hnearest => h.nearer.not_ge (hnearest.least other h.finite)

/-- The midpoint as a number. -/
theorem absolute_midpoint (h : binary64.quanta d = midpoint n) :
    2 * binary64.absolute d = binary32.absolute n + binary32.absolute (n + 1) := by
  have hone : (0 : ℚ) < binary32.quantaPerOne := by exact_mod_cast binary32.quantaPerOne_pos
  have hone' : (0 : ℚ) < binary64.quantaPerOne := by exact_mod_cast binary64.quantaPerOne_pos
  have hmid : ((binary32.quanta n : ℚ) + binary32.quanta (n + 1)) * binary64.quantaPerOne =
      2 * (binary64.quanta d * binary32.quantaPerOne) := by
    rw [h]
    exact_mod_cast two_mul_midpoint n
  rw [Format.absolute, Format.absolute, Format.absolute, ← add_div, mul_div_assoc', div_eq_div_iff hone'.ne' hone.ne', hmid]
  ring

/-- Signs do not matter for what is astray. -/
theorem astray_withSign {other : Nat} (negative : Bool) (hm : m < binary32.infinity) (hother : other < binary32.infinity)
    (hd : d < binary64.signWeight) (hadj : other + 1 = m ∨ m + 1 = other) (hodd : other % 2 = 1)
    (hmid : 2 * binary64.absolute d = binary32.absolute m + binary32.absolute other)
    (hnear : |binary32.absolute other - a| < |binary32.absolute m - a|) :
    Astray ((if negative then -1 else 1) * a) (binary64.withSign negative d) (binary32.withSign negative m)
      (binary32.withSign negative other) := by
  have hsw := hm.trans (Format.infinity_lt_signWeight (f := binary32))
  have hsw' := hother.trans (Format.infinity_lt_signWeight (f := binary32))
  have hmag := Format.magnitude_withSign hsw negative
  have hmag' := Format.magnitude_withSign hsw' negative
  refine ⟨⟨Format.withSign_lt hsw' negative, by rwa [hmag']⟩, ?_, by rwa [hmag, hmag'], ?_, ?_, ?_⟩
  · rw [Format.isNegative_withSign hsw, Format.isNegative_withSign hsw']
  · rw [hmag', Format.even_significand binade_binary32_even]
    omega
  · rw [Format.value_withSign hd, Format.value_withSign hsw, Format.value_withSign hsw', ← mul_add, ← hmid]
    ring
  · rw [Format.value_withSign hsw, Format.value_withSign hsw', ← mul_sub, ← mul_sub, abs_mul, abs_mul]
    cases negative <;> simpa using hnear

theorem two_mul_lt_absolute_add (m n : Nat) : 2 * (a : ℚ) < binary32.absolute m + binary32.absolute n ↔
    2 * (a * binary32.quantaPerOne) < binary32.quanta m + binary32.quanta n := by
  have hone : (0 : ℚ) < binary32.quantaPerOne := by exact_mod_cast binary32.quantaPerOne_pos
  rw [Format.absolute, Format.absolute, ← add_div, lt_div_iff₀ hone, mul_assoc]
  exact_mod_cast Iff.rfl

theorem absolute_add_lt_two_mul (m n : Nat) : binary32.absolute m + binary32.absolute n < 2 * (a : ℚ) ↔
    binary32.quanta m + binary32.quanta n < 2 * (a * binary32.quantaPerOne) := by
  have hone : (0 : ℚ) < binary32.quantaPerOne := by exact_mod_cast binary32.quantaPerOne_pos
  rw [Format.absolute, Format.absolute, ← add_div, div_lt_iff₀ hone, mul_assoc]
  exact_mod_cast Iff.rfl

/-- An integer that is rounded twice is rounded to the nearest number, or it went astray. -/
theorem isNearest_or_astray (hfin : binary64.nearest a 1 < binary64.infinity)
    (hd : binary64.quanta (binary64.nearest a 1) = d)
    (hm : binary32.nearest d binary64.quantaPerOne + 1 < binary32.infinity) (negative : Bool) :
    binary32.IsNearest ((if negative then -1 else 1) * a)
        (binary32.withSign negative (binary32.nearest d binary64.quantaPerOne)) ∨
      ∃ other, Astray ((if negative then -1 else 1) * a) (binary64.withSign negative (binary64.nearest a 1))
        (binary32.withSign negative (binary32.nearest d binary64.quantaPerOne)) other := by
  have hrounds := Format.rounds_nearest (a := d) binade_binary32_even binary64.quantaPerOne_pos (by omega)
  have hsw := hfin.trans (Format.infinity_lt_signWeight (f := binary64))
  generalize binary32.nearest d binary64.quantaPerOne = m at hm hrounds ⊢
  rcases rounds_or_astray hfin hd hrounds with honce | ⟨heven, ⟨n, rfl, hmid, hlt⟩ | ⟨hmid, hlt⟩⟩
  · have hnearest := honce.isNearest binade_binary32_even Nat.one_pos (by omega) negative
    rw [Nat.cast_one, div_one] at hnearest
    exact .inl hnearest
  · refine .inr ⟨_, astray_withSign negative (by omega) (show n < binary32.infinity by omega) hsw (.inl rfl) (by omega) ?_ ?_⟩
    · rw [absolute_midpoint (hd.trans hmid), add_comm]
    · have hstep := Format.absolute_lt (f := binary32) (Nat.lt_add_one n)
      have hside := (two_mul_lt_absolute_add n (n + 1)).2 hlt
      exact (abs_lt.2 ⟨by linarith, by linarith⟩).trans_le (le_abs_self _)
  · refine .inr ⟨_, astray_withSign negative (by omega) hm hsw (.inr rfl) (by omega) ?_ ?_⟩
    · exact absolute_midpoint (hd.trans hmid)
    · have hstep := Format.absolute_lt (f := binary32) (Nat.lt_add_one m)
      have hside := (absolute_add_lt_two_mul m (m + 1)).2 hlt
      rw [abs_sub_comm (binary32.absolute m)]
      exact (abs_lt.2 ⟨by linarith, by linarith⟩).trans_le (le_abs_self _)

/-! ## Integers -/

/-- What an integer becomes in single precision: it is rounded to double precision, and that is rounded again. The
nearest number comes of it unless the integer went astray on the way, as one with few digits does not. -/
structure RoundedTwice (n : ℤ) (d bits : Nat) : Prop where
  first : binary64.IsNearest n d
  second : binary32.IsNearest (binary64.value d) bits
  sign : binary32.isNegative bits = decide (n < 0)
  once : binary32.IsNearest n bits ↔ ¬ ∃ other, Astray n d bits other
  exact : n.natAbs ≤ 2 ^ 53 → binary32.IsNearest n bits

/-- An integer of up to 53 bits is a number of double precision. -/
theorem quanta_nearest_of_le (hfin : binary64.nearest a 1 < binary64.infinity) (h : a ≤ 2 ^ 53) :
    binary64.quanta (binary64.nearest a 1) = a * binary64.quantaPerOne := by
  have hd : 2 ^ binary64.surplus (a * binary64.quantaPerOne) ∣ a * binary64.quantaPerOne := by
    rw [Format.quantaPerOne_eq]
    rcases h.lt_or_eq with hlt | heq
    · exact Format.surplus_dvd_of_lt hlt _
    · have hone := Format.surplus_dvd_of_lt (f := binary64) (c := 1) (by decide) (53 + binary64.quantumShift)
      rwa [Nat.one_mul, pow_add, ← heq] at hone
  refine Nat.le_antisymm ?_ ?_
  · exact Format.quanta_nearest_le Nat.one_pos hd (Nat.mul_one _).ge
  · exact Format.le_quanta_nearest Nat.one_pos hd hfin (Nat.mul_one _).le

/-- An integer of up to 64 bits is far from the infinities of both formats. -/
theorem nearest_lt_of_le (h : a ≤ 2 ^ 64) : binary64.nearest a 1 < binary64.infinity ∧
    binary32.nearest (binary64.quanta (binary64.nearest a 1)) binary64.quantaPerOne + 1 < binary32.infinity := by
  have hle : binary64.nearest a 1 ≤ binary64.nearest (2 ^ 64) 1 :=
    binary64.nearest_mono Nat.one_pos Nat.one_pos (Nat.mul_le_mul_right 1 h)
  have htop : binary64.nearest (2 ^ 64) 1 < binary64.infinity := by decide +kernel
  have htop' : binary32.nearest (binary64.quanta (binary64.nearest (2 ^ 64) 1)) binary64.quantaPerOne + 1 <
      binary32.infinity := by decide +kernel
  have hnarrow := binary32.nearest_mono binary64.quantaPerOne_pos binary64.quantaPerOne_pos
    (Nat.mul_le_mul_right binary64.quantaPerOne (binary64.quanta_mono hle))
  exact ⟨hle.trans_lt htop, by omega⟩

theorem Binary64.toNat_ofInt (n : ℤ) :
    (ofInt n).bits.toNat = binary64.withSign (decide (n < 0)) (binary64.nearest n.natAbs 1) := by
  have hsw := (binary64.nearest_le_infinity n.natAbs 1).trans_lt Format.infinity_lt_signWeight
  rw [ofInt, ofMagnitude, UInt64.toNat_ofNat']
  exact Nat.mod_eq_of_lt (Format.withSign_lt hsw _)

theorem Binary64.toNat_toBinary32_ofInt {n : ℤ} (hfin : binary64.nearest n.natAbs 1 < binary64.infinity) :
    (ofInt n).toBinary32.bits.toNat = binary32.withSign (decide (n < 0))
      (binary32.nearest (binary64.quanta (binary64.nearest n.natAbs 1)) binary64.quantaPerOne) := by
  have hsw := hfin.trans Format.infinity_lt_signWeight
  have hconvert : binary64.convert binary32 (ofInt n).bits.toNat = binary32.withSign (decide (n < 0))
      (binary32.nearest (binary64.quanta (binary64.nearest n.natAbs 1)) binary64.quantaPerOne) := by
    rw [toNat_ofInt, Format.convert, Format.magnitude_withSign hsw, Format.isNegative_withSign hsw, if_pos hfin]
  rw [toBinary32, UInt32.toNat_ofNat', hconvert]
  exact Nat.mod_eq_of_lt
    (Format.withSign_lt ((binary32.nearest_le_infinity _ _).trans_lt Format.infinity_lt_signWeight) _)

theorem roundedTwice_ofInt {n : ℤ} (hn : n.natAbs ≤ 2 ^ 64) :
    RoundedTwice n (Binary64.ofInt n).bits.toNat (Binary64.ofInt n).toBinary32.bits.toNat := by
  obtain ⟨hfin, hfin'⟩ := nearest_lt_of_le hn
  have hsw := hfin.trans Format.infinity_lt_signWeight
  have hvalue : (n : ℚ) = (if decide (n < 0) then -1 else 1) * n.natAbs := by
    rw [Nat.cast_natAbs]
    by_cases hneg : n < 0
    · simp [hneg, abs_of_neg hneg]
    · simp [hneg, abs_of_nonneg (Int.not_lt.1 hneg)]
  have hfirst := (Format.rounds_nearest binade_binary64_even Nat.one_pos hfin).isNearest binade_binary64_even Nat.one_pos
    hfin (decide (n < 0))
  have hnarrow : binary32.nearest (binary64.quanta (binary64.nearest n.natAbs 1)) binary64.quantaPerOne < binary32.infinity :=
    (Nat.lt_add_one _).trans hfin'
  have hsecond := (Format.rounds_nearest binade_binary32_even binary64.quantaPerOne_pos hnarrow).isNearest
    binade_binary32_even binary64.quantaPerOne_pos hnarrow (decide (n < 0))
  have honce := isNearest_or_astray hfin rfl hfin' (decide (n < 0))
  rw [Nat.cast_one, div_one, ← hvalue] at hfirst
  rw [← hvalue] at honce
  rw [Binary64.toNat_ofInt, Binary64.toNat_toBinary32_ofInt hfin]
  refine ⟨hfirst, ?_, Format.isNegative_withSign (hnarrow.trans Format.infinity_lt_signWeight) _, ?_, ?_⟩
  · rwa [Format.value_withSign hsw]
  · exact ⟨fun h ⟨other, hother⟩ => hother.not_isNearest h, honce.resolve_right⟩
  · intro hle
    -- the first rounding leaves it alone
    have hexact : binary64.absolute (binary64.nearest n.natAbs 1) = n.natAbs := by
      have hone : (0 : ℚ) < binary64.quantaPerOne := by exact_mod_cast binary64.quantaPerOne_pos
      rw [Format.absolute, quanta_nearest_of_le hfin hle, Nat.cast_mul, mul_div_cancel_right₀ _ hone.ne']
    rw [← Format.absolute, hexact, ← hvalue] at hsecond
    exact hsecond

end RecordPack.Ieee

import RecordPack.Proofs.Ieee.Narrowing

/-!
# Rounding keeps order

A lesser quotient is not rounded to a greater pattern (`Format.nearest_mono`): either it has the same number of surplus
bits, and the quotients are rounded to whole numbers alike (`nearestEven_mono`), or it has fewer and stays below what
can be rounded to the next exponent. So the quotient of a count and a greater one, both rounded first, is at most one
(`Binary64.atMostOne_ratio`).
-/

namespace RecordPack.Ieee

section NearestEven

variable {a b c d : Nat}

theorem div_le_nearestEven (a b : Nat) : a / b ≤ nearestEven a b := by
  simp only [nearestEven]
  split
  · exact Nat.le_refl _
  · split <;> omega

theorem nearestEven_le_succ (a b : Nat) : nearestEven a b ≤ a / b + 1 := by
  simp only [nearestEven]
  split
  · exact Nat.le_succ _
  · split <;> omega

/-- Quotients are compared by cross products. -/
theorem div_le_div_of_cross (hb : 0 < b) (hd : 0 < d) (h : a * d ≤ c * b) : a / b ≤ c / d := by
  rw [Nat.le_div_iff_mul_le hd]
  refine Nat.le_of_mul_le_mul_right ?_ hb
  calc a / b * d * b = a / b * b * d := Nat.mul_right_comm _ _ _
    _ ≤ a * d := Nat.mul_le_mul_right d (Nat.div_mul_le_self a b)
    _ ≤ c * b := h

theorem mod_le_mod_of_cross (h : a * d ≤ c * b) (hq : a / b = c / d) : a % b * d ≤ c % d * b := by
  have ha : a * d = b * d * (a / b) + a % b * d := by
    conv_lhs => rw [← Nat.div_add_mod a b]
    ring
  have hc : c * b = b * d * (c / d) + c % d * b := by
    conv_lhs => rw [← Nat.div_add_mod c d]
    ring
  rw [ha, hc, hq] at h
  exact Nat.le_of_add_le_add_left h

theorem nearestEven_mono (hb : 0 < b) (hd : 0 < d) (h : a * d ≤ c * b) : nearestEven a b ≤ nearestEven c d := by
  rcases (div_le_div_of_cross hb hd h).lt_or_eq with hlt | heq
  · exact (nearestEven_le_succ a b).trans (Nat.succ_le_of_lt hlt |>.trans (div_le_nearestEven c d))
  · -- with the same whole part, the halves decide
    have hmod := mod_le_mod_of_cross h heq
    have hdown : 2 * (c % d) < d → 2 * (a % b) < b := by
      intro hc
      refine Nat.lt_of_mul_lt_mul_right (a := d) ?_
      calc 2 * (a % b) * d = 2 * (a % b * d) := Nat.mul_assoc ..
        _ ≤ 2 * (c % d * b) := Nat.mul_le_mul_left 2 hmod
        _ = 2 * (c % d) * b := (Nat.mul_assoc ..).symm
        _ < d * b := Nat.mul_lt_mul_of_pos_right hc hb
        _ = b * d := Nat.mul_comm ..
    have htie : 2 * (c % d) ≤ d → 2 * (a % b) ≤ b := by
      intro hc
      refine Nat.le_of_mul_le_mul_right ?_ hd
      calc 2 * (a % b) * d = 2 * (a % b * d) := Nat.mul_assoc ..
        _ ≤ 2 * (c % d * b) := Nat.mul_le_mul_left 2 hmod
        _ = 2 * (c % d) * b := (Nat.mul_assoc ..).symm
        _ ≤ d * b := Nat.mul_le_mul_right b hc
        _ = b * d := Nat.mul_comm ..
    simp only [nearestEven, heq]
    split_ifs <;> omega

end NearestEven

namespace Format

variable (f : Format)

theorem surplus_mono {p q : Nat} (h : p ≤ q) : f.surplus p ≤ f.surplus q := by
  rw [surplus, surplus, Nat.log2_eq_log_two, Nat.log2_eq_log_two]
  exact Nat.sub_le_sub_right (Nat.log_mono_right h) _

/-- A quotient with its surplus bits cut off, and what it is rounded to. -/
theorem nearestEven_le_binade (s b : Nat) : nearestEven s (b * 2 ^ f.surplus (s / b)) ≤ 2 * f.binade := by
  have hle := nearestEven_le_succ s (b * 2 ^ f.surplus (s / b))
  rw [← Nat.div_div_eq_div_mul] at hle
  exact hle.trans (f.div_surplus_lt (s / b))

theorem binade_le_nearestEven {s b : Nat} (h : 0 < f.surplus (s / b)) :
    f.binade ≤ nearestEven s (b * 2 ^ f.surplus (s / b)) := by
  refine (f.binade_le_div_surplus h).trans ?_
  rw [Nat.div_div_eq_div_mul]
  exact div_le_nearestEven _ _

variable {a b c d : Nat}

/-- Numbers of quanta are rounded in their order. -/
theorem nearest_mono (hb : 0 < b) (hd : 0 < d) (h : a * d ≤ c * b) : f.nearest a b ≤ f.nearest c d := by
  have hscaled : a * f.quantaPerOne * d ≤ c * f.quantaPerOne * b := by
    calc a * f.quantaPerOne * d = a * d * f.quantaPerOne := Nat.mul_right_comm ..
      _ ≤ c * b * f.quantaPerOne := Nat.mul_le_mul_right _ h
      _ = c * f.quantaPerOne * b := Nat.mul_right_comm ..
  refine min_le_min_left f.infinity ?_
  generalize a * f.quantaPerOne = s at hscaled ⊢
  generalize c * f.quantaPerOne = t at hscaled ⊢
  show f.surplus (s / b) * f.binade + nearestEven s (b * 2 ^ f.surplus (s / b)) ≤
    f.surplus (t / d) * f.binade + nearestEven t (d * 2 ^ f.surplus (t / d))
  rcases (f.surplus_mono (div_le_div_of_cross hb hd hscaled)).lt_or_eq with hlt | heq
  · -- what is rounded up from one exponent is not beyond the next
    calc f.surplus (s / b) * f.binade + nearestEven s (b * 2 ^ f.surplus (s / b))
        ≤ f.surplus (s / b) * f.binade + 2 * f.binade := Nat.add_le_add_left (f.nearestEven_le_binade s b) _
      _ = (f.surplus (s / b) + 1) * f.binade + f.binade := by ring
      _ ≤ f.surplus (t / d) * f.binade + f.binade := Nat.add_le_add_right (Nat.mul_le_mul_right _ hlt) _
      _ ≤ _ := Nat.add_le_add_left (f.binade_le_nearestEven (Nat.zero_lt_of_lt hlt)) _
  · rw [heq]
    refine Nat.add_le_add_left (nearestEven_mono ?_ ?_ ?_) _
    · exact Nat.mul_pos hb (Nat.two_pow_pos _)
    · exact Nat.mul_pos hd (Nat.two_pow_pos _)
    · calc s * (d * 2 ^ f.surplus (t / d)) = s * d * 2 ^ f.surplus (t / d) := (Nat.mul_assoc ..).symm
        _ ≤ t * b * 2 ^ f.surplus (t / d) := Nat.mul_le_mul_right _ hscaled
        _ = t * (b * 2 ^ f.surplus (t / d)) := Nat.mul_assoc ..

theorem nearest_le_infinity (a b : Nat) : f.nearest a b ≤ f.infinity := Nat.min_le_left _ _

/-- Magnitudes are in the order of their quanta. -/
theorem quanta_mono {m n : Nat} (h : m ≤ n) : f.quanta m ≤ f.quanta n := by
  rcases Nat.lt_or_ge n f.binade with hn | hn
  · rwa [f.quanta_of_lt hn, f.quanta_of_lt (Nat.lt_of_le_of_lt h hn)]
  · rw [f.quanta_of_ge hn]
    rcases Nat.lt_or_ge m f.binade with hm | hm
    · rw [f.quanta_of_lt hm]
      calc m ≤ f.binade + n % f.binade := Nat.le_add_right_of_le hm.le
        _ ≤ _ := Nat.le_mul_of_pos_right _ (Nat.two_pow_pos _)
    · rw [f.quanta_of_ge hm]
      rcases (Nat.div_le_div_right (c := f.binade) h).lt_or_eq with hlt | heq
      · -- a significand below the double of the least one, and an exponent less
        have hpos : 1 ≤ m / f.binade := (Nat.one_le_div_iff f.binade_pos).2 hm
        have hmod : m % f.binade < f.binade := Nat.mod_lt _ f.binade_pos
        calc (f.binade + m % f.binade) * 2 ^ (m / f.binade - 1)
            ≤ 2 * f.binade * 2 ^ (m / f.binade - 1) := Nat.mul_le_mul_right _ (by omega)
          _ = f.binade * 2 ^ (m / f.binade - 1 + 1) := by ring
          _ ≤ f.binade * 2 ^ (n / f.binade - 1) :=
            Nat.mul_le_mul_left _ (Nat.pow_le_pow_right (by decide) (by omega))
          _ ≤ _ := Nat.mul_le_mul_right _ (Nat.le_add_right _ _)
      · have hmod : m % f.binade ≤ n % f.binade := by
          have hm' := Nat.div_add_mod m f.binade
          have hn' := Nat.div_add_mod n f.binade
          rw [heq] at hm'
          omega
        rw [heq]
        exact Nat.mul_le_mul_right _ (Nat.add_le_add_left hmod _)

end Format

namespace Binary64

theorem magnitude_ofMagnitude {m : Nat} (h : m ≤ binary64.infinity) : (ofMagnitude false m).magnitude = m := by
  have hlt : m < binary64.signWeight := h.trans_lt Format.infinity_lt_signWeight
  have hbits : binary64.withSign false m < 2 ^ 64 := Format.withSign_lt hlt false
  rw [magnitude, ofMagnitude, UInt64.toNat_ofNat', Nat.mod_eq_of_lt hbits, Format.magnitude_withSign hlt]

theorem isNegative_ofMagnitude {m : Nat} (h : m ≤ binary64.infinity) : (ofMagnitude false m).isNegative = false := by
  have hlt : m < binary64.signWeight := h.trans_lt Format.infinity_lt_signWeight
  have hbits : binary64.withSign false m < 2 ^ 64 := Format.withSign_lt hlt false
  rw [isNegative, ofMagnitude, UInt64.toNat_ofNat', Nat.mod_eq_of_lt hbits, Format.isNegative_withSign hlt]

/-- Numbers that are not negative are told apart by their magnitudes. -/
theorem eq_of_magnitude {x y : Binary64} (hx : x.isNegative = false) (hy : y.isNegative = false)
    (h : x.magnitude = y.magnitude) : x = y := by
  have hbits : ∀ z : Binary64, z.isNegative = false → binary64.withSign false z.magnitude = z.bits.toNat := by
    intro z hz
    have hlt : z.bits.toNat < 2 * binary64.signWeight := z.bits.toNat_lt
    have hself := Format.withSign_magnitude hlt
    rwa [show binary64.isNegative z.bits.toNat = false from hz] at hself
  have heq : x.bits.toNat = y.bits.toNat := by rw [← hbits x hx, ← hbits y hy, h]
  obtain ⟨bits⟩ := x
  obtain ⟨bits'⟩ := y
  exact congrArg mk (UInt64.toNat_inj.1 heq)

theorem atMostOne_ofMagnitude {m : Nat} (h : m ≤ binary64.infinity) :
    (ofMagnitude false m).atMostOne = true ↔ m ≤ binary64.nearest 1 1 := by
  simp only [atMostOne, magnitude_ofMagnitude h, isNegative_ofMagnitude h, h, decide_true, Bool.true_and, Bool.false_or,
    decide_eq_true_eq]

theorem quanta_nearest_pos {b : Nat} (hb : 0 < b) : 0 < binary64.quanta (binary64.nearest b 1) := by
  have hone : 0 < binary64.quanta (binary64.nearest 1 1) := by decide +kernel
  exact hone.trans_le (binary64.quanta_mono (binary64.nearest_mono Nat.one_pos Nat.one_pos (by omega)))

/-- The quotient of a count and one that is no less is one at most, although both are rounded first. -/
theorem quotient_nearest_le {a b : Nat} (hb : 0 < b) (h : a ≤ b) :
    binary64.quotient (binary64.nearest a 1) (binary64.nearest b 1) ≤ binary64.nearest 1 1 := by
  have hcounts : binary64.nearest a 1 ≤ binary64.nearest b 1 :=
    binary64.nearest_mono Nat.one_pos Nat.one_pos (by omega)
  refine binary64.nearest_mono (quanta_nearest_pos hb) Nat.one_pos ?_
  rw [Nat.mul_one, Nat.one_mul]
  exact binary64.quanta_mono hcounts

theorem atMostOne_ratio {a b : Nat} (hb : 0 < b) (h : a ≤ b) : (ratio a b).atMostOne = true :=
  (atMostOne_ofMagnitude (binary64.nearest_le_infinity _ _)).2 (quotient_nearest_le hb h)

end Binary64

end RecordPack.Ieee

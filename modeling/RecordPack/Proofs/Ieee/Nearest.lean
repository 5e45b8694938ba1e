import RecordPack.Proofs.Ieee.Monotone

/-!
# What rounding gives

A magnitude is a significand and an exponent, and so it is a power of two away from the next one (`Format.quanta_succ`).
A number of quanta is rounded to the magnitude between whose midpoints with its neighbours it lies, and an odd magnitude
leaves the midpoints to its neighbours (`Format.rounds_rounded`). There is one such magnitude (`Format.Rounds.unique`);
of all finite ones it is the nearest, and of two that are equally near the one with the even significand
(`Format.isNearest_withSign`).
-/

namespace RecordPack.Ieee

/-- What is rounded to a whole number is half of one away from it at most, and less than half from an odd one. -/
theorem nearestEven_bounds {a b : Nat} (hb : 0 < b) :
    2 * (nearestEven a b * b) + nearestEven a b % 2 ≤ 2 * a + b ∧
      2 * a + nearestEven a b % 2 ≤ 2 * (nearestEven a b * b) + b := by
  have ha : a / b * b + a % b = a := Nat.div_add_mod' a b
  have hmod : a % b < b := Nat.mod_lt a hb
  have hsucc : (a / b + 1) * b = a / b * b + b := Nat.succ_mul _ _
  simp only [nearestEven]
  split
  · omega
  · split
    · rw [hsucc]
      omega
    · -- a tie
      rcases Nat.mod_two_eq_zero_or_one (a / b) with heven | hodd
      · rw [heven, Nat.add_zero]
        omega
      · rw [hodd, hsucc]
        omega

namespace Format

variable (f : Format)

/-! ## Significands and exponents -/

/-- The exponent of a magnitude; the first two binades have the same. -/
def exponent (m : Nat) : Nat := m / f.binade - 1

/-- The significand of a magnitude, the leading bit included. -/
def significand (m : Nat) : Nat := m - f.exponent m * f.binade

theorem exponent_add_significand (m : Nat) : f.exponent m * f.binade + f.significand m = m := by
  have hle : f.exponent m * f.binade ≤ m :=
    (Nat.mul_le_mul_right _ (Nat.sub_le _ _)).trans (Nat.div_mul_le_self m f.binade)
  exact Nat.add_sub_of_le hle

theorem significand_lt (m : Nat) : f.significand m < 2 * f.binade := by
  have hpos := f.binade_pos
  have hm := Nat.div_add_mod' m f.binade
  have hmod := Nat.mod_lt m hpos
  have hparts := f.exponent_add_significand m
  unfold exponent at hparts
  cases hdiv : m / f.binade with
  | zero =>
    rw [hdiv] at hm hparts
    omega
  | succ k =>
    rw [hdiv, Nat.succ_mul] at hm
    rw [hdiv, Nat.succ_sub_one] at hparts
    omega

theorem binade_le_significand {m : Nat} (h : 0 < f.exponent m) : f.binade ≤ f.significand m := by
  have hm := Nat.div_mul_le_self m f.binade
  have hparts := f.exponent_add_significand m
  have hdiv : m / f.binade = f.exponent m + 1 := by
    unfold exponent at h ⊢
    omega
  rw [hdiv, Nat.succ_mul] at hm
  omega

theorem exponent_of_parts {k r : Nat} (hr : r < 2 * f.binade) (hk : k = 0 ∨ f.binade ≤ r) :
    f.exponent (k * f.binade + r) = k := by
  rw [exponent, Nat.add_comm, Nat.add_mul_div_right _ _ f.binade_pos]
  rcases Nat.lt_or_ge r f.binade with hlt | hge
  · rw [Nat.div_eq_of_lt hlt]
    omega
  · rw [Nat.div_eq_of_lt_le (k := 1) (by omega) (by omega)]
    omega

/-- The quanta of a magnitude are those of its significand, moved by its exponent. -/
theorem quanta_eq (m : Nat) : f.quanta m = f.significand m * 2 ^ f.exponent m := by
  rcases Nat.lt_or_ge m f.binade with hlt | hge
  · have hexp : f.exponent m = 0 := by rw [exponent, Nat.div_eq_of_lt hlt]
    rw [f.quanta_of_lt hlt, significand, hexp, Nat.zero_mul, Nat.sub_zero, pow_zero, Nat.mul_one]
  · rw [f.quanta_of_ge hge, exponent, significand]
    congr 1
    have hm := Nat.div_add_mod' m f.binade
    have hone : 1 ≤ m / f.binade := (Nat.one_le_div_iff f.binade_pos).2 hge
    obtain ⟨k, hk⟩ : ∃ k, m / f.binade = k + 1 := ⟨_, (Nat.sub_add_cancel hone).symm⟩
    rw [hk, Nat.succ_mul] at hm
    rw [exponent, hk, Nat.succ_sub_one]
    omega

/-- A significand may also be one step beyond those that magnitudes have. -/
theorem quanta_of_parts {k r : Nat} (hr : r ≤ 2 * f.binade) (hk : k = 0 ∨ f.binade ≤ r) :
    f.quanta (k * f.binade + r) = r * 2 ^ k := by
  have hpos := f.binade_pos
  rcases hr.lt_or_eq with hlt | rfl
  · have hexp := f.exponent_of_parts hlt hk
    rw [quanta_eq, significand, hexp, Nat.add_sub_cancel_left]
  · have hnext : k * f.binade + 2 * f.binade = (k + 1) * f.binade + f.binade := by ring
    have hexp := f.exponent_of_parts (k := k + 1) (r := f.binade) (by omega) (.inr (Nat.le_refl _))
    rw [hnext, quanta_eq, significand, hexp, Nat.add_sub_cancel_left, pow_succ]
    ring

theorem quanta_succ (m : Nat) : f.quanta (m + 1) = f.quanta m + 2 ^ f.exponent m := by
  have hparts := f.exponent_add_significand m
  have hlt := f.significand_lt m
  have hnext : m + 1 = f.exponent m * f.binade + (f.significand m + 1) := by omega
  have hk : f.exponent m = 0 ∨ f.binade ≤ f.significand m + 1 := by
    rcases Nat.eq_zero_or_pos (f.exponent m) with hz | hpos
    · exact .inl hz
    · exact .inr (Nat.le_succ_of_le (f.binade_le_significand hpos))
  rw [f.quanta_eq m, ← Nat.succ_mul, ← f.quanta_of_parts (by omega) hk, ← hnext]

theorem quanta_strictMono : StrictMono f.quanta := by
  refine strictMono_nat_of_lt_succ fun m => ?_
  rw [quanta_succ]
  exact Nat.lt_add_of_pos_right (Nat.two_pow_pos _)

@[simp] theorem quanta_zero : f.quanta 0 = 0 := f.quanta_of_lt f.binade_pos

/-! ## Between the midpoints -/

/-- The number of quanta `s / b` lies between the midpoints of `m` with its neighbours, and off them where `m` is
odd. -/
structure Rounds (s b m : Nat) : Prop where
  low : ∀ n, n + 1 = m → (f.quanta n + f.quanta m) * b + m % 2 ≤ 2 * s
  high : 2 * s + m % 2 ≤ (f.quanta m + f.quanta (m + 1)) * b

/-- What `s / b` is rounded to if no magnitude is too great. -/
def rounded (s b : Nat) : Nat := f.surplus (s / b) * f.binade + nearestEven s (b * 2 ^ f.surplus (s / b))

theorem nearest_eq_min (a b : Nat) : f.nearest a b = min f.infinity (f.rounded (a * f.quantaPerOne) b) := rfl

variable {f} {s b m n : Nat}

theorem rounds_low {k r : Nat} (hle : r ≤ 2 * f.binade) (hge : k = 0 ∨ f.binade ≤ r)
    (hfirst : 0 < k → f.binade * 2 ^ k * b ≤ s) (hb : 0 < b) (h : 2 * (r * (b * 2 ^ k)) + m % 2 ≤ 2 * s + b * 2 ^ k)
    (hm : k * f.binade + r = m) (hn : n + 1 = m) : (f.quanta n + f.quanta m) * b + m % 2 ≤ 2 * s := by
  have hquanta : f.quanta m = r * 2 ^ k := by rw [← hm, f.quanta_of_parts hle hge]
  have hsucc : f.quanta m = f.quanta n + 2 ^ f.exponent n := by rw [← hn, f.quanta_succ]
  by_cases hleast : 0 < k ∧ r = f.binade
  · -- the least significand of its exponent: nothing below is rounded up to it
    have hsb : f.quanta m * b ≤ s := by
      rw [hquanta, hleast.2]
      exact hfirst hleast.1
    have hlt : f.quanta n * b < f.quanta m * b := Nat.mul_lt_mul_of_pos_right (f.quanta_strictMono (by omega)) hb
    have hmod := Nat.mod_lt m Nat.two_pos
    rw [Nat.add_mul]
    omega
  · have hpos : 0 < r := by
      have := f.binade_pos
      rcases hge with rfl | hbin
      · rw [Nat.zero_mul] at hm
        omega
      · omega
    have hexp : f.exponent n = k := by
      rw [show n = k * f.binade + (r - 1) by omega]
      exact f.exponent_of_parts (by omega) (by omega)
    have hsum : (f.quanta n + f.quanta m) * b + b * 2 ^ k = 2 * (r * (b * 2 ^ k)) := by
      rw [hexp, hquanta] at hsucc
      calc (f.quanta n + f.quanta m) * b + b * 2 ^ k = (f.quanta n + 2 ^ k + f.quanta m) * b := by ring
        _ = 2 * (r * (b * 2 ^ k)) := by
          rw [← hsucc, hquanta]
          ring
    omega

theorem rounds_high {k r : Nat} (hle : r ≤ 2 * f.binade) (hge : k = 0 ∨ f.binade ≤ r)
    (h : 2 * s + m % 2 ≤ 2 * (r * (b * 2 ^ k)) + b * 2 ^ k) (hm : k * f.binade + r = m) :
    2 * s + m % 2 ≤ (f.quanta m + f.quanta (m + 1)) * b := by
  have hquanta : f.quanta m = r * 2 ^ k := by rw [← hm, f.quanta_of_parts hle hge]
  have hexp : k ≤ f.exponent m := by
    rcases hge with rfl | hbin
    · exact Nat.zero_le _
    · refine Nat.le_sub_of_add_le ((Nat.le_div_iff_mul_le f.binade_pos).2 ?_)
      rw [Nat.succ_mul]
      omega
  refine h.trans ?_
  calc 2 * (r * (b * 2 ^ k)) + b * 2 ^ k = (f.quanta m + (f.quanta m + 2 ^ k)) * b := by
        rw [hquanta]
        ring
    _ ≤ (f.quanta m + f.quanta (m + 1)) * b := by
        rw [f.quanta_succ]
        exact Nat.mul_le_mul_right b
          (Nat.add_le_add_left (Nat.add_le_add_left (Nat.pow_le_pow_right Nat.two_pos hexp) _) _)

theorem rounds_rounded (heven : 2 ∣ f.binade) (s : Nat) (hb : 0 < b) : f.Rounds s b (f.rounded s b) := by
  have hle := f.nearestEven_le_binade s b
  have hbounds := nearestEven_bounds (a := s) (Nat.mul_pos hb (Nat.two_pow_pos (f.surplus (s / b))))
  have hge : f.surplus (s / b) = 0 ∨ f.binade ≤ nearestEven s (b * 2 ^ f.surplus (s / b)) :=
    (Nat.eq_zero_or_pos _).imp_right f.binade_le_nearestEven
  have hfirst : 0 < f.surplus (s / b) → f.binade * 2 ^ f.surplus (s / b) * b ≤ s := by
    intro hpos
    have hdiv := (Nat.le_div_iff_mul_le (Nat.two_pow_pos _)).1 (f.binade_le_div_surplus hpos)
    exact (Nat.mul_le_mul_right b hdiv).trans (Nat.div_mul_le_self s b)
  have hparity : f.rounded s b % 2 = nearestEven s (b * 2 ^ f.surplus (s / b)) % 2 := by
    rw [rounded, Nat.add_mod, Nat.mul_mod, Nat.mod_eq_zero_of_dvd heven]
    simp
  rw [← hparity] at hbounds
  exact ⟨fun n hn => rounds_low hle hge hfirst hb hbounds.1 rfl hn, rounds_high hle hge hbounds.2 rfl⟩

/-- Two magnitudes do not share more than a midpoint, and of neighbours one is odd. -/
theorem Rounds.le (hb : 0 < b) (hm : f.Rounds s b m) (hn : f.Rounds s b n) : n ≤ m := by
  by_contra hlt
  obtain ⟨p, rfl⟩ : ∃ p, n = p + 1 := ⟨n - 1, by omega⟩
  have hlow := hn.low p rfl
  have hhigh := hm.high
  have hmp : f.quanta m ≤ f.quanta p := f.quanta_mono (by omega)
  have hsucc : f.quanta (m + 1) ≤ f.quanta (p + 1) := f.quanta_mono (by omega)
  have hle := Nat.mul_le_mul_right b (Nat.add_le_add hmp hsucc)
  rcases (show m ≤ p by omega).lt_or_eq with hstrict | rfl
  · have hlt : f.quanta m + f.quanta (m + 1) < f.quanta p + f.quanta (p + 1) :=
      Nat.add_lt_add_of_lt_of_le (f.quanta_strictMono hstrict) hsucc
    have := Nat.mul_lt_mul_of_pos_right hlt hb
    omega
  · omega

theorem Rounds.unique (hb : 0 < b) (hm : f.Rounds s b m) (hn : f.Rounds s b n) : m = n :=
  Nat.le_antisymm (hn.le hb hm) (hm.le hb hn)

variable {a : Nat}

theorem rounds_nearest (heven : 2 ∣ f.binade) (hb : 0 < b) (h : f.nearest a b < f.infinity) :
    f.Rounds (a * f.quantaPerOne) b (f.nearest a b) := by
  rw [nearest_eq_min] at h ⊢
  rw [Nat.min_eq_right (by omega)]
  exact rounds_rounded heven _ hb

/-! ## Of all finite numbers -/

/-- Of two magnitudes the one that is rounded to is the nearer one, strictly where it is odd. -/
theorem Rounds.closest (hb : 0 < b) (h : f.Rounds s b m) (hne : n ≠ m) :
    |(f.quanta m * b : ℤ) - s| + (m % 2 : ℕ) ≤ |(f.quanta n * b : ℤ) - s| := by
  have hmod := Nat.mod_lt m Nat.two_pos
  rcases hne.lt_or_gt with hlt | hlt
  · obtain ⟨p, rfl⟩ : ∃ p, m = p + 1 := ⟨m - 1, by omega⟩
    have hlow := h.low p rfl
    have hnp := Nat.mul_le_mul_right b (f.quanta_mono (show n ≤ p by omega))
    have hpm := Nat.mul_lt_mul_of_pos_right (f.quanta_strictMono (Nat.lt_add_one p)) hb
    rw [Nat.add_mul] at hlow
    have hdist : |(f.quanta (p + 1) * b : ℤ) - s| ≤ s - f.quanta n * b - ((p + 1) % 2 : ℕ) :=
      abs_le.2 ⟨by omega, by omega⟩
    have := neg_abs_le ((f.quanta n * b : ℤ) - s)
    omega
  · have hhigh := h.high
    have hmn := Nat.mul_le_mul_right b (f.quanta_mono (show m + 1 ≤ n by omega))
    have hmm := Nat.mul_lt_mul_of_pos_right (f.quanta_strictMono (Nat.lt_add_one m)) hb
    rw [Nat.add_mul] at hhigh
    have hdist : |(f.quanta m * b : ℤ) - s| ≤ f.quanta n * b - s - (m % 2 : ℕ) :=
      abs_le.2 ⟨by omega, by omega⟩
    have := le_abs_self ((f.quanta n * b : ℤ) - s)
    omega

variable (f)

/-- The number of a magnitude. -/
def absolute (m : Nat) : ℚ := f.quanta m / f.quantaPerOne

/-- The number of a pattern. -/
def value (bits : Nat) : ℚ := (if f.isNegative bits then -1 else 1) * f.absolute (f.magnitude bits)

/-- Whether a pattern is that of a number, the infinities excluded. -/
def IsFinite (bits : Nat) : Prop := bits < 2 * f.signWeight ∧ f.magnitude bits < f.infinity

/-- The pattern is that of the finite number nearest to `x`; of two as near, of the one whose significand is even. -/
structure IsNearest (x : ℚ) (bits : Nat) : Prop where
  finite : f.IsFinite bits
  least : ∀ other, f.IsFinite other → |f.value bits - x| ≤ |f.value other - x|
  even : ∀ other, f.IsFinite other → other ≠ bits → |f.value other - x| = |f.value bits - x| →
    Even (f.significand (f.magnitude bits))

variable {f}

theorem absolute_nonneg (m : Nat) : 0 ≤ f.absolute m := by unfold absolute; positivity

theorem absolute_lt (h : m < n) : f.absolute m < f.absolute n := by
  have hone : (0 : ℚ) < f.quantaPerOne := by exact_mod_cast f.quantaPerOne_pos
  exact div_lt_div_of_pos_right (by exact_mod_cast f.quanta_strictMono h) hone

theorem abs_value (bits : Nat) : |f.value bits| = f.absolute (f.magnitude bits) := by
  rw [value, abs_mul, abs_of_nonneg (absolute_nonneg _)]
  split <;> simp

theorem value_withSign (h : m < f.signWeight) (negative : Bool) :
    f.value (f.withSign negative m) = (if negative then -1 else 1) * f.absolute m := by
  rw [value, magnitude_withSign h, isNegative_withSign h]

theorem value_of_lt (h : m < f.signWeight) : f.value m = f.absolute m := by
  have hvalue := value_withSign h false
  rwa [if_neg (by decide), one_mul] at hvalue

theorem even_significand (heven : 2 ∣ f.binade) (m : Nat) : Even (f.significand m) ↔ m % 2 = 0 := by
  have hparts := f.exponent_add_significand m
  obtain ⟨t, ht⟩ := heven
  rw [ht, show f.exponent m * (2 * t) = 2 * (f.exponent m * t) by ring] at hparts
  rw [Nat.even_iff]
  omega

/-- The distance of a number from a quotient, over their common denominator. -/
theorem abs_absolute_sub (hb : 0 < b) (m : Nat) :
    |f.absolute m - a / b| = ((|(f.quanta m * b : ℤ) - (a * f.quantaPerOne : ℕ)| : ℤ) : ℚ) / (f.quantaPerOne * b) := by
  have hone : (0 : ℚ) < f.quantaPerOne := by exact_mod_cast f.quantaPerOne_pos
  have hb' : (0 : ℚ) < b := by exact_mod_cast hb
  rw [absolute, div_sub_div _ _ hone.ne' hb'.ne', abs_div, abs_of_pos (mul_pos hone hb')]
  push_cast
  rw [mul_comm (f.quantaPerOne : ℚ) (a : ℚ)]

theorem Rounds.closest_absolute (hb : 0 < b) (h : f.Rounds (a * f.quantaPerOne) b m) (hne : n ≠ m) :
    |f.absolute m - a / b| ≤ |f.absolute n - a / b| ∧
      (m % 2 = 1 → |f.absolute m - a / b| < |f.absolute n - a / b|) := by
  have hone : (0 : ℚ) < f.quantaPerOne := by exact_mod_cast f.quantaPerOne_pos
  have hb' : (0 : ℚ) < b := by exact_mod_cast hb
  have hclosest := h.closest hb hne
  rw [abs_absolute_sub hb, abs_absolute_sub hb, div_le_div_iff_of_pos_right (mul_pos hone hb'),
    div_lt_div_iff_of_pos_right (mul_pos hone hb'), Int.cast_le, Int.cast_lt]
  omega

section Sign

variable {y : ℚ}

/-- Numbers of the same sign are as far from each other as without it. -/
theorem abs_value_withSign_sub (hm : m < f.signWeight) (negative : Bool) :
    |f.value (f.withSign negative m) - (if negative then -1 else 1) * y| = |f.absolute m - y| := by
  rw [value_withSign hm, ← mul_sub, abs_mul]
  cases negative <;> simp

variable (hy : 0 ≤ y)
include hy

/-- Numbers of different signs are as far from each other as both are from zero. -/
theorem abs_value_withSign_not_sub (hm : m < f.signWeight) (negative : Bool) :
    |f.value (f.withSign (!negative) m) - (if negative then -1 else 1) * y| = f.absolute m + y := by
  have hsum := add_nonneg (absolute_nonneg (f := f) m) hy
  rw [value_withSign hm]
  cases negative
  · rw [← abs_neg]
    simp only [Bool.not_false, if_true, Bool.false_eq_true, if_false]
    rw [abs_of_nonneg (by linarith)]
    ring
  · simp only [Bool.not_true, if_true, Bool.false_eq_true, if_false]
    rw [abs_of_nonneg (by linarith)]
    ring

/-- Without its sign no number is farther away. -/
theorem abs_absolute_sub_le (bits : Nat) (negative : Bool) :
    |f.absolute (f.magnitude bits) - y| ≤ |f.value bits - (if negative then -1 else 1) * y| := by
  have habs : |(if negative then -1 else 1) * y| = y := by
    rw [abs_mul, abs_of_nonneg hy]
    cases negative <;> simp
  calc |f.absolute (f.magnitude bits) - y| = |(|f.value bits| - |(if negative then -1 else 1) * y|)| := by
        rw [abs_value, habs]
    _ ≤ _ := abs_abs_sub_abs_le _ _

end Sign

/-- Only what is positive is rounded to a positive magnitude. -/
theorem Rounds.pos (h : f.Rounds (a * f.quantaPerOne) b m) (hb : 0 < b) (hm : 0 < m) : 0 < a := by
  obtain ⟨p, rfl⟩ : ∃ p, m = p + 1 := ⟨m - 1, by omega⟩
  have hlow := h.low p rfl
  have hquanta : 0 < f.quanta (p + 1) := f.quanta_zero ▸ f.quanta_strictMono hm
  have hside := Nat.mul_pos (Nat.add_pos_right (f.quanta p) hquanta) hb
  by_contra hz
  rw [Nat.le_zero.1 (Nat.not_lt.1 hz), Nat.zero_mul] at hlow
  omega

/-- What a quotient is rounded to, with the sign of the quotient, is the pattern of the nearest number. -/
theorem Rounds.isNearest (heven : 2 ∣ f.binade) (hb : 0 < b) (h : f.Rounds (a * f.quantaPerOne) b m)
    (hm : m < f.infinity) (negative : Bool) :
    f.IsNearest ((if negative then -1 else 1) * (a / b)) (f.withSign negative m) := by
  have hsw : m < f.signWeight := hm.trans infinity_lt_signWeight
  have hmag := magnitude_withSign hsw negative
  have hy : (0 : ℚ) ≤ a / b := by positivity
  have hdist := abs_value_withSign_sub (y := a / b) hsw negative
  have hother := fun other => abs_absolute_sub_le (f := f) hy other negative
  refine ⟨⟨withSign_lt hsw negative, hmag.symm ▸ hm⟩, ?_, ?_⟩
  · intro other _
    rw [hdist]
    by_cases hne : f.magnitude other = m
    · exact hne ▸ hother other
    · exact (h.closest_absolute hb hne).1.trans (hother other)
  · intro other hfin hne htie
    rw [hmag, even_significand heven]
    by_contra hodd
    rw [hdist] at htie
    by_cases hsame : f.magnitude other = m
    · -- the same number with the other sign
      have hflip : other = f.withSign (!negative) m := by
        have hparts := withSign_magnitude hfin.1
        rw [hsame] at hparts
        have hsign : f.isNegative other ≠ negative := fun hs => hne (by rw [← hparts, hs])
        rw [← hparts, Bool.eq_not.2 hsign]
      have hmpos : 0 < m := by omega
      have hv := (absolute_nonneg 0).trans_lt (absolute_lt (f := f) hmpos)
      have ha := h.pos hb hmpos
      have hypos : (0 : ℚ) < a / b := by positivity
      rw [hflip, abs_value_withSign_not_sub hy hsw] at htie
      have : |f.absolute m - a / b| < f.absolute m + a / b := abs_lt.2 ⟨by linarith, by linarith⟩
      linarith
    · have hlt := (h.closest_absolute hb hsame).2 (by omega)
      have := hother other
      linarith

end Format

end RecordPack.Ieee

import RecordPack.Ieee.Decimal
import RecordPack.Proofs.Ieee.Nearest

/-!
# Steps away

What is rounded is off by a small part of itself, one in twice as many as a binade has numbers (`Format.Rounds.near`). A
quotient of rounded numbers is off by as many such parts as there are roundings (`Format.Near.quotient`), and a part is no
more than half the way to the next magnitude: so the quotient is rounded to a magnitude no more steps away than there were
roundings (`Format.Rounds.le_add`).
-/

namespace RecordPack.Ieee

namespace Format

variable {f : Format} {a b a' b' m n : Nat}

theorem exponent_mono (h : m ≤ n) : f.exponent m ≤ f.exponent n := Nat.sub_le_sub_right (Nat.div_le_div_right h) 1

theorem quanta_add_le (n c : Nat) : f.quanta n + c * 2 ^ f.exponent n ≤ f.quanta (n + c) := by
  induction c with
  | zero => rw [Nat.zero_mul, Nat.add_zero, Nat.add_zero]
  | succ c ih =>
    have hstep : 2 ^ f.exponent n ≤ 2 ^ f.exponent (n + c) :=
      Nat.pow_le_pow_right Nat.two_pos (exponent_mono (Nat.le_add_right n c))
    rw [← Nat.add_assoc n, f.quanta_succ, Nat.succ_mul]
    omega

/-- The midpoint above a magnitude, with `c` parts of itself more, is below the midpoint `c` steps on. -/
theorem midpoint_drift (n c : Nat) : (f.quanta n + f.quanta (n + 1)) * (2 * f.binade + c) + c ≤
    (f.quanta (n + c) + f.quanta (n + c + 1)) * (2 * f.binade) := by
  have hsig := f.significand_lt n
  have hlow := f.quanta_add_le n c
  have hhigh := f.quanta_add_le (n + 1) c
  have hexp : 2 ^ f.exponent n ≤ 2 ^ f.exponent (n + 1) := Nat.pow_le_pow_right Nat.two_pos (exponent_mono n.le_succ)
  have hone : 1 ≤ 2 ^ f.exponent n := Nat.one_le_two_pow
  have hsum : f.quanta n + f.quanta (n + 1) = (2 * f.significand n + 1) * 2 ^ f.exponent n := by
    rw [f.quanta_succ, f.quanta_eq]
    ring
  have hparts : (2 * f.significand n + 1) * 2 ^ f.exponent n * c + c ≤ 2 * (c * 2 ^ f.exponent n) * (2 * f.binade) := by
    calc (2 * f.significand n + 1) * 2 ^ f.exponent n * c + c
        ≤ (2 * f.significand n + 1) * 2 ^ f.exponent n * c + 2 ^ f.exponent n * c :=
          Nat.add_le_add_left (Nat.le_mul_of_pos_left c hone) _
      _ = (2 * f.significand n + 2) * (c * 2 ^ f.exponent n) := by ring
      _ ≤ 4 * f.binade * (c * 2 ^ f.exponent n) := Nat.mul_le_mul_right _ (by omega)
      _ = 2 * (c * 2 ^ f.exponent n) * (2 * f.binade) := by ring
  have hshift : f.quanta n + f.quanta (n + 1) + 2 * (c * 2 ^ f.exponent n) ≤
      f.quanta (n + c) + f.quanta (n + c + 1) := by
    have := Nat.mul_le_mul_left c hexp
    rw [Nat.add_right_comm n c 1]
    omega
  calc (f.quanta n + f.quanta (n + 1)) * (2 * f.binade + c) + c
      = (f.quanta n + f.quanta (n + 1)) * (2 * f.binade) + ((f.quanta n + f.quanta (n + 1)) * c + c) := by ring
    _ ≤ (f.quanta n + f.quanta (n + 1)) * (2 * f.binade) + 2 * (c * 2 ^ f.exponent n) * (2 * f.binade) := by
        rw [hsum]
        exact Nat.add_le_add_left hparts _
    _ = (f.quanta n + f.quanta (n + 1) + 2 * (c * 2 ^ f.exponent n)) * (2 * f.binade) := by ring
    _ ≤ _ := Nat.mul_le_mul_right _ hshift

/-- A quotient that is at most `c` parts greater is rounded to a magnitude at most `c` steps on. -/
theorem Rounds.le_add {c : Nat} (hb : 0 < b) (hb' : 0 < b') (hm : f.Rounds a b m) (hn : f.Rounds a' b' n)
    (h : a' * b * (2 * f.binade) ≤ a * b' * (2 * f.binade + c)) : n ≤ m + c := by
  by_contra hlt
  obtain ⟨p, rfl⟩ : ∃ p, n = p + 1 := ⟨n - 1, by omega⟩
  have hbinade : 0 < 2 * f.binade := Nat.mul_pos Nat.two_pos f.binade_pos
  have hdrift := f.midpoint_drift m c
  generalize 2 * f.binade = w at h hbinade hdrift
  -- the midpoint below `n` against the midpoint `c` steps above the one of `m`, over one denominator
  have hchain : (f.quanta p + f.quanta (p + 1)) * (b * b' * w) +
      ((p + 1) % 2 * (b * w) + m % 2 * (b' * (w + c)) + c * (b * b')) ≤
      (f.quanta (m + c) + f.quanta (m + c + 1)) * (b * b' * w) := by
    have hlow := Nat.mul_le_mul_right (b * w) (hn.low p rfl)
    have hhigh := Nat.mul_le_mul_right (b' * (w + c)) hm.high
    have hdrift := Nat.mul_le_mul_right (b * b') hdrift
    have h := Nat.mul_le_mul_left 2 h
    linarith
  have hpos : 0 < b * b' * w := Nat.mul_pos (Nat.mul_pos hb hb') hbinade
  have hle : f.quanta p + f.quanta (p + 1) ≤ f.quanta (m + c) + f.quanta (m + c + 1) :=
    Nat.le_of_mul_le_mul_right (Nat.le_of_add_right_le hchain) hpos
  have hp : p = m + c := by
    by_contra hne
    have hlt : f.quanta (m + c) < f.quanta p := f.quanta_strictMono (by omega)
    have hle' : f.quanta (m + c + 1) ≤ f.quanta (p + 1) := f.quanta_mono (by omega)
    omega
  -- so nothing is left for the parts, nor for an odd magnitude on either side
  rw [hp] at hchain
  have hzero : (m + c + 1) % 2 * (b * w) + m % 2 * (b' * (w + c)) + c * (b * b') = 0 := by omega
  simp only [Nat.add_eq_zero_iff, Nat.mul_eq_zero] at hzero
  omega

/-- Two quotients that are off each other by few parts are rounded to magnitudes few steps apart. -/
theorem nearest_within {c : Nat} (heven : 2 ∣ f.binade) (hb : 0 < b) (hb' : 0 < b')
    (hm : f.Rounds (a * f.quantaPerOne) b m) (hfin : m + c < f.infinity)
    (hup : a' * b * (2 * f.binade) ≤ a * b' * (2 * f.binade + c))
    (hdown : a * b' * (2 * f.binade) ≤ a' * b * (2 * f.binade + c)) :
    f.nearest a' b' ≤ m + c ∧ m ≤ f.nearest a' b' + c := by
  have hround := rounds_rounded heven (a' * f.quantaPerOne) hb'
  have hle : f.rounded (a' * f.quantaPerOne) b' ≤ m + c := by
    refine Rounds.le_add hb hb' hm hround ?_
    calc a' * f.quantaPerOne * b * (2 * f.binade) = a' * b * (2 * f.binade) * f.quantaPerOne := by ring
      _ ≤ a * b' * (2 * f.binade + c) * f.quantaPerOne := Nat.mul_le_mul_right _ hup
      _ = a * f.quantaPerOne * b' * (2 * f.binade + c) := by ring
  have hge : m ≤ f.rounded (a' * f.quantaPerOne) b' + c := by
    refine Rounds.le_add hb' hb hround hm ?_
    calc a * f.quantaPerOne * b' * (2 * f.binade) = a * b' * (2 * f.binade) * f.quantaPerOne := by ring
      _ ≤ a' * b * (2 * f.binade + c) * f.quantaPerOne := Nat.mul_le_mul_right _ hdown
      _ = a' * f.quantaPerOne * b * (2 * f.binade + c) := by ring
  rw [nearest_eq_min]
  omega

/-- The same quotient is rounded to the same magnitude. -/
theorem Rounds.congr (hb : 0 < b) (hb' : 0 < b') (h : f.Rounds a b m) (hratio : a' * b = a * b') :
    f.Rounds a' b' m := by
  -- the quotient `x / b` against `y / b'`, off it where `m` is odd
  have hmod := Nat.mod_lt m Nat.two_pos
  refine ⟨?_, ?_⟩
  · intro n hn
    have hlow := Nat.mul_le_mul_right b' (h.low n hn)
    have hlow' : (f.quanta n + f.quanta m) * b' * b + m % 2 * b' ≤ 2 * a' * b := by linarith
    by_contra hlt
    rcases Nat.mod_two_eq_zero_or_one m with heven | hodd
    · have := Nat.mul_lt_mul_of_pos_right (show 2 * a' < (f.quanta n + f.quanta m) * b' by omega) hb
      omega
    · have := Nat.mul_le_mul_right b (show 2 * a' ≤ (f.quanta n + f.quanta m) * b' by omega)
      rw [hodd, Nat.one_mul] at hlow'
      omega
  · have hhigh := Nat.mul_le_mul_right b' h.high
    have hhigh' : 2 * a' * b + m % 2 * b' ≤ (f.quanta m + f.quanta (m + 1)) * b' * b := by linarith
    by_contra hlt
    rcases Nat.mod_two_eq_zero_or_one m with heven | hodd
    · have := Nat.mul_lt_mul_of_pos_right (show (f.quanta m + f.quanta (m + 1)) * b' < 2 * a' by omega) hb
      omega
    · have := Nat.mul_le_mul_right b (show (f.quanta m + f.quanta (m + 1)) * b' ≤ 2 * a' by omega)
      rw [hodd, Nat.one_mul] at hhigh'
      omega

/-! ## What a rounding is off by -/

/-- The number of quanta `q` is `x` with `c` parts of itself more or less. With one part this is the most that a
rounding is off by, which is a little less below than above. -/
structure Near (f : Format) (c x q : Nat) : Prop where
  below : x * (2 * f.binade) ≤ q * (2 * f.binade + c)
  above : q * (2 * f.binade + c) ≤ x * (2 * f.binade + 2 * c)

/-- What is rounded to more than the least number with all its digits is off by one part at most. -/
theorem Rounds.near (h : f.Rounds a 1 m) (hm : f.binade < m) : f.Near 1 a (f.quanta m) := by
  obtain ⟨n, rfl⟩ : ∃ n, m = n + 1 := ⟨m - 1, by omega⟩
  have hlow := h.low n rfl
  have hhigh := h.high
  have hbinade : ∀ {k}, f.binade ≤ k → f.binade ≤ f.significand k := by
    intro k hk
    rcases Nat.eq_zero_or_pos (f.exponent k) with hzero | hpos
    · rwa [significand, hzero, Nat.zero_mul, Nat.sub_zero]
    · exact f.binade_le_significand hpos
  have hsig := hbinade (Nat.le_of_lt_succ hm)
  have hsig' := hbinade hm.le
  rw [Nat.mul_one] at hlow hhigh
  refine ⟨?_, ?_⟩
  · have hstep : 2 ^ f.exponent (n + 1) * (2 * f.binade) ≤ 2 * f.quanta (n + 1) := by
      rw [f.quanta_eq]
      nlinarith [Nat.two_pow_pos (f.exponent (n + 1))]
    rw [f.quanta_succ (n + 1)] at hhigh
    have := Nat.mul_le_mul_right (2 * f.binade) (Nat.le_of_add_right_le hhigh)
    linarith
  · have hstep : 2 ^ f.exponent n * (2 * f.binade + 2) ≤ 2 * f.quanta (n + 1) := by
      rw [f.quanta_succ, f.quanta_eq]
      nlinarith [Nat.two_pow_pos (f.exponent n)]
    have := Nat.mul_le_mul_right (2 * f.binade + 2) (Nat.le_of_add_right_le hlow)
    have hsucc := f.quanta_succ n
    nlinarith

/-- A quotient of two whole numbers that are off is off by the parts of both. -/
theorem Near.quotient {c c' s t x y : Nat} (hx : f.Near c (s * f.quantaPerOne) x) (hy : f.Near c' (t * f.quantaPerOne) y)
    (hc : c ≤ 1) (hc' : c' ≤ 1) : x * t * (2 * f.binade) ≤ s * y * (2 * f.binade + (c + c')) := by
  obtain ⟨-, habove⟩ := hx
  obtain ⟨hbelow, -⟩ := hy
  have hpos : 0 < f.quantaPerOne * (2 * f.binade + c) :=
    Nat.mul_pos f.quantaPerOne_pos (Nat.lt_add_right c (Nat.mul_pos Nat.two_pos f.binade_pos))
  generalize 2 * f.binade = w at *
  generalize f.quantaPerOne = one at *
  have hparts : (w + 2 * c) * (w + c') ≤ (w + (c + c')) * (w + c) := by
    interval_cases c <;> interval_cases c' <;> nlinarith
  refine Nat.le_of_mul_le_mul_right ?_ hpos
  calc x * t * w * (one * (w + c)) = x * (w + c) * (t * one * w) := by ring
    _ ≤ s * one * (w + 2 * c) * (y * (w + c')) := Nat.mul_le_mul habove hbelow
    _ = s * one * y * ((w + 2 * c) * (w + c')) := by ring
    _ ≤ s * one * y * ((w + (c + c')) * (w + c)) := Nat.mul_le_mul_left _ hparts
    _ = s * y * (w + (c + c')) * (one * (w + c)) := by ring

variable {c c' s t p q : Nat}

/-- The quotient of two whole numbers that became magnitudes, against the magnitude that it is rounded to exactly. -/
theorem quotient_within (heven : 2 ∣ f.binade) (hp : f.Near c (s * f.quantaPerOne) (f.quanta p))
    (hq : f.Near c' (t * f.quantaPerOne) (f.quanta q)) (hc : c ≤ 1) (hc' : c' ≤ 1) (ht : 0 < t) (hpos : 0 < f.quanta q)
    (hm : f.Rounds (s * f.quantaPerOne) t m) (hfin : m + (c + c') < f.infinity) :
    f.quotient p q ≤ m + (c + c') ∧ m ≤ f.quotient p q + (c + c') := by
  have hup := hp.quotient hq hc hc'
  have hdown := hq.quotient hp hc' hc
  refine nearest_within heven ht hpos hm hfin hup ?_
  rwa [Nat.mul_comm s, Nat.mul_comm (f.quanta p), Nat.add_comm c]

/-- The product with a whole number that is a number of the format. -/
theorem product_within (heven : 2 ∣ f.binade) (hp : f.Near c (s * f.quantaPerOne) (f.quanta p))
    (hq : f.quanta q = t * f.quantaPerOne) (hc : c ≤ 1) (hm : f.Rounds (s * t * f.quantaPerOne) 1 m)
    (hfin : m + c < f.infinity) : f.product p q ≤ m + c ∧ m ≤ f.product p q + c := by
  have hone : f.Near 0 (1 * f.quantaPerOne) f.quantaPerOne := by
    rw [Nat.one_mul]
    exact ⟨Nat.le_refl _, Nat.le_refl _⟩
  have habove := Nat.mul_le_mul_left (t * f.quantaPerOne) (hp.quotient hone hc (Nat.zero_le 1))
  have hbelow := Nat.mul_le_mul_left (t * f.quantaPerOne) hp.below
  refine nearest_within heven Nat.one_pos (Nat.mul_pos f.quantaPerOne_pos f.quantaPerOne_pos) hm hfin ?_ ?_
  all_goals
    rw [hq]
    linarith

theorem product_le_one (hp : f.quanta p = s * f.quantaPerOne) (hq : f.quanta q = t * f.quantaPerOne) (h : s * t ≤ 1) :
    f.product p q ≤ f.nearest 1 1 := by
  refine f.nearest_mono (Nat.mul_pos f.quantaPerOne_pos f.quantaPerOne_pos) Nat.one_pos ?_
  rw [hp, hq]
  calc s * f.quantaPerOne * (t * f.quantaPerOne) * 1 = s * t * (f.quantaPerOne * f.quantaPerOne) := by ring
    _ ≤ 1 * (f.quantaPerOne * f.quantaPerOne) := Nat.mul_le_mul_right _ h

/-- What is rounded to a magnitude below one is no more than one. -/
theorem Rounds.le_of_lt_one (h : f.Rounds (a * f.quantaPerOne) b m) (hp : f.quanta p = 1 * f.quantaPerOne)
    (hm : m < p) : a ≤ b := by
  have hpos : 0 < 2 * f.quantaPerOne := Nat.mul_pos Nat.two_pos f.quantaPerOne_pos
  have hsucc : f.quanta (m + 1) ≤ f.quanta p := f.quanta_mono hm
  have hself := f.quanta_mono (Nat.le_add_right m 1)
  refine Nat.le_of_mul_le_mul_right ?_ hpos
  calc a * (2 * f.quantaPerOne) = 2 * (a * f.quantaPerOne) := by ring
    _ ≤ (f.quanta m + f.quanta (m + 1)) * b := Nat.le_of_add_right_le h.high
    _ ≤ 2 * f.quantaPerOne * b := Nat.mul_le_mul_right b (by omega)
    _ = b * (2 * f.quantaPerOne) := Nat.mul_comm _ _

theorem le_quotient (ht : 0 < t) (hpos : 0 < f.quanta q) (hp : s * f.quantaPerOne ≤ f.quanta p)
    (hq : f.quanta q ≤ t * f.quantaPerOne) : f.nearest s t ≤ f.quotient p q := by
  refine f.nearest_mono ht hpos ?_
  calc s * f.quanta q ≤ s * (t * f.quantaPerOne) := Nat.mul_le_mul_left s hq
    _ = s * f.quantaPerOne * t := by ring
    _ ≤ f.quanta p * t := Nat.mul_le_mul_right t hp

theorem quotient_le (hs : 0 < s) (hpos : 0 < f.quanta q) (hp : f.quanta p ≤ t * f.quantaPerOne)
    (hq : s * f.quantaPerOne ≤ f.quanta q) : f.quotient p q ≤ f.nearest t s := by
  refine f.nearest_mono hpos hs ?_
  calc f.quanta p * s ≤ t * f.quantaPerOne * s := Nat.mul_le_mul_right s hp
    _ = t * (s * f.quantaPerOne) := by ring
    _ ≤ t * f.quanta q := Nat.mul_le_mul_left t hq

/-! ## Whole numbers -/

variable (f)

theorem nearest_zero (b : Nat) : f.nearest 0 b = 0 := by simp [nearest, nearestEven]

/-- Whether a whole number is a number of the format. -/
def Holds (n : Nat) : Prop := f.quanta (f.nearest n 1) = n * f.quantaPerOne

instance (n : Nat) : Decidable (f.Holds n) := inferInstanceAs (Decidable (_ = _))

/-- How often a whole number is rounded when it becomes a number of the format. -/
def roundings (n : Nat) : Nat := if f.Holds n then 0 else 1

theorem roundings_le (n : Nat) : f.roundings n ≤ 1 := by
  unfold roundings
  split <;> decide

theorem near_nearest {n : Nat} (hfin : binary64.nearest n 1 < binary64.infinity) :
    binary64.Near (binary64.roundings n) (n * binary64.quantaPerOne) (binary64.quanta (binary64.nearest n 1)) := by
  by_cases hholds : binary64.Holds n
  · rw [roundings, if_pos hholds, hholds]
    exact ⟨Nat.le_refl _, Nat.le_refl _⟩
  · have hpos : 0 < n := by
      refine Nat.pos_of_ne_zero ?_
      rintro rfl
      exact hholds (by decide +kernel)
    rw [roundings, if_neg hholds]
    have hone : binary64.binade < binary64.nearest 1 1 := by decide +kernel
    have hmono : binary64.nearest 1 1 ≤ binary64.nearest n 1 :=
      binary64.nearest_mono Nat.one_pos Nat.one_pos (Nat.mul_le_mul_right 1 hpos)
    exact (rounds_nearest (by decide) Nat.one_pos hfin).near (hone.trans_le hmono)

end Format

/-- How often a decimal is rounded before its digits are multiplied by its power of ten or divided by it. -/
def Decimal.roundings (d : Decimal) : Nat := binary64.roundings d.digits + binary64.roundings (10 ^ d.exponent.natAbs)

theorem Decimal.roundings_le (d : Decimal) : d.roundings ≤ 2 :=
  Nat.add_le_add (binary64.roundings_le _) (binary64.roundings_le _)

end RecordPack.Ieee

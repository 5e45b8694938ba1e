import RecordPack.Ieee.Decimal
import RecordPack.Proofs.Ieee.Nearest

/-!
# Shortest decimals

The decimal that a magnitude is written as lies between its midpoints with the neighbouring magnitudes, so that it is
rounded back to it if that is done exactly (`Format.IsShortest.rounds`). It is found on a grid: one that is finer than
half a step has a decimal between the midpoints. The grid ten times as coarse has none or is not that fine, so the digits
are few (`Format.IsShortest.digits_lt`).
-/

namespace RecordPack.Ieee

/-- The decimal as a quotient of whole numbers. -/
def Decimal.numerator (d : Decimal) : Nat := d.digits * 10 ^ d.exponent.toNat

def Decimal.denominator (d : Decimal) : Nat := 10 ^ (-d.exponent).toNat

@[simp] theorem Decimal.numerator_ofNat (s k : Nat) : Decimal.numerator ⟨s, .ofNat k⟩ = s * 10 ^ k := rfl

@[simp] theorem Decimal.numerator_negSucc (s k : Nat) : Decimal.numerator ⟨s, .negSucc k⟩ = s := Nat.mul_one s

@[simp] theorem Decimal.denominator_ofNat (s k : Nat) : Decimal.denominator ⟨s, .ofNat k⟩ = 1 := by
  have hzero : (-Int.ofNat k).toNat = 0 := Int.toNat_eq_zero.2 (Int.neg_nonpos_of_nonneg (Int.natCast_nonneg k))
  simp only [denominator, hzero, Nat.pow_zero]

@[simp] theorem Decimal.denominator_negSucc (s k : Nat) : Decimal.denominator ⟨s, .negSucc k⟩ = 10 ^ (k + 1) := rfl

theorem Decimal.denominator_pos (d : Decimal) : 0 < d.denominator := Nat.pow_pos (by decide)

namespace Format

variable {f : Format} {tie : Tie} {m n : Nat} {e : Int}

/-! ## One grid -/

/-- Whether `x` half quanta, cleared of `scale`, lie between the midpoints of a magnitude. -/
def Inside (f : Format) (m scale x : Nat) : Prop :=
  (f.quanta (m - 1) + f.quanta m) * scale + m % 2 ≤ x ∧ x + m % 2 ≤ (f.quanta m + f.quanta (m + 1)) * scale

theorem inside_iff (m scale x : Nat) :
    (if m % 2 = 0 then
        decide ((f.quanta (m - 1) + f.quanta m) * scale ≤ x) && decide (x ≤ (f.quanta m + f.quanta (m + 1)) * scale)
      else decide ((f.quanta (m - 1) + f.quanta m) * scale < x) &&
        decide (x < (f.quanta m + f.quanta (m + 1)) * scale)) = true ↔ f.Inside m scale x := by
  unfold Inside
  rcases Nat.mod_two_eq_zero_or_one m with h | h <;> simp [h]

/-- What is found on a grid lies between the midpoints. -/
theorem inside_of_onGrid? (h : f.onGrid? tie m e = some n) :
    f.Inside m (10 ^ (-e).toNat) (n * (2 * f.quantaPerOne * 10 ^ e.toNat)) := by
  simp only [onGrid?, Nat.pow_eq] at h
  have hin := fun x => @inside_iff f m (10 ^ (-e).toNat) x
  split at h
  · next hbelow habove =>
    have hb := (hin _).1 hbelow
    have ha := (hin _).1 habove
    split at h
    · cases h
      exact hb
    · split at h
      · cases h
        exact ha
      · split at h
        · cases h
          exact ha
        · cases h
          -- the even one of the two
          rcases Nat.mod_two_eq_zero_or_one
            (2 * f.quanta m * 10 ^ (-e).toNat / (2 * f.quantaPerOne * 10 ^ e.toNat)) with heven | hodd
          · rwa [heven]
          · rwa [hodd]
  · next hbelow _ =>
    cases h
    exact (hin _).1 hbelow
  · next _ habove =>
    cases h
    exact (hin _).1 habove
  · cases h

/-- Where nothing is found, the multiple above the magnitude is not between the midpoints. -/
theorem not_inside_of_onGrid? (h : f.onGrid? tie m e = none) :
    ¬ f.Inside m (10 ^ (-e).toNat) ((2 * f.quanta m * 10 ^ (-e).toNat / (2 * f.quantaPerOne * 10 ^ e.toNat) + 1) *
      (2 * f.quantaPerOne * 10 ^ e.toNat)) := by
  simp only [onGrid?, Nat.pow_eq] at h
  rw [← inside_iff]
  split at h
  · split at h
    · cases h
    · split at h
      · cases h
      · split at h <;> cases h
  · cases h
  · cases h
  · next _ habove => exact ne_true_of_eq_false habove

/-- A grid whose steps are less than half the way from a magnitude to the next one. -/
def IsFine (f : Format) (m : Nat) (e : Int) : Prop :=
  2 * f.quantaPerOne * 10 ^ e.toNat < 2 ^ f.exponent m * 10 ^ (-e).toNat

theorem exists_onGrid? (tie : Tie) (h : f.IsFine m e) : ∃ n, f.onGrid? tie m e = some n := by
  rw [← Option.isSome_iff_exists, Option.isSome_iff_ne_none]
  intro hnone
  refine not_inside_of_onGrid? hnone ?_
  unfold IsFine at h
  generalize hstep : 2 * f.quantaPerOne * 10 ^ e.toNat = step at h ⊢
  generalize 10 ^ (-e).toNat = scale at h ⊢
  have hpos : 0 < step := by
    rw [← hstep]
    exact Nat.mul_pos (Nat.mul_pos Nat.two_pos f.quantaPerOne_pos) (Nat.pow_pos (by decide))
  have hle := Nat.div_mul_le_self (2 * f.quanta m * scale) step
  have hlt := Nat.lt_div_mul_add (a := 2 * f.quanta m * scale) hpos
  have hbelow := Nat.mul_le_mul_right scale (f.quanta_mono (Nat.sub_le m 1))
  have hmod := Nat.mod_lt m Nat.two_pos
  rw [Inside, f.quanta_succ]
  simp only [Nat.add_mul, Nat.one_mul, Nat.mul_assoc 2] at *
  omega

/-! ## The search -/

/-- The search ends on a grid with a hit, where it began or right below one that is too coarse. -/
theorem exists_searchGrid (tie : Tie) {fuel : Nat} : ∀ {e : Int}, (∃ k < fuel, f.IsFine m (e - k)) →
    ∃ n e', f.searchGrid tie m fuel e = ⟨n, e'⟩ ∧ f.onGrid? tie m e' = some n ∧
      (e' = e ∨ e' < e ∧ ¬ f.IsFine m (e' + 1)) := by
  induction fuel with
  | zero =>
    rintro e ⟨k, hk, -⟩
    exact absurd hk (Nat.not_lt_zero k)
  | succ fuel ih =>
    rintro e ⟨k, hk, hfine⟩
    cases hgrid : f.onGrid? tie m e with
    | some n => exact ⟨n, e, by rw [searchGrid, hgrid], hgrid, .inl rfl⟩
    | none =>
      have hcoarse : ¬ f.IsFine m e := by
        intro h
        obtain ⟨n, hn⟩ := exists_onGrid? tie h
        cases hn.symm.trans hgrid
      obtain ⟨j, rfl⟩ : ∃ j, k = j + 1 := by
        cases k with
        | zero => exact absurd (by simpa using hfine) hcoarse
        | succ j => exact ⟨j, rfl⟩
      obtain ⟨n, e', hsearch, hhit, hplace⟩ :=
        ih (e := e - 1) ⟨j, by omega, by rwa [show e - 1 - (j : Int) = e - (j + 1 : Nat) by omega]⟩
      refine ⟨n, e', by rw [searchGrid, hgrid]; exact hsearch, hhit, .inr ?_⟩
      rcases hplace with rfl | ⟨hlt, hcoarse'⟩
      · exact ⟨by omega, by rwa [Int.sub_add_cancel]⟩
      · exact ⟨by omega, hcoarse'⟩

/-- The number of digits of the whole part of the next magnitude, where the search begins. -/
def top (f : Format) (m : Nat) : Nat := (Nat.toDigits 10 (f.quanta (m + 1) / f.quantaPerOne)).length

theorem quanta_succ_lt_top (m : Nat) : f.quanta (m + 1) < 10 ^ f.top m * f.quantaPerOne := by
  rw [← Nat.div_lt_iff_lt_mul f.quantaPerOne_pos]
  exact (Nat.length_toDigits_le_iff (by decide) Nat.length_toDigits_pos).1 (Nat.le_refl _)

/-- A grid of ten to the minus 324 is finer than half a quantum. -/
theorem isFine_binary64 (m : Nat) : binary64.IsFine m (-324) := by
  have hquantum : 2 * binary64.quantaPerOne * 10 ^ (0 : Nat) < 1 * 10 ^ (324 : Nat) := by decide +kernel
  rw [IsFine, show (-324 : Int).toNat = 0 from rfl, show (-(-324 : Int)).toNat = 324 from rfl]
  exact hquantum.trans_le (Nat.mul_le_mul_right _ Nat.one_le_two_pow)

/-- How the shortest decimal of a magnitude is found. -/
structure IsShortest (f : Format) (tie : Tie) (m : Nat) (d : Decimal) : Prop where
  hit : f.onGrid? tie m d.exponent = some d.digits
  place : d.exponent = f.top m ∨ d.exponent < f.top m ∧ ¬ f.IsFine m (d.exponent + 1)

theorem isShortest_shortest (tie : Tie) (hm : 0 < m) : binary64.IsShortest tie m (binary64.shortest tie m) := by
  have hfuel : ∃ k < binary64.top m + binary64.quantumShift, binary64.IsFine m (binary64.top m - (k : Nat)) := by
    refine ⟨binary64.top m + 324, Nat.add_lt_add_left (by decide) _, ?_⟩
    rw [show ((binary64.top m : Int) - (binary64.top m + 324 : Nat)) = -324 by omega]
    exact isFine_binary64 m
  obtain ⟨n, e, hsearch, hhit, hplace⟩ := exists_searchGrid tie hfuel
  have hshortest : binary64.shortest tie m = ⟨n, e⟩ := by
    rw [shortest, if_neg hm.ne']
    exact hsearch
  rw [hshortest]
  exact ⟨hhit, hplace⟩

/-! ## What is found -/

variable {d : Decimal}

theorem rounds_zero (h : d.digits = 0) : f.Rounds (d.numerator * f.quantaPerOne) d.denominator 0 := by
  rw [Decimal.numerator, h, Nat.zero_mul, Nat.zero_mul]
  exact ⟨nofun, Nat.zero_le _⟩

/-- The shortest decimal of a magnitude is rounded back to it. -/
theorem IsShortest.rounds (h : f.IsShortest tie m d) : f.Rounds (d.numerator * f.quantaPerOne) d.denominator m := by
  have hin := inside_of_onGrid? h.hit
  have hdouble : d.digits * (2 * f.quantaPerOne * 10 ^ d.exponent.toNat) = 2 * (d.numerator * f.quantaPerOne) := by
    rw [Decimal.numerator]
    ring
  rw [hdouble] at hin
  refine ⟨?_, hin.2⟩
  rintro n rfl
  exact hin.1

theorem IsShortest.exponent_le (h : f.IsShortest tie m d) : d.exponent ≤ f.top m := by
  rcases h.place with heq | ⟨hlt, -⟩
  · exact heq.le
  · exact hlt.le

theorem ten_pow_succ (e : Int) :
    10 ^ (e + 1).toNat * 10 ^ (-e).toNat = 10 * (10 ^ e.toNat * 10 ^ (-(e + 1)).toNat) := by
  rw [← Nat.pow_add, ← Nat.pow_add, ← Nat.pow_succ']
  congr 1
  omega

/-- The search begins with a power of ten that is greater than the number. -/
theorem IsShortest.digits_of_top (h : f.IsShortest tie m d) (htop : d.exponent = f.top m) : d.digits = 0 := by
  have hhigh := h.rounds.high
  have hnum : d.numerator = d.digits * 10 ^ f.top m := by rw [Decimal.numerator, htop, Int.toNat_natCast]
  have hden : d.denominator = 1 := by
    rw [Decimal.denominator, htop, Int.toNat_eq_zero.2 (by omega), Nat.pow_zero]
  have hgreater := f.quanta_succ_lt_top m
  have hmono := f.quanta_mono (Nat.le_add_right m 1)
  rw [hnum, hden, Nat.mul_one, Nat.mul_assoc] at hhigh
  by_contra hpos
  have := Nat.le_mul_of_pos_left (10 ^ f.top m * f.quantaPerOne) (Nat.pos_of_ne_zero hpos)
  omega

/-- Below a grid that is too coarse the digits are few. -/
theorem IsShortest.digits_of_coarse (h : f.IsShortest tie m d) (hcoarse : ¬ f.IsFine m (d.exponent + 1)) :
    d.digits < 40 * f.binade := by
  have hhigh := h.rounds.high
  have hten := ten_pow_succ d.exponent
  have hsig := f.significand_lt m
  unfold IsFine at hcoarse
  rw [f.quanta_succ, f.quanta_eq, Decimal.numerator, Decimal.denominator] at hhigh
  generalize 10 ^ (d.exponent + 1).toNat = a' at hten hcoarse
  generalize hb' : 10 ^ (-(d.exponent + 1)).toNat = b' at hten hcoarse
  generalize ha : 10 ^ d.exponent.toNat = a at hten hhigh
  generalize 10 ^ (-d.exponent).toNat = b at hten hhigh
  have hapos : 0 < a := ha ▸ Nat.pow_pos (by decide)
  have hbpos : 0 < b' := hb' ▸ Nat.pow_pos (by decide)
  have hstep : 2 ^ f.exponent m * b ≤ 20 * (f.quantaPerOne * a) := by
    refine Nat.le_of_mul_le_mul_right ?_ hbpos
    calc 2 ^ f.exponent m * b * b' = 2 ^ f.exponent m * b' * b := by ring
      _ ≤ 2 * f.quantaPerOne * a' * b := Nat.mul_le_mul_right b (Nat.not_lt.1 hcoarse)
      _ = 2 * f.quantaPerOne * (a' * b) := by ring
      _ = 20 * (f.quantaPerOne * a) * b' := by
        rw [hten]
        ring
  have hdigits : 2 * d.digits ≤ (2 * f.significand m + 1) * 20 := by
    refine Nat.le_of_mul_le_mul_right ?_ (Nat.mul_pos f.quantaPerOne_pos hapos)
    calc 2 * d.digits * (f.quantaPerOne * a) = 2 * (d.digits * a * f.quantaPerOne) := by ring
      _ ≤ _ := Nat.le_of_add_right_le hhigh
      _ = (2 * f.significand m + 1) * (2 ^ f.exponent m * b) := by ring
      _ ≤ (2 * f.significand m + 1) * (20 * (f.quantaPerOne * a)) := Nat.mul_le_mul_left _ hstep
      _ = (2 * f.significand m + 1) * 20 * (f.quantaPerOne * a) := by ring
  omega

/-- The shortest decimal has few digits. -/
theorem IsShortest.digits_lt (h : f.IsShortest tie m d) : d.digits < 40 * f.binade := by
  rcases h.place with htop | ⟨-, hcoarse⟩
  · rw [h.digits_of_top htop]
    exact Nat.mul_pos (by decide) f.binade_pos
  · exact h.digits_of_coarse hcoarse

theorem IsShortest.digits_pos (h : f.IsShortest tie m d) (hm : 0 < m) : 0 < d.digits :=
  Nat.pos_of_mul_pos_right (h.rounds.pos d.denominator_pos hm)

/-- The decimal of a number that is not tiny has no tiny exponent. -/
theorem IsShortest.le_exponent (h : binary64.IsShortest tie m d) (hm : 53 ≤ binary64.exponent m) :
    -308 ≤ d.exponent := by
  by_contra hlt
  rcases h.place with heq | ⟨-, hcoarse⟩
  · omega
  · have hzero : (d.exponent + 1).toNat = 0 := by omega
    have hdeep : 308 ≤ (-(d.exponent + 1)).toNat := by omega
    have hpow := pow_le_pow_right₀ (show 1 ≤ 10 by decide) hdeep
    have hgreat : 2 * binary64.quantaPerOne * 10 ^ 0 < 2 ^ 53 * 10 ^ 308 := by decide +kernel
    refine hcoarse ?_
    unfold IsFine
    rw [hzero]
    exact hgreat.trans_le (Nat.mul_le_mul (Nat.pow_le_pow_right Nat.two_pos hm) hpow)

end Format

end RecordPack.Ieee

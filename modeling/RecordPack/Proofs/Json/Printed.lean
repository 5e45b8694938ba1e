import RecordPack.Json.Writer
import RecordPack.Proofs.Ieee.Shortest
import RecordPack.Proofs.Json.Number

/-!
# Printed numbers

The text of a number is the spelling of parts (`toList_numberText`) that make up a number in JSON
(`isForm_printedParts`). What they say is the shortest decimal, but for a whole one in positional form, which has a zero
after the point and so one digit more (`decimal_printedParts`).
-/

namespace RecordPack.Json

open Ieee (Binary64 Decimal Format binary64)

/-! ## The parts of what is printed -/

/-- The parts of a decimal that is written without an exponent. A whole one gets a zero after the point. -/
def positionalParts (d : Decimal) : NumberText :=
  let ds := Nat.toDigits 10 d.digits
  match d.exponent with
  | .ofNat zeros => ⟨false, ds ++ List.replicate zeros '0', some ['0'], none⟩
  | .negSucc n =>
    let places := n + 1
    if places < ds.length then ⟨false, ds.take (ds.length - places), some (ds.drop (ds.length - places)), none⟩
    else ⟨false, ['0'], some (List.replicate (places - ds.length) '0' ++ ds), none⟩

/-- The parts of a decimal that is written with an exponent. -/
def scientificParts (d : Decimal) : NumberText :=
  let ds := Nat.toDigits 10 d.digits
  ⟨false, ds.take 1, if ds.length = 1 then none else some (ds.drop 1),
    some (decide (d.leading < 0), Nat.toDigits 10 d.leading.natAbs)⟩

variable {d : Decimal}

theorem spell_positionalParts (d : Decimal) :
    (positionalParts d).spell = d.positional ++ if d.isWhole then ['.', '0'] else [] := by
  obtain ⟨digits, e⟩ := d
  cases e with
  | ofNat zeros =>
    have hwhole : Decimal.isWhole ⟨digits, .ofNat zeros⟩ = true := decide_eq_true (Int.natCast_nonneg zeros)
    rw [if_pos hwhole]
    simp only [positionalParts, Decimal.positional, NumberText.spell, NumberText.fractionText, NumberText.exponentText,
      List.append_nil]
  | negSucc n =>
    have hwhole : ¬ Decimal.isWhole ⟨digits, .negSucc n⟩ = true := of_decide_eq_false rfl
    rw [if_neg hwhole]
    simp only [positionalParts, Decimal.positional]
    split <;> simp [NumberText.spell, NumberText.fractionText, NumberText.exponentText]

theorem spell_scientificParts (d : Decimal) : (scientificParts d).spell = d.scientific := by
  have hne : Nat.toDigits 10 d.digits ≠ [] := Nat.toDigits_ne_nil
  unfold scientificParts Decimal.scientific
  simp only [NumberText.spell, NumberText.exponentText, decide_eq_true_eq]
  rcases hds : Nat.toDigits 10 d.digits with _ | ⟨c, _ | ⟨c', cs⟩⟩
  · exact absurd hds hne
  · simp [NumberText.fractionText]
  · simp [NumberText.fractionText]

theorem isDigits_append {as bs : List Char} (ha : IsDigits as) (hb : ∀ c ∈ bs, c.isDigit = true) : IsDigits (as ++ bs) := by
  refine ⟨by simp [ha.ne_nil], ?_⟩
  intro c hc
  exact (List.mem_append.1 hc).elim (ha.all c) (hb c)

theorem isDigit_of_mem_replicate {n : Nat} : ∀ c ∈ List.replicate n '0', c.isDigit = true := by
  intro c hc
  rw [List.eq_of_mem_replicate hc]
  decide

theorem isDigits_zero : IsDigits ['0'] := isDigits_toDigits 0

theorem isWhole_zero : IsWhole ['0'] := isWhole_toDigits 0

/-- The first digits of a number but zero stand in front as they are. -/
theorem isWhole_take {n k : Nat} (hn : 0 < n) (hk : 0 < k) : IsWhole ((Nat.toDigits 10 n).take k) := by
  have hds := isDigits_toDigits n
  have hlen := List.length_pos_of_ne_nil hds.ne_nil
  refine ⟨⟨List.ne_nil_of_length_pos ?_, fun c hc => hds.all c (List.mem_of_mem_take hc)⟩, ?_⟩
  · rw [List.length_take]
    omega
  · intro hzero
    rw [List.head?_take, if_neg hk.ne'] at hzero
    exact absurd hzero (head_toDigits_ne hn)

theorem isDigits_drop {n k : Nat} (hk : k < (Nat.toDigits 10 n).length) : IsDigits ((Nat.toDigits 10 n).drop k) := by
  refine ⟨List.ne_nil_of_length_pos ?_, fun c hc => (isDigits_toDigits n).all c (List.mem_of_mem_drop hc)⟩
  rw [List.length_drop]
  omega

theorem isForm_positionalParts (h : d.digits = 0 → d.exponent = 0) : (positionalParts d).IsForm := by
  obtain ⟨digits, e⟩ := d
  have hds := isDigits_toDigits digits
  cases e with
  | ofNat zeros =>
    refine ⟨rfl, ⟨isDigits_append hds isDigit_of_mem_replicate, ?_⟩, ?_, nofun⟩
    · intro hzero
      simp only [positionalParts, List.head?_append_of_ne_nil _ hds.ne_nil] at hzero ⊢
      rcases Nat.eq_zero_or_pos digits with rfl | hpos
      · obtain rfl : zeros = 0 := Int.ofNat.inj (h rfl)
        rfl
      · exact absurd hzero (head_toDigits_ne hpos)
    · rintro _ ⟨⟩
      exact isDigits_zero
  | negSucc n =>
    have hpos : 0 < digits := Nat.pos_of_ne_zero fun hzero => nomatch h hzero
    simp only [positionalParts]
    split
    · next hlt =>
      refine ⟨rfl, isWhole_take hpos (by omega), ?_, nofun⟩
      rintro _ ⟨⟩
      exact isDigits_drop (by omega)
    · refine ⟨rfl, isWhole_zero, ?_, nofun⟩
      rintro _ ⟨⟩
      refine ⟨by simp [hds.ne_nil], ?_⟩
      intro c hc
      exact (List.mem_append.1 hc).elim (isDigit_of_mem_replicate c) (hds.all c)

theorem isForm_scientificParts (h : 0 < d.digits) : (scientificParts d).IsForm := by
  have hlen : 0 < (Nat.toDigits 10 d.digits).length := Nat.length_toDigits_pos
  refine ⟨rfl, isWhole_take h Nat.one_pos, ?_, ?_⟩
  · intro ds hfraction
    simp only [scientificParts] at hfraction
    split at hfraction
    · cases hfraction
    · cases hfraction
      exact isDigits_drop (by omega)
  · rintro _ ⟨⟩
    exact isDigits_toDigits _

/-! ## What is printed says the decimal -/

theorem digitsValue_append_zeros (cs : List Char) (n : Nat) :
    digitsValue (cs ++ List.replicate n '0') = digitsValue cs * 10 ^ n := by
  rw [digitsValue_eq, Nat.ofDigitChars_append, Nat.ofDigitChars_replicate_zero, ← digitsValue_eq, Nat.mul_comm]

theorem digitsValue_zeros_append (n : Nat) (cs : List Char) :
    digitsValue (List.replicate n '0' ++ cs) = digitsValue cs := by
  rw [digitsValue_eq, Nat.ofDigitChars_append, Nat.ofDigitChars_replicate_zero, Nat.mul_zero, ← digitsValue_eq]

theorem decimal_positionalParts (d : Decimal) : (positionalParts d).decimal =
    if d.isWhole then ⟨d.digits * 10 ^ (d.exponent.toNat + 1), -1⟩ else d := by
  obtain ⟨digits, e⟩ := d
  cases e with
  | ofNat zeros =>
    have hwhole : Decimal.isWhole ⟨digits, .ofNat zeros⟩ = true := decide_eq_true (Int.natCast_nonneg zeros)
    have hzeros : Nat.toDigits 10 digits ++ List.replicate zeros '0' ++ ['0'] =
        Nat.toDigits 10 digits ++ List.replicate (zeros + 1) '0' := by
      rw [List.append_assoc, List.replicate_succ']
    rw [if_pos hwhole]
    simp only [positionalParts, NumberText.decimal, NumberText.power, Option.getD_some, hzeros,
      digitsValue_append_zeros, digitsValue_toDigits]
    rfl
  | negSucc n =>
    have hwhole : ¬ Decimal.isWhole ⟨digits, .negSucc n⟩ = true := of_decide_eq_false rfl
    rw [if_neg hwhole]
    simp only [positionalParts]
    split
    · next hlt =>
      simp only [NumberText.decimal, NumberText.power, Option.getD_some, List.take_append_drop, digitsValue_toDigits,
        List.length_drop, Decimal.mk.injEq, true_and]
      omega
    · next hge =>
      have hdigits : digitsValue (['0'] ++ (List.replicate (n + 1 - (Nat.toDigits 10 digits).length) '0' ++
          Nat.toDigits 10 digits)) = digits := by
        rw [← List.append_assoc, ← List.replicate_one, ← List.replicate_add, digitsValue_zeros_append,
          digitsValue_toDigits]
      simp only [NumberText.decimal, NumberText.power, Option.getD_some, hdigits, List.length_append,
        List.length_replicate, Decimal.mk.injEq, true_and]
      omega

theorem decimal_scientificParts (d : Decimal) : (scientificParts d).decimal = d := by
  have hlen : 0 < (Nat.toDigits 10 d.digits).length := Nat.length_toDigits_pos
  have hfraction : (scientificParts d).fraction.getD [] = (Nat.toDigits 10 d.digits).drop 1 := by
    simp only [scientificParts]
    split
    · next hone =>
      rw [Option.getD_none, List.drop_eq_nil_of_le hone.le]
    · rfl
  have hpower : (scientificParts d).power = d.leading := by
    simp only [scientificParts, NumberText.power, digitsValue_toDigits, decide_eq_true_eq]
    split <;> omega
  have hdigits : digitsValue ((scientificParts d).whole ++ (scientificParts d).fraction.getD []) = d.digits := by
    rw [hfraction]
    simp only [scientificParts, List.take_append_drop, digitsValue_toDigits]
  rw [NumberText.decimal, hdigits, hpower, hfraction, List.length_drop, Decimal.leading]
  obtain ⟨digits, e⟩ := d
  simp only [Decimal.mk.injEq, true_and]
  omega

/-! ## The text of a number -/

/-- The parts of the text of a finite number that is not negative. -/
def printedParts (m : Nat) : NumberText :=
  let d := binary64.shortest .even m
  if m = 0 ∨ -5 ≤ d.leading ∧ d.leading < 16 then positionalParts d else scientificParts d

theorem toList_numberText {x : Binary64} (hfin : x.isFinite = true) (hsign : x.isNegative = false) :
    (numberText x).toList = (printedParts x.magnitude).spell := by
  simp only [numberText, if_pos hfin, hsign, Bool.false_eq_true, if_false, String.empty_append, String.toList_ofList,
    printedParts]
  split
  · rw [spell_positionalParts]
  · rw [spell_scientificParts]

theorem isForm_printedParts (m : Nat) : (printedParts m).IsForm := by
  rcases Nat.eq_zero_or_pos m with rfl | hm
  · exact isForm_positionalParts (d := ⟨0, 0⟩) fun _ => rfl
  · have hpos := (Format.isShortest_shortest .even hm).digits_pos hm
    simp only [printedParts]
    split
    · exact isForm_positionalParts fun h => absurd h hpos.ne'
    · exact isForm_scientificParts hpos

/-- It is not taken for an integer. -/
theorem printedParts_real (m : Nat) : (printedParts m).fraction ≠ none ∨ (printedParts m).exponent ≠ none := by
  simp only [printedParts]
  split
  · left
    unfold positionalParts
    split
    · exact Option.some_ne_none _
    · dsimp only
      split <;> exact Option.some_ne_none _
  · exact .inr (Option.some_ne_none _)

/-- What is printed says the shortest decimal, or the same with a zero after the point. -/
theorem decimal_printedParts (m : Nat) : (printedParts m).decimal = binary64.shortest .even m ∨
    ∃ s k, binary64.shortest .even m = ⟨s, .ofNat k⟩ ∧ Decimal.leading ⟨s, .ofNat k⟩ < 16 ∧
      (printedParts m).decimal = ⟨s * 10 ^ (k + 1), .negSucc 0⟩ := by
  have hleading : m = 0 ∨ -5 ≤ (binary64.shortest .even m).leading ∧ (binary64.shortest .even m).leading < 16 →
      (binary64.shortest .even m).leading < 16 := by
    rintro (rfl | ⟨-, hlt⟩)
    · decide
    · exact hlt
  simp only [printedParts]
  generalize binary64.shortest .even m = d at hleading ⊢
  obtain ⟨s, e⟩ := d
  split
  · next h =>
    rw [decimal_positionalParts]
    split
    · next hwhole =>
      obtain ⟨k, rfl⟩ : ∃ k : Nat, e = .ofNat k := Int.eq_ofNat_of_zero_le (of_decide_eq_true hwhole)
      exact .inr ⟨s, k, rfl, hleading h, rfl⟩
    · exact .inl rfl
  · exact .inl (decimal_scientificParts _)

end RecordPack.Json

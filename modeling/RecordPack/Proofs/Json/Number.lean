import RecordPack.Ieee.Decimal
import RecordPack.Json.Number
import RecordPack.Proofs.Fallible

/-!
# Numbers in JSON text

A number is spelled from its parts and read back into them (`NumberText.read_spell`), whatever comes behind it that does
not go on with the number. If its digits fit, with the point left out, it is taken for them times the power of ten that
the places and the exponent say (`NumberText.value_of_real`).
-/

namespace RecordPack.Json

open Ieee (Decimal)

/-! ## Digits -/

theorem digitsValue_eq (cs : List Char) : digitsValue cs = Nat.ofDigitChars 10 cs 0 := rfl

theorem digitsValue_toDigits (n : Nat) : digitsValue (Nat.toDigits 10 n) = n := Nat.ofDigitChars_ten_toDigits

theorem le_ofDigitChars (cs : List Char) : ∀ n, n ≤ Nat.ofDigitChars 10 cs n := by
  induction cs with
  | nil => exact fun n => Nat.le_refl n
  | cons c cs ih =>
    intro n
    rw [Nat.ofDigitChars_cons]
    exact Nat.le_trans (by omega) (ih _)

/-- Digits are all taken if what they come to fits. -/
theorem takeDigits_of_lt (cs : List Char) : ∀ {significand used : Nat},
    Nat.ofDigitChars 10 cs significand < UInt64.size →
    takeDigits significand used cs = (Nat.ofDigitChars 10 cs significand, used + cs.length) := by
  induction cs with
  | nil => exact fun _ => rfl
  | cons c cs ih =>
    intro significand used h
    rw [Nat.ofDigitChars_cons] at h ⊢
    have hnext := le_ofDigitChars cs (10 * significand + (c.toNat - '0'.toNat))
    simp only [takeDigits]
    rw [if_pos (Nat.lt_of_le_of_lt hnext h), ih h, List.length_cons, Nat.add_right_comm, Nat.add_assoc]

/-- Digits in a row, one at least. -/
structure IsDigits (cs : List Char) : Prop where
  ne_nil : cs ≠ []
  all : ∀ c ∈ cs, c.isDigit = true

theorem isDigits_toDigits (n : Nat) : IsDigits (Nat.toDigits 10 n) :=
  ⟨Nat.toDigits_ne_nil, fun _ hc => Nat.isDigit_of_mem_toDigits (by decide) (by decide) hc⟩

/-- Digits without a zero in front of others. -/
structure IsWhole (cs : List Char) : Prop extends IsDigits cs where
  plain : cs.head? = some '0' → cs.length = 1

/-- No number but zero begins with a zero. -/
theorem head_toDigits_ne {n : Nat} (h : 0 < n) : (Nat.toDigits 10 n).head? ≠ some '0' := by
  induction n using Nat.strongRecOn with
  | _ n ih =>
    rcases Nat.lt_or_ge n 10 with hlt | hge
    · rw [Nat.toDigits_of_lt_base hlt]
      simp
      omega
    · rw [Nat.toDigits_of_base_le (by decide) hge, List.head?_append_of_ne_nil _ Nat.toDigits_ne_nil]
      exact ih (n / 10) (by omega) (by omega)

theorem isWhole_toDigits (n : Nat) : IsWhole (Nat.toDigits 10 n) := by
  refine ⟨isDigits_toDigits n, ?_⟩
  intro hzero
  rcases Nat.eq_zero_or_pos n with rfl | hpos
  · rfl
  · exact absurd hzero (head_toDigits_ne hpos)

theorem someDigits_append (atEnd : Fault) {cs rest : List Char} (h : IsDigits cs)
    (hrest : ∀ c ∈ rest.head?, c.isDigit = false) : someDigits atEnd (cs ++ rest) = .ok (cs, rest) := by
  obtain ⟨hne, hall⟩ := h
  have hcut : rest.takeWhile Char.isDigit = [] ∧ rest.dropWhile Char.isDigit = rest := by
    cases rest with
    | nil => exact ⟨rfl, rfl⟩
    | cons c rest => simp [hrest c rfl]
  cases cs with
  | nil => exact absurd rfl hne
  | cons c cs =>
    have htake : (c :: cs ++ rest).takeWhile Char.isDigit = c :: cs := by
      rw [List.takeWhile_append_of_pos hall, hcut.1, List.append_nil]
    have hdrop : (c :: cs ++ rest).dropWhile Char.isDigit = rest := by
      rw [List.dropWhile_append_of_pos hall, hcut.2]
    rw [List.cons_append] at htake hdrop ⊢
    simp only [someDigits]
    rw [if_pos (hall c List.mem_cons_self), htake, hdrop]

theorem wholeDigits_append (atEnd : Fault) {cs rest : List Char} (h : IsWhole cs)
    (hrest : ∀ c ∈ rest.head?, c.isDigit = false) : wholeDigits atEnd (cs ++ rest) = .ok (cs, rest) := by
  rw [wholeDigits, someDigits_append atEnd h.toIsDigits hrest]
  have hplain : ¬ (cs.head? = some '0' ∧ cs.length ≠ 1) := fun ⟨hzero, hlen⟩ => hlen (h.plain hzero)
  simp only [ok_bind, if_neg hplain]
  rfl

/-! ## Spelling -/

/-- What comes after a number: nothing that goes on with it. -/
def EndsNumber (rest : List Char) : Prop := ∀ c ∈ rest.head?, c.isDigit = false ∧ c ≠ '.' ∧ c ≠ 'e' ∧ c ≠ 'E'

namespace NumberText

def fractionText : Option (List Char) → List Char
  | none => []
  | some ds => '.' :: ds

def exponentText : Option (Bool × List Char) → List Char
  | none => []
  | some (negative, ds) => 'e' :: (if negative then '-' else '+') :: ds

/-- The text of a number that is not negative. -/
def spell (t : NumberText) : List Char := t.whole ++ (fractionText t.fraction ++ exponentText t.exponent)

/-- Whether the parts of a number are those of a text, without a minus. -/
structure IsForm (t : NumberText) : Prop where
  positive : t.negative = false
  whole : IsWhole t.whole
  fraction : ∀ ds ∈ t.fraction, IsDigits ds
  exponent : ∀ x ∈ t.exponent, IsDigits x.2

variable {t : NumberText} {rest : List Char}

theorem exponentDigits_append (atEnd : Fault) {o : Option (Bool × List Char)} (h : ∀ x ∈ o, IsDigits x.2)
    (hrest : EndsNumber rest) : exponentDigits atEnd (exponentText o ++ rest) = .ok (o, rest) := by
  cases o with
  | none =>
    cases rest with
    | nil => rfl
    | cons c rest =>
      obtain ⟨-, -, he, hE⟩ := hrest c rfl
      simp [exponentText, exponentDigits, he, hE]
  | some x =>
    obtain ⟨negative, ds⟩ := x
    have hds := someDigits_append atEnd (h _ rfl) fun c hc => (hrest c hc).1
    cases negative <;> simp [exponentText, exponentDigits, hds]

theorem fractionDigits_append (atEnd : Fault) {o : Option (List Char)} (h : ∀ ds ∈ o, IsDigits ds)
    (hrest : ∀ c ∈ rest.head?, c.isDigit = false ∧ c ≠ '.') :
    fractionDigits atEnd (fractionText o ++ rest) = .ok (o, rest) := by
  cases o with
  | none =>
    unfold fractionDigits fractionText
    split
    · next cs heq =>
      rw [List.nil_append] at heq
      exact absurd rfl (hrest '.' (by rw [heq]; rfl)).2
    · rfl
  | some ds =>
    have hds := someDigits_append atEnd (h ds rfl) fun c hc => (hrest c hc).1
    simp [fractionText, fractionDigits, hds]

/-- A number is read as it is spelled. -/
theorem read_spell (h : t.IsForm) (atEnd : Fault) (hrest : EndsNumber rest) :
    read atEnd (t.spell ++ rest) = .ok (t, rest) := by
  obtain ⟨negative, whole, fraction, exponent⟩ := t
  obtain ⟨(rfl : negative = false), hwhole, hfraction, hexponent⟩ := h
  have hafter : ∀ c ∈ (exponentText exponent ++ rest).head?, c.isDigit = false ∧ c ≠ '.' := by
    cases exponent with
    | none => exact fun c hc => ⟨(hrest c hc).1, (hrest c hc).2.1⟩
    | some x =>
      rintro c ⟨⟩
      decide
  have hbehind : ∀ c ∈ (fractionText fraction ++ (exponentText exponent ++ rest)).head?, c.isDigit = false := by
    cases fraction with
    | none => exact fun c hc => (hafter c hc).1
    | some ds =>
      rintro c ⟨⟩
      decide
  have hspell : spell ⟨false, whole, fraction, exponent⟩ ++ rest =
      whole ++ (fractionText fraction ++ (exponentText exponent ++ rest)) := by
    simp only [spell, List.append_assoc]
  have hminus : ∀ cs, whole ++ (fractionText fraction ++ (exponentText exponent ++ rest)) ≠ '-' :: cs := by
    intro cs heq
    cases whole with
    | nil => exact hwhole.ne_nil rfl
    | cons c whole =>
      rw [List.cons_append] at heq
      have hdigit := hwhole.all c List.mem_cons_self
      rw [(List.cons.inj heq).1] at hdigit
      exact absurd hdigit (by decide)
  rw [hspell, read, wholeDigits_append atEnd hwhole hbehind]
  · simp only [ok_bind, fractionDigits_append atEnd hfraction hafter, exponentDigits_append atEnd hexponent hrest]
    rfl
  · exact hminus

/-! ## Values -/

/-- The number that the exponent says. -/
def power (t : NumberText) : Int :=
  match t.exponent with
  | none => 0
  | some (negative, ds) => if negative then -digitsValue ds else digitsValue ds

/-- The digits of a number without the point, and the power of ten that they are multiplied by. -/
def decimal (t : NumberText) : Decimal where
  digits := digitsValue (t.whole ++ t.fraction.getD [])
  exponent := t.power - (t.fraction.getD []).length

/-- A natural number of 64 bits is exact. -/
theorem value_natural {n : Nat} (h : n < UInt64.size) : value ⟨false, Nat.toDigits 10 n, none, none⟩ = .ok (.natural n) := by
  have htake : takeDigits 0 0 (Nat.toDigits 10 n) = (n, (Nat.toDigits 10 n).length) := by
    rw [takeDigits_of_lt _ (by rwa [Nat.ofDigitChars_ten_toDigits]), Nat.ofDigitChars_ten_toDigits, Nat.zero_add]
  simp [value, htake]

/-- Any other number is scaled, if its digits fit. -/
theorem value_of_real (hreal : t.fraction ≠ none ∨ t.exponent ≠ none) (hpos : t.negative = false)
    (hfit : t.decimal.digits < UInt64.size) : t.value =
      (scaled t.decimal.digits t.decimal.exponent).map fun m => .real (.ofMagnitude false m) := by
  obtain ⟨negative, whole, fraction, exponent⟩ := t
  obtain rfl : negative = false := hpos
  simp only [decimal, digitsValue_eq, Nat.ofDigitChars_append] at hfit ⊢
  have hwhole : takeDigits 0 0 whole = (Nat.ofDigitChars 10 whole 0, whole.length) := by
    rw [takeDigits_of_lt _ (Nat.lt_of_le_of_lt (le_ofDigitChars _ _) hfit), Nat.zero_add]
  have hfraction : takeDigits (Nat.ofDigitChars 10 whole 0) 0 (fraction.getD []) =
      (Nat.ofDigitChars 10 (fraction.getD []) (Nat.ofDigitChars 10 whole 0), (fraction.getD []).length) := by
    rw [takeDigits_of_lt _ hfit, Nat.zero_add]
  have hbranch : ¬ (fraction = none ∧ exponent = none ∧ whole.length - whole.length = 0 ∧ (!false) = true) :=
    fun ⟨hf, he, _⟩ => hreal.elim (· hf) (· he)
  have hexponent : ((whole.length - whole.length : Nat) : Int) - ((fraction.getD []).length : Nat) +
      power ⟨false, whole, fraction, exponent⟩ = power ⟨false, whole, fraction, exponent⟩ - (fraction.getD []).length := by
    omega
  simp only [value, hwhole, hfraction]
  rw [if_neg hbranch, ← hexponent]
  simp only [power]
  cases scaled _ _ <;> rfl

end NumberText

end RecordPack.Json

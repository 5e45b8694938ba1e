import Mathlib.Data.List.TakeWhile
import Mathlib.Tactic
import RecordPack.Schema.Parser

/-!
# Character classes

The characters that a token of the schema language can start with are no blanks, and the characters of
types are no digits. Classes are ranges of numbers, so this is a comparison of ranges
(`inRanges_eq_false_of_disjoint`). Blanks at both ends of a text are trimmed (`trim_eq_nil_iff`).
-/

namespace RecordPack.Text

/-- No range of the one class meets one of the other. -/
def disjointRanges (rs ss : List (Nat × Nat)) : Bool :=
  rs.all fun r => ss.all fun s => r.2 < s.1 || s.2 < r.1

theorem inRanges_iff {rs : List (Nat × Nat)} {c : Char} :
    inRanges rs c = true ↔ ∃ r ∈ rs, r.1 ≤ c.toNat ∧ c.toNat ≤ r.2 := by
  simp [inRanges, List.any_eq_true]

theorem inRanges_eq_false_of_disjoint {rs ss : List (Nat × Nat)} (h : disjointRanges rs ss = true) {c : Char}
    (hc : inRanges rs c = true) : inRanges ss c = false := by
  rw [Bool.eq_false_iff]
  intro hc'
  obtain ⟨r, hr, hlo, hhi⟩ := inRanges_iff.1 hc
  obtain ⟨s, hs, hlo', hhi'⟩ := inRanges_iff.1 hc'
  have hdis := List.all_eq_true.1 (List.all_eq_true.1 h r hr) s hs
  simp only [Bool.or_eq_true, decide_eq_true_eq] at hdis
  omega

/-- The characters of types: the letters and the question mark. -/
def typeRanges : List (Nat × Nat) := [(0x3F, 0x3F), (0x41, 0x5A), (0x61, 0x7A)]

theorem isTypeChar_iff {c : Char} : Token.isTypeChar c = true ↔ inRanges typeRanges c = true := by
  have hdef : Token.isTypeChar c = ((decide ('A'.val ≤ c.val ∧ c.val ≤ 'Z'.val) ||
      (decide ('a'.val ≤ c.val) && decide (c.val ≤ 'z'.val))) || c == '?') := rfl
  have hq : c = '?' ↔ 0x3F ≤ c.toNat ∧ c.toNat ≤ 0x3F := by
    constructor
    · rintro rfl
      decide
    · rintro ⟨hlo, hhi⟩
      apply Char.toNat_inj.1
      exact Nat.le_antisymm hhi hlo
  rw [hdef]
  simp only [Bool.or_eq_true, Bool.and_eq_true, decide_eq_true_eq, beq_iff_eq, inRanges_iff, typeRanges,
    List.mem_cons, List.not_mem_nil, or_false, exists_eq_or_imp, exists_eq_left, UInt32.le_iff_toNat_le, hq]
  simp only [Char.toNat]
  tauto

/-- The characters that a token can start with: a digit, a mark, a colon or a type. -/
def startRanges : List (Nat × Nat) := (0x3A, 0x3A) :: (0x7E, 0x7E) :: typeRanges ++ digitRanges

theorem isStart_of_digit {c : Char} (h : isDecimalDigit c = true) : inRanges startRanges c = true := by
  obtain ⟨r, hr, hc⟩ := inRanges_iff.1 h
  exact inRanges_iff.2 ⟨r, List.mem_append_right _ hr, hc⟩

theorem isStart_of_type {c : Char} (h : Token.isTypeChar c = true) : inRanges startRanges c = true := by
  obtain ⟨r, hr, hc⟩ := inRanges_iff.1 (isTypeChar_iff.1 h)
  exact inRanges_iff.2 ⟨r, List.mem_append_left _ (List.mem_cons_of_mem _ (List.mem_cons_of_mem _ hr)), hc⟩

theorem isBlank_of_start {c : Char} (h : inRanges startRanges c = true) : isBlank c = false :=
  inRanges_eq_false_of_disjoint (by decide) h

theorem isDecimalDigit_of_type {c : Char} (h : Token.isTypeChar c = true) : isDecimalDigit c = false :=
  inRanges_eq_false_of_disjoint (by decide) (isTypeChar_iff.1 h)

/-! ## Blanks -/

theorem isBlank_marker (order : ByteOrder) : isBlank order.marker = false := by cases order <;> decide

theorem trimStart_eq_nil_iff {cs : List Char} : trimStart cs = [] ↔ ∀ c ∈ cs, isBlank c = true :=
  List.dropWhile_eq_nil_iff

theorem head?_trimStart (cs : List Char) : ∀ c ∈ (trimStart cs).head?, isBlank c = false := by
  intro c hc
  have := List.head?_dropWhile_not isBlank cs
  rw [show (cs.dropWhile isBlank).head? = some c from hc] at this
  simpa using this

/-- A text is blank if nothing of it is left when it is trimmed. -/
theorem trim_eq_nil_iff {cs : List Char} : trim cs = [] ↔ ∀ c ∈ cs, isBlank c = true := by
  rw [trim, trimEnd, List.reverse_eq_nil_iff, trimStart_eq_nil_iff]
  simp only [List.mem_reverse]
  constructor
  · intro h
    rw [← trimStart_eq_nil_iff]
    -- what is left starts with a character that is not blank
    cases htrim : trimStart cs with
    | nil => rfl
    | cons c rest =>
      have hc : isBlank c = false := head?_trimStart cs c (by rw [htrim]; rfl)
      have hc' : isBlank c = true := h c (by rw [htrim]; exact List.mem_cons_self)
      rw [hc] at hc'
      cases hc'
  · intro h c hc
    exact h c ((List.dropWhile_sublist isBlank).mem hc)

theorem trimStart_blank_append {lead cs : List Char} (h : ∀ c ∈ lead, isBlank c = true) :
    trimStart (lead ++ cs) = trimStart cs :=
  List.dropWhile_append_of_pos h

theorem trimStart_of_not_blank {c : Char} {cs : List Char} (h : isBlank c = false) :
    trimStart (c :: cs) = c :: cs := by
  simp [trimStart, h]

/-- What does not start with a blank is its own trimmed start. -/
theorem trimStart_eq_self {cs : List Char} (h : ∀ c ∈ cs.head?, isBlank c = false) : trimStart cs = cs := by
  cases cs with
  | nil => rfl
  | cons c cs => exact trimStart_of_not_blank (h c rfl)

/-- Trimming takes away the blanks at both ends, and no more. -/
theorem trim_of_core {lead core trail : List Char} (hlead : ∀ c ∈ lead, isBlank c = true)
    (htrail : ∀ c ∈ trail, isBlank c = true) (hne : core ≠ []) (hhead : ∀ c ∈ core.head?, isBlank c = false)
    (hlast : ∀ c ∈ core.getLast?, isBlank c = false) : trim (lead ++ core ++ trail) = core := by
  have hfront : trimStart (lead ++ core ++ trail) = core ++ trail := by
    rw [List.append_assoc, trimStart_blank_append hlead]
    apply trimStart_eq_self
    obtain ⟨c, core, rfl⟩ := List.exists_cons_of_ne_nil hne
    exact hhead
  have hback : trimStart (core ++ trail).reverse = core.reverse := by
    rw [List.reverse_append, trimStart_blank_append fun c hc => htrail c (List.mem_reverse.1 hc)]
    apply trimStart_eq_self
    rwa [List.head?_reverse]
  rw [trim, hfront, trimEnd, hback, List.reverse_reverse]

/-- A text is its trimmed part between blanks. -/
theorem exists_trim (cs : List Char) : ∃ lead trail, cs = lead ++ trim cs ++ trail ∧
    (∀ c ∈ lead, isBlank c = true) ∧ (∀ c ∈ trail, isBlank c = true) ∧
    (∀ c ∈ (trim cs).head?, isBlank c = false) ∧ ∀ c ∈ (trim cs).getLast?, isBlank c = false := by
  have hblank : ∀ ds : List Char, ∀ c ∈ ds.takeWhile isBlank, isBlank c = true :=
    fun ds c hc => List.mem_takeWhile_imp hc
  have hsplit : trim cs ++ ((trimStart cs).reverse.takeWhile isBlank).reverse = trimStart cs := by
    rw [trim, trimEnd, trimStart, ← List.reverse_append, List.takeWhile_append_dropWhile, List.reverse_reverse]
  refine ⟨cs.takeWhile isBlank, ((trimStart cs).reverse.takeWhile isBlank).reverse, ?_, hblank cs, ?_, ?_, ?_⟩
  · rw [List.append_assoc, hsplit]
    exact List.takeWhile_append_dropWhile.symm
  · intro c hc
    exact hblank _ c (List.mem_reverse.1 hc)
  · intro c hc
    apply head?_trimStart cs
    rw [← hsplit, List.head?_append, hc]
    rfl
  · intro c hc
    rw [trim, trimEnd, List.getLast?_reverse] at hc
    exact head?_trimStart _ c hc

end RecordPack.Text

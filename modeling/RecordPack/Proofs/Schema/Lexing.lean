import RecordPack.Proofs.Text.Classes

/-!
# Tokens and their spelling

A token is lexical if each of its parts is taken as far as it goes. Lexical tokens are exactly what
`Token.lex?` reads: whatever it reads is the spelling of a lexical token (`Token.lex_sound`), and the
spelling of a lexical token is read back, whatever follows it, unless the token has no label and one
follows (`Token.lex_spell`).
-/

namespace RecordPack

open Text (isDecimalDigit isBlank inRanges startRanges)

namespace Qualifier

/-- There is at least one digit and nothing else, unless it is the mark. -/
def IsLexical : Qualifier → Prop
  | tilde => True
  | digits cs => cs ≠ [] ∧ ∀ c ∈ cs, isDecimalDigit c = true

theorem lex_of_ne {c : Char} (h : c ≠ '~') (rest : List Char) :
    lex (c :: rest) = match (c :: rest).takeWhile isDecimalDigit with
      | [] => (none, c :: rest)
      | ds => (some (digits ds), (c :: rest).dropWhile isDecimalDigit) := by
  unfold lex
  split
  · next heq => exact absurd (List.cons.inj heq).1 h
  · rfl

/-- A qualifier is read back if neither a digit nor the mark follows. -/
theorem lex_spell {o : Option Qualifier} (h : ∀ q ∈ o, q.IsLexical) {c : Char} (hdigit : isDecimalDigit c = false)
    (hmark : c ≠ '~') (rest : List Char) : lex (spell? o ++ c :: rest) = (o, c :: rest) := by
  rcases o with _ | _ | cs
  · simp [spell?, lex_of_ne hmark, hdigit]
  · rfl
  · obtain ⟨hne, hall⟩ := h (.digits cs) rfl
    obtain ⟨d, ds, rfl⟩ := List.exists_cons_of_ne_nil hne
    have hd : d ≠ '~' := by
      rintro rfl
      exact absurd (hall '~' List.mem_cons_self) (by decide)
    have htake : (d :: ds ++ c :: rest).takeWhile isDecimalDigit = d :: ds := by
      rw [List.takeWhile_append_of_pos hall]
      simp [hdigit]
    have hdrop : (d :: ds ++ c :: rest).dropWhile isDecimalDigit = c :: rest := by
      rw [List.dropWhile_append_of_pos hall]
      simp [hdigit]
    rw [spell?, spell, List.cons_append, lex_of_ne hd, ← List.cons_append, htake, hdrop]

/-- What is read is a qualifier or nothing, and what follows is left. -/
theorem lex_sound (cs : List Char) :
    cs = spell? (lex cs).1 ++ (lex cs).2 ∧ ∀ q ∈ (lex cs).1, q.IsLexical := by
  unfold lex
  split
  · exact ⟨rfl, by simp [IsLexical]⟩
  · split
    · exact ⟨rfl, by simp⟩
    · next ds hne =>
      refine ⟨?_, ?_⟩
      · exact (List.takeWhile_append_dropWhile).symm
      · rintro q ⟨⟩
        refine ⟨hne, ?_⟩
        intro c hc
        exact List.mem_takeWhile_imp hc

end Qualifier

namespace Label

/-- The id is one, taken as far as it goes, and the rest has no closing parenthesis. -/
structure IsLexical (l : Label) : Prop where
  id : ∃ c cs, l.id = c :: cs ∧ isIdStart c = true ∧ ∀ d ∈ cs, isIdPart d = true
  longest : ∀ c ∈ l.note.head?, isIdPart c = false
  note : ∀ c ∈ l.note, c ≠ ')'

theorem lex_spell {l : Label} (h : l.IsLexical) (rest : List Char) : lex? (l.spell ++ rest) = some (l, rest) := by
  obtain ⟨id, note⟩ := l
  obtain ⟨⟨c, cs, rfl, hstart, hparts⟩, hlongest, hnote⟩ := h
  have hcut : ∀ xs : List Char, (∀ d ∈ xs.head?, isIdPart d = false) →
      (cs ++ xs).takeWhile isIdPart = cs ∧ (cs ++ xs).dropWhile isIdPart = xs := by
    intro xs hxs
    rw [List.takeWhile_append_of_pos hparts, List.dropWhile_append_of_pos hparts]
    cases xs with
    | nil => simp
    | cons x xs => simp [hxs x rfl]
  -- the id ends at the note, or at the parenthesis if there is no note
  have hrest : ∀ d ∈ (note ++ ')' :: rest).head?, isIdPart d = false := by
    cases note with
    | nil =>
      rintro d ⟨⟩
      decide
    | cons x note => exact hlongest
  have hclose : ∀ d ∈ note, (d != ')') = true := by
    intro d hd
    simpa using hnote d hd
  obtain ⟨htake, hdrop⟩ := hcut _ hrest
  have hspell : spell ⟨c :: cs, note⟩ ++ rest = '(' :: c :: (cs ++ (note ++ ')' :: rest)) := by
    simp [spell]
  rw [hspell]
  simp [lex?, hstart, htake, hdrop, List.takeWhile_append_of_pos hclose, List.dropWhile_append_of_pos hclose]

theorem lex_sound {cs rest : List Char} {l : Label} (h : lex? cs = some (l, rest)) :
    cs = l.spell ++ rest ∧ l.IsLexical := by
  unfold lex? at h
  split at h
  · next c cs =>
    split at h
    · next hstart =>
      simp only at h
      split at h
      · next d rest' hclose =>
        cases h
        have hd : d = ')' := by
          have := List.head?_dropWhile_not (· != ')') (cs.dropWhile isIdPart)
          rw [hclose] at this
          simpa using this
        subst hd
        have hafter : (cs.dropWhile isIdPart).takeWhile (· != ')') ++ ')' :: rest = cs.dropWhile isIdPart := by
          rw [← hclose, List.takeWhile_append_dropWhile]
        refine ⟨?_, ⟨c, cs.takeWhile isIdPart, rfl, hstart, fun d hd => List.mem_takeWhile_imp hd⟩, ?_, ?_⟩
        · simp only [spell, List.cons_append, List.append_assoc, List.nil_append]
          rw [hafter, List.takeWhile_append_dropWhile]
        · -- the note starts where the id could not go on
          intro d hd
          have hhead : (cs.dropWhile isIdPart).head? = some d := by
            rw [← hafter, List.head?_append, hd]
            rfl
          have := List.head?_dropWhile_not isIdPart cs
          rw [hhead] at this
          simpa using this
        · intro d hd
          simpa using List.mem_takeWhile_imp hd
      · cases h
    · cases h
  · cases h

theorem lex?_eq_none {cs : List Char} (h : cs.head? ≠ some '(') : lex? cs = none := by
  unfold lex?
  split
  · exact absurd rfl h
  · rfl

/-- The text of an optional label. -/
def spell? : Option Label → List Char
  | none => []
  | some l => l.spell

end Label

namespace Token

/-- Every part is lexical. -/
structure IsLexical (t : Token) : Prop where
  list : ∀ o ∈ t.list, ∀ q ∈ o, q.IsLexical
  width : ∀ q ∈ t.width, q.IsLexical
  type : isTypeChar t.type = true
  label : ∀ l ∈ t.label, l.IsLexical

theorem lexTail_spell {list : Option (Option Qualifier)} {width : Option Qualifier} {type : Char}
    {label : Option Label} {rest : List Char} (htype : isTypeChar type = true) (hlabel : ∀ l ∈ label, l.IsLexical)
    (hrest : label = none → Label.lex? rest = none) :
    lexTail? list width (type :: (Label.spell? label ++ rest)) = some (⟨list, width, type, label⟩, rest) := by
  cases label with
  | none => simp [lexTail?, htype, Label.spell?, hrest rfl]
  | some l => simp [lexTail?, htype, Label.spell?, Label.lex_spell (hlabel l rfl)]

theorem lexTail_sound {list : Option (Option Qualifier)} {width : Option Qualifier} {cs rest : List Char}
    {t : Token} (h : lexTail? list width cs = some (t, rest)) :
    t.list = list ∧ t.width = width ∧ isTypeChar t.type = true ∧ (∀ l ∈ t.label, l.IsLexical) ∧
      cs = t.type :: (Label.spell? t.label ++ rest) := by
  unfold lexTail? at h
  split at h
  · split at h
    · next htype =>
      split at h
      · next l rest' hl =>
        cases h
        obtain ⟨rfl, hlex⟩ := Label.lex_sound hl
        refine ⟨rfl, rfl, htype, ?_, rfl⟩
        rintro l' ⟨⟩
        exact hlex
      · cases h
        exact ⟨rfl, rfl, htype, by simp, rfl⟩
    · cases h
  · cases h

theorem spell_eq (t : Token) : t.spell = (match t.list with
    | none => []
    | some o => Qualifier.spell? o ++ [':']) ++
      (Qualifier.spell? t.width ++ t.type :: Label.spell? t.label) := by
  unfold spell
  rw [List.append_assoc]
  cases t.label <;> rfl

/-- The spelling of a lexical token is read back. -/
theorem lex_spell {t : Token} (h : t.IsLexical) {rest : List Char} (hrest : t.label = none → Label.lex? rest = none) :
    lex? (t.spell ++ rest) = some (t, rest) := by
  obtain ⟨list, width, type, label⟩ := t
  obtain ⟨hlist, hwidth, (htype : isTypeChar type = true), hlabel⟩ := h
  have hdigit := Text.isDecimalDigit_of_type htype
  -- a type is neither the mark nor the colon, so the qualifiers end where they did
  have hmark : type ≠ '~' := by
    rintro rfl
    exact absurd htype (by decide)
  have hcolon : type ≠ ':' := by
    rintro rfl
    exact absurd htype (by decide)
  have hqualifier := Qualifier.lex_spell hwidth hdigit hmark (Label.spell? label ++ rest)
  have htail : ∀ list', lexTail? list' width (type :: (Label.spell? label ++ rest)) =
      some (⟨list', width, type, label⟩, rest) := fun _ => lexTail_spell htype hlabel hrest
  rw [spell_eq]
  cases list with
  | none =>
    -- the first qualifier is a width, since no colon follows it
    simp only [List.nil_append, List.append_assoc, List.cons_append, lex?, hqualifier]
    split
    · next heq =>
      simp only [Prod.mk.injEq, List.cons.injEq] at heq
      exact absurd heq.2.1 hcolon
    · next heq =>
      obtain ⟨rfl, rfl⟩ := Prod.mk.inj heq
      exact htail none
  | some o =>
    have hlead := Qualifier.lex_spell (hlist o rfl) (c := ':') (by decide) (by decide)
      (Qualifier.spell? width ++ type :: (Label.spell? label ++ rest))
    simp only [List.append_assoc, List.cons_append, List.nil_append, lex?, hlead, hqualifier]
    exact htail (some o)

/-- What is read is a lexical token, and what follows its spelling is left. -/
theorem lex_sound {cs rest : List Char} {t : Token} (h : lex? cs = some (t, rest)) :
    cs = t.spell ++ rest ∧ t.IsLexical := by
  obtain ⟨hcs, hq⟩ := Qualifier.lex_sound cs
  unfold lex? at h
  rw [spell_eq]
  split at h
  · next q after heq =>
    rw [heq] at hcs hq
    obtain ⟨hafter, hq'⟩ := Qualifier.lex_sound after
    obtain ⟨hlist, hwidth, htype, hlabel, htail⟩ := lexTail_sound h
    refine ⟨?_, ?_, ?_, htype, hlabel⟩
    · rw [hcs, hafter, htail, hlist, hwidth]
      simp
    · rw [hlist]
      rintro o ⟨⟩
      exact hq
    · rw [hwidth]
      exact hq'
  · next q after hne heq =>
    rw [heq] at hcs hq
    obtain ⟨hlist, hwidth, htype, hlabel, htail⟩ := lexTail_sound h
    refine ⟨?_, ?_, ?_, htype, hlabel⟩
    · rw [hcs, htail, hlist, hwidth]
      simp
    · rw [hlist]
      rintro o ⟨⟩
    · rw [hwidth]
      exact hq

theorem exists_start_of_qualifier {o : Option Qualifier} (h : ∀ q ∈ o, q.IsLexical) {c : Char}
    (hc : inRanges startRanges c = true) (cs : List Char) :
    ∃ d ds, Qualifier.spell? o ++ c :: cs = d :: ds ∧ inRanges startRanges d = true := by
  rcases o with _ | _ | ds
  · exact ⟨c, cs, rfl, hc⟩
  · exact ⟨'~', c :: cs, rfl, by decide⟩
  · obtain ⟨hne, hall⟩ := h (.digits ds) rfl
    obtain ⟨d, ds, rfl⟩ := List.exists_cons_of_ne_nil hne
    exact ⟨d, ds ++ c :: cs, rfl, Text.isStart_of_digit (hall d List.mem_cons_self)⟩

/-- A token starts with one of the characters that tokens start with. -/
theorem exists_start {t : Token} (h : t.IsLexical) (rest : List Char) :
    ∃ c cs, t.spell ++ rest = c :: cs ∧ inRanges startRanges c = true := by
  obtain ⟨list, width, type, label⟩ := t
  rw [spell_eq]
  cases list with
  | none =>
    simpa using exists_start_of_qualifier h.width (Text.isStart_of_type h.type) (Label.spell? label ++ rest)
  | some o =>
    simpa using exists_start_of_qualifier (h.list o rfl) (c := ':') (by decide)
      (Qualifier.spell? width ++ type :: (Label.spell? label ++ rest))

/-- No token starts with a blank. -/
theorem lex?_of_blank {c : Char} (h : isBlank c = true) (cs : List Char) : lex? (c :: cs) = none := by
  cases hlex : lex? (c :: cs) with
  | none => rfl
  | some tr =>
    obtain ⟨t, rest⟩ := tr
    obtain ⟨heq, ht⟩ := lex_sound hlex
    obtain ⟨d, ds, hspell, hd⟩ := exists_start ht rest
    rw [hspell] at heq
    obtain ⟨rfl, -⟩ := List.cons.inj heq
    rw [Text.isBlank_of_start hd] at h
    cases h

end Token

end RecordPack

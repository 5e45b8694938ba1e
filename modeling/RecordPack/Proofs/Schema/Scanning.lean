import RecordPack.Proofs.Schema.Matches
import RecordPack.Proofs.Text.Pattern

/-!
# The pattern of tokens

What a token looks like is written down as a pattern (`Token.pattern`), whose named parts are the list mark, the count,
the width, the type, the id and the note. What it describes is the spellings of tokens, with their parts
(`Token.describes_pattern`), and of all prefixes it describes the one it prefers is the token that is read
(`Token.head?_hits`): a mark, a width and a label are taken whenever there is one. That is also the longest one. So the
pieces of a body are found at the leftmost place where the pattern occurs, are the longest there, and follow each other
without overlap (`Scan.ofText_leftmost_longest`).
-/

namespace RecordPack

open Text (Pattern Hit isDecimalDigit)
open Text.Pattern (Describes hits)

/-- The parts of a token that have names in its pattern. -/
inductive TokenPart where
  | list
  | count
  | width
  | type
  | id
  | note
deriving DecidableEq, Repr

namespace Qualifier

/-- Digits, or the mark. -/
def pattern : Pattern TokenPart :=
  .either (.followed (.one isDecimalDigit) (.many isDecimalDigit)) (.one (· == '~'))

/-- The part with a name, if the qualifier is there. -/
def parts (name : TokenPart) : Option Qualifier → List (TokenPart × List Char)
  | none => []
  | some q => [(name, q.spell)]

end Qualifier

namespace Label

/-- An id and a note in parentheses. -/
def pattern : Pattern TokenPart :=
  .followed (.one (· == '(')) (.followed (.named .id (.followed (.one isIdStart) (.many isIdPart)))
    (.followed (.named .note (.many (· != ')'))) (.one (· == ')'))))

def parts : Option Label → List (TokenPart × List Char)
  | none => []
  | some l => [(.id, l.id), (.note, l.note)]

end Label

namespace Token

/-- A count, which may be left out, and a colon. -/
def listPattern : Pattern TokenPart :=
  .named .list (.followed (.maybe (.named .count Qualifier.pattern)) (.one (· == ':')))

/-- The pattern of a token: a list mark with a count, a width, a type and a label, of which only the type has to be
there. -/
def pattern : Pattern TokenPart :=
  .followed (.maybe listPattern) (.followed (.maybe (.named .width Qualifier.pattern))
    (.followed (.named .type (.one isTypeChar)) (.maybe Label.pattern)))

/-- The text of an optional list mark. -/
def spellList : Option (Option Qualifier) → List Char
  | none => []
  | some o => Qualifier.spell? o ++ [':']

def listParts : Option (Option Qualifier) → List (TokenPart × List Char)
  | none => []
  | some o => (.list, spellList (some o)) :: Qualifier.parts .count o

/-- The parts of a token under their names. -/
def parts (t : Token) : List (TokenPart × List Char) :=
  listParts t.list ++ (Qualifier.parts .width t.width ++ (.type, [t.type]) :: Label.parts t.label)

theorem spell_eq_spellList (t : Token) :
    t.spell = spellList t.list ++ (Qualifier.spell? t.width ++ t.type :: Label.spell? t.label) := spell_eq t

end Token

/-! ## What the pattern describes -/

section Describes

variable {cs : List Char} {xs : List (TokenPart × List Char)}

theorem Qualifier.describes_pattern :
    pattern.Describes cs xs ↔ ∃ q : Qualifier, q.IsLexical ∧ cs = q.spell ∧ xs = [] := by
  simp only [pattern, Describes, beq_iff_eq]
  constructor
  · rintro (⟨_, _, ds, _, ⟨⟨c, hc, rfl⟩, rfl⟩, ⟨hds, rfl⟩, rfl, rfl⟩ | ⟨⟨_, rfl, rfl⟩, rfl⟩)
    · exact ⟨.digits (c :: ds), ⟨List.cons_ne_nil _ _, List.forall_mem_cons.2 ⟨hc, hds⟩⟩, rfl, rfl⟩
    · exact ⟨.tilde, trivial, rfl, rfl⟩
  · rintro ⟨_ | cs, hq, rfl, rfl⟩
    · exact .inr ⟨⟨'~', rfl, rfl⟩, rfl⟩
    · obtain ⟨hne, hall⟩ := hq
      obtain ⟨c, ds, rfl⟩ := List.exists_cons_of_ne_nil hne
      obtain ⟨hc, hds⟩ := List.forall_mem_cons.1 hall
      exact .inl ⟨[c], [], ds, [], ⟨⟨c, hc, rfl⟩, rfl⟩, ⟨hds, rfl⟩, rfl, rfl⟩

theorem Qualifier.describes_maybe {name : TokenPart} : (Pattern.maybe (.named name pattern)).Describes cs xs ↔
    ∃ o : Option Qualifier, (∀ q ∈ o, q.IsLexical) ∧ cs = spell? o ∧ xs = parts name o := by
  refine Text.Pattern.describes_maybe rfl rfl fun cs xs => ?_
  simp only [Describes, describes_pattern]
  constructor
  · rintro ⟨_, ⟨q, hq, rfl, rfl⟩, rfl⟩
    exact ⟨q, hq, rfl, rfl⟩
  · rintro ⟨q, hq, rfl, rfl⟩
    exact ⟨[], ⟨q, hq, rfl, rfl⟩, rfl⟩

/-- The id is one and the note has no closing parenthesis. The id need not go as far as it could. -/
structure Label.IsForm (l : Label) : Prop where
  id : ∃ c cs, l.id = c :: cs ∧ isIdStart c = true ∧ ∀ d ∈ cs, isIdPart d = true
  note : ∀ c ∈ l.note, c ≠ ')'

theorem Label.describes_pattern :
    pattern.Describes cs xs ↔ ∃ l : Label, l.IsForm ∧ cs = l.spell ∧ xs = parts (some l) := by
  simp only [pattern, Describes, beq_iff_eq, bne_iff_ne]
  constructor
  · rintro ⟨_, _, _, _, ⟨⟨_, rfl, rfl⟩, rfl⟩, ⟨id, _, _, _, ⟨_, hid, rfl⟩, ⟨note, _, _, _, ⟨_, ⟨hnote, rfl⟩, rfl⟩,
      ⟨⟨_, rfl, rfl⟩, rfl⟩, rfl, rfl⟩, rfl, rfl⟩, rfl, rfl⟩
    obtain ⟨_, _, ds, _, ⟨⟨c, hc, rfl⟩, rfl⟩, ⟨hds, rfl⟩, rfl, rfl⟩ := hid
    exact ⟨⟨c :: ds, note⟩, ⟨⟨c, ds, rfl, hc, hds⟩, hnote⟩, by simp [spell], rfl⟩
  · rintro ⟨⟨_, note⟩, ⟨⟨c, ds, rfl, hc, hds⟩, hnote⟩, rfl, rfl⟩
    refine ⟨['('], [], (c :: ds) ++ (note ++ [')']), parts (some ⟨c :: ds, note⟩), ⟨⟨_, rfl, rfl⟩, rfl⟩, ?_, ?_, rfl⟩
    · refine ⟨c :: ds, [(.id, c :: ds)], note ++ [')'], [(.note, note)], ⟨[], ?_, rfl⟩, ?_, rfl, rfl⟩
      · exact ⟨[c], [], ds, [], ⟨⟨c, hc, rfl⟩, rfl⟩, ⟨hds, rfl⟩, rfl, rfl⟩
      · exact ⟨note, [(.note, note)], [')'], [], ⟨[], ⟨hnote, rfl⟩, rfl⟩, ⟨⟨_, rfl, rfl⟩, rfl⟩, rfl, rfl⟩
    · simp [spell]

theorem Label.describes_maybe : (Pattern.maybe pattern).Describes cs xs ↔
    ∃ o : Option Label, (∀ l ∈ o, l.IsForm) ∧ cs = spell? o ∧ xs = parts o :=
  Text.Pattern.describes_maybe rfl rfl fun _ _ => describes_pattern

/-- Each part is of its form. -/
structure Token.IsForm (t : Token) : Prop where
  list : ∀ o ∈ t.list, ∀ q ∈ o, q.IsLexical
  width : ∀ q ∈ t.width, q.IsLexical
  type : isTypeChar t.type = true
  label : ∀ l ∈ t.label, l.IsForm

theorem Token.describes_list : (Pattern.maybe listPattern).Describes cs xs ↔ ∃ o : Option (Option Qualifier),
    (∀ q? ∈ o, ∀ q ∈ q?, q.IsLexical) ∧ cs = spellList o ∧ xs = listParts o := by
  refine Text.Pattern.describes_maybe rfl rfl fun cs xs => ?_
  simp only [listPattern, Pattern.describes_named, Pattern.describes_followed, Pattern.describes_one,
    Qualifier.describes_maybe, beq_iff_eq]
  constructor
  · rintro ⟨_, ⟨_, _, _, _, ⟨q?, hq, rfl, rfl⟩, ⟨⟨_, rfl, rfl⟩, rfl⟩, rfl, rfl⟩, rfl⟩
    exact ⟨q?, hq, rfl, by simp [listParts, spellList]⟩
  · rintro ⟨q?, hq, rfl, rfl⟩
    exact ⟨_, ⟨_, _, _, _, ⟨q?, hq, rfl, rfl⟩, ⟨⟨':', rfl, rfl⟩, rfl⟩, rfl, (List.append_nil _).symm⟩, rfl⟩

/-- The pattern describes the spellings of tokens whose parts are of their form. -/
theorem Token.describes_pattern :
    pattern.Describes cs xs ↔ ∃ t : Token, t.IsForm ∧ cs = t.spell ∧ xs = t.parts := by
  simp only [pattern, Pattern.describes_followed, Pattern.describes_named, Pattern.describes_one, describes_list,
    Qualifier.describes_maybe, Label.describes_maybe]
  constructor
  · rintro ⟨_, _, _, _, ⟨list, hlist, rfl, rfl⟩, ⟨_, _, _, _, ⟨width, hwidth, rfl, rfl⟩, ⟨_, _, _, _,
      ⟨_, ⟨⟨type, htype, rfl⟩, rfl⟩, rfl⟩, ⟨label, hlabel, rfl, rfl⟩, rfl, rfl⟩, rfl, rfl⟩, rfl, rfl⟩
    exact ⟨⟨list, width, type, label⟩, ⟨hlist, hwidth, htype, hlabel⟩, (spell_eq_spellList ⟨list, width, type, label⟩).symm,
      rfl⟩
  · rintro ⟨⟨list, width, type, label⟩, ⟨hlist, hwidth, htype, hlabel⟩, rfl, rfl⟩
    exact ⟨_, _, _, _, ⟨list, hlist, rfl, rfl⟩, ⟨_, _, _, _, ⟨width, hwidth, rfl, rfl⟩, ⟨_, _, _, _,
      ⟨_, ⟨⟨type, htype, rfl⟩, rfl⟩, rfl⟩, ⟨label, hlabel, rfl, rfl⟩, rfl, rfl⟩, rfl, rfl⟩, spell_eq_spellList _, rfl⟩

end Describes

/-! ## What the pattern prefers -/

section Preference

variable {β : Type} {cs : List Char}

/-- A qualifier that may be left out is taken as it is read, if what follows it starts with no digit and no mark. -/
theorem Qualifier.findSome?_maybe {name : TokenPart} {k : Hit TokenPart → Option β}
    (hk : ∀ text xs c rest, isDecimalDigit c = true ∨ c = '~' → k ⟨text, xs, c :: rest⟩ = none) :
    ((Pattern.maybe (.named name pattern)).hits cs).findSome? k =
      k ⟨spell? (lex cs).1, parts name (lex cs).1, (lex cs).2⟩ := by
  rw [Pattern.findSome?_maybe, Pattern.findSome?_named, pattern, Pattern.findSome?_either, Pattern.findSome?_followed,
    Pattern.findSome?_one, Pattern.findSome?_one]
  cases cs with
  | nil => rfl
  | cons c rest =>
    by_cases hmark : c = '~'
    · subst hmark
      have hdigit : isDecimalDigit '~' = false := by decide
      simp only [hdigit, lex, hk _ _ _ _ (.inr rfl)]
      simp [spell?, spell, parts]
    · rw [lex_of_ne hmark]
      by_cases hdigit : isDecimalDigit c = true
      · have hmany : ((Pattern.many isDecimalDigit).hits rest).findSome?
            (fun h => k ⟨[c] ++ h.text, (name, [c] ++ h.text) :: ([] ++ h.parts), h.rest⟩) = _ :=
          Pattern.findSome?_many fun text d rest hd => hk _ _ _ _ (.inl hd)
        simp only [hdigit, if_true, hmany, hk _ _ _ _ (.inl hdigit), List.takeWhile_cons_of_pos hdigit,
          List.dropWhile_cons_of_pos hdigit]
        simp [hmark, spell?, spell, parts]
      · simp only [hdigit, List.takeWhile_cons_of_neg hdigit]
        simp [hmark, spell?, parts]

theorem Label.IsLexical.isForm {l : Label} (h : l.IsLexical) : l.IsForm := ⟨h.id, h.note⟩

/-- The same text with an id that goes as far as it can. -/
theorem Label.IsForm.exists_lexical {l : Label} (h : l.IsForm) : ∃ (l' : Label) (more : List Char), l'.IsLexical ∧
    l'.spell = l.spell ∧ l'.id = l.id ++ more ∧ l.note = more ++ l'.note := by
  obtain ⟨id, note⟩ := l
  obtain ⟨⟨c, cs, rfl, hc, hcs⟩, hnote⟩ := h
  have hsplit : note.takeWhile isIdPart ++ note.dropWhile isIdPart = note := List.takeWhile_append_dropWhile
  refine ⟨⟨c :: (cs ++ note.takeWhile isIdPart), note.dropWhile isIdPart⟩, note.takeWhile isIdPart, ⟨?_, ?_, ?_⟩, ?_, rfl,
    hsplit.symm⟩
  · refine ⟨c, _, rfl, hc, ?_⟩
    intro d hd
    rcases List.mem_append.1 hd with hd | hd
    · exact hcs d hd
    · exact List.mem_takeWhile_imp hd
  · intro d hd
    have := List.head?_dropWhile_not isIdPart note
    rw [hd] at this
    simpa using this
  · exact fun d hd => hnote d ((List.dropWhile_sublist isIdPart).mem hd)
  · simp only [spell, List.cons_append, List.append_assoc]
    rw [← List.append_assoc (note.takeWhile isIdPart), hsplit]

/-- Where no label is read, the pattern finds none. -/
theorem Label.hits_eq_nil (h : lex? cs = none) : pattern.hits cs = [] := by
  rw [List.eq_nil_iff_forall_not_mem]
  rintro ⟨text, xs, rest⟩ hmem
  obtain ⟨rfl, hd⟩ := Pattern.mem_hits.1 hmem
  obtain ⟨l, hl, rfl, -⟩ := describes_pattern.1 hd
  obtain ⟨l', -, hl', hspell, -⟩ := hl.exists_lexical
  refine lex?_eq_none_iff.1 h ⟨l', hl', ?_⟩
  rw [hspell]
  exact List.prefix_append _ _

theorem Label.findSome?_spell {l : Label} (hl : l.IsLexical) (rest : List Char) (f : Hit TokenPart → β) :
    (pattern.hits (l.spell ++ rest)).findSome? (fun h => some (f h)) = some (f ⟨l.spell, parts (some l), rest⟩) := by
  obtain ⟨id, note⟩ := l
  obtain ⟨⟨c, cs, rfl, hc, hcs⟩, hlongest, hnote⟩ := hl
  have hspell : spell ⟨c :: cs, note⟩ ++ rest = '(' :: c :: (cs ++ (note ++ ')' :: rest)) := by
    simp [spell]
  -- the id ends at the note, or at the parenthesis if there is no note
  have hstop : ∀ d ∈ (note ++ ')' :: rest).head?, isIdPart d = false := by
    cases note with
    | nil =>
      rintro d ⟨⟩
      decide
    | cons x note => exact hlongest
  rw [hspell, pattern, Pattern.findSome?_followed, Pattern.findSome?_one]
  simp only [beq_self_eq_true, if_true, Pattern.findSome?_followed, Pattern.findSome?_named, Pattern.findSome?_one, hc]
  apply Pattern.findSome?_many_of_some hcs hstop
  apply Pattern.findSome?_many_of_some
  · exact fun d hd => by simpa using hnote d hd
  · simp
  · simp [spell, parts]

/-- A label that may be left out is taken as it is read. -/
theorem Label.findSome?_maybe (f : Hit TokenPart → β) : ((Pattern.maybe pattern).hits cs).findSome? (fun h => some (f h)) =
    some (f (match lex? cs with
      | some (l, rest) => ⟨l.spell, parts (some l), rest⟩
      | none => ⟨[], [], cs⟩)) := by
  rw [Pattern.findSome?_maybe]
  cases hlex : lex? cs with
  | none =>
    rw [hits_eq_nil hlex]
    rfl
  | some r =>
    obtain ⟨rfl, hl⟩ := lex_sound (show lex? cs = some (r.1, r.2) from hlex)
    rw [findSome?_spell hl]
    rfl

namespace Token

open Text.Pattern (findSome?_followed findSome?_named findSome?_one findSome?_maybe)

/-- A type and its label are taken as they are read, whatever stands before them. -/
theorem findSome?_type (list : Option (Option Qualifier)) (width : Option Qualifier) (f : Hit TokenPart → β) :
    ((Pattern.followed (.named .type (.one isTypeChar)) (.maybe Label.pattern)).hits cs).findSome? (fun h => some (f h)) =
      (lexTail? list width cs).map fun r =>
        f ⟨r.1.type :: Label.spell? r.1.label, (.type, [r.1.type]) :: Label.parts r.1.label, r.2⟩ := by
  simp only [findSome?_followed, findSome?_named, findSome?_one, Label.findSome?_maybe]
  cases cs with
  | nil => rfl
  | cons c rest =>
    by_cases hc : isTypeChar c = true
    · simp only [lexTail?, hc, if_true]
      cases Label.lex? rest <;> rfl
    · simp only [lexTail?, hc]
      rfl

theorem lexTail?_of_not_type {list : Option (Option Qualifier)} {width : Option Qualifier} {c : Char}
    (h : isTypeChar c = false) (rest : List Char) : lexTail? list width (c :: rest) = none := by
  rw [lexTail?, h]
  rfl

/-- What follows the list mark is taken as it is read. -/
theorem findSome?_tail (list : Option (Option Qualifier)) (f : Hit TokenPart → β) :
    ((Pattern.followed (.maybe (.named .width Qualifier.pattern))
      (.followed (.named .type (.one isTypeChar)) (.maybe Label.pattern))).hits cs).findSome? (fun h => some (f h)) =
      (lexTail? list (Qualifier.lex cs).1 (Qualifier.lex cs).2).map fun r =>
        f ⟨Qualifier.spell? r.1.width ++ r.1.type :: Label.spell? r.1.label,
          Qualifier.parts .width r.1.width ++ (.type, [r.1.type]) :: Label.parts r.1.label, r.2⟩ := by
  rw [findSome?_followed]
  simp only [findSome?_type list (Qualifier.lex cs).1]
  rw [Qualifier.findSome?_maybe]
  · apply Option.map_congr
    intro r hr
    obtain ⟨-, hwidth, -⟩ := lexTail_sound (show lexTail? list (Qualifier.lex cs).1 (Qualifier.lex cs).2 = some (r.1, r.2) from hr)
    rw [hwidth]
  · rintro text xs c rest hc
    have htype : isTypeChar c = false := by
      rcases hc with hdigit | rfl
      · rw [Bool.eq_false_iff]
        intro htype
        rw [Text.isDecimalDigit_of_type htype] at hdigit
        cases hdigit
      · decide
    rw [lexTail?_of_not_type htype]
    rfl

/-- A list mark goes up to the colon, if there is one behind the qualifier. -/
theorem findSome?_listPattern (k : Hit TokenPart → Option β) : (listPattern.hits cs).findSome? k =
    match (Qualifier.lex cs).2 with
    | ':' :: rest => k ⟨spellList (some (Qualifier.lex cs).1), listParts (some (Qualifier.lex cs).1), rest⟩
    | _ => none := by
  rw [listPattern, findSome?_named, findSome?_followed]
  simp only [findSome?_one]
  rw [Qualifier.findSome?_maybe]
  · cases (Qualifier.lex cs).2 with
    | nil => rfl
    | cons c rest =>
      by_cases hc : c = ':'
      · subst hc
        simp [spellList, listParts]
      · simp [hc]
  · rintro text xs c rest hc
    have hcolon : (c == ':') = false := by
      rcases hc with hdigit | rfl
      · rw [beq_eq_false_iff_ne]
        rintro rfl
        exact absurd hdigit (by decide)
      · rfl
    simp [hcolon]

/-- The first hit of the pattern is the token that is read, with its parts. -/
theorem head?_hits (cs : List Char) :
    (pattern.hits cs).head? = (lex? cs).map fun r => ⟨r.1.spell, r.1.parts, r.2⟩ := by
  have hhead : (pattern.hits cs).head? = (pattern.hits cs).findSome? some := by
    cases pattern.hits cs <;> rfl
  -- without a colon the first qualifier is the width, and with one the type cannot stand there
  have hnone : ∀ q after, (lexTail? none q after).map (fun r => (⟨[] ++ (Qualifier.spell? r.1.width ++ r.1.type ::
      Label.spell? r.1.label), [] ++ (Qualifier.parts .width r.1.width ++ (.type, [r.1.type]) :: Label.parts r.1.label),
      r.2⟩ : Hit TokenPart)) = (lexTail? none q after).map fun r => ⟨r.1.spell, r.1.parts, r.2⟩ := by
    intro q after
    apply Option.map_congr
    intro r hr
    obtain ⟨hlist, -⟩ := lexTail_sound (show lexTail? none q after = some (r.1, r.2) from hr)
    rw [spell_eq_spellList, Token.parts, hlist]
    rfl
  rw [hhead, pattern, findSome?_followed, findSome?_maybe, findSome?_listPattern]
  dsimp only
  rw [findSome?_tail none, hnone, lex?]
  cases hlex : Qualifier.lex cs with
  | mk q after =>
    dsimp only
    cases after with
    | nil => rfl
    | cons c rest =>
      by_cases hc : c = ':'
      · subst hc
        rw [lexTail?_of_not_type (by decide), Option.map_none, Option.or_none]
        refine (findSome?_tail (some q) _).trans ?_
        apply Option.map_congr
        intro r hr
        obtain ⟨hlist, -⟩ := lexTail_sound (show lexTail? (some q) _ _ = some (r.1, r.2) from hr)
        rw [spell_eq_spellList, Token.parts, hlist]
      · simp [hc]

end Token

end Preference

/-! ## The next token -/

namespace Token

variable {body cs rest : List Char} {t t' : Token} {start place : Nat}

/-- The parts are those of the token, unless the id goes on there and what it has more is the beginning of the note
here. -/
def Settles (t : Token) (xs : List (TokenPart × List Char)) : Prop :=
  (∀ name, name ≠ .id → name ≠ .note → xs.lookup name = t.parts.lookup name) ∧
  ∃ more, t.parts.lookup .id = (xs.lookup .id).map (· ++ more) ∧
    xs.lookup .note = (t.parts.lookup .note).map (more ++ ·)

theorem settles_self (t : Token) : t.Settles t.parts := by
  refine ⟨fun _ _ _ => rfl, [], ?_, ?_⟩ <;> simp

/-- The id and the note are those of the label. -/
theorem lookup_parts (t : Token) (name : TokenPart) : t.parts.lookup name =
    if name = .id then t.label.map (·.id) else if name = .note then t.label.map (·.note)
    else (listParts t.list ++ (Qualifier.parts .width t.width ++ [(TokenPart.type, [t.type])])).lookup name := by
  obtain ⟨_ | _ | q, _ | q', type, _ | l⟩ := t <;> cases name <;> rfl

/-- The same text with an id that goes as far as it can. -/
theorem IsForm.exists_lexical (h : t.IsForm) :
    ∃ t' : Token, t'.IsLexical ∧ t'.spell = t.spell ∧ t'.Settles t.parts := by
  obtain ⟨list, width, type, _ | l⟩ := t
  · exact ⟨_, ⟨h.list, h.width, h.type, nofun⟩, rfl, settles_self _⟩
  · obtain ⟨l', more, hl', hspell, hid, hnote⟩ := (h.label l rfl).exists_lexical
    refine ⟨⟨list, width, type, some l'⟩, ⟨h.list, h.width, h.type, ?_⟩, ?_, ?_, more, ?_, ?_⟩
    · rintro _ ⟨⟩
      exact hl'
    · simp [spell_eq_spellList, Label.spell?, hspell]
    · intro name hname hname'
      simp only [lookup_parts, if_neg hname, if_neg hname']
    · simp [lookup_parts, hid]
    · simp [lookup_parts, hnote]

theorem IsLexical.isForm (h : t.IsLexical) : t.IsForm :=
  ⟨h.list, h.width, h.type, fun l hl => (h.label l hl).isForm⟩

theorem IsLexical.eq_of_spell_eq (h : t.IsLexical) (h' : t'.IsLexical) (hspell : t.spell = t'.spell) : t = t' := by
  have hlex : lex? (t.spell ++ []) = some (t, []) := lex_spell h fun _ => rfl
  have hlex' : lex? (t'.spell ++ []) = some (t', []) := lex_spell h' fun _ => rfl
  rw [hspell, hlex'] at hlex
  cases hlex
  rfl

theorem occursAt_iff : pattern.OccursAt body place ↔ StartsAt (body.drop place) := by
  constructor
  · rintro ⟨text, xs, hd, hpre⟩
    obtain ⟨t, ht, rfl, -⟩ := describes_pattern.1 hd
    obtain ⟨t', ht', hspell, -⟩ := ht.exists_lexical
    exact ⟨t', ht', hspell ▸ hpre⟩
  · rintro ⟨t, ht, hpre⟩
    exact ⟨t.spell, t.parts, describes_pattern.2 ⟨t, ht.isForm, rfl, rfl⟩, hpre⟩

/-- What is read is the longest text that the pattern describes. -/
theorem isLongestAt_of_lex? (h : lex? (body.drop place) = some (t, rest)) : pattern.IsLongestAt body place t.spell := by
  obtain ⟨hbody, ht⟩ := lex_sound h
  refine ⟨⟨t.parts, describes_pattern.2 ⟨t, ht.isForm, rfl, rfl⟩⟩, ⟨rest, hbody.symm⟩, ?_⟩
  intro text xs hd hpre
  obtain ⟨t₁, ht₁, rfl, -⟩ := describes_pattern.1 hd
  obtain ⟨t', ht', hspell, -⟩ := ht₁.exists_lexical
  rw [← hspell] at hpre ⊢
  obtain ⟨after, hafter⟩ := hpre
  rw [← hafter] at h
  by_cases hends : t'.EndsBefore after
  · rw [lex_spell_of_endsBefore ht' hends] at h
    cases h
    exact Nat.le_refl _
  · -- a label that follows belongs to the token
    simp only [EndsBefore, not_forall, not_not] at hends
    obtain ⟨hnone, l, hl, after', rfl⟩ := hends
    rw [lex_spell_labelled ht' hl hnone] at h
    cases h
    simp [spell_eq_spellList, hnone, Label.spell?]

/-- The parts that the pattern may give to a text are those of the token that is read, but for the end of the id. -/
theorem settles_of_describes (ht : t.IsLexical) {xs : List (TokenPart × List Char)}
    (hd : pattern.Describes t.spell xs) : t.Settles xs := by
  obtain ⟨t₁, ht₁, hspell, rfl⟩ := describes_pattern.1 hd
  obtain ⟨t', ht', hspell', hsettles⟩ := ht₁.exists_lexical
  rwa [ht.eq_of_spell_eq ht' (hspell.trans hspell'.symm)]

/-- From a place of a body on, the next token stands at another one: none starts between them, and of what the pattern
describes there it is the longest. Its parts are those that the pattern gives to this text, with an id that goes as far as
it can. So it is the hit that the pattern prefers, and it takes up text. -/
structure IsNext (body : List Char) (start place : Nat) (t : Token) : Prop where
  start_le : start ≤ place
  leftmost : ∀ earlier, start ≤ earlier → earlier < place → ¬ pattern.OccursAt body earlier
  longest : pattern.IsLongestAt body place t.spell
  parts : pattern.Describes t.spell t.parts
  settles : ∀ xs, pattern.Describes t.spell xs → t.Settles xs
  preferred : (pattern.hits (body.drop place)).head? = some ⟨t.spell, t.parts, body.drop (place + t.spell.length)⟩
  advances : 0 < t.spell.length

theorem noneIn_drop {gap : List Char} (h : NoneIn gap rest) {k : Nat} (hk : k < gap.length) :
    ¬ StartsAt ((gap ++ rest).drop k) := by
  rw [List.drop_append_of_le_length hk.le]
  refine h (gap.take k) (gap.drop k) (List.take_append_drop k gap).symm ?_
  simpa using hk

theorem isNext_of_first? {gap : List Char} (h : first? (body.drop start) = some (gap, t, rest)) :
    IsNext body start (start + gap.length) t ∧ rest = body.drop (start + gap.length + t.spell.length) := by
  obtain ⟨ht, hends, hbody, hnone⟩ := first?_eq_some_iff.1 h
  have hplace : body.drop (start + gap.length) = t.spell ++ rest := by
    rw [← List.drop_drop, hbody, List.drop_left]
  have hrest : rest = body.drop (start + gap.length + t.spell.length) := by
    rw [← List.drop_drop, hplace, List.drop_left]
  have hlex : lex? (body.drop (start + gap.length)) = some (t, rest) := by
    rw [hplace, lex_spell_of_endsBefore ht hends]
  refine ⟨⟨Nat.le_add_right _ _, ?_, isLongestAt_of_lex? hlex, ?_, fun xs => settles_of_describes ht, ?_, ?_⟩, hrest⟩
  · intro earlier hle hlt
    rw [occursAt_iff, ← Nat.add_sub_cancel' hle, ← List.drop_drop, hbody]
    exact noneIn_drop hnone (by omega)
  · exact describes_pattern.2 ⟨t, ht.isForm, rfl, rfl⟩
  · rw [head?_hits, hlex, hrest]
    rfl
  · obtain ⟨c, cs, hspell, -⟩ := exists_start ht []
    rw [List.append_nil] at hspell
    simp [hspell]

theorem not_occursAt_of_first? (h : first? (body.drop start) = none) {place : Nat} (hle : start ≤ place) :
    ¬ pattern.OccursAt body place := by
  have hnone := first?_eq_none_iff.1 h
  rw [occursAt_iff, ← Nat.add_sub_cancel' hle, ← List.drop_drop]
  by_cases hlt : place - start < (body.drop start).length
  · simpa using noneIn_drop hnone hlt
  · rw [List.drop_eq_nil_of_le (Nat.not_lt.1 hlt)]
    exact lex?_eq_none_iff.1 rfl

end Token

/-! ## The scan -/

namespace Scan

/-- The tokens of pieces, each with the place where it starts, counted in characters. -/
def located (start : Nat) : List Piece → List (Nat × Token)
  | [] => []
  | p :: ps => (start + p.gap.length, p.token) :: located (start + p.spell.length) ps

theorem length_located (ps : List Piece) : ∀ start, (located start ps).length = ps.length := by
  induction ps with
  | nil => exact fun _ => rfl
  | cons p ps ih => exact fun start => congrArg (· + 1) (ih _)

/-- From a place on, each token is the next one behind the one before it, and none is left behind the last. -/
inductive Finds (body : List Char) : (start : Nat) → List (Nat × Token) → Prop
  | done {start : Nat} : (∀ place, start ≤ place → ¬ Token.pattern.OccursAt body place) → Finds body start []
  | next {start place : Nat} {t : Token} {found : List (Nat × Token)} :
      Token.IsNext body start place t → Finds body (place + t.spell.length) found → Finds body start ((place, t) :: found)

variable {body : List Char} {start : Nat} {found : List (Nat × Token)}

/-- A scan finds the tokens, from any place on. -/
theorem finds_ofText {cs : List Char} : ∀ {start : Nat}, cs = body.drop start →
    Finds body start (located start (ofText cs).pieces) := by
  -- induction along the scan, which finds the next token and goes on behind it
  induction cs using Scan.ofText.induct with
  | case1 cs hnone =>
    rintro start rfl
    rw [ofText_of_none hnone]
    exact .done fun place hle => Token.not_occursAt_of_first? hnone hle
  | case2 cs gap t rest hsome ih =>
    rintro start rfl
    obtain ⟨hnext, hrest⟩ := Token.isNext_of_first? hsome
    have hlen : start + (Piece.spell ⟨gap, t⟩).length = start + gap.length + t.spell.length := by
      rw [Piece.spell, List.length_append, Nat.add_assoc]
    rw [ofText_of_some hsome, located, hlen]
    exact .next hnext (ih hrest)

theorem Finds.start_le (h : Finds body start found) : ∀ m ∈ found, start ≤ m.1 := by
  induction h with
  | done => simp
  | next hnext _ ih =>
    intro m hm
    rcases List.mem_cons.1 hm with rfl | hm
    · exact hnext.start_le
    · exact (Nat.le_add_right_of_le hnext.start_le).trans (ih m hm)

/-- No token starts before the one in front of it has ended. -/
theorem Finds.pairwise (h : Finds body start found) : found.Pairwise fun m n => m.1 + m.2.spell.length ≤ n.1 := by
  induction h with
  | done => exact .nil
  | next _ hrest ih => exact .cons hrest.start_le ih

/-- Each token stands where it was found. -/
theorem Finds.isPrefix (h : Finds body start found) : ∀ m ∈ found, m.2.spell <+: body.drop m.1 := by
  induction h with
  | done => simp
  | next hnext _ ih => exact List.forall_mem_cons.2 ⟨hnext.longest.isPrefix, ih⟩

/-- The tokens take up at least one character each. -/
theorem Finds.length_le (h : Finds body start found) (hle : start ≤ body.length) :
    start + found.length ≤ body.length := by
  induction h with
  | done => exact hle
  | @next start place t found hnext _ ih =>
    have hpre := hnext.longest.isPrefix.length_le
    have hpos := hnext.advances
    have hstart := hnext.start_le
    rw [List.length_drop] at hpre
    have hrest := ih (by omega)
    rw [List.length_cons]
    omega

/-- From any place of a body on, the first token found is the next one: the leftmost there is and the longest there, with
the parts that the pattern prefers; where none is found there is none. A scan finds each token from the end of the one
before it on, until there is none; so the tokens follow each other without overlap, and there are no more of them than
characters. -/
theorem ofText_leftmost_longest (body : List Char) :
    (∀ start, match Token.first? (body.drop start) with
      | none => ∀ place, start ≤ place → ¬ Token.pattern.OccursAt body place
      | some (gap, t, rest) => Token.IsNext body start (start + gap.length) t ∧
          rest = body.drop (start + gap.length + t.spell.length)) ∧
    Finds body 0 (located 0 (ofText body).pieces) ∧
    (ofText body).pieces.length ≤ body.length ∧
    (located 0 (ofText body).pieces).Pairwise (fun m n => m.1 + m.2.spell.length ≤ n.1) ∧
    ∀ m ∈ located 0 (ofText body).pieces, m.2.spell <+: body.drop m.1 := by
  have hfinds : Finds body 0 (located 0 (ofText body).pieces) := finds_ofText List.drop_zero.symm
  refine ⟨?_, hfinds, ?_, hfinds.pairwise, hfinds.isPrefix⟩
  · intro start
    split
    · next hnone => exact fun place hle => Token.not_occursAt_of_first? hnone hle
    · next hsome => exact Token.isNext_of_first? hsome
  · have hlen := hfinds.length_le (Nat.zero_le _)
    rwa [Nat.zero_add, length_located] at hlen

/-- A count and a width that lead to no token are passed over one character after the other, and an id goes on up to the
parenthesis, although the pattern would leave a part of it to the note. -/
theorem ofText_leftmost_longest_sample :
    let body := "12:4:s(ab)~".toList
    let t : Token := ⟨some (some (.digits ['4'])), none, 's', some ⟨['a', 'b'], []⟩⟩
    Token.IsNext body 0 3 t ∧ Token.pattern.Describes t.spell
      [(.list, ['4', ':']), (.count, ['4']), (.type, ['s']), (.id, ['a']), (.note, ['b'])] := by
  intro body t
  have hfirst : Token.first? (body.drop 0) = some ("12:".toList, t, ['~']) := by decide
  have hnext := (ofText_leftmost_longest body).1 0
  rw [hfirst] at hnext
  have hhit : ⟨t.spell, [(.list, ['4', ':']), (.count, ['4']), (.type, ['s']), (.id, ['a']), (.note, ['b'])], []⟩ ∈
      Token.pattern.hits t.spell := by
    decide
  exact ⟨hnext.1, (Pattern.mem_hits.1 hhit).2⟩

end Scan

end RecordPack

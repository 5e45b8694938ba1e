import RecordPack.Proofs.Schema.Dropped

/-!
# Where tokens are found

A token starts where the text begins with the spelling of one (`Token.StartsAt`). It ends where the text goes on,
unless it has no label and one follows (`Token.EndsBefore`). The first token of a text is one before which none
starts (`Token.first?_eq_some_iff`), so what a scan finds does not depend on what comes later: the scan of a text
goes on behind any of its tokens (`Scan.exists_rest`), whatever follows it (`Scan.ofText_append`).
-/

namespace RecordPack

open Text (isBlank inRanges startRanges)

namespace Label

/-- The text begins with a label. -/
def StartsAt (cs : List Char) : Prop := ∃ l : Label, l.IsLexical ∧ l.spell <+: cs

theorem lex?_eq_none_iff {cs : List Char} : lex? cs = none ↔ ¬ StartsAt cs := by
  constructor
  · rintro hnone ⟨l, hl, rest, rfl⟩
    rw [lex_spell hl] at hnone
    cases hnone
  · intro h
    cases hlex : lex? cs with
    | none => rfl
    | some r =>
      obtain ⟨rfl, hl⟩ := lex_sound (show lex? cs = some (r.1, r.2) from hlex)
      exact absurd ⟨r.1, hl, List.prefix_append _ _⟩ h

/-- No label starts with a blank, or with what tokens start with. -/
theorem not_startsAt_of_head {cs : List Char} (h : ∀ c ∈ cs.head?, isBlank c = true ∨ inRanges startRanges c = true) :
    ¬ StartsAt cs := by
  apply lex?_eq_none_iff.1
  apply lex?_eq_none
  intro hc
  rcases h _ hc with hb | hs
  · exact absurd hb (by decide)
  · exact absurd hs (by decide)

end Label

namespace Token

/-- The text begins with a token. -/
def StartsAt (cs : List Char) : Prop := ∃ t : Token, t.IsLexical ∧ t.spell <+: cs

/-- The token is over where the text goes on with `rest`: a label there would be its own. -/
def EndsBefore (t : Token) (rest : List Char) : Prop := t.label = none → ¬ Label.StartsAt rest

/-- No token starts in `cs` where `rest` follows it. -/
def NoneIn (cs rest : List Char) : Prop := ∀ pre post, cs = pre ++ post → post ≠ [] → ¬ StartsAt (post ++ rest)

variable {cs rest gap : List Char} {t : Token}

theorem lex_spell_of_endsBefore (ht : t.IsLexical) (h : t.EndsBefore rest) : lex? (t.spell ++ rest) = some (t, rest) :=
  lex_spell ht fun hnone => Label.lex?_eq_none_iff.2 (h hnone)

/-- A token without a label, and a label behind it, are a token. -/
theorem lex_spell_labelled {l : Label} (ht : t.IsLexical) (hl : l.IsLexical) (hnone : t.label = none) :
    lex? (t.spell ++ (l.spell ++ rest)) = some ({ t with label := some l }, rest) := by
  have hspell : t.spell ++ (l.spell ++ rest) = ({ t with label := some l } : Token).spell ++ rest := by
    simp [spell_eq, hnone, Label.spell?]
  have hlexical : ({ t with label := some l } : Token).IsLexical := by
    refine ⟨ht.list, ht.width, ht.type, ?_⟩
    rintro _ ⟨⟩
    exact hl
  rw [hspell]
  apply lex_spell hlexical
  rintro ⟨⟩

theorem lex?_eq_some_iff :
    lex? cs = some (t, rest) ↔ t.IsLexical ∧ t.EndsBefore rest ∧ cs = t.spell ++ rest := by
  constructor
  · intro h
    obtain ⟨rfl, ht⟩ := lex_sound h
    refine ⟨ht, ?_, rfl⟩
    rintro hnone ⟨l, hl, rest', rfl⟩
    -- the label would have been read
    rw [lex_spell_labelled ht hl hnone] at h
    have hlabel := congrArg Token.label (Prod.mk.inj (Option.some.inj h)).1
    rw [hnone] at hlabel
    cases hlabel
  · rintro ⟨ht, hends, rfl⟩
    exact lex_spell_of_endsBefore ht hends

theorem lex?_eq_none_iff : lex? cs = none ↔ ¬ StartsAt cs := by
  constructor
  · rintro hnone ⟨t, ht, rest, rfl⟩
    by_cases hends : t.EndsBefore rest
    · rw [lex_spell_of_endsBefore ht hends] at hnone
      cases hnone
    · simp only [EndsBefore, not_forall, not_not] at hends
      obtain ⟨hlabel, l, hl, rest', rfl⟩ := hends
      rw [lex_spell_labelled ht hl hlabel] at hnone
      cases hnone
  · intro h
    cases hlex : lex? cs with
    | none => rfl
    | some r =>
      obtain ⟨rfl, ht⟩ := lex_sound (show lex? cs = some (r.1, r.2) from hlex)
      exact absurd ⟨r.1, ht, List.prefix_append _ _⟩ h

/-- Where a token starts one is read. -/
theorem StartsAt.exists_lex? (h : StartsAt cs) : ∃ t rest, lex? cs = some (t, rest) := by
  cases hlex : lex? cs with
  | none => exact absurd h (lex?_eq_none_iff.1 hlex)
  | some r => exact ⟨r.1, r.2, rfl⟩

theorem startsAt_spell (ht : t.IsLexical) (rest : List Char) : StartsAt (t.spell ++ rest) :=
  ⟨t, ht, List.prefix_append _ _⟩

theorem endsBefore_nil (t : Token) : t.EndsBefore [] := fun _ => Label.not_startsAt_of_head nofun

/-! ## The first token -/

theorem noneIn_nil (rest : List Char) : NoneIn [] rest := by
  rintro pre post heq hne
  exact absurd (List.append_eq_nil_iff.1 heq.symm).2 hne

theorem noneIn_cons {c : Char} : NoneIn (c :: cs) rest ↔ ¬ StartsAt (c :: (cs ++ rest)) ∧ NoneIn cs rest := by
  constructor
  · intro h
    refine ⟨h [] (c :: cs) rfl (List.cons_ne_nil _ _), ?_⟩
    rintro pre post rfl hne
    exact h (c :: pre) post rfl hne
  · rintro ⟨hnot, h⟩ pre post heq hne
    cases pre with
    | nil =>
      obtain rfl : c :: cs = post := heq
      exact hnot
    | cons d pre =>
      obtain ⟨rfl, rfl⟩ := List.cons.inj heq
      exact h pre post rfl hne

theorem noneIn_blank_append (hgap : ∀ c ∈ gap, isBlank c = true) (h : NoneIn cs rest) : NoneIn (gap ++ cs) rest := by
  induction gap with
  | nil => exact h
  | cons c gap ih =>
    refine noneIn_cons.2 ⟨?_, ih fun d hd => hgap d (List.mem_cons_of_mem _ hd)⟩
    exact lex?_eq_none_iff.1 (lex?_of_blank (hgap c List.mem_cons_self) _)

/-- What no token starts in stands before the first token of what follows. -/
theorem first?_append (h : NoneIn cs rest) :
    first? (cs ++ rest) = (first? rest).map fun (gap, t, after) => (cs ++ gap, t, after) := by
  induction cs with
  | nil => simp
  | cons c cs ih =>
    obtain ⟨hnot, h⟩ := noneIn_cons.1 h
    rw [List.cons_append, first?, lex?_eq_none_iff.2 hnot, ih h, Option.map_map]
    rfl

theorem first?_of_startsAt (h : StartsAt cs) : ∃ t rest, first? cs = some ([], t, rest) := by
  obtain ⟨t, rest, hlex⟩ := h.exists_lex?
  cases cs with
  | nil => cases hlex
  | cons c cs =>
    refine ⟨t, rest, ?_⟩
    rw [first?, hlex]

theorem first?_eq_none_iff : first? cs = none ↔ NoneIn cs [] := by
  constructor
  · intro h
    induction cs with
    | nil => exact noneIn_nil []
    | cons c cs ih =>
      rw [first?] at h
      split at h
      · cases h
      · next hlex =>
        rw [Option.map_eq_none_iff] at h
        exact noneIn_cons.2 ⟨by rw [List.append_nil]; exact lex?_eq_none_iff.1 hlex, ih h⟩
  · intro h
    have := first?_append h
    rwa [List.append_nil] at this

/-- The first token of a text: none starts before it. -/
theorem first?_eq_some_iff : first? cs = some (gap, t, rest) ↔
    t.IsLexical ∧ t.EndsBefore rest ∧ cs = gap ++ (t.spell ++ rest) ∧ NoneIn gap (t.spell ++ rest) := by
  constructor
  · intro h
    induction cs generalizing gap with
    | nil => cases h
    | cons c cs ih =>
      rw [first?] at h
      split at h
      · next hlex =>
        cases h
        obtain ⟨ht, hends, hcs⟩ := lex?_eq_some_iff.1 hlex
        exact ⟨ht, hends, hcs, noneIn_nil _⟩
      · next hlex =>
        obtain ⟨⟨gap', t', rest'⟩, hfirst, heq⟩ := Option.map_eq_some_iff.1 h
        cases heq
        obtain ⟨ht, hends, rfl, hnone⟩ := ih hfirst
        exact ⟨ht, hends, rfl, noneIn_cons.2 ⟨lex?_eq_none_iff.1 hlex, hnone⟩⟩
  · rintro ⟨ht, hends, rfl, hnone⟩
    obtain ⟨c, cs, hspell, -⟩ := exists_start ht rest
    have hlex := lex_spell_of_endsBefore ht hends
    rw [first?_append hnone, hspell] at *
    rw [first?, hlex]
    simp

end Token

/-! ## Scanning on -/

namespace Scan

/-- Behind some of its tokens the scan of a text goes on with the rest, and the last of them ends there. -/
theorem exists_rest {done todo : List Piece} {tail : List Char} : ∀ {cs : List Char}, ofText cs = ⟨done ++ todo, tail⟩ →
    ∃ rest, cs = done.flatMap Piece.spell ++ rest ∧ ofText rest = ⟨todo, tail⟩ ∧
      ∀ p ∈ done.getLast?, p.token.EndsBefore rest := by
  induction done with
  | nil => exact fun {cs} h => ⟨cs, rfl, h, by simp⟩
  | cons p done ih =>
    intro cs h
    cases hfirst : Token.first? cs with
    | none =>
      rw [ofText_of_none hfirst] at h
      cases h
    | some r =>
      obtain ⟨gap, t, after⟩ := r
      rw [ofText_of_some hfirst] at h
      obtain ⟨-, hends, rfl, -⟩ := Token.first?_eq_some_iff.1 hfirst
      simp only [mk.injEq, List.cons_append, List.cons.injEq] at h
      obtain ⟨⟨rfl, hpieces⟩, rfl⟩ := h
      obtain ⟨rest, hafter, hrest, hlast⟩ := ih (show ofText after = ⟨done ++ todo, _⟩ by rw [← hpieces])
      refine ⟨rest, ?_, hrest, ?_⟩
      · rw [hafter, List.flatMap_cons, Piece.spell]
        simp
      · cases done with
        | nil =>
          rintro _ ⟨⟩
          rwa [hafter] at hends
        | cons q done => exact hlast

theorem exists_of_ofText_cons {cs tail : List Char} {p : Piece} {ps : List Piece} (h : ofText cs = ⟨p :: ps, tail⟩) :
    ∃ rest, Token.first? cs = some (p.gap, p.token, rest) := by
  cases hfirst : Token.first? cs with
  | none =>
    rw [ofText_of_none hfirst] at h
    cases h
  | some r =>
    rw [ofText_of_some hfirst] at h
    cases h
    exact ⟨r.2.2, rfl⟩

theorem first?_of_ofText_nil {cs tail : List Char} (h : ofText cs = ⟨[], tail⟩) :
    Token.first? cs = none ∧ cs = tail := by
  cases hfirst : Token.first? cs with
  | none =>
    rw [ofText_of_none hfirst] at h
    cases h
    exact ⟨rfl, rfl⟩
  | some r =>
    rw [ofText_of_some hfirst] at h
    cases h

/-- Tokens with blanks before them are found again, whatever follows, if the last of them ends there. -/
theorem ofText_append {ps : List Piece} {rest : List Char} (hgaps : ∀ p ∈ ps, ∀ c ∈ p.gap, isBlank c = true)
    (hlexical : ∀ p ∈ ps, p.token.IsLexical) (hlast : ∀ p ∈ ps.getLast?, p.token.EndsBefore rest) :
    ofText (ps.flatMap Piece.spell ++ rest) = ⟨ps ++ (ofText rest).pieces, (ofText rest).tail⟩ := by
  induction ps with
  | nil => rfl
  | cons p ps ih =>
    obtain ⟨hgap, hgaps⟩ := List.forall_mem_cons.1 hgaps
    obtain ⟨ht, hlexical⟩ := List.forall_mem_cons.1 hlexical
    have hends : p.token.EndsBefore (ps.flatMap Piece.spell ++ rest) := by
      cases ps with
      | nil => exact hlast p rfl
      | cons q ps =>
        intro _
        have hhead := Token.head_spell (hgaps q List.mem_cons_self) (hlexical q List.mem_cons_self)
          (ps.flatMap Piece.spell ++ rest)
        rw [List.flatMap_cons, Piece.spell, List.append_assoc]
        exact Label.not_startsAt_of_head hhead
    have hlast : ∀ q ∈ ps.getLast?, q.token.EndsBefore rest := by
      cases ps with
      | nil => simp
      | cons q ps => exact hlast
    rw [List.flatMap_cons, Piece.spell, List.append_assoc,
      ofText_of_some (Token.first?_spell hgap ht fun hnone => Label.lex?_eq_none_iff.2 (hends hnone)),
      ih hgaps hlexical hlast]
    rfl

end Scan

end RecordPack

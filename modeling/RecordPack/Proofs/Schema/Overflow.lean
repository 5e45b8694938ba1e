import RecordPack.Proofs.Schema.Meaning

/-!
# Schemas that are too long

The parser adds up the widths of the fixed fields as they come, and stops at the first one with which the sum is
longer than a record can be. `Schema.OverflowsAt` says where that is, with the sum of all widths so far in plain
numbers. A text is refused for its widths exactly there, if everything before it is fine
(`Schema.parse_eq_widthOverflow`).
-/

namespace RecordPack

open Text (isBlank)

/-! ## Other faults -/

theorem Qualifier.toExtent_eq_error {q : Qualifier} {position : Nat} {zero err : SchemaError}
    (h : q.toExtent position zero = .error err) : (∃ digits, err = .numberTooLarge position digits) ∨ err = zero := by
  unfold toExtent at h
  split at h
  · cases h
  · split at h <;> cases h
    · exact .inl ⟨_, rfl⟩
    · exact .inr rfl

/-- A token on its own is not refused for the widths of the fields before it. -/
theorem Token.toField_ne_widthOverflow (t : Token) (position p : Nat) :
    t.toField position ≠ .error (.widthOverflow p) := by
  intro h
  unfold toField at h
  split at h
  · rcases bind_eq_error.1 h with h | ⟨width, -, h⟩
    · unfold widthOf at h
      split at h
      · cases h
      · split at h
        · rcases Qualifier.toExtent_eq_error h with ⟨digits, h⟩ | h <;> cases h
        · cases h
    · rcases bind_eq_error.1 h with h | ⟨count, -, h⟩
      · unfold countOf at h
        split at h
        · cases h
        · cases h
        · next q _ =>
          cases hq : q.toExtent position (.zeroCount position t.type) with
          | error err =>
            rw [hq] at h
            rcases Qualifier.toExtent_eq_error hq with ⟨digits, rfl⟩ | rfl <;> cases h
          | ok extent =>
            rw [hq] at h
            cases h
      · cases h
  · cases h

theorem checkGap_ne_widthOverflow (options : ParseOptions) (offset : Nat) (gap : List Char) (p : Nat) :
    (checkGap options offset gap).run.value ≠ .error (.widthOverflow p) := by
  unfold checkGap
  cases Text.trim gap with
  | nil => simp
  | cons c fragment => cases options.allowTrailing <;> simp

theorem addFixedWidth_eq_error {total position : Nat} {f : Field} {err : SchemaError}
    (htotal : total ≤ LengthPrefix.maxLength) : addFixedWidth total f position = .error err ↔
      err = .widthOverflow position ∧ LengthPrefix.maxLength < total + f.fixedWidth?.getD 0 := by
  unfold addFixedWidth
  cases hw : f.fixedWidth? with
  | none =>
    simp only [reduceCtorEq, Option.getD_none, Nat.add_zero, false_iff, not_and, Nat.not_lt]
    exact fun _ => htotal
  | some w =>
    by_cases hle : total + w ≤ LengthPrefix.maxLength
    · simp [hle]
    · simp only [if_neg hle, Except.error.injEq, Option.getD_some, Nat.lt_of_not_le hle, and_true]
      exact eq_comm

/-! ## The first field that is too much -/

/-- The fields of a piece and those after it are refused for their widths if the piece is fine so far, and either
its own width is too much or those after it are refused. -/
theorem fieldsOf_cons_eq_widthOverflow {options : ParseOptions} {offset total position : Nat} {seen : List String}
    {p : Piece} {ps : List Piece} (htotal : total ≤ LengthPrefix.maxLength) :
    (fieldsOf options offset seen total (p :: ps)).run.value = .error (.widthOverflow position) ↔ ∃ f,
      (checkGap options offset p.gap).run.value = .ok () ∧ p.token.toField (seen.length + 1) = .ok f ∧
      f.id ∉ seen ∧
      (position = seen.length + 1 ∧ LengthPrefix.maxLength < total + f.fixedWidth?.getD 0 ∨
        total + f.fixedWidth?.getD 0 ≤ LengthPrefix.maxLength ∧
          (fieldsOf options (offset + Text.byteLength p.spell) (f.id :: seen) (total + f.fixedWidth?.getD 0)
            ps).run.value = .error (.widthOverflow position)) := by
  simp only [fieldsOf, Attempt.value_bind, Attempt.value_lift]
  cases hgap : (checkGap options offset p.gap).run.value with
  | error err =>
    have hne := checkGap_ne_widthOverflow options offset p.gap position
    rw [hgap] at hne
    simpa [bind, Except.bind] using hne
  | ok u =>
    cases hf : p.token.toField (seen.length + 1) with
    | error err =>
      have hne := p.token.toField_ne_widthOverflow (seen.length + 1) position
      rw [hf] at hne
      simpa [bind, Except.bind] using hne
    | ok f =>
      simp only [ok_bind, true_and, Except.ok.injEq, exists_eq_left']
      by_cases hseen : f.id ∈ seen
      · simp only [hseen, if_true, not_true_eq_false, false_and, iff_false, Attempt.value_bind, Attempt.value_throw]
        rintro ⟨⟩
      · simp only [hseen, if_false, not_false_eq_true, true_and, Attempt.value_bind, Attempt.value_lift]
        cases hadd : addFixedWidth total f (seen.length + 1) with
        | error err =>
          obtain ⟨rfl, hlt⟩ := (addFixedWidth_eq_error htotal).1 hadd
          simp [bind, Except.bind, hlt, Nat.not_le.2 hlt, eq_comm]
        | ok total' =>
          have hle : total + f.fixedWidth?.getD 0 ≤ LengthPrefix.maxLength := by
            by_contra hlt
            rw [(addFixedWidth_eq_error htotal).2 ⟨rfl, Nat.lt_of_not_le hlt⟩] at hadd
            cases hadd
          obtain ⟨rfl, -⟩ := addFixedWidth_eq_ok.1 hadd
          simp only [ok_bind, Nat.not_lt.2 hle, and_false, hle, true_and, false_or, bind_eq_error]
          refine or_iff_left ?_
          rintro ⟨fs, -, h⟩
          cases h

/-- Pieces that become fields `fs`, and one more that becomes a field `f`: everything is fine, but the width of `f`
makes the sum longer than a record can be. -/
structure Field.TooWide (options : ParseOptions) (seen : List String) (total : Nat) (done : List Piece) (p : Piece)
    (fs : List Field) (f : Field) : Prop where
  gaps : options.allowTrailing = true ∨ ∀ q ∈ done ++ [p], ∀ c ∈ q.gap, isBlank c = true
  before : Token.DenotesAll (seen.length + 1) (done.map (·.token)) fs
  together : Field.GoTogether seen total fs
  token : p.token.Denotes (seen.length + done.length + 1) f
  notSeen : f.id ∉ seen
  notBefore : f.id ∉ fs.map Field.id
  exceeds : LengthPrefix.maxLength < total + Field.totalWidth (fs ++ [f])

section TooWide

variable {options : ParseOptions} {seen : List String} {total : Nat} {done : List Piece} {p q : Piece}
  {fs : List Field} {f g : Field}

theorem Field.tooWide_nil (htotal : total ≤ LengthPrefix.maxLength) : TooWide options seen total [] p fs f ↔
    fs = [] ∧ (options.allowTrailing = true ∨ ∀ c ∈ p.gap, isBlank c = true) ∧
      p.token.Denotes (seen.length + 1) f ∧ f.id ∉ seen ∧
      LengthPrefix.maxLength < total + f.fixedWidth?.getD 0 := by
  constructor
  · rintro ⟨hgaps, hbefore, -, htoken, hseen, -, hexceeds⟩
    cases hbefore
    exact ⟨rfl, by simpa using hgaps, htoken, hseen, by simpa using hexceeds⟩
  · rintro ⟨rfl, hgaps, htoken, hseen, hexceeds⟩
    exact ⟨by simpa using hgaps, .nil, goTogether_nil htotal, htoken, hseen, List.not_mem_nil, by simpa using hexceeds⟩

theorem Field.tooWide_cons : TooWide options seen total (q :: done) p (g :: fs) f ↔
    (options.allowTrailing = true ∨ ∀ c ∈ q.gap, isBlank c = true) ∧ q.token.Denotes (seen.length + 1) g ∧
      g.id ∉ seen ∧ TooWide options (g.id :: seen) (total + g.fixedWidth?.getD 0) done p fs f := by
  have hposition : seen.length + (q :: done).length + 1 = (g.id :: seen).length + done.length + 1 := by
    simp only [List.length_cons]
    omega
  constructor
  · rintro ⟨hgaps, hbefore, htogether, htoken, hseen, hnot, hexceeds⟩
    rw [List.map_cons] at hbefore
    cases hbefore with
    | cons hq hbefore =>
      obtain ⟨hg, htogether⟩ := goTogether_cons.1 htogether
      rw [List.map_cons, List.mem_cons, not_or] at hnot
      rw [List.cons_append, totalWidth_cons, ← Nat.add_assoc] at hexceeds
      rw [hposition] at htoken
      refine ⟨hgaps.imp_right fun h => h q List.mem_cons_self, hq, hg, ⟨?_, hbefore, htogether, htoken, ?_, hnot.2,
        hexceeds⟩⟩
      · exact hgaps.imp_right fun h r hr => h r (List.mem_cons_of_mem _ hr)
      · exact List.not_mem_cons_of_ne_of_not_mem hnot.1 hseen
  · rintro ⟨hgap, hq, hg, hgaps, hbefore, htogether, htoken, hseen, hnot, hexceeds⟩
    rw [List.mem_cons, not_or] at hseen
    refine ⟨?_, .cons hq hbefore, goTogether_cons.2 ⟨hg, htogether⟩, hposition ▸ htoken, hseen.2,
      List.not_mem_cons_of_ne_of_not_mem hseen.1 hnot, ?_⟩
    · rcases hgap with hall | hgap
      · exact .inl hall
      · exact hgaps.imp_right fun h => List.forall_mem_cons.2 ⟨hgap, h⟩
    · rw [List.cons_append, totalWidth_cons, ← Nat.add_assoc]
      exact hexceeds

end TooWide

/-- Pieces are refused for their widths at the first field with which the sum is longer than a record can be, if
everything before is fine. -/
theorem fieldsOf_eq_widthOverflow {options : ParseOptions} {position : Nat} {ps : List Piece} :
    ∀ {offset total : Nat} {seen : List String}, total ≤ LengthPrefix.maxLength →
    ((fieldsOf options offset seen total ps).run.value = .error (.widthOverflow position) ↔
      ∃ done p todo fs f, ps = done ++ p :: todo ∧ position = seen.length + done.length + 1 ∧
        Field.TooWide options seen total done p fs f) := by
  induction ps with
  | nil => simp [fieldsOf_nil]
  | cons q ps ih =>
    intro offset total seen htotal
    rw [fieldsOf_cons_eq_widthOverflow htotal]
    constructor
    · rintro ⟨g, hgap, hg, hseen, ⟨rfl, hlt⟩ | ⟨hle, hrest⟩⟩
      · exact ⟨[], q, ps, [], g, rfl, rfl,
          (Field.tooWide_nil htotal).2 ⟨rfl, checkGap_eq_ok.1 hgap, Token.toField_eq_ok_iff.1 hg, hseen, hlt⟩⟩
      · obtain ⟨done, p, todo, fs, f, rfl, rfl, htoo⟩ := (ih hle).1 hrest
        refine ⟨q :: done, p, todo, g :: fs, f, rfl, ?_, Field.tooWide_cons.2
          ⟨checkGap_eq_ok.1 hgap, Token.toField_eq_ok_iff.1 hg, hseen, htoo⟩⟩
        simp only [List.length_cons]
        omega
    · rintro ⟨_ | ⟨r, done⟩, p, todo, fs, f, heq, rfl, htoo⟩
      · obtain ⟨rfl, rfl⟩ := List.cons.inj heq
        obtain ⟨rfl, hgap, hf, hseen, hlt⟩ := (Field.tooWide_nil htotal).1 htoo
        exact ⟨f, checkGap_eq_ok.2 hgap, Token.toField_eq_ok_iff.2 hf, hseen, .inl ⟨rfl, hlt⟩⟩
      · obtain ⟨rfl, rfl⟩ := List.cons.inj heq
        cases fs with
        | nil => cases htoo.before
        | cons g fs =>
          obtain ⟨hgap, hg, hseen, htoo⟩ := Field.tooWide_cons.1 htoo
          have hle : total + g.fixedWidth?.getD 0 ≤ LengthPrefix.maxLength :=
            Nat.le_trans (Nat.le_add_right _ _) htoo.together.width_le
          refine ⟨g, checkGap_eq_ok.2 hgap, Token.toField_eq_ok_iff.2 hg, hseen, .inr ⟨hle, (ih hle).2
            ⟨done, p, todo, fs, f, rfl, ?_, htoo⟩⟩⟩
          simp only [List.length_cons]
          omega

/-! ## Texts -/

namespace Schema

/-- The tokens of a text behind its marker, each with what stands before it. -/
def pieces (text : String) : List Piece := (Scan.ofText (splitMarker (Text.trimStart text.toList)).2.1).pieces

/-- Everything is fine up to the field at the position, counted from one, and with it the sum of the widths is
longer than a record can be for the first time. -/
def OverflowsAt (options : ParseOptions) (text : String) (position : Nat) : Prop :=
  ∃ done p todo fs f, pieces text = done ++ p :: todo ∧ position = done.length + 1 ∧
    Field.TooWide options [] 0 done p fs f

/-- A text is refused for the widths of its fields where they overflow, and nowhere else. -/
theorem parse_eq_widthOverflow {options : ParseOptions} {text : String} {position : Nat} :
    (parse options text).value = .error (.widthOverflow position) ↔ OverflowsAt options text position := by
  simp only [OverflowsAt, pieces, parse, Attempt.value_bind, Attempt.value_emit, Attempt.value_pure, bind_eq_error,
    fieldsOf_eq_widthOverflow (Nat.zero_le _), List.length_nil, Nat.zero_add]
  -- what follows the last token is never refused for widths
  refine or_iff_left ?_
  rintro ⟨fs, -, htail | ⟨-, -, h | ⟨-, -, h⟩⟩⟩
  · exact checkGap_ne_widthOverflow _ _ _ _ htail
  · cases h
  · cases h

end Schema

end RecordPack

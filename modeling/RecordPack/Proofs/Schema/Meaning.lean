import RecordPack.Proofs.Fallible
import RecordPack.Proofs.Text.Classes

/-!
# What schema texts mean

`Token.Denotes` says what a token spells at its position: a field of a known type, with a width if the type
takes one, numbers in ASCII digits from one on that fit 64 bits, and an id of its own or one made from the
position. The parser turns tokens into the fields that they denote, as long as no id comes twice and the
fixed fields are no longer than a record can be (`fieldsOf_eq_ok`).
-/

namespace RecordPack

open Text (isBlank)

/-! ## What tokens spell -/

/-- The number of a qualifier. -/
inductive Qualifier.Denotes : Qualifier → Extent → Prop
  | tilde : Denotes tilde .dynamic
  | digits {cs : List Char} : (∀ c ∈ cs, c.isDigit = true) → 1 ≤ decimalValue cs → decimalValue cs ≤ 2 ^ 64 - 1 →
      Denotes (digits cs) (.fixed (decimalValue cs))

/-- The remark of a label: what stands between the blanks at both ends, if there is anything. -/
inductive Label.DenotesNote (l : Label) : Option String → Prop
  | blank : (∀ c ∈ l.note, isBlank c = true) → DenotesNote l none
  | text {lead core trail : List Char} : l.note = lead ++ core ++ trail → (∀ c ∈ lead, isBlank c = true) →
      (∀ c ∈ trail, isBlank c = true) → core ≠ [] → (∀ c ∈ core.head?, isBlank c = false) →
      (∀ c ∈ core.getLast?, isBlank c = false) → DenotesNote l (some (String.ofList core))

namespace Token

/-- The width that a token gives a type. Only byte strings take one. -/
inductive DenotesWidth : Option Qualifier → ScalarType → Extent → Prop
  | absent (type : ScalarType) : DenotesWidth none type (.fixed type.width)
  | given {q : Qualifier} {extent : Extent} : q.Denotes extent → DenotesWidth (some q) .bytes extent

/-- The count of a list. Behind nothing a colon leaves it to the records. -/
inductive DenotesCount : Option (Option Qualifier) → Option Extent → Prop
  | absent : DenotesCount none none
  | bare : DenotesCount (some none) (some .dynamic)
  | given {q : Qualifier} {extent : Extent} : q.Denotes extent → DenotesCount (some (some q)) (some extent)

/-- The id and the remark of a field at a position. -/
inductive DenotesLabel (position : Nat) : Option Label → String → Option String → Prop
  | absent : DenotesLabel position none s!"f{position}" none
  | present {l : Label} {note : Option String} : l.DenotesNote note →
      DenotesLabel position (some l) (String.ofList l.id) note

/-- The field is what the token spells at the position. -/
structure Denotes (t : Token) (position : Nat) (f : Field) : Prop where
  type : ScalarType.ofChar? t.type = some f.type
  width : DenotesWidth t.width f.type f.width
  count : DenotesCount t.list f.count
  label : DenotesLabel position t.label f.id f.note

/-- The fields are what the tokens spell, the first of them at the position. -/
inductive DenotesAll : (position : Nat) → List Token → List Field → Prop
  | nil {position : Nat} : DenotesAll position [] []
  | cons {position : Nat} {t : Token} {ts : List Token} {f : Field} {fs : List Field} :
      t.Denotes position f → DenotesAll (position + 1) ts fs → DenotesAll position (t :: ts) (f :: fs)

end Token

/-! ## Single tokens -/

theorem numberOfDigits?_eq_some {cs : List Char} {n : Nat} :
    numberOfDigits? cs = some n ↔ (∀ c ∈ cs, c.isDigit = true) ∧ decimalValue cs < UInt64.size ∧ n = decimalValue cs := by
  unfold numberOfDigits?
  by_cases h : (cs.all Char.isDigit && decide (decimalValue cs < UInt64.size)) = true
  · rw [if_pos h]
    simp only [Bool.and_eq_true, List.all_eq_true, decide_eq_true_eq] at h
    rw [Option.some.injEq]
    constructor
    · rintro rfl
      exact ⟨h.1, h.2, rfl⟩
    · rintro ⟨-, -, rfl⟩
      rfl
  · rw [if_neg h]
    simp only [Bool.and_eq_true, List.all_eq_true, decide_eq_true_eq] at h
    simp only [reduceCtorEq, false_iff]
    rintro ⟨hall, hlt, -⟩
    exact h ⟨hall, hlt⟩

theorem Qualifier.toExtent_eq_ok {q : Qualifier} {position : Nat} {zero : SchemaError} {extent : Extent} :
    q.toExtent position zero = .ok extent ↔ q.Denotes extent := by
  cases q with
  | tilde =>
    constructor
    · rintro ⟨⟩
      exact .tilde
    · rintro ⟨⟩
      rfl
  | digits cs =>
    have hsize : UInt64.size = 2 ^ 64 := rfl
    simp only [toExtent]
    constructor
    · intro h
      split at h
      · cases h
      · cases h
      · next n hne hn =>
        cases h
        obtain ⟨hall, hlt, rfl⟩ := numberOfDigits?_eq_some.1 hn
        exact .digits hall (Nat.one_le_iff_ne_zero.2 hne) (by omega)
    · intro h
      cases h with
      | digits hall hpos hle =>
        rw [numberOfDigits?_eq_some.2 ⟨hall, by omega, rfl⟩]
        cases hval : decimalValue cs with
        | zero => omega
        | succ n => rfl

/-- The parts of a token each give their part of the field. -/
theorem Token.toField_eq_ok {t : Token} {position : Nat} {f : Field} :
    t.toField position = .ok f ↔ ∃ type width count,
      ScalarType.ofChar? t.type = some type ∧ t.widthOf position type = .ok width ∧
      t.countOf position = .ok count ∧ f = ⟨t.idOf position, type, width, count, t.noteOf⟩ := by
  unfold Token.toField
  cases ScalarType.ofChar? t.type with
  | none => simp
  | some type =>
    simp only [bind_eq_ok, pure_eq_ok, Option.some.injEq]
    constructor
    · rintro ⟨width, hw, count, hc, rfl⟩
      exact ⟨type, width, count, rfl, hw, hc, rfl⟩
    · rintro ⟨_, width, count, rfl, hw, hc, rfl⟩
      exact ⟨width, hw, count, hc, rfl⟩

namespace Token

variable {t : Token} {position : Nat}

theorem widthOf_eq_ok {type : ScalarType} {width : Extent} :
    t.widthOf position type = .ok width ↔ DenotesWidth t.width type width := by
  unfold widthOf
  cases t.width with
  | none =>
    constructor
    · rintro ⟨⟩
      exact .absent type
    · rintro ⟨⟩
      rfl
  | some q =>
    by_cases hs : type.isString = true
    · obtain rfl : type = .bytes := by cases type <;> first | rfl | cases hs
      simp only [hs, if_true, Qualifier.toExtent_eq_ok]
      exact ⟨.given, fun h => by cases h with | given hq => exact hq⟩
    · simp only [hs, Bool.false_eq_true, if_false, reduceCtorEq, false_iff]
      rintro ⟨⟩
      exact hs rfl

theorem countOf_eq_ok {count : Option Extent} : t.countOf position = .ok count ↔ DenotesCount t.list count := by
  unfold countOf
  rcases t.list with _ | _ | q
  · constructor
    · rintro ⟨⟩
      exact .absent
    · rintro ⟨⟩
      rfl
  · constructor
    · rintro ⟨⟩
      exact .bare
    · rintro ⟨⟩
      rfl
  · simp only [map_eq_ok, Qualifier.toExtent_eq_ok]
    constructor
    · rintro ⟨extent, hq, rfl⟩
      exact .given hq
    · intro h
      cases h with
      | given hq => exact ⟨_, hq, rfl⟩

theorem denotesNote_iff {l : Label} {note : Option String} :
    l.DenotesNote note ↔ note = match Text.trim l.note with
      | [] => none
      | core => some (String.ofList core) := by
  constructor
  · intro h
    cases h with
    | blank hall => rw [Text.trim_eq_nil_iff.2 hall]
    | @text lead core trail hnote hlead htrail hne hhead hlast =>
      rw [hnote, Text.trim_of_core hlead htrail hne hhead hlast]
      cases core with
      | nil => exact absurd rfl hne
      | cons c core => rfl
  · rintro rfl
    obtain ⟨lead, trail, hnote, hlead, htrail, hhead, hlast⟩ := Text.exists_trim l.note
    cases htrim : Text.trim l.note with
    | nil => exact .blank (Text.trim_eq_nil_iff.1 htrim)
    | cons c core =>
      rw [htrim] at hnote hhead hlast
      exact .text hnote hlead htrail (List.cons_ne_nil c core) hhead hlast

theorem denotesLabel_iff {id : String} {note : Option String} :
    DenotesLabel position t.label id note ↔ id = t.idOf position ∧ note = t.noteOf := by
  unfold idOf noteOf
  cases t.label with
  | none =>
    constructor
    · rintro ⟨⟩
      exact ⟨rfl, rfl⟩
    · rintro ⟨rfl, rfl⟩
      exact .absent
  | some l =>
    constructor
    · intro h
      cases h with
      | present hnote => exact ⟨rfl, denotesNote_iff.1 hnote⟩
    · rintro ⟨rfl, hnote⟩
      exact .present (denotesNote_iff.2 hnote)

/-- A token becomes the field that it denotes. -/
theorem toField_eq_ok_iff {f : Field} : t.toField position = .ok f ↔ t.Denotes position f := by
  obtain ⟨id, type, width, count, note⟩ := f
  rw [toField_eq_ok]
  constructor
  · rintro ⟨type', width', count', htype, hwidth, hcount, heq⟩
    cases heq
    exact ⟨htype, widthOf_eq_ok.1 hwidth, countOf_eq_ok.1 hcount, denotesLabel_iff.2 ⟨rfl, rfl⟩⟩
  · rintro ⟨htype, hwidth, hcount, hlabel⟩
    obtain ⟨rfl, rfl⟩ := denotesLabel_iff.1 hlabel
    exact ⟨type, width, count, htype, widthOf_eq_ok.2 hwidth, countOf_eq_ok.2 hcount, rfl⟩

end Token

/-! ## All tokens -/

/-- The sum of the widths of the fixed fields. -/
def Field.totalWidth (fields : List Field) : Nat := (fields.filterMap Field.fixedWidth?).sum

@[simp] theorem Field.totalWidth_nil : Field.totalWidth [] = 0 := rfl

@[simp] theorem Field.totalWidth_cons (f : Field) (fs : List Field) :
    Field.totalWidth (f :: fs) = f.fixedWidth?.getD 0 + Field.totalWidth fs := by
  cases h : f.fixedWidth? <;> simp [Field.totalWidth, h]

theorem Field.totalWidth_append (fs gs : List Field) : totalWidth (fs ++ gs) = totalWidth fs + totalWidth gs := by
  simp only [totalWidth, List.filterMap_append, List.sum_append]

/-- The fields have different ids, none of which was seen before, and their widths and those before them are
together no longer than a record can be. -/
structure Field.GoTogether (seen : List String) (total : Nat) (fs : List Field) : Prop where
  nodup : (fs.map Field.id).Nodup
  new : ∀ f ∈ fs, f.id ∉ seen
  width_le : total + Field.totalWidth fs ≤ LengthPrefix.maxLength

theorem Field.goTogether_nil {seen : List String} {total : Nat} (h : total ≤ LengthPrefix.maxLength) :
    GoTogether seen total [] := ⟨List.nodup_nil, by simp, h⟩

theorem Field.goTogether_cons {seen : List String} {total : Nat} {f : Field} {fs : List Field} :
    GoTogether seen total (f :: fs) ↔
      f.id ∉ seen ∧ GoTogether (f.id :: seen) (total + f.fixedWidth?.getD 0) fs := by
  constructor
  · rintro ⟨hnodup, hnew, hsum⟩
    rw [List.map_cons, List.nodup_cons] at hnodup
    rw [totalWidth_cons, ← Nat.add_assoc] at hsum
    refine ⟨hnew f List.mem_cons_self, hnodup.2, ?_, hsum⟩
    intro g hg hmem
    rcases List.mem_cons.1 hmem with hid | hmem
    · exact hnodup.1 (List.mem_map.2 ⟨g, hg, hid⟩)
    · exact hnew g (List.mem_cons_of_mem _ hg) hmem
  · rintro ⟨hseen, hnodup, hnew, hsum⟩
    refine ⟨?_, ?_, ?_⟩
    · rw [List.map_cons, List.nodup_cons]
      refine ⟨?_, hnodup⟩
      intro hmem
      obtain ⟨g, hg, hid⟩ := List.mem_map.1 hmem
      exact hnew g hg (by simp [hid])
    · intro g hg
      rcases List.mem_cons.1 hg with rfl | hg
      · exact hseen
      · exact fun hmem => hnew g hg (List.mem_cons_of_mem _ hmem)
    · rw [totalWidth_cons, ← Nat.add_assoc]
      exact hsum

theorem addFixedWidth_eq_ok {total position total' : Nat} {f : Field} :
    addFixedWidth total f position = .ok total' ↔
      total' = total + f.fixedWidth?.getD 0 ∧ (f.fixedWidth? = none ∨ total' ≤ LengthPrefix.maxLength) := by
  unfold addFixedWidth
  cases hw : f.fixedWidth? with
  | none => simp [eq_comm]
  | some w =>
    by_cases hle : total + w ≤ LengthPrefix.maxLength
    · simp only [if_pos hle, Except.ok.injEq, Option.getD_some, reduceCtorEq, false_or]
      constructor
      · rintro rfl
        exact ⟨rfl, hle⟩
      · rintro ⟨rfl, -⟩
        rfl
    · simp only [if_neg hle, reduceCtorEq, Option.getD_some, false_or, false_iff, not_and]
      rintro rfl
      exact hle

/-- The fields of a piece and those after it. -/
theorem fieldsOf_cons_eq_ok {options : ParseOptions} {offset total : Nat} {seen : List String} {p : Piece}
    {ps : List Piece} {fs : List Field} :
    (fieldsOf options offset seen total (p :: ps)).run.value = .ok fs ↔ ∃ f fs',
      (checkGap options offset p.gap).run.value = .ok () ∧
      p.token.toField (seen.length + 1) = .ok f ∧ f.id ∉ seen ∧
      addFixedWidth total f (seen.length + 1) = .ok (total + f.fixedWidth?.getD 0) ∧
      (fieldsOf options (offset + Text.byteLength p.spell) (f.id :: seen) (total + f.fixedWidth?.getD 0)
        ps).run.value = .ok fs' ∧ fs = f :: fs' := by
  simp only [fieldsOf, Attempt.value_bind, Attempt.value_lift, bind_eq_ok]
  constructor
  · rintro ⟨⟨⟩, hgap, f, hf, h⟩
    by_cases hseen : f.id ∈ seen
    · simp [hseen] at h
    · simp only [if_neg hseen, Attempt.value_bind, Attempt.value_lift, Attempt.value_pure,
        bind_eq_ok, Except.ok.injEq] at h
      obtain ⟨total', ht, fs', hfs, rfl⟩ := h
      obtain ⟨rfl, -⟩ := addFixedWidth_eq_ok.1 ht
      exact ⟨f, fs', hgap, hf, hseen, ht, hfs, rfl⟩
  · rintro ⟨f, fs', hgap, hf, hseen, ht, hfs, rfl⟩
    refine ⟨(), hgap, f, hf, ?_⟩
    simp only [if_neg hseen, Attempt.value_bind, Attempt.value_lift, Attempt.value_pure, ok_bind, ht, hfs]

theorem fieldsOf_nil (options : ParseOptions) (offset total : Nat) (seen : List String) :
    (fieldsOf options offset seen total []).run.value = .ok [] := rfl

theorem checkGap_eq_ok {options : ParseOptions} {offset : Nat} {gap : List Char} :
    (checkGap options offset gap).run.value = .ok () ↔ options.allowTrailing = true ∨ ∀ c ∈ gap, isBlank c = true := by
  rw [← Text.trim_eq_nil_iff]
  unfold checkGap
  cases Text.trim gap with
  | nil => simp
  | cons c fragment => cases options.allowTrailing <;> simp

/-- The pieces become fields if blanks stand between them or anything may, the tokens denote the fields, and
the fields go together with each other and with those before them. -/
theorem fieldsOf_eq_ok {options : ParseOptions} {ps : List Piece} : ∀ {offset total : Nat} {seen : List String}
    {fs : List Field}, total ≤ LengthPrefix.maxLength →
    ((fieldsOf options offset seen total ps).run.value = .ok fs ↔
      (options.allowTrailing = true ∨ ∀ p ∈ ps, ∀ c ∈ p.gap, isBlank c = true) ∧
        Token.DenotesAll (seen.length + 1) (ps.map (·.token)) fs ∧ Field.GoTogether seen total fs) := by
  induction ps with
  | nil =>
    intro offset total seen fs htotal
    rw [fieldsOf_nil]
    constructor
    · rintro ⟨⟩
      exact ⟨.inr (by simp), .nil, Field.goTogether_nil htotal⟩
    · rintro ⟨-, hall, -⟩
      cases hall
      rfl
  | cons p ps ih =>
    intro offset total seen fs htotal
    rw [fieldsOf_cons_eq_ok]
    constructor
    · rintro ⟨f, fs', hgap, hf, hseen, hadd, hfs, rfl⟩
      -- a field of no fixed width adds nothing to the sum, so it is not checked again
      have hle : total + f.fixedWidth?.getD 0 ≤ LengthPrefix.maxLength := by
        rcases (addFixedWidth_eq_ok.1 hadd).2 with hnone | hle
        · simpa [hnone] using htotal
        · exact hle
      obtain ⟨hgaps, hall, htogether⟩ := (ih hle).1 hfs
      refine ⟨?_, .cons (Token.toField_eq_ok_iff.1 hf) hall, Field.goTogether_cons.2 ⟨hseen, htogether⟩⟩
      rcases checkGap_eq_ok.1 hgap with hall | hgap
      · exact .inl hall
      · exact hgaps.imp_right fun hgaps => List.forall_mem_cons.2 ⟨hgap, hgaps⟩
    · rintro ⟨hgaps, hall, htogether⟩
      rw [List.map_cons] at hall
      cases hall with
      | @cons _ _ _ f fs' hf hall =>
        obtain ⟨hseen, htogether⟩ := Field.goTogether_cons.1 htogether
        have hle : total + f.fixedWidth?.getD 0 ≤ LengthPrefix.maxLength :=
          Nat.le_trans (Nat.le_add_right _ _) htogether.width_le
        refine ⟨f, fs', ?_, Token.toField_eq_ok_iff.2 hf, hseen, addFixedWidth_eq_ok.2 ⟨rfl, .inr hle⟩, ?_, rfl⟩
        · exact checkGap_eq_ok.2 (hgaps.imp_right fun h => h p List.mem_cons_self)
        · exact (ih hle).2 ⟨hgaps.imp_right fun h q hq => h q (List.mem_cons_of_mem _ hq), hall, htogether⟩

/-- A parse is a parse of its pieces, and of what follows the last of them. -/
theorem parse_eq_ok {options : ParseOptions} {text : String} {s : Schema} :
    (Schema.parse options text).value = .ok s ↔
      let cs := text.toList
      let lead := Text.byteLength (cs.takeWhile Text.isBlank)
      let (order, body, markerWidth) := splitMarker (Text.trimStart cs)
      let base := lead + markerWidth
      let scan := Scan.ofText body
      let tailOffset := base + Text.byteLength (scan.pieces.flatMap Piece.spell)
      (fieldsOf options base [] 0 scan.pieces).run.value = .ok s.fields ∧
        (checkGap options tailOffset scan.tail).run.value = .ok () ∧ s.order = order ∧ s.text = text := by
  obtain ⟨order, fields, txt⟩ := s
  obtain ⟨order', body, markerWidth⟩ := splitMarker (Text.trimStart text.toList)
  simp only [Schema.parse, Attempt.value_bind, Attempt.value_emit, Attempt.value_pure, bind_eq_ok, Except.ok.injEq,
    Schema.mk.injEq]
  constructor
  · rintro ⟨fs, hfs, ⟨⟩, htail, -, -, rfl, rfl, rfl⟩
    exact ⟨hfs, htail, rfl, rfl⟩
  · rintro ⟨hfs, htail, rfl, rfl⟩
    exact ⟨fields, hfs, (), htail, (), trivial, rfl, rfl, rfl⟩

end RecordPack

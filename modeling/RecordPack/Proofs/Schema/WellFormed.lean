import RecordPack.Codec
import RecordPack.Proofs.Schema.Meaning

/-!
# Well-formed schemas

What the parser promises of every schema it accepts, in either mode: only byte strings choose their
width, no width and no count is zero, no id is used twice, and the fixed fields together are no longer
than a record can be (`Schema.wellFormed_of_parse`).
-/

namespace RecordPack

/-- A field that the schema language can spell. -/
structure Field.WellFormed (f : Field) : Prop where
  width_eq : f.type.isString = false → f.width = .fixed f.type.width
  width_pos : ∀ w, f.width = .fixed w → 0 < w
  count_pos : ∀ n, f.count = some (.fixed n) → 0 < n

/-- A schema that the parser can accept. -/
structure Schema.WellFormed (s : Schema) : Prop where
  fields : ∀ f ∈ s.fields, f.WellFormed
  nodup : s.ids.Nodup
  totalWidth_le : Field.totalWidth s.fields ≤ LengthPrefix.maxLength

theorem ScalarType.width_pos (type : ScalarType) : 0 < type.width := by cases type <;> decide

theorem Qualifier.Denotes.pos {q : Qualifier} {n : Nat} (h : q.Denotes (.fixed n)) : 0 < n := by
  cases h with
  | digits _ hpos _ => exact hpos

theorem Token.DenotesWidth.spec {o : Option Qualifier} {type : ScalarType} {width : Extent}
    (h : DenotesWidth o type width) :
    (type.isString = false → width = .fixed type.width) ∧ ∀ w, width = .fixed w → 0 < w := by
  cases h with
  | absent type =>
    refine ⟨fun _ => rfl, ?_⟩
    rintro w ⟨⟩
    exact type.width_pos
  | given hq =>
    refine ⟨nofun, ?_⟩
    rintro w rfl
    exact hq.pos

theorem Token.DenotesCount.pos {o : Option (Option Qualifier)} {n : Nat}
    (h : DenotesCount o (some (.fixed n))) : 0 < n := by
  cases h with
  | given hq => exact hq.pos

/-- What a token denotes is well-formed. -/
theorem Token.Denotes.wellFormed {t : Token} {position : Nat} {f : Field} (h : t.Denotes position f) :
    f.WellFormed := by
  obtain ⟨hwidth, hpos⟩ := h.width.spec
  refine ⟨hwidth, hpos, ?_⟩
  intro n hn
  exact Token.DenotesCount.pos (hn ▸ h.count)

theorem Token.DenotesAll.wellFormed {position : Nat} {ts : List Token} {fs : List Field}
    (h : DenotesAll position ts fs) : ∀ f ∈ fs, f.WellFormed := by
  induction h with
  | nil => simp
  | cons hf _ ih =>
    intro f hmem
    rcases List.mem_cons.1 hmem with rfl | hmem
    · exact hf.wellFormed
    · exact ih f hmem

/-- Every schema that is parsed is well-formed. -/
theorem Schema.wellFormed_of_parse {options : ParseOptions} {text : String} {s : Schema}
    (h : (Schema.parse options text).value = .ok s) : s.WellFormed := by
  obtain ⟨hfields, -⟩ := parse_eq_ok.1 h
  obtain ⟨-, hall, hnodup, -, hsum⟩ := (fieldsOf_eq_ok (Nat.zero_le _)).1 hfields
  exact ⟨hall.wellFormed, hnodup, by simpa using hsum⟩

/-- A codec of a text is that of the schema which the text spells. -/
theorem Codec.ofText_eq_ok {options : ParseOptions} {text : String} {c : Codec} :
    (Codec.ofText options text).run.value = .ok c ↔
      ∃ s, (Schema.parse options text).value = .ok s ∧ c = (Codec.ofSchema s).value := by
  simp only [Codec.ofText, Attempt.value_bind, Attempt.value_always, Attempt.value_lift, ok_bind,
    bind_eq_ok, mapError_eq_ok, Except.ok.injEq]
  exact exists_congr fun s => and_congr_right fun _ => eq_comm

theorem Codec.wellFormed_of_ofText {options : ParseOptions} {text : String} {c : Codec}
    (h : (Codec.ofText options text).run.value = .ok c) : c.schema.WellFormed := by
  obtain ⟨s, hs, rfl⟩ := Codec.ofText_eq_ok.1 h
  exact Schema.wellFormed_of_parse hs

end RecordPack

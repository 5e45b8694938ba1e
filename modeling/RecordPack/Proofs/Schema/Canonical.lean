import RecordPack.Layout.Segment
import RecordPack.Proofs.Schema.Permissive
import RecordPack.Schema.Printer

/-!
# Schemas come back from their canonical text

`Token.ofField f` is the token that spells a field in the canonical text. Whatever token a field was parsed from,
it is denoted by this one too, but for its remark (`Token.Denotes.ofField`). Each token of a canonical text ends
with its label, so they stand back to back and are still told apart (`exists_derives_flatMap`). So a schema that
was parsed is parsed again from its canonical text (`Schema.parse_canonical`).
-/

namespace RecordPack

open Text (isBlank byteLength)

/-! ## Numbers -/

theorem decimalValue_toDigits (n : Nat) : decimalValue (Nat.toDigits 10 n) = n := Nat.ofDigitChars_ten_toDigits

/-- A digit of ASCII is a digit of some script. -/
theorem Text.isDecimalDigit_of_isDigit {c : Char} (h : c.isDigit = true) : isDecimalDigit c = true := by
  apply inRanges_iff.2
  refine ⟨(0x30, 0x39), List.mem_cons_self, ?_⟩
  simp only [Char.isDigit, Bool.and_eq_true, decide_eq_true_eq, ge_iff_le, UInt32.le_iff_toNat_le] at h
  exact h

/-- The qualifier that spells an extent. -/
def Qualifier.ofExtent : Extent → Qualifier
  | .fixed n => digits (Nat.toDigits 10 n)
  | .dynamic => tilde

theorem Qualifier.isLexical_ofExtent (extent : Extent) : (ofExtent extent).IsLexical := by
  cases extent with
  | dynamic => trivial
  | fixed n =>
    refine ⟨Nat.toDigits_ne_nil, ?_⟩
    intro c hc
    exact Text.isDecimalDigit_of_isDigit (Nat.isDigit_of_mem_toDigits (by decide) (by decide) hc)

/-- An extent that some qualifier denotes is denoted by the one that spells it. -/
theorem Qualifier.Denotes.ofExtent {q : Qualifier} {extent : Extent} (h : q.Denotes extent) :
    (ofExtent extent).Denotes extent := by
  cases h with
  | tilde => exact .tilde
  | @digits cs _ hpos hle =>
    have hvalue := decimalValue_toDigits (decimalValue cs)
    have hdenotes : (Qualifier.digits (Nat.toDigits 10 (decimalValue cs))).Denotes
        (.fixed (decimalValue (Nat.toDigits 10 (decimalValue cs)))) := by
      apply Denotes.digits
      · intro c hc
        exact Nat.isDigit_of_mem_toDigits (by decide) (by decide) hc
      · rwa [hvalue]
      · rwa [hvalue]
    rwa [hvalue] at hdenotes

/-! ## Single fields -/

/-- The field without its remark. -/
def Field.withoutNote (f : Field) : Field := { f with note := none }

namespace Token

/-- The qualifier that spells the width of a type, unless it goes without saying. -/
def widthQualifier (type : ScalarType) : Extent → Option Qualifier
  | .dynamic => some (.ofExtent .dynamic)
  | .fixed n => if type.isString && n != 1 then some (.ofExtent (.fixed n)) else none

/-- The token that spells a field in the canonical text. -/
def ofField (f : Field) : Token where
  list := f.count.map fun extent => some (.ofExtent extent)
  width := widthQualifier f.type f.width
  type := f.type.char
  label := some ⟨f.id.toList, []⟩

end Token

theorem Field.toList_itemToken (f : Field) :
    f.itemToken.toList = Qualifier.spell? (Token.widthQualifier f.type f.width) ++ [f.type.char] := by
  unfold itemToken Token.widthQualifier
  cases f.width with
  | dynamic => simp [toString, Qualifier.spell?, Qualifier.spell, Qualifier.ofExtent]
  | fixed n =>
    by_cases h : (f.type.isString && n != 1) = true
    · simp only [if_pos h]
      simp [toString, Qualifier.spell?, Qualifier.spell, Qualifier.ofExtent]
    · simp only [if_neg h]
      simp [toString, Qualifier.spell?]

theorem Field.toList_spell (f : Field) : f.spell.toList = (Token.ofField f).spell := by
  have hlabel : Label.spell ⟨f.id.toList, []⟩ = '(' :: f.id.toList ++ [')'] := by simp [Label.spell]
  unfold Field.spell Field.token
  rw [Token.spell_eq]
  unfold Token.ofField
  rcases f.count with _ | n | _ <;>
    simp [toString, toList_itemToken, hlabel, Label.spell?, Qualifier.spell?, Qualifier.spell, Qualifier.ofExtent]

namespace Token

variable {t : Token} {position : Nat} {f : Field}

theorem isTypeChar_char (type : ScalarType) : isTypeChar type.char = true := by cases type <;> decide

theorem DenotesWidth.ofExtent {o : Option Qualifier} {type : ScalarType} {width : Extent}
    (h : DenotesWidth o type width) : DenotesWidth (widthQualifier type width) type width := by
  cases h with
  | absent type =>
    -- the width of a type goes without saying
    cases type <;> exact .absent _
  | given hq =>
    cases width with
    | dynamic => exact .given hq.ofExtent
    | fixed n =>
      by_cases hn : n = 1
      · subst hn
        exact .absent .bytes
      · have hspelled : widthQualifier .bytes (.fixed n) = some (.ofExtent (.fixed n)) := by
          simp [widthQualifier, ScalarType.isString, hn]
        rw [hspelled]
        exact .given hq.ofExtent

theorem DenotesCount.ofExtent {o : Option (Option Qualifier)} {count : Option Extent} (h : DenotesCount o count) :
    DenotesCount (count.map fun extent => some (.ofExtent extent)) count := by
  cases h with
  | absent => exact .absent
  | bare => exact .given .tilde
  | given hq => exact .given hq.ofExtent

/-- The field of a token is denoted by the token that spells it, wherever this stands. -/
theorem Denotes.ofField (h : t.Denotes position f) (position' : Nat) : (ofField f).Denotes position' f.withoutNote where
  type := by
    unfold Token.ofField Field.withoutNote
    cases f.type <;> rfl
  width := h.width.ofExtent
  count := h.count.ofExtent
  label := by
    have hlabel : DenotesLabel position' (some ⟨f.id.toList, []⟩) (String.ofList f.id.toList) none :=
      .present (.blank (by simp))
    rwa [String.ofList_toList] at hlabel

theorem isIdPart_of_isDigit {c : Char} (h : c.isDigit = true) : Label.isIdPart c = true := by
  simp [Label.isIdPart, Char.isAlphanum, h]

/-- An id is one that a label can hold, whether a label held it or it was made from a position. -/
theorem DenotesLabel.isLexical {o : Option Label} {id : String} {note : Option String}
    (h : DenotesLabel position o id note) (ho : ∀ l ∈ o, l.IsLexical) : Label.IsLexical ⟨id.toList, []⟩ := by
  refine ⟨?_, by simp, by simp⟩
  cases h with
  | absent =>
    refine ⟨'f', Nat.toDigits 10 position, by simp [toString], by decide, ?_⟩
    intro c hc
    exact isIdPart_of_isDigit (Nat.isDigit_of_mem_toDigits (by decide) (by decide) hc)
  | @present l _ hnote =>
    rw [String.toList_ofList]
    exact (ho l rfl).id

theorem exists_of_mem_widthQualifier {type : ScalarType} {width : Extent} {q : Qualifier}
    (h : q ∈ widthQualifier type width) : ∃ extent, q = .ofExtent extent := by
  unfold widthQualifier at h
  split at h
  · exact ⟨.dynamic, (Option.some.inj h).symm⟩
  · next n =>
    split at h
    · exact ⟨.fixed n, (Option.some.inj h).symm⟩
    · cases h

/-- The token that spells the field of a lexical token is lexical. -/
theorem IsLexical.ofField (ht : t.IsLexical) (h : t.Denotes position f) : (ofField f).IsLexical where
  list := by
    intro o ho q hq
    obtain ⟨extent, -, rfl⟩ := Option.map_eq_some_iff.1 ho
    cases hq
    exact Qualifier.isLexical_ofExtent extent
  width := by
    intro q hq
    obtain ⟨extent, rfl⟩ := exists_of_mem_widthQualifier hq
    exact Qualifier.isLexical_ofExtent extent
  type := isTypeChar_char f.type
  label := by
    intro l hl
    cases hl
    exact h.label.isLexical ht.label

/-! ## All fields -/

/-- The fields of tokens are denoted by the tokens that spell them. -/
theorem DenotesAll.ofFields {ts : List Token} {fs : List Field} (h : DenotesAll position ts fs)
    (ht : ∀ t ∈ ts, t.IsLexical) : DenotesAll position (fs.map Token.ofField) (fs.map Field.withoutNote) ∧
      ∀ t ∈ fs.map Token.ofField, t.IsLexical := by
  induction h with
  | nil => exact ⟨.nil, by simp⟩
  | @cons position t ts f fs hf _ ih =>
    obtain ⟨hdenotes, hlexical⟩ := ih fun t' ht' => ht t' (List.mem_cons_of_mem _ ht')
    refine ⟨.cons (hf.ofField position) hdenotes, ?_⟩
    rw [List.map_cons]
    exact List.forall_mem_cons.2 ⟨(ht t List.mem_cons_self).ofField hf, hlexical⟩

end Token

/-- Lexical tokens back to back are derived. -/
theorem exists_derives_flatMap {ts : List Token} (h : ∀ t ∈ ts, t.IsLexical) : ∀ offset,
    ∃ places, Derives offset (ts.flatMap Token.spell) places ∧ places.map (·.token) = ts := by
  induction ts with
  | nil =>
    intro offset
    exact ⟨[], .nil (by simp), rfl⟩
  | cons t ts ih =>
    intro offset
    obtain ⟨places, hderives, htokens⟩ :=
      ih (fun t' ht' => h t' (List.mem_cons_of_mem _ ht')) (offset + byteLength ([] ++ t.spell))
    refine ⟨⟨offset + byteLength [], t⟩ :: places, ?_, by rw [List.map_cons, htokens]⟩
    rw [List.flatMap_cons]
    exact @Derives.cons offset [] _ t places (by simp) (h t List.mem_cons_self) hderives

theorem Field.totalWidth_map_withoutNote (fs : List Field) : totalWidth (fs.map withoutNote) = totalWidth fs := by
  unfold totalWidth
  rw [List.filterMap_map]
  rfl

theorem Field.GoTogether.withoutNote {seen : List String} {total : Nat} {fs : List Field}
    (h : GoTogether seen total fs) : GoTogether seen total (fs.map Field.withoutNote) where
  nodup := by
    rw [List.map_map]
    exact h.nodup
  new := by
    intro f hf
    obtain ⟨g, hg, rfl⟩ := List.mem_map.1 hf
    exact h.new g hg
  width_le := by
    rw [totalWidth_map_withoutNote]
    exact h.width_le

namespace Schema

theorem toList_canonical (s : Schema) :
    s.canonical.toList = s.order.marker :: (s.fields.map Token.ofField).flatMap Token.spell := by
  unfold canonical
  rw [String.toList_join, List.flatMap_cons, List.flatMap_map, List.flatMap_map]
  simp only [Field.toList_spell]
  simp [toString]

/-- The segments do not depend on remarks or on the text. -/
theorem ofSchema_withoutNotes (s : Schema) (text : String) :
    Segment.ofSchema ⟨s.order, s.fields.map Field.withoutNote, text⟩ = Segment.ofSchema s := by
  have hslots : Slot.ofFields (s.fields.map Field.withoutNote) = Slot.ofFields s.fields := by
    unfold Slot.ofFields
    apply List.ext_getElem?
    intro i
    simp only [List.getElem?_mapIdx, List.getElem?_map, Option.map_map]
    rfl
  unfold Segment.ofSchema
  rw [hslots]

/-- A schema that was parsed, in either mode, is parsed strictly from its canonical text: with the same byte order,
the same fields without their remarks, and the same segments. Its canonical text is the same again. -/
theorem parse_canonical {options : ParseOptions} {text : String} {s : Schema}
    (h : (parse options text).value = .ok s) : ∃ s', (parse {} s.canonical).value = .ok s' ∧
      s'.order = s.order ∧ s'.fields = s.fields.map Field.withoutNote ∧
      Segment.ofSchema s' = Segment.ofSchema s ∧ s'.canonical = s.canonical := by
  obtain ⟨body, markerWidth, -, -, hfields, -⟩ := exists_body_of_parse h
  obtain ⟨-, hdenotes, htogether⟩ := (fieldsOf_eq_ok (Nat.zero_le _)).1 hfields
  have hscan : ∀ t ∈ (Scan.ofText body).pieces.map (·.token), t.IsLexical := by
    intro t ht
    obtain ⟨p, hp, rfl⟩ := List.mem_map.1 ht
    exact (Scan.ofText_sound body).2 p hp
  obtain ⟨hdenotes', hlexical⟩ := hdenotes.ofFields hscan
  obtain ⟨places, hderives, htokens⟩ := exists_derives_flatMap hlexical (byteLength [s.order.marker])
  have hsentence : Sentence s.canonical.toList s.order places := by
    rw [toList_canonical]
    exact @Sentence.marked [] _ s.order places (by simp) hderives
  rw [← htokens] at hdenotes'
  refine ⟨_, parse_of_sentence hsentence hdenotes' htogether.withoutNote, rfl, rfl, ofSchema_withoutNotes s _, ?_⟩
  unfold canonical
  rw [List.map_map]
  rfl

/-- A schema of a text with a second name for a type, ids that are made from positions, a remark and something that
belongs to no field. -/
def remarked : Schema where
  order := .network
  fields := [
    { id := "f1", type := .uint16, width := .fixed 2 },
    { id := "name", type := .bytes, width := .fixed 1, note := some "a remark" },
    { id := "f3", type := .int32, width := .fixed 4, count := some (.fixed 3) },
    { id := "f4", type := .bytes, width := .fixed 20, count := some .dynamic }]
  text := "H - 1S(name a remark) 3:l :20p"

theorem parse_canonical_sample : ∃ s', (parse {} "!H(f1)s(name)3:i(f3)~:20s(f4)").value = .ok s' ∧
    s'.order = .network ∧ s'.fields = remarked.fields.map Field.withoutNote ∧
    Segment.ofSchema s' = Segment.ofSchema remarked ∧ s'.canonical = "!H(f1)s(name)3:i(f3)~:20s(f4)" := by
  have hparse : (parse .permissive remarked.text).value = .ok remarked := by decide +kernel
  have hcanonical : remarked.canonical = "!H(f1)s(name)3:i(f3)~:20s(f4)" := by decide +kernel
  rw [← hcanonical]
  exact parse_canonical hparse

end Schema

end RecordPack

import RecordPack.Proofs.Codec
import RecordPack.Proofs.LengthPrefix
import RecordPack.Proofs.Schema.Permissive
import RecordPack.Proofs.Schema.WellFormed
import RecordPack.Proofs.Text.Utf8
import RecordPack.Stream.Whole

/-!
# Schema blocks

A block holds the text of its schema, and this text is read back whatever follows the block
(`SchemaBlock.readText_encode`). It is parsed strictly then. So the codec comes back exactly if nothing was dropped
of the text when it was parsed first; otherwise the block is refused (`SchemaBlock.read_encode`).
-/

namespace RecordPack

/-! ## Codecs of texts -/

namespace Codec

variable {options : ParseOptions} {text : String} {c : Codec}

theorem text_of_ofText (h : (ofText options text).run.value = .ok c) : c.schema.text = text := by
  obtain ⟨s, hs, rfl⟩ := ofText_eq_ok.1 h
  exact (parse_eq_ok.1 hs).2.2.2

/-- The warnings are of what is dropped of the text. -/
theorem warnings_ofText (h : (ofText options text).run.value = .ok c) :
    (ofText options text).run.events.filter (·.level = .warn) = (Stretch.ofText text.toList).map Stretch.event := by
  obtain ⟨s, hs, -⟩ := ofText_eq_ok.1 h
  have hlift : (Attempt.lift ((Schema.parse options text).value.mapError CodecError.schema)).run.value = .ok s := by
    rw [Attempt.value_lift, hs, mapError_ok]
  rw [ofText, Attempt.events_bind_of_ok (Attempt.value_always _), Attempt.events_bind_of_ok hlift,
    Attempt.events_always, List.filter_append, Schema.warnings_parse hs]
  simp [ofSchema, Event.level]

/-- Read strictly, the text of a codec gives the codec again or the error at the first stretch that was dropped. -/
theorem value_ofText (h : (ofText options text).run.value = .ok c) : (ofText {} text).run.value =
    ((Stretch.refuse (Stretch.ofText text.toList)).mapError CodecError.schema).map fun _ => c := by
  obtain ⟨s, hs, rfl⟩ := ofText_eq_ok.1 h
  simp only [ofText, Attempt.value_bind, Attempt.value_always, Attempt.value_lift, ok_bind, Schema.value_parse hs]
  cases Stretch.refuse (Stretch.ofText text.toList) <;> rfl

end Codec

/-! ## Blocks -/

namespace SchemaBlock

variable {s : Schema} {block : Bytes}

theorem encode_eq_ok : encode s = .ok block ↔ ∃ head,
    LengthPrefix.encode (Utf8.encode s.text.toList).length = .ok head ∧ head ++ Utf8.encode s.text.toList = block :=
  map_eq_ok

/-- The text is read back, whatever follows the block. -/
theorem readText_encode (h : encode s = .ok block) (rest : Bytes) :
    readText (block ++ rest) = .ok (s.text, block.length) := by
  obtain ⟨head, hhead, rfl⟩ := encode_eq_ok.1 h
  generalize htext : Utf8.encode s.text.toList = text at hhead
  have hdecode : LengthPrefix.decode (head ++ text ++ rest) 0 = .ok (head.length, text.length) := by
    rw [LengthPrefix.decode, List.drop_zero, List.append_assoc]
    exact LengthPrefix.read_of_measures (LengthPrefix.measures_of_encode hhead) 0 _
  have hroom : ¬ (head ++ text ++ rest).length - head.length < text.length := by
    simp only [List.length_append]
    omega
  have hpayload : ((head ++ text ++ rest).drop head.length).take text.length = text := by
    rw [List.append_assoc, List.drop_left, List.take_left]
  simp only [readText, hdecode, mapError_ok, ok_bind, if_neg hroom, hpayload]
  rw [← htext, Utf8.decode_encode, htext]
  simp [pure, Except.pure]

theorem exists_encode (h : (Utf8.encode s.text.toList).length ≤ LengthPrefix.maxLength) : ∃ block, encode s = .ok block := by
  obtain ⟨head, hhead⟩ := LengthPrefix.exists_encode h
  exact ⟨_, encode_eq_ok.2 ⟨head, hhead, rfl⟩⟩

/-- A block is read as the codec of its text. -/
theorem value_read (h : encode s = .ok block) (rest : Bytes) :
    (read (block ++ rest)).run.value = (Codec.ofText {} s.text).run.value.map (·, block.length) := by
  simp only [read, Attempt.value_bind, Attempt.value_lift, Attempt.value_emit, Attempt.value_pure,
    readText_encode h, ok_bind]
  cases (Codec.ofText {} s.text).run.value <;> rfl

variable {options : ParseOptions} {text : String} {c : Codec}

/-- The codec is read back, or the first stretch that was dropped of its text is refused. -/
theorem value_read_encode (hc : (Codec.ofText options text).run.value = .ok c) (h : encode c.schema = .ok block)
    (rest : Bytes) : (read (block ++ rest)).run.value =
      ((Stretch.refuse (Stretch.ofText text.toList)).mapError CodecError.schema).map fun _ => (c, block.length) := by
  rw [value_read h, Codec.text_of_ofText hc, Codec.value_ofText hc]
  cases Stretch.refuse (Stretch.ofText text.toList) <;> rfl

/-- The block of a codec is read back as the codec if nothing was dropped when the text was parsed. If something
was, the block is refused with the first of it, and so is every buffer that starts with the block. -/
theorem read_encode (hc : (Codec.ofText options text).run.value = .ok c) (h : encode c.schema = .ok block)
    (rest : Bytes) :
    ((∀ e ∈ (Codec.ofText options text).run.events, e.level ≠ .warn) →
      (read (block ++ rest)).run.value = .ok (c, block.length)) ∧
    ∀ e, (Codec.ofText options text).run.events.find? (·.level = .warn) = some e →
      ∃ offset fragment, e = .textDropped offset fragment ∧
        (read (block ++ rest)).run.value = .error (.schema (.unexpectedInput offset fragment)) ∧
        (loadsSelfDescribed (block ++ rest)).run.value = .error (.schema (.unexpectedInput offset fragment)) := by
  have hread := value_read_encode hc h rest
  have hwarnings := Codec.warnings_ofText hc
  refine ⟨?_, ?_⟩
  · intro hnone
    have hempty : (Codec.ofText options text).run.events.filter (·.level = .warn) = [] :=
      List.filter_eq_nil_iff.2 (by simpa using hnone)
    rw [hempty] at hwarnings
    rw [hread, List.map_eq_nil_iff.1 hwarnings.symm]
    rfl
  · intro e he
    rw [← List.head?_filter, hwarnings] at he
    cases hdrops : Stretch.ofText text.toList with
    | nil =>
      rw [hdrops] at he
      cases he
    | cons d ds =>
      rw [hdrops] at he hread
      cases he
      refine ⟨d.offset, String.ofList d.chars, rfl, hread, ?_⟩
      rw [loadsSelfDescribed, Attempt.value_bind, hread]
      rfl

/-! ## A text with a gap -/

/-- A schema whose text holds something that belongs to no field. -/
def gapped : Schema where
  order := .network
  fields := [{ id := "f1", type := .uint16, width := .fixed 2 }, { id := "f2", type := .uint32, width := .fixed 4 }]
  text := "H - I"

theorem ofText_gapped : (Codec.ofText .permissive gapped.text).run.value = .ok (Codec.ofSchema gapped).value :=
  Codec.ofText_eq_ok.2 ⟨gapped, by decide +kernel, rfl⟩

theorem encode_gapped : encode gapped = .ok [0, 0, 0, 5, 72, 32, 45, 32, 73] := by decide +kernel

/-- The block of the sample is read back, that of the text with a gap is not. -/
theorem read_encode_sample : (∃ block, encode Schema.sample = .ok block ∧
      (read (block ++ [7])).run.value = .ok (Codec.sample, block.length)) ∧
    (read ([0, 0, 0, 5, 72, 32, 45, 32, 73] ++ [7])).run.value = .error (.schema (.unexpectedInput 2 "-")) ∧
    (loadsSelfDescribed ([0, 0, 0, 5, 72, 32, 45, 32, 73] ++ [7])).run.value =
      .error (.schema (.unexpectedInput 2 "-")) := by
  obtain ⟨block, hblock⟩ : ∃ block, encode Codec.sample.schema = .ok block :=
    ⟨[0, 0, 0, 37] ++ Utf8.encode Schema.sample.text.toList, by decide +kernel⟩
  obtain ⟨hsample, -⟩ := read_encode Codec.ofText_sample hblock [7]
  obtain ⟨-, hgapped⟩ := read_encode ofText_gapped encode_gapped [7]
  obtain ⟨offset, fragment, he, hread, hloads⟩ := hgapped (.textDropped 2 "-") (by decide +kernel)
  cases he
  exact ⟨⟨block, hblock, hsample (by decide +kernel)⟩, hread, hloads⟩

/-- A codec whose text holds something that was dropped writes a block that is not read back. -/
theorem exists_read_encode_error : ¬ ∀ (options : ParseOptions) (text : String) (c : Codec) (block rest : Bytes),
    (Codec.ofText options text).run.value = .ok c → encode c.schema = .ok block →
    ∃ c', (read (block ++ rest)).run.value = .ok (c', block.length) ∧ c'.schema.order = c.schema.order ∧
      c'.schema.fields = c.schema.fields ∧ c'.segments = c.segments := by
  intro h
  obtain ⟨c', hread, -⟩ := h _ _ _ _ [] ofText_gapped encode_gapped
  have herror : (read ([0, 0, 0, 5, 72, 32, 45, 32, 73] ++ [])).run.value.toOption.isSome = false := by
    decide +kernel
  rw [hread] at herror
  cases herror

end SchemaBlock

end RecordPack

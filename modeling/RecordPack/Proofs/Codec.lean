import RecordPack.Proofs.Decidable
import RecordPack.Proofs.Record.Blocks
import RecordPack.Proofs.Record.Canonical
import RecordPack.Proofs.Record.Room

/-!
# Records of a codec

A codec lays its schema out in segments, and neither its writer nor its reader depends on how: a record is a
length and the fields of the row (`Codec.record_eq_ok`, `Codec.readAt_eq_ok`).
-/

namespace RecordPack

open LengthPrefix (Measures)

namespace Codec

variable {c : Codec}

theorem covers (c : Codec) : Covers c.schema.order c.segments c.schema.fields := by
  rw [c.segments_eq]
  exact covers_ofSchema c.schema

/-- The parts are a form of a record of the row: a length, and that many bytes for the fields. -/
def Carries (c : Codec) (ps : List Part) (row : Row) : Prop :=
  ∃ head body, ps = .measure head :: body ∧ Measures head (Part.allBytes body).length ∧
    Field.CarriesAll c.endian c.schema.fields body row

theorem Carries.length_eq {ps : List Part} {row : Row} (h : c.Carries ps row) : row.length = c.schema.arity := by
  obtain ⟨head, body, -, -, hcar⟩ := h
  exact hcar.length_eq

theorem Carries.isSettled {ps : List Part} {row : Row} (h : c.Carries ps row)
    (hx : ∀ v ∈ row, v.HasSettledFloats) : c.schema.IsSettled row := by
  obtain ⟨head, body, -, -, hcar⟩ := h
  exact Field.forall₂_isSettled_of_carriesAll hcar hx

/-! ## Writing -/

theorem value_appendTo (data : Bytes) (row : Row) :
    (c.appendTo data row).value = match c.record data.length row with
      | .ok r => (.ok r.bytes.length, data ++ r.bytes)
      | .error e => (.error e, data) := by
  simp only [appendTo, append, Logged.value_bind, Attempt.value_bind, Attempt.value_lift, Attempt.value_emit]
  cases c.record data.length row <;> rfl

theorem appendTo_eq_ok {data out : Bytes} {row : Row} {n : Nat} :
    (c.appendTo data row).value = (.ok n, out) ↔
      ∃ r, c.record data.length row = .ok r ∧ n = r.bytes.length ∧ out = data ++ r.bytes := by
  rw [value_appendTo]
  cases c.record data.length row <;> simp [eq_comm]

/-- A record is written exactly if its fields are, there is room, and its length has a prefix. -/
theorem record_eq_ok {start : Nat} {row : Row} {r : Record} :
    c.record start row = .ok r ↔ row.length = c.schema.arity ∧
      Writer.HasRoom c.endian (start + 4) c.segments row ∧
      Field.writeAll c.endian c.schema.fields row = .ok r.body ∧ LengthPrefix.encode r.body.length = .ok r.head := by
  obtain ⟨head, body⟩ := r
  unfold record
  by_cases hlen : row.length = c.schema.arity
  · simp only [hlen, ne_eq, not_true_eq_false, if_false, bind_eq_ok, pure_eq_ok, Record.mk.injEq,
      true_and, Writer.lengthBytes, mapError_eq_ok]
    constructor
    · -- a writer that succeeds found room, so it wrote field by field
      rintro ⟨b, hb, h, hh, rfl, rfl⟩
      have hroom := Writer.hasRoom_of_eq_ok hb
      exact ⟨hroom, (Writer.segments_eq c.covers hroom).symm.trans hb, hh⟩
    · rintro ⟨hroom, hb, hh⟩
      exact ⟨body, (Writer.segments_eq c.covers hroom).trans hb, head, hh, rfl, rfl⟩
  · simp [hlen]

/-- A record that fits behind some bytes is the same behind fewer. -/
theorem record_mono {earlier start : Nat} {row : Row} {r : Record} (hle : earlier ≤ start)
    (h : c.record start row = .ok r) : c.record earlier row = .ok r := by
  obtain ⟨hlen, hroom, hbody, hhead⟩ := record_eq_ok.1 h
  exact record_eq_ok.2 ⟨hlen, Writer.hasRoom_mono c.covers (Nat.add_le_add_right hle 4) hroom, hbody, hhead⟩

/-! ## Reading -/

/-- A body is read to its end exactly if it is the bytes of a form of the row. -/
theorem body_eq_ok {bs : Bytes} {row : Row} (hsmall : bs.length < UInt64.size) (offset : Nat) :
    (∃ rest, Reader.segments c.endian c.segments ⟨offset, bs⟩ = .ok (row, rest) ∧ rest.rest = []) ↔
      ∃ body, Field.CarriesAll c.endian c.schema.fields body row ∧ Part.allBytes body = bs := by
  constructor
  · rintro ⟨rest, hseg, hrest⟩
    obtain ⟨body, hcar, hbytes, -⟩ := Field.readAll_eq_ok.1 ((Reader.segments_eq_ok c.covers hsmall).1 hseg)
    rw [hrest, List.append_nil] at hbytes
    exact ⟨body, hcar, hbytes.symm⟩
  · rintro ⟨body, hcar, rfl⟩
    refine ⟨⟨offset + (Part.allBytes body).length, []⟩, ?_, rfl⟩
    apply (Reader.segments_eq_ok c.covers hsmall).2
    refine Field.readAll_eq_ok.2 ⟨body, hcar, ?_, rfl⟩
    rw [List.append_nil]

/-- A record is read exactly if a form of it comes next. -/
theorem readAt_eq_ok {data : Bytes} {cursor : Nat} {d : Decoded} :
    c.readAt data cursor = .ok (some d) ↔ ∃ head body post,
      Measures head (Part.allBytes body).length ∧ Field.CarriesAll c.endian c.schema.fields body d.row ∧
      data.drop cursor = head ++ Part.allBytes body ++ post ∧
      d.headWidth = head.length ∧ d.next = cursor + head.length + (Part.allBytes body).length := by
  obtain ⟨row, headWidth, next⟩ := d
  unfold readAt
  constructor
  · intro h
    simp only at h
    split at h
    · simp at h
    · simp only [bind_eq_ok, Prod.exists, Cursor.length_eq_ok, Cursor.split_eq_ok] at h
      obtain ⟨size, afterHead, ⟨head, hm, hdrop, hoff⟩, piece, afterBody, ⟨bs, rfl, rfl, hdrop', hoff'⟩,
        row', rest, hseg, h⟩ := h
      split at h
      · cases h
      · next hempty =>
        simp only [pure_eq_ok, Option.some.injEq, Decoded.mk.injEq] at h
        obtain ⟨rfl, rfl, rfl⟩ := h
        obtain ⟨body, hcar, rfl⟩ := (body_eq_ok hm.lt_size _).1 ⟨rest, hseg, by simpa using hempty⟩
        refine ⟨head, body, afterBody.rest, hm, hcar, ?_, ?_, ?_⟩
        · rw [List.append_assoc, ← hdrop']
          exact hdrop
        · rw [hoff]
          exact Nat.add_sub_cancel_left cursor head.length
        · rw [hoff', hoff]
  · rintro ⟨head, body, post, hm, hcar, hdata, rfl, rfl⟩
    -- a prefix has bytes, so this is not the end of the buffer
    have hne : (data.drop cursor).isEmpty = false := by
      have hpos : 0 < head.length := by rcases hm.length_eq with h | h <;> omega
      obtain ⟨b, bs, rfl⟩ := List.exists_cons_of_length_pos hpos
      rw [hdata]
      rfl
    let afterHead : Cursor := ⟨cursor + head.length, Part.allBytes body ++ post⟩
    let afterBody : Cursor := ⟨cursor + head.length + (Part.allBytes body).length, post⟩
    have hlength : (⟨cursor, data.drop cursor⟩ : Cursor).length = .ok ((Part.allBytes body).length, afterHead) :=
      Cursor.length_eq_ok.2 ⟨head, hm, by rw [hdata, List.append_assoc], rfl⟩
    have hsplit : afterHead.split (Part.allBytes body).length =
        .ok (⟨afterHead.offset, Part.allBytes body⟩, afterBody) :=
      Cursor.split_eq_ok.2 ⟨_, rfl, rfl, rfl, rfl⟩
    obtain ⟨rest, hread, hrest⟩ := (body_eq_ok hm.lt_size afterHead.offset).2 ⟨body, hcar, rfl⟩
    simp [hne, hlength, hsplit, hread, hrest, afterHead, afterBody]

/-- What was read is a form of its row, and stands between the cursor and the next record. -/
theorem carries_of_readAt {data : Bytes} {cursor : Nat} {d : Decoded} (h : c.readAt data cursor = .ok (some d)) :
    ∃ ps, c.Carries ps d.row ∧ Part.allBytes ps = (data.drop cursor).take (d.next - cursor) ∧
      (Part.allBytes ps).length = d.next - cursor := by
  obtain ⟨head, body, post, hm, hcar, hdrop, -, hnext⟩ := readAt_eq_ok.1 h
  have hlen : (head ++ Part.allBytes body).length = d.next - cursor := by
    rw [hnext, List.length_append]
    omega
  refine ⟨.measure head :: body, ⟨head, body, rfl, hm, hcar⟩, ?_, hlen⟩
  rw [hdrop, ← hlen, List.take_left]
  rfl

end Codec

/-! ## An example -/

/-- A schema with a block of two values and a filler, a list of numbers and a list of strings. -/
def Schema.sample : Schema where
  order := .little
  fields := [
    { id := "n", type := .int16, width := .fixed 2 },
    { id := "ok", type := .bool, width := .fixed 1 },
    { id := "gap", type := .pad, width := .fixed 1 },
    { id := "xs", type := .float32, width := .fixed 4, count := some .dynamic },
    { id := "tags", type := .bytes, width := .dynamic, count := some (.fixed 2) }]
  text := "<h(n) ?(ok) x(gap) ~:f(xs) 2:~s(tags)"

/-- The codec of the sample schema. -/
def Codec.sample : Codec := (Codec.ofSchema Schema.sample).value

/-- A row of the sample schema with `v` as its first value. -/
def Codec.sampleRow (v : Value) : Row := [v, .bool true, .pad, .list [.int (-1)], .list [.bytes [], .bytes [65]]]

theorem Codec.writeAll_sampleRow : Field.writeAll sample.endian sample.schema.fields (sampleRow (.uint 258)) =
    .ok [2, 1, 1, 0, 0, 0, 0, 1, 0, 0, 128, 191, 0, 0, 0, 9, 0, 0, 0, 0, 0, 0, 0, 1, 65] := by
  decide +kernel

theorem Codec.ofText_sample : (Codec.ofText {} Schema.sample.text).run.value = .ok Codec.sample :=
  Codec.ofText_eq_ok.2 ⟨Schema.sample, by decide +kernel, rfl⟩

end RecordPack

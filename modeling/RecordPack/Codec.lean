import RecordPack.Record.Reader
import RecordPack.Record.Writer
import RecordPack.Schema.Parser

/-!
# Codecs

A codec is a schema together with its segments, laid out once. It turns rows into records and
records into rows. A record is a length followed by a body of that length.
-/

namespace RecordPack

/-- A schema ready for use. -/
structure Codec where
  schema : Schema
  segments : List Segment
  segments_eq : segments = Segment.ofSchema schema

/-- The bytes of one row. -/
structure Record where
  /-- The length of the body. -/
  head : Bytes
  body : Bytes
deriving DecidableEq, Repr

def Record.bytes (r : Record) : Bytes := r.head ++ r.body

/-- A row read from a buffer. -/
structure Decoded where
  row : Row
  /-- The width of the length in front. -/
  headWidth : Nat
  next : Nat
deriving Repr

/-- Packing and unpacking may fail, and they report. -/
abbrev PackM := Attempt CodecError

namespace Codec

def ofSchema (s : Schema) : Logged Codec := do
  let segments := Segment.ofSchema s
  Logged.emit (.layoutCompiled s.arity segments.length)
  return { schema := s, segments, segments_eq := rfl }

def ofText (options : ParseOptions) (text : String) : PackM Codec := do
  let parsed ← Attempt.always (Schema.parse options text)
  let schema ← Attempt.lift (parsed.mapError .schema)
  Attempt.always (ofSchema schema)

/-- How the numbers of the records are laid out. -/
def endian (c : Codec) : Endian := c.schema.order.endian

/-! ## Writing -/

/-- The record of a row, for a buffer that holds `start` bytes. -/
def record (c : Codec) (start : Nat) (row : Row) : Except CodecError Record := do
  if row.length ≠ c.schema.arity then throw (.fieldNumber c.schema.arity row.length)
  -- the body stands after a length in the short form, which is widened when it is too long
  let body ← Writer.segments c.endian (start + 4) c.segments row
  let head ← Writer.lengthBytes body.length
  return { head, body }

/-- The record of a row on its own. -/
def encode (c : Codec) (row : Row) : Except CodecError Bytes :=
  (c.record 0 row).map Record.bytes

/-- The record of a row that is appended to a buffer. -/
def append (c : Codec) (data : Bytes) (row : Row) : PackM Record := do
  let r ← Attempt.lift (c.record data.length row)
  Attempt.emit (.recordWritten r.bytes.length data.length)
  return r

/-- The number of bytes that a row adds to a buffer, and the buffer with them. A row that cannot be
written leaves the buffer as it is. -/
def appendTo (c : Codec) (data : Bytes) (row : Row) : Logged (Except CodecError Nat × Bytes) := do
  match ← (c.append data row).run with
  | .ok r => return (.ok r.bytes.length, data ++ r.bytes)
  | .error e => return (.error e, data)

/-! ## Reading -/

/-- The record at `cursor`, or nothing at the end of the buffer and beyond. -/
def readAt (c : Codec) (data : Bytes) (cursor : Nat) : Except CodecError (Option Decoded) := do
  let start : Cursor := ⟨cursor, data.drop cursor⟩
  if start.rest.isEmpty then return none
  let (size, afterHead) ← start.length
  let (body, afterBody) ← afterHead.split size
  let (row, rest) ← Reader.segments c.endian c.segments body
  if !rest.rest.isEmpty then throw (.trailingBytes rest.offset rest.rest.length)
  return some { row, headWidth := afterHead.offset - cursor, next := afterBody.offset }

/-- The record at `cursor`, reported. -/
def decodeNext (c : Codec) (data : Bytes) (cursor : Nat) : PackM (Option Decoded) := do
  let d? ← Attempt.lift (c.readAt data cursor)
  if let some d := d? then Attempt.emit (.recordRead (d.next - cursor) cursor)
  return d?

@[simp] theorem value_decodeNext (c : Codec) (data : Bytes) (cursor : Nat) :
    (c.decodeNext data cursor).run.value = c.readAt data cursor := by
  simp only [decodeNext, Attempt.value_bind, Attempt.value_lift]
  cases c.readAt data cursor with
  | error e => rfl
  | ok d? => cases d? <;> rfl

/-! ## Rows by name -/

/-- The values of a row, each with the id of its field. -/
def named (c : Codec) (row : Row) : List (String × Value) := c.schema.ids.zip row

/-- The value that named values give a field: the first with its id. A single filler needs none. -/
def valueOf (pairs : List (String × Value)) (f : Field) : Except CodecError Value :=
  match pairs.find? (·.1 == f.id) with
  | some (_, v) => .ok v
  | none => if f.type = .pad ∧ f.count = none then .ok .pad else .error (.missingField f.id)

/-- The row of named values in any order. Every name has to be the id of a field. -/
def rowOfNamed (c : Codec) (pairs : List (String × Value)) : Except CodecError Row :=
  match pairs.find? fun p => (c.schema.position? p.1).isNone with
  | some (id, _) => .error (.unknownField id)
  | none => c.schema.fields.mapM (valueOf pairs)

end Codec

/-! ## Every record takes up bytes, its length first -/

theorem LengthPrefix.width_of_read {offset : Nat} {rest : Bytes} {w n : Nat}
    (h : LengthPrefix.read offset rest = .ok (w, n)) : w = 4 ∨ w = 8 := by
  simp only [LengthPrefix.read] at h
  split at h
  · cases h
  · split at h
    · cases h; exact .inl rfl
    · split at h
      · cases h
      · cases h; exact .inr rfl

/-- What a cursor goes past for a length is the width that the length is read with. -/
theorem Cursor.read_of_length {c c' : Cursor} {n : Nat} (h : c.length = .ok (n, c')) :
    ∃ width, LengthPrefix.read c.offset c.rest = .ok (width, n) ∧
      c'.offset = c.offset + width := by
  simp only [Cursor.length] at h
  split at h
  · next width m hread =>
    cases h
    exact ⟨width, hread, rfl⟩
  · cases h

theorem Cursor.lt_offset_of_length {c c' : Cursor} {n : Nat} (h : c.length = .ok (n, c')) :
    c.offset < c'.offset := by
  obtain ⟨width, hread, hoffset⟩ := read_of_length h
  have := LengthPrefix.width_of_read hread
  omega

theorem Cursor.le_offset_of_split {c piece c' : Cursor} {n : Nat}
    (h : c.split n = .ok (piece, c')) : c.offset ≤ c'.offset := by
  simp only [Cursor.split, Cursor.take] at h
  split at h
  · cases h
  · cases h
    simp [Cursor.skip]

/-- What comes before the body of a record, and where the body ends. -/
theorem Codec.cursors_of_readAt {c : Codec} {data : Bytes} {cursor : Nat} {d : Decoded}
    (h : c.readAt data cursor = .ok (some d)) :
    cursor < data.length ∧ ∃ size afterHead body afterBody,
      Cursor.length ⟨cursor, data.drop cursor⟩ = .ok (size, afterHead) ∧
      afterHead.split size = .ok (body, afterBody) ∧
      d.headWidth = afterHead.offset - cursor ∧ d.next = afterBody.offset := by
  simp only [Codec.readAt, bind, Except.bind, pure, Except.pure] at h
  split at h
  · cases h
  · next hne =>
    split at h
    · cases h
    · next p hp =>
      split at h
      · cases h
      · next q hq =>
        split at h
        · cases h
        · split at h
          · cases h
          · cases h
            simp only [List.isEmpty_iff, List.drop_eq_nil_iff] at hne
            exact ⟨by omega, p.1, p.2, q.1, q.2, hp, hq, rfl, rfl⟩

/-- The next record starts after this one, which starts inside the buffer. -/
theorem Codec.lt_next_of_readAt {c : Codec} {data : Bytes} {cursor : Nat} {d : Decoded}
    (h : c.readAt data cursor = .ok (some d)) : cursor < data.length ∧ cursor < d.next := by
  obtain ⟨hlt, size, afterHead, body, afterBody, hhead, hbody, -, hnext⟩ := cursors_of_readAt h
  have hstart := Cursor.lt_offset_of_length hhead
  have hstop := Cursor.le_offset_of_split hbody
  exact ⟨hlt, hnext ▸ Nat.lt_of_lt_of_le hstart hstop⟩

/-- The length in front of a record stands at its cursor. -/
theorem Codec.decode_of_readAt {c : Codec} {data : Bytes} {cursor : Nat} {d : Decoded}
    (h : c.readAt data cursor = .ok (some d)) :
    ∃ size, LengthPrefix.decode data cursor = .ok (d.headWidth, size) := by
  obtain ⟨-, size, afterHead, body, afterBody, hhead, -, hwidth, -⟩ := cursors_of_readAt h
  obtain ⟨width, hread, hoffset⟩ := Cursor.read_of_length hhead
  have hread : LengthPrefix.decode data cursor = .ok (width, size) := hread
  exact ⟨size, by rw [hread, hwidth, hoffset, Nat.add_sub_cancel_left]⟩

end RecordPack

import RecordPack.Proofs.Addressing.Safety

/-!
# Records by index and offset

A record is put together and taken apart around the segments: `Codec.putRecord` and `Codec.getAt` do with words,
indices and offsets what `Codec.record` and `Codec.readAt` do without them. For a schema that is accepted they are at
no trap, and that is all that could tell them apart (`Codec.putRecord_eq`, `Codec.getAt_eq`).
-/

namespace RecordPack

open Addressing

namespace Codec

variable {c : Codec}

/-- The record of a row, for a buffer that holds `start` bytes. -/
def putRecord (c : Codec) (start : Nat) (row : Row) : Except Halt Record := do
  if row.length ≠ c.schema.arity then throw (.error (.fieldNumber c.schema.arity row.length))
  let body ← putSegments c.endian (start + 4) row c.segments
  let head ← untrapped (Writer.lengthBytes body.length)
  return { head, body }

/-- The record at `cursor`, or nothing at the end of the buffer and beyond. -/
def getAt (c : Codec) (data : Bytes) (cursor : Nat) : Except Halt (Option Decoded) := do
  let start : Cursor := ⟨cursor, data.drop cursor⟩
  if start.rest.isEmpty then return none
  let (size, afterHead) ← untrapped start.length
  let (body, afterBody) ← untrapped (afterHead.split size)
  let (row, rest) ← getSegments c.endian c.segments body
  if !rest.rest.isEmpty then throw (.error (.trailingBytes rest.offset rest.rest.length))
  return some { row, headWidth := afterHead.offset - cursor, next := afterBody.offset }

theorem putRecord_eq (hwf : c.schema.WellFormed) (start : Nat) (row : Row) :
    c.putRecord start row = untrapped (c.record start row) := by
  unfold putRecord record
  by_cases hrow : row.length = c.schema.arity
  · have hput := (safe_of_wellFormed hwf).put c.endian (start + 4) row hrow
    rw [← c.segments_eq] at hput
    rw [if_neg (not_not_intro hrow), if_neg (not_not_intro hrow), hput]
    refine untrapped_bind_congr fun body _ => untrapped_bind_congr fun head _ => rfl
  · rw [if_pos hrow, if_pos hrow]
    rfl

theorem getAt_eq (hwf : c.schema.WellFormed) (data : Bytes) (cursor : Nat) :
    c.getAt data cursor = untrapped (c.readAt data cursor) := by
  have hget := fun body => (safe_of_wellFormed hwf).get c.endian body
  rw [← c.segments_eq] at hget
  unfold getAt readAt
  simp only [hget]
  split
  · rfl
  · refine untrapped_bind_congr fun (size, afterHead) _ => untrapped_bind_congr fun (body, afterBody) _ => ?_
    refine untrapped_bind_congr fun (row, rest) _ => ?_
    simp only
    split <;> rfl

end Codec

end RecordPack

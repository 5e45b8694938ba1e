import RecordPack.Proofs.Addressing.Records
import RecordPack.Proofs.Record.Faults

/-!
# Errors of reading and errors of writing

An error of reading says that a buffer is damaged (`CodecError.isDecodeError`), and an error of writing never says so,
though the two directions share the errors of lengths: a length that is read may be cut short, and one that is written
may be too long. So it is known from the error alone which way it came (`Codec.failsOnly_readAt`,
`Codec.failsOnly_record`). Neither direction comes to a slot in a segment of the wrong class
(`Codec.failsOnly_putRecord`, `Codec.failsOnly_getAt`).
-/

namespace RecordPack

open Addressing (Halt untrapped)

/-- The error of a length goes the way of the length. -/
theorem failsOnly_length {α : Type} {b : Bool} {x : Except LengthError α}
    (h : FailsOnly (fun cause => (CodecError.length cause).isDecodeError = b) x) :
    FailsOnly (·.isDecodeError = b) (x.mapError CodecError.length) := h.mapError fun _ => id

/-! ## Reading -/

theorem LengthPrefix.failsOnly_read (offset : Nat) (rest : Bytes) :
    FailsOnly (fun cause => (CodecError.length cause).isDecodeError = true) (read offset rest) := by
  intro cause h
  obtain ⟨need, -, -, rfl⟩ := read_eq_error h
  rfl

theorem Want.Missed.isDecodeError {want : Want} {here : Cursor} {err : CodecError} (h : want.Missed here err) :
    err.isDecodeError = true := by
  cases h <;> rfl

theorem Field.FailsAt.isDecodeError {f : Field} {here : Cursor} {err : CodecError} (h : f.FailsAt here err) :
    err.isDecodeError = true := by
  cases h with
  | body _ _ hmiss => exact hmiss.isDecodeError
  | payload _ _ _ _ _ _ _ _ _ _ hmiss => exact hmiss.isDecodeError
  | overflow => rfl
  | unused => rfl

namespace Codec

theorem failsOnly_readBody (c : Codec) (body : Cursor) : FailsOnly (·.isDecodeError = true) (c.readBody body) := by
  refine FailsOnly.bind ?_ fun (row, rest) => ?_
  · intro err h
    obtain ⟨-, -, -, hfail⟩ := Reader.failsAmong_of_segments c.covers h
    exact hfail.isDecodeError
  · unfold Reader.usedUp
    split
    · exact failsOnly_ok row
    · exact failsOnly_error rfl

theorem failsOnly_readAt (c : Codec) (data : Bytes) (cursor : Nat) :
    FailsOnly (·.isDecodeError = true) (c.readAt data cursor) := by
  rw [readAt_eq]
  split
  · exact failsOnly_ok none
  · refine FailsOnly.bind (fun err h => (Cursor.missed_of_length h).isDecodeError) fun (size, afterHead) => ?_
    refine FailsOnly.bind (fun err h => (Cursor.missed_of_split h).isDecodeError) fun (body, afterBody) => ?_
    exact FailsOnly.bind (c.failsOnly_readBody body) fun row => failsOnly_ok _

end Codec

/-! ## Writing -/

theorem LengthPrefix.failsOnly_encode (n : Nat) :
    FailsOnly (fun cause => (CodecError.length cause).isDecodeError = false) (encode n) := by
  intro cause h
  obtain ⟨-, rfl⟩ := encode_eq_error_iff.1 h
  rfl

namespace Strings

theorem failsOnly_payloadLength (ss : List Bytes) :
    FailsOnly (fun cause => (CodecError.length cause).isDecodeError = false) (payloadLength ss) := by
  induction ss with
  | nil => exact failsOnly_ok 0
  | cons s ss ih =>
    unfold payloadLength
    split
    · exact failsOnly_error rfl
    · exact ih.map

theorem failsOnly_write (ss : List Bytes) :
    FailsOnly (fun cause => (CodecError.length cause).isDecodeError = false) (write ss) := by
  induction ss with
  | nil => exact failsOnly_ok []
  | cons s ss ih =>
    exact FailsOnly.bind (LengthPrefix.failsOnly_encode s.length).map fun b => ih.bind fun bs => failsOnly_ok _

end Strings

namespace Writer

variable {α : Type}

/-- What a field does not take is its own affair. -/
theorem failsOnly_field (id : String) (x : Except Fault α) :
    FailsOnly (·.isDecodeError = false) (x.mapError (CodecError.field id)) := by
  intro err h
  obtain ⟨fault, -, rfl⟩ := mapError_eq_error.1 h
  rfl

theorem failsOnly_lengthBytes (n : Nat) : FailsOnly (·.isDecodeError = false) (lengthBytes n) :=
  failsOnly_length (LengthPrefix.failsOnly_encode n)

theorem failsOnly_reserve (position width : Nat) : FailsOnly (·.isDecodeError = false) (reserve position width) := by
  unfold reserve
  split
  · exact failsOnly_ok ()
  · exact failsOnly_error rfl

theorem failsOnly_fixedSlots (e : Endian) (slots : List Slot) : ∀ row : Row,
    FailsOnly (·.isDecodeError = false) (fixedSlots e slots row) := by
  induction slots with
  | nil =>
    intro row
    exact failsOnly_ok []
  | cons slot slots ih =>
    intro row
    cases row with
    | nil => exact failsOnly_ok []
    | cons v vs => exact FailsOnly.bind (failsOnly_field slot.id _) fun b => (ih vs).bind fun bs => failsOnly_ok _

theorem failsOnly_dynamicSlot (e : Endian) (position : Nat) (slot : Slot) (v : Value) :
    FailsOnly (·.isDecodeError = false) (dynamicSlot e position slot v) := by
  unfold dynamicSlot
  split
  case h_1 =>
    refine FailsOnly.bind (failsOnly_field slot.id _) fun s => ?_
    exact failsOnly_length (LengthPrefix.failsOnly_encode s.length).map
  case h_2 count =>
    refine FailsOnly.bind (failsOnly_field slot.id _) fun items => ?_
    refine FailsOnly.bind (failsOnly_field slot.id _) fun _ => ?_
    refine FailsOnly.bind (failsOnly_field slot.id _) fun strings => ?_
    refine FailsOnly.bind (failsOnly_length (Strings.failsOnly_payloadLength strings)) fun size => ?_
    refine FailsOnly.bind (failsOnly_lengthBytes size) fun head => ?_
    exact FailsOnly.bind (failsOnly_length (Strings.failsOnly_write strings)) fun payload => failsOnly_ok _
  case h_3 type itemWidth =>
    refine FailsOnly.bind (failsOnly_field slot.id _) fun items => ?_
    simp only
    split
    · exact failsOnly_error rfl
    · refine FailsOnly.bind (failsOnly_lengthBytes items.length) fun head => ?_
      refine FailsOnly.bind (failsOnly_reserve _ _) fun _ => ?_
      exact FailsOnly.bind (failsOnly_field slot.id _) fun block => failsOnly_ok _
  case h_4 =>
    refine FailsOnly.bind (failsOnly_field slot.id _) fun strings => ?_
    refine FailsOnly.bind (failsOnly_length (Strings.failsOnly_payloadLength strings)) fun size => ?_
    refine FailsOnly.bind (failsOnly_lengthBytes size) fun head => ?_
    refine FailsOnly.bind (failsOnly_lengthBytes strings.length) fun count => ?_
    exact FailsOnly.bind (failsOnly_length (Strings.failsOnly_write strings)) fun payload => failsOnly_ok _
  case h_5 => exact failsOnly_ok []

theorem failsOnly_dynamicSlots (e : Endian) (slots : List Slot) : ∀ (position : Nat) (row : Row),
    FailsOnly (·.isDecodeError = false) (dynamicSlots e position slots row) := by
  induction slots with
  | nil =>
    intro position row
    exact failsOnly_ok []
  | cons slot slots ih =>
    intro position row
    cases row with
    | nil => exact failsOnly_ok []
    | cons v vs =>
      exact FailsOnly.bind (failsOnly_dynamicSlot e position slot v) fun b => (ih _ vs).bind fun bs => failsOnly_ok _

theorem failsOnly_segment (e : Endian) (position : Nat) (seg : Segment) (row : Row) :
    FailsOnly (·.isDecodeError = false) (segment e position seg row) := by
  cases seg with
  | fixed run =>
    exact FailsOnly.bind (failsOnly_reserve position run.width) fun _ => failsOnly_fixedSlots e run.slots row
  | dynamic slots => exact failsOnly_dynamicSlots e slots position row

theorem failsOnly_segments (e : Endian) (segs : List Segment) : ∀ (position : Nat) (row : Row),
    FailsOnly (·.isDecodeError = false) (segments e position segs row) := by
  induction segs with
  | nil =>
    intro position row
    exact failsOnly_ok []
  | cons seg segs ih =>
    intro position row
    exact FailsOnly.bind (failsOnly_segment e position seg _) fun b => (ih _ _).bind fun bs => failsOnly_ok _

end Writer

namespace Codec

theorem failsOnly_record (c : Codec) (start : Nat) (row : Row) :
    FailsOnly (·.isDecodeError = false) (c.record start row) := by
  unfold record
  split
  · exact failsOnly_error rfl
  · refine FailsOnly.bind (Writer.failsOnly_segments c.endian c.segments _ row) fun body => ?_
    exact FailsOnly.bind (Writer.failsOnly_lengthBytes body.length) fun head => failsOnly_ok _

theorem failsOnly_valueOf (pairs : List (String × Value)) (f : Field) :
    FailsOnly (·.isDecodeError = false) (valueOf pairs f) := by
  unfold valueOf
  split
  · exact failsOnly_ok _
  · split
    · exact failsOnly_ok _
    · exact failsOnly_error rfl

theorem failsOnly_rowOfNamed (c : Codec) (pairs : List (String × Value)) :
    FailsOnly (·.isDecodeError = false) (c.rowOfNamed pairs) := by
  unfold rowOfNamed
  split
  · exact failsOnly_error rfl
  · exact FailsOnly.mapM fun f _ => failsOnly_valueOf pairs f

end Codec

/-! ## By index and offset -/

theorem FailsOnly.untrapped {α : Type} {P : CodecError → Prop} {x : Except CodecError α} (h : FailsOnly P x) :
    FailsOnly (fun halt => ∃ err, halt = .error err ∧ P err) (untrapped x) :=
  h.mapError fun err herr => ⟨err, rfl, herr⟩

namespace Codec

variable {c : Codec}

theorem failsOnly_getAt (hwf : c.schema.WellFormed) (data : Bytes) (cursor : Nat) :
    FailsOnly (fun halt => ∃ err, halt = Halt.error err ∧ err.isDecodeError = true) (c.getAt data cursor) := by
  rw [getAt_eq hwf]
  exact (c.failsOnly_readAt data cursor).untrapped

theorem failsOnly_putRecord (hwf : c.schema.WellFormed) (start : Nat) (row : Row) :
    FailsOnly (fun halt => ∃ err, halt = Halt.error err ∧ err.isDecodeError = false) (c.putRecord start row) := by
  rw [putRecord_eq hwf]
  exact (c.failsOnly_record start row).untrapped

end Codec

end RecordPack

import RecordPack.Codec

/-!
# Reading behind other bytes

A reader looks at the bytes in front of it, and at where it stands for nothing but the places in its errors. So
with more bytes in front of a buffer it reads the same, and the places move by their number (`Codec.readAt_append`).
That is proved for each reader from those that it calls: what it does is shifted if each of its steps is
(`shifted_bind`).
-/

namespace RecordPack

/-! ## Places with more bytes in front -/

/-- The error in a buffer with `n` more bytes in front. -/
def LengthError.shift (n : Nat) : LengthError → LengthError
  | tooLong length => tooLong length
  | malformed offset need available => malformed (offset + n) need available

/-- The error in a buffer with `n` more bytes in front: if it names a place there, that place has moved. -/
def CodecError.shift (n : Nat) : CodecError → CodecError
  | length cause => length (cause.shift n)
  | truncated offset need available => truncated (offset + n) need available
  | trailingBytes offset remaining => trailingBytes (offset + n) remaining
  | e => e

/-- The cursor in a buffer with `n` more bytes in front. -/
def Cursor.shift (n : Nat) (c : Cursor) : Cursor := ⟨c.offset + n, c.rest⟩

/-- What was read from a buffer with `n` more bytes in front. -/
def Decoded.shift (n : Nat) (d : Decoded) : Decoded := { d with next := d.next + n }

/-- What comes of reading with `n` more bytes in front, where the result is changed by `g`. -/
def shifted {α β : Type} (n : Nat) (g : α → β) (x : Except CodecError α) : Except CodecError β :=
  (x.map g).mapError (CodecError.shift n)

variable {α α' β β' : Type} {n : Nat}

@[simp] theorem shifted_ok (g : α → β) (a : α) : shifted n g (.ok a) = .ok (g a) := rfl

@[simp] theorem shifted_error (g : α → β) (e : CodecError) : shifted n g (.error e) = .error (e.shift n) := rfl

/-- Steps that are shifted, one after the other, are shifted together. -/
theorem shifted_bind {g : α → α'} {k : β → β'} {x : Except CodecError α} {f : α → Except CodecError β}
    {f' : α' → Except CodecError β'} (h : ∀ a, f' (g a) = shifted n k (f a)) :
    (shifted n g x >>= f') = shifted n k (x >>= f) := by
  cases x with
  | error e => rfl
  | ok a => exact h a

/-! ## Cursors -/

theorem LengthPrefix.read_add (offset n : Nat) (rest : Bytes) :
    read (offset + n) rest = (read offset rest).mapError (LengthError.shift n) := by
  unfold read
  simp only
  split
  · rfl
  · split
    · rfl
    · split <;> rfl

namespace Cursor

/-- A result together with the cursor after it. -/
def shiftAfter (n : Nat) (p : α × Cursor) : α × Cursor := (p.1, p.2.shift n)

theorem skip_shift (c : Cursor) (k : Nat) : (c.shift n).skip k = (c.skip k).shift n := by
  simp only [skip, shift, Nat.add_right_comm]

theorem take_shift (c : Cursor) (k : Nat) : (c.shift n).take k = shifted n (shiftAfter n) (c.take k) := by
  by_cases h : (c.rest.take k).length < k
  · have h' : ((c.shift n).rest.take k).length < k := h
    simp only [take, if_pos h, if_pos h']
    rfl
  · have h' : ¬ ((c.shift n).rest.take k).length < k := h
    simp only [take, if_neg h, if_neg h', skip_shift]
    rfl

theorem split_shift (c : Cursor) (k : Nat) :
    (c.shift n).split k = shifted n (Prod.map (shift n) (shift n)) (c.split k) := by
  rw [split, split, take_shift]
  cases c.take k <;> rfl

theorem length_shift (c : Cursor) : (c.shift n).length = shifted n (shiftAfter n) c.length := by
  have hread : LengthPrefix.read (c.shift n).offset (c.shift n).rest =
      (LengthPrefix.read c.offset c.rest).mapError (LengthError.shift n) := LengthPrefix.read_add _ _ _
  rw [length, length, hread]
  cases LengthPrefix.read c.offset c.rest with
  | error e => rfl
  | ok p => exact congrArg (fun c => Except.ok (p.2, c)) (skip_shift c p.1)

end Cursor

/-! ## Readers -/

namespace Reader

open Cursor (shiftAfter take_shift split_shift length_shift)

theorem string_shift (c : Cursor) : string (c.shift n) = shifted n (shiftAfter n) (string c) := by
  rw [string, length_shift]
  apply shifted_bind
  exact fun (k, c) => take_shift c k

theorem strings_shift (count : Nat) (c : Cursor) :
    strings count (c.shift n) = shifted n (shiftAfter n) (strings count c) := by
  induction count generalizing c with
  | zero => rfl
  | succ count ih =>
    rw [strings, string_shift]
    apply shifted_bind
    rintro ⟨s, c⟩
    simp only [shiftAfter, ih]
    apply shifted_bind
    exact fun _ => rfl

/-- The end of a payload is no place that an error names. -/
theorem payload_shift (id : String) (count : Nat) (c : Cursor) :
    payload id count (c.shift n) = shifted n (fun v => v) (payload id count c) := by
  rw [payload, strings_shift]
  apply shifted_bind
  rintro ⟨ss, c⟩
  by_cases h : c.rest.isEmpty = true
  · simp [shiftAfter, Cursor.shift, h, pure, Except.pure]
  · simp [shiftAfter, Cursor.shift, h, throw, throwThe, MonadExceptOf.throw, CodecError.shift]

theorem dynamicSlot_shift (e : Endian) (slot : Slot) (c : Cursor) :
    dynamicSlot e slot (c.shift n) = shifted n (shiftAfter n) (dynamicSlot e slot c) := by
  unfold dynamicSlot
  split
  case h_1 =>
    rw [string_shift]
    apply shifted_bind
    exact fun _ => rfl
  case h_2 count =>
    rw [length_shift]
    apply shifted_bind
    rintro ⟨size, c⟩
    simp only [shiftAfter, split_shift]
    apply shifted_bind
    rintro ⟨piece, c⟩
    simp only [Prod.map, payload_shift]
    apply shifted_bind
    exact fun _ => rfl
  case h_3 itemWidth _ =>
    rw [length_shift]
    apply shifted_bind
    rintro ⟨count, c⟩
    simp only [shiftAfter, take_shift]
    by_cases h : UInt64.size ≤ count * itemWidth
    · rw [if_pos h, if_pos h]
      rfl
    · rw [if_neg h, if_neg h]
      apply shifted_bind
      exact fun _ => rfl
  case h_4 =>
    rw [length_shift]
    apply shifted_bind
    rintro ⟨size, c⟩
    simp only [shiftAfter, length_shift]
    apply shifted_bind
    rintro ⟨count, c⟩
    simp only [shiftAfter, split_shift]
    apply shifted_bind
    rintro ⟨piece, c⟩
    simp only [Prod.map, payload_shift]
    apply shifted_bind
    exact fun _ => rfl
  case h_5 => rfl

theorem dynamicSlots_shift (e : Endian) (slots : List Slot) (c : Cursor) :
    dynamicSlots e slots (c.shift n) = shifted n (shiftAfter n) (dynamicSlots e slots c) := by
  induction slots generalizing c with
  | nil => rfl
  | cons slot slots ih =>
    rw [dynamicSlots, dynamicSlot_shift]
    apply shifted_bind
    rintro ⟨v, c⟩
    simp only [shiftAfter, ih]
    apply shifted_bind
    exact fun _ => rfl

theorem segment_shift (e : Endian) (seg : Segment) (c : Cursor) :
    segment e seg (c.shift n) = shifted n (shiftAfter n) (segment e seg c) := by
  cases seg with
  | fixed run =>
    rw [segment, take_shift]
    apply shifted_bind
    exact fun _ => rfl
  | dynamic slots => exact dynamicSlots_shift e slots c

theorem segments_shift (e : Endian) (segs : List Segment) (c : Cursor) :
    segments e segs (c.shift n) = shifted n (shiftAfter n) (segments e segs c) := by
  induction segs generalizing c with
  | nil => rfl
  | cons seg segs ih =>
    rw [segments, segment_shift]
    apply shifted_bind
    rintro ⟨vs, c⟩
    simp only [shiftAfter, ih]
    apply shifted_bind
    exact fun _ => rfl

end Reader

/-! ## Records -/

/-- With more bytes in front a record reads the same, and every place has moved. -/
theorem Codec.readAt_append (c : Codec) (a b : Bytes) (cursor : Nat) :
    c.readAt (a ++ b) (cursor + a.length) = shifted a.length (Option.map (.shift a.length)) (c.readAt b cursor) := by
  have hdrop : (a ++ b).drop (cursor + a.length) = b.drop cursor := by
    rw [Nat.add_comm, List.drop_length_add_append]
  have hstart : (⟨cursor + a.length, b.drop cursor⟩ : Cursor) = (⟨cursor, b.drop cursor⟩ : Cursor).shift a.length :=
    rfl
  simp only [readAt, hdrop]
  by_cases hempty : (b.drop cursor).isEmpty = true
  · rw [if_pos hempty, if_pos hempty]
    rfl
  · rw [if_neg hempty, if_neg hempty, hstart, Cursor.length_shift]
    apply shifted_bind
    rintro ⟨size, afterHead⟩
    simp only [Cursor.shiftAfter, Cursor.split_shift]
    apply shifted_bind
    rintro ⟨body, afterBody⟩
    simp only [Prod.map, Reader.segments_shift]
    apply shifted_bind
    rintro ⟨row, rest⟩
    by_cases hrest : (!rest.rest.isEmpty) = true
    · simp only [Cursor.shiftAfter, Cursor.shift, hrest, if_true]
      rfl
    · -- the width of the length is a distance, and stays
      simp only [Cursor.shiftAfter, Cursor.shift, hrest, Nat.add_sub_add_right]
      rfl

end RecordPack

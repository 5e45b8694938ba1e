import RecordPack.Proofs.PrefixCode
import RecordPack.Proofs.Record.Faults
import RecordPack.Proofs.Record.Translation

/-!
# A record is read by itself

Where the length at the cursor is there, and as many bytes behind it as it says, these bytes alone decide what is read
(`Codec.readAt_of_frame`). What stands behind them changes nothing (`Codec.readAt_behind`), and what stands in front
moves the places in the result (`Codec.readAt_append`). So a record can be taken out of a buffer and put into another
one (`Codec.readAt_between`, `Codec.readAt_alone`).
-/

namespace RecordPack

/-! ## Frames in a longer buffer -/

namespace Frame

variable {data : Bytes} {cursor : Nat} (fr : Frame data cursor)

/-- The length and the body. -/
def bytes : Bytes := (data.drop cursor).take (fr.width + fr.size)

/-- The same record, with more bytes behind the buffer. -/
def behind (more : Bytes) : Frame (data ++ more) cursor where
  width := fr.width
  size := fr.size
  decode_eq := LengthPrefix.decode_append_right fr.decode_eq more
  stop_le := by
    have hle := fr.stop_le
    rw [List.length_append]
    omega

theorem body_behind (more : Bytes) : (fr.behind more).body = fr.body := by
  have hle := fr.stop_le
  have hstart : (fr.behind more).start = fr.start := rfl
  have hsize : (fr.behind more).size = fr.size := rfl
  have hdrop : fr.start ≤ data.length := by rw [start]; omega
  have htake : fr.size ≤ (data.drop fr.start).length := by rw [List.length_drop, start]; omega
  rw [body, hstart, hsize, List.drop_append_of_le_length hdrop, List.take_append_of_le_length htake, ← body]

theorem length_bytes : fr.bytes.length = fr.width + fr.size := by
  have hle := fr.stop_le
  rw [bytes, List.length_take, List.length_drop]
  omega

theorem decode_bytes : LengthPrefix.decode fr.bytes 0 = .ok (fr.width, fr.size) := by
  obtain ⟨-, hlen, hm⟩ := LengthPrefix.measures_of_decode fr.decode_eq
  have hhead : fr.bytes.take fr.width = (data.drop cursor).take fr.width := by
    rw [bytes, List.take_take, Nat.min_eq_left (Nat.le_add_right _ _)]
  rw [LengthPrefix.decode, List.drop_zero, ← List.take_append_drop fr.width fr.bytes, hhead,
    LengthPrefix.read_of_measures hm, hlen]

/-- The same record, in a buffer of its own. -/
def alone : Frame fr.bytes 0 where
  width := fr.width
  size := fr.size
  decode_eq := fr.decode_bytes
  stop_le := by rw [fr.length_bytes, Nat.zero_add]

/-- A buffer is what stands in front of a record, the record, and what stands behind it. -/
theorem eq_append : data = data.take cursor ++ (fr.bytes ++ data.drop fr.stop) := by
  have hstop : data.drop fr.stop = (data.drop cursor).drop (fr.width + fr.size) := by
    rw [List.drop_drop, stop, Nat.add_assoc]
  rw [hstop, bytes, List.take_append_drop, List.take_append_drop]

end Frame

/-! ## Records in a longer buffer -/

namespace Codec

variable {data : Bytes} {cursor : Nat}

/-- Where a record is all there, its body is what is read, up to the end that its length says. -/
theorem readAt_of_frame (c : Codec) (fr : Frame data cursor) : c.readAt data cursor =
    (c.readBody ⟨fr.start, fr.body⟩).map fun row => some ⟨row, fr.width, fr.stop⟩ := by
  have hpos := fr.le_start
  have hle := fr.stop_le
  have hrest : (data.drop cursor).isEmpty = false := by
    rw [List.isEmpty_eq_false_iff, ← List.length_pos_iff, List.length_drop]
    rw [Frame.start] at hpos
    omega
  have hread : LengthPrefix.read cursor (data.drop cursor) = .ok (fr.width, fr.size) := fr.decode_eq
  have hlength : (⟨cursor, data.drop cursor⟩ : Cursor).length = .ok (fr.size, ⟨fr.start, data.drop fr.start⟩) := by
    rw [Cursor.length, hread]
    simp only [Cursor.skip, List.drop_drop, Frame.start]
  have hfit : fr.size ≤ (data.drop fr.start).length := by
    rw [List.length_drop, Frame.start]
    omega
  have hsplit : (⟨fr.start, data.drop fr.start⟩ : Cursor).split fr.size =
      .ok (⟨fr.start, fr.body⟩, (⟨fr.start, data.drop fr.start⟩ : Cursor).skip fr.size) :=
    Cursor.split_eq_ok.2 ⟨fr.body, rfl, fr.length_body, Cursor.passes_take hfit⟩
  have hwidth : fr.start - cursor = fr.width := by rw [Frame.start, Nat.add_sub_cancel_left]
  rw [readAt_eq, if_neg (ne_true_of_eq_false hrest), hlength]
  simp only [ok_bind, hsplit, hwidth]
  rfl

theorem readAt_behind (c : Codec) (fr : Frame data cursor) (more : Bytes) :
    c.readAt (data ++ more) cursor = c.readAt data cursor := by
  rw [readAt_of_frame c fr, readAt_of_frame c (fr.behind more), fr.body_behind]
  rfl

/-- Between other bytes a record reads as it does alone, and every place has moved. -/
theorem readAt_between (c : Codec) (fr : Frame data cursor) (pre post : Bytes) :
    c.readAt (pre ++ data ++ post) (pre.length + cursor) =
      shifted pre.length (Option.map (.shift pre.length)) (c.readAt data cursor) := by
  rw [List.append_assoc, Nat.add_comm, readAt_append, readAt_behind c fr]

theorem readAt_alone (c : Codec) (fr : Frame data cursor) :
    c.readAt data cursor = shifted cursor (Option.map (.shift cursor)) (c.readAt fr.bytes 0) := by
  have hle := fr.stop_le
  have hfront : (data.take cursor).length = cursor := List.length_take_of_le (by omega)
  have hmoved := readAt_between c fr.alone (data.take cursor) (data.drop fr.stop)
  rwa [List.append_assoc, ← fr.eq_append, hfront, Nat.add_zero] at hmoved

/-- Where a frame stands a record is read, if anything is. -/
theorem readAt_ne_none (c : Codec) (fr : Frame data cursor) : c.readAt data cursor ≠ .ok none := by
  rw [readAt_of_frame c fr]
  cases c.readBody ⟨fr.start, fr.body⟩ <;> nofun

/-- A record that is all there reads the same in a longer buffer: there and here the same row is read and the record
ends at the same place, or the same error is reported, and all places differ by the number of bytes in front. And in
its own buffer, too, nothing counts but the bytes of the record: alone they read as they do there, with the places
moved. -/
theorem decodeNext_between (c : Codec) (pre data post : Bytes) (cursor width size : Nat)
    (hhead : LengthPrefix.decode data cursor = .ok (width, size)) (hbody : cursor + width + size ≤ data.length) :
    ((∃ d, (c.decodeNext data cursor).run.value = .ok (some d) ∧
          (c.decodeNext (pre ++ data ++ post) (pre.length + cursor)).run.value =
            .ok (some { d with next := d.next + pre.length })) ∨
        ∃ err, (c.decodeNext data cursor).run.value = .error err ∧
          (c.decodeNext (pre ++ data ++ post) (pre.length + cursor)).run.value = .error (err.shift pre.length)) ∧
      (c.decodeNext data cursor).run.value = shifted cursor (Option.map (.shift cursor))
        (c.decodeNext ((data.drop cursor).take (width + size)) 0).run.value := by
  let fr : Frame data cursor := ⟨width, size, hhead, hbody⟩
  simp only [value_decodeNext]
  refine ⟨?_, readAt_alone c fr⟩
  have hmoved := readAt_between c fr pre post
  cases hread : c.readAt data cursor with
  | error err =>
    rw [hread] at hmoved
    exact .inr ⟨err, rfl, hmoved⟩
  | ok d? =>
    rw [hread] at hmoved
    cases d? with
    | none => exact absurd hread (readAt_ne_none c fr)
    | some d => exact .inl ⟨d, rfl, hmoved⟩

/-- The payload of the list of strings is said to have seven bytes, which end inside the length of the second string.
With more bytes behind, that length could be read, and is not. -/
theorem decodeNext_between_sample :
    let data : Bytes := [0, 0, 0, 25, 2, 1, 1, 0, 0, 0, 0, 1, 0, 0, 128, 191, 0, 0, 0, 7, 0, 0, 0, 0, 0, 0, 0, 1, 65]
    LengthPrefix.decode data 0 = .ok (4, 25) ∧ 0 + 4 + 25 ≤ data.length ∧
      (sample.decodeNext ([7, 7] ++ data ++ [9, 9]) 2).run.value = .error (.length (.malformed (24 + 2) 4 3)) := by
  intro data
  have hhead : LengthPrefix.decode data 0 = .ok (4, 25) := by decide
  have hbody : 0 + 4 + 25 ≤ data.length := by decide
  have hthere : (sample.decodeNext data 0).run.value = .error (.length (.malformed 24 4 3)) := by decide +kernel
  refine ⟨hhead, hbody, ?_⟩
  rcases (decodeNext_between sample [7, 7] data [9, 9] 0 4 25 hhead hbody).1 with ⟨d, hd, -⟩ | ⟨err, herr, hmoved⟩
  · cases hthere.symm.trans hd
  · obtain rfl : err = .length (.malformed 24 4 3) := Except.error.inj (herr.symm.trans hthere)
    exact hmoved

end Codec

end RecordPack

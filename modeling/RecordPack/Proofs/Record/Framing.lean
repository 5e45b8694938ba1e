import RecordPack.Proofs.Record.RoundTrip

/-!
# Where a record ends

A record says itself where it ends, so it is read whatever follows it (`Codec.readAt_append_right`), and no record
is the beginning of another one (`Codec.IsRecord.eq_of_append_eq`). Of a record that is cut short nothing is read
but its length: either that is cut, or the body is shorter than it says (`Codec.readAt_of_cut`).
-/

namespace RecordPack

open LengthPrefix (Measures)

namespace Codec

variable {c : Codec} {row row' : Row} {r : Record}

/-! ## A record and what follows it -/

theorem readAt_append_right {data : Bytes} {cursor : Nat} {d : Decoded}
    (h : c.readAt data cursor = .ok (some d)) (more : Bytes) : c.readAt (data ++ more) cursor = .ok (some d) := by
  obtain ⟨hinside, -⟩ := lt_next_of_readAt h
  obtain ⟨head, body, post, hm, hcar, hdrop, hwidth, hnext⟩ := readAt_eq_ok.1 h
  refine readAt_eq_ok.2 ⟨head, body, post ++ more, hm, hcar, ?_, hwidth, hnext⟩
  rw [List.drop_append_of_le_length hinside.le, hdrop, List.append_assoc]

/-- The bytes are one record, which reads as this row. -/
def IsRecord (c : Codec) (x : Bytes) (row : Row) : Prop :=
  ∃ d, c.readAt x 0 = .ok (some d) ∧ d.next = x.length ∧ d.row = row

theorem isRecord_of_carries {ps : List Part} (h : c.Carries ps row) : c.IsRecord (Part.allBytes ps) row := by
  obtain ⟨head, body, rfl, hm, hcar⟩ := h
  have hbytes : Part.allBytes (.measure head :: body) = head ++ Part.allBytes body := rfl
  refine ⟨⟨row, head.length, head.length + (Part.allBytes body).length⟩, ?_, ?_, rfl⟩
  · refine readAt_eq_ok.2 ⟨head, body, [], hm, hcar, ?_, rfl, ?_⟩
    · rw [List.drop_zero, hbytes, List.append_nil]
    · rw [Nat.zero_add]
  · rw [hbytes, List.length_append]

theorem isRecord_of_encode (hwf : c.schema.WellFormed) {x : Bytes} (h : c.encode row = .ok x) :
    c.IsRecord x (c.schema.settle row) := by
  obtain ⟨r, hr, rfl⟩ := map_eq_ok.1 h
  have hread := readAt_of_record hwf hr [] []
  rw [List.append_nil, List.nil_append, List.length_nil, Nat.zero_add] at hread
  exact ⟨_, hread, rfl, rfl⟩

/-- What starts with a record starts with no other one. -/
theorem IsRecord.eq_of_append_eq {x y xs ys : Bytes} (hx : c.IsRecord x row) (hy : c.IsRecord y row')
    (h : x ++ xs = y ++ ys) : x = y := by
  obtain ⟨d, hd, hnext, -⟩ := hx
  obtain ⟨e, he, hnext', -⟩ := hy
  -- the same record is read at the start of both
  have hread := readAt_append_right hd xs
  rw [h, readAt_append_right he ys] at hread
  cases hread
  exact List.append_inj_left h (hnext.symm.trans hnext')

theorem IsRecord.eq_of_isPrefix {x y : Bytes} (hx : c.IsRecord x row) (hy : c.IsRecord y row') (h : x <+: y) :
    x = y := by
  obtain ⟨more, hmore⟩ := h
  exact hx.eq_of_append_eq hy (hmore.trans (List.append_nil y).symm)

end Codec

/-! ## A record that is cut -/

/-- The error for a record that starts at `start` and of which only `n` bytes are there. -/
def Record.cutError (r : Record) (start n : Nat) : CodecError :=
  if n < r.head.length then .length (.malformed start (if n < 4 then 4 else 8) n)
  else .truncated (start + r.head.length) r.body.length (n - r.head.length)

namespace Codec

variable {row : Row} {r : Record}

theorem measures_of_record {c : Codec} {start : Nat} (h : c.record start row = .ok r) :
    Measures r.head r.body.length := by
  obtain ⟨-, -, -, hhead⟩ := record_eq_ok.1 h
  exact LengthPrefix.measures_of_encode hhead

/-- A record that is cut is found to be, whatever its body would read as. -/
theorem readAt_of_cut (c : Codec) (hm : Measures r.head r.body.length) (pre : Bytes) {n : Nat} (hpos : 0 < n)
    (hn : n < r.bytes.length) :
    c.readAt (pre ++ r.bytes.take n) pre.length = .error (r.cutError pre.length n) := by
  have hne : (r.bytes.take n).isEmpty = false := by
    rw [List.isEmpty_eq_false_iff, ← List.length_pos_iff, List.length_take_of_le hn.le]
    exact hpos
  unfold readAt Record.cutError
  simp only [List.drop_left, hne, Bool.false_eq_true, if_false]
  by_cases hhead : n < r.head.length
  · have htake : r.bytes.take n = r.head.take n := List.take_append_of_le_length hhead.le
    rw [htake, Cursor.length, LengthPrefix.read_take_of_measures hm hhead, if_pos hhead]
    rfl
  · -- the length is whole, and asks for more than there is
    have htake : r.bytes.take n = r.head ++ r.body.take (n - r.head.length) := by
      rw [Record.bytes, List.take_append, List.take_of_length_le (by omega)]
    have hlength : (⟨pre.length, r.bytes.take n⟩ : Cursor).length =
        .ok (r.body.length, ⟨pre.length + r.head.length, r.body.take (n - r.head.length)⟩) :=
      Cursor.length_eq_ok.2 ⟨r.head, hm, htake, rfl⟩
    rw [Record.bytes, List.length_append] at hn
    have hbody : (r.body.take (n - r.head.length)).length = n - r.head.length :=
      List.length_take_of_le (by omega)
    rw [hlength, ok_bind, Cursor.split, Cursor.take_of_lt (by simp only [hbody]; omega), if_neg hhead, hbody]
    rfl

end Codec

end RecordPack

import RecordPack.Proofs.Codec

/-!
# The writer of segments against the writer of fields

`Codec.record` writes the segments of a schema, with blocks set aside and lengths announced.
`Codec.appendTo_refines` compares it with `Field.write`, which knows one field only: a record is the bytes of
the fields in order behind their length, and a row is refused for the first of its values that its field does
not take.
-/

namespace RecordPack

namespace Field

variable {e : Endian}

/-! ## Errors -/

theorem lengthBytes_eq_error {n : Nat} {err : CodecError} (h : Writer.lengthBytes n = .error err) :
    LengthPrefix.maxLength < n ∧ err = .length (.tooLong n) := by
  obtain ⟨cause, hc, rfl⟩ := mapError_eq_error.1 h
  obtain ⟨hlt, rfl⟩ := LengthPrefix.encode_eq_error_iff.1 hc
  exact ⟨hlt, rfl⟩

theorem writeOne_eq_error {s : Bytes} {cause : LengthError} (h : Strings.writeOne s = .error cause) :
    LengthPrefix.maxLength < s.length ∧ cause = .tooLong s.length := by
  apply LengthPrefix.encode_eq_error_iff.1
  unfold Strings.writeOne at h
  cases henc : LengthPrefix.encode s.length with
  | error d =>
    rw [henc] at h
    exact h
  | ok p =>
    rw [henc] at h
    cases h

theorem itemsOf_eq_error {f : Field} {extent : Extent} {v : Value} {err : CodecError}
    (h : f.itemsOf extent v = .error err) : ∃ fault, err = .field f.id fault := by
  unfold itemsOf at h
  rcases bind_eq_error.1 h with h | ⟨items, -, h⟩
  · obtain ⟨fault, -, rfl⟩ := mapError_eq_error.1 h
    exact ⟨fault, rfl⟩
  · rcases bind_eq_error.1 h with h | ⟨u, -, h⟩
    · obtain ⟨fault, -, rfl⟩ := mapError_eq_error.1 h
      exact ⟨fault, rfl⟩
    · cases h

theorem countBytes_eq_error {extent : Extent} {n : Nat} {err : CodecError} (h : extent.countBytes n = .error err) :
    ∃ n, LengthPrefix.maxLength < n ∧ err = .length (.tooLong n) := by
  cases extent with
  | fixed _ => cases h
  | dynamic => exact ⟨n, lengthBytes_eq_error h⟩

/-- A field refuses a value under its own id, except for a length that nothing in a memory has. -/
theorem write_eq_error {f : Field} {v : Value} {err : CodecError} (h : f.write e v = .error err) :
    (∃ fault, err = .field f.id fault) ∨ ∃ n, LengthPrefix.maxLength < n ∧ err = .length (.tooLong n) := by
  unfold write at h
  split at h
  case h_1 =>
    obtain ⟨fault, -, rfl⟩ := mapError_eq_error.1 h
    exact .inl ⟨fault, rfl⟩
  case h_2 =>
    rcases bind_eq_error.1 h with h | ⟨s, -, h⟩
    · obtain ⟨fault, -, rfl⟩ := mapError_eq_error.1 h
      exact .inl ⟨fault, rfl⟩
    · obtain ⟨cause, hc, rfl⟩ := mapError_eq_error.1 h
      obtain ⟨hlt, rfl⟩ := writeOne_eq_error hc
      exact .inr ⟨s.length, hlt, rfl⟩
  case h_3 =>
    rcases bind_eq_error.1 h with h | ⟨items, -, h⟩
    · exact .inl (itemsOf_eq_error h)
    rcases bind_eq_error.1 h with h | ⟨count, -, h⟩
    · exact .inr (countBytes_eq_error h)
    rcases bind_eq_error.1 h with h | ⟨places, -, h⟩
    · obtain ⟨fault, -, rfl⟩ := mapError_eq_error.1 h
      exact .inl ⟨fault, rfl⟩
    · cases h
  case h_4 =>
    rcases bind_eq_error.1 h with h | ⟨items, -, h⟩
    · exact .inl (itemsOf_eq_error h)
    rcases bind_eq_error.1 h with h | ⟨strings, -, h⟩
    · obtain ⟨fault, -, rfl⟩ := mapError_eq_error.1 h
      exact .inl ⟨fault, rfl⟩
    rcases bind_eq_error.1 h with h | ⟨pieces, -, h⟩
    · obtain ⟨cause, hc, rfl⟩ := mapError_eq_error.1 h
      obtain ⟨s, -, hs⟩ := exists_of_mapM_eq_error hc
      obtain ⟨hlt, rfl⟩ := writeOne_eq_error hs
      exact .inr ⟨s.length, hlt, rfl⟩
    rcases bind_eq_error.1 h with h | ⟨size, -, h⟩
    · exact .inr ⟨_, lengthBytes_eq_error h⟩
    rcases bind_eq_error.1 h with h | ⟨count, -, h⟩
    · exact .inr (countBytes_eq_error h)
    · cases h

/-! ## Rows -/

/-- The field takes the value. -/
def Accepts (e : Endian) (f : Field) (v : Value) : Prop := ∃ b, f.write e v = .ok b

/-- The bytes are those of the value in its field. -/
def Writes (e : Endian) (fv : Field × Value) (p : Bytes) : Prop := fv.1.write e fv.2 = .ok p

/-- A row is written if every field takes its value, and then its bytes are theirs in order. -/
theorem writeAll_eq_ok {fs : List Field} : ∀ {row : Row} {b : Bytes}, writeAll e fs row = .ok b ↔
    ∃ pieces, List.Forall₂ (Writes e) (fs.zip row) pieces ∧
      b = pieces.flatten := by
  induction fs with
  | nil =>
    intro row b
    simp [writeAll, eq_comm]
  | cons f fs ih =>
    intro row b
    cases row with
    | nil => simp [writeAll, eq_comm]
    | cons v vs =>
      simp only [writeAll_cons, bind_eq_ok, pure_eq_ok, ih, List.zip_cons_cons, List.forall₂_cons_left_iff]
      constructor
      · rintro ⟨p, hp, _, ⟨pieces, hpieces, rfl⟩, rfl⟩
        exact ⟨p :: pieces, ⟨p, pieces, hp, hpieces, rfl⟩, rfl⟩
      · rintro ⟨_, ⟨p, pieces, hp, hpieces, rfl⟩, rfl⟩
        exact ⟨p, hp, pieces.flatten, ⟨pieces, hpieces, rfl⟩, rfl⟩

/-- The first value that its field does not take decides, whatever comes after it. -/
theorem writeAll_eq_error {i : Nat} : ∀ {fs : List Field} {row : Row} {f : Field} {v : Value} {err : CodecError},
    fs[i]? = some f → row[i]? = some v → f.write e v = .error err →
    (∀ j < i, ∀ g w, fs[j]? = some g → row[j]? = some w → g.Accepts e w) → writeAll e fs row = .error err := by
  -- induction on the place of the value that is not taken
  induction i with
  | zero =>
    intro fs row f v err hf hv herr _
    cases fs with
    | nil => cases hf
    | cons g fs =>
      cases row with
      | nil => cases hv
      | cons w row =>
        cases hf
        cases hv
        rw [writeAll_cons, herr]
        rfl
  | succ i ih =>
    intro fs row f v err hf hv herr hacc
    cases fs with
    | nil => cases hf
    | cons g fs =>
      cases row with
      | nil => cases hv
      | cons w row =>
        obtain ⟨b, hb⟩ := hacc 0 (Nat.succ_pos i) g w rfl rfl
        have htail : writeAll e fs row = .error err :=
          ih hf hv herr fun j hj g' w' hg hw => hacc (j + 1) (Nat.succ_lt_succ hj) g' w' hg hw
        rw [writeAll_cons, hb, htail]
        rfl

theorem exists_pieces {fs : List Field} {row : Row} (h : List.Forall₂ (Accepts e) fs row) :
    ∃ pieces, List.Forall₂ (Writes e) (fs.zip row) pieces := by
  induction h with
  | nil => exact ⟨[], .nil⟩
  | cons hacc _ ih =>
    obtain ⟨p, hp⟩ := hacc
    obtain ⟨pieces, hpieces⟩ := ih
    exact ⟨p :: pieces, .cons hp hpieces⟩

theorem forall₂_accepts {fs : List Field} : ∀ {row : Row} {pieces : List Bytes}, row.length = fs.length →
    List.Forall₂ (Writes e) (fs.zip row) pieces →
    List.Forall₂ (Accepts e) fs row := by
  induction fs with
  | nil =>
    intro row pieces hlen _
    obtain rfl := List.eq_nil_of_length_eq_zero hlen
    exact .nil
  | cons f fs ih =>
    intro row pieces hlen h
    obtain ⟨v, vs, rfl⟩ := List.exists_cons_of_length_eq_add_one hlen
    cases h with
    | cons hp hpieces => exact .cons ⟨_, hp⟩ (ih (Nat.succ.inj hlen) hpieces)

end Field

namespace Codec

variable {c : Codec}

/-- Nothing is asked of a buffer that holds `start` bytes which it cannot hold: every block that is set
aside for the row fits, and the body is no longer than a buffer can be. -/
structure HasRoom (c : Codec) (start : Nat) (row : Row) : Prop where
  blocks : Writer.HasRoom c.endian (start + 4) c.segments row
  body : ∀ b, Field.writeAll c.endian c.schema.fields row = .ok b → b.length ≤ LengthPrefix.maxLength

/-- Where there is room, segments make no difference. -/
theorem record_eq {start : Nat} {row : Row} (hlen : row.length = c.schema.arity) (hroom : c.HasRoom start row) :
    c.record start row = do
      let body ← Field.writeAll c.endian c.schema.fields row
      let head ← Writer.lengthBytes body.length
      return { head, body } := by
  rw [record, if_neg (not_not_intro hlen), Writer.segments_eq c.covers hroom.blocks]

theorem record_of_pieces {start : Nat} {row : Row} (hlen : row.length = c.schema.arity)
    (hroom : c.HasRoom start row) {pieces : List Bytes}
    (h : List.Forall₂ (Field.Writes c.endian) (c.schema.fields.zip row) pieces) :
    ∃ head, LengthPrefix.encode pieces.flatten.length = .ok head ∧ c.record start row = .ok ⟨head, pieces.flatten⟩ := by
  have hbody : Field.writeAll c.endian c.schema.fields row = .ok pieces.flatten :=
    Field.writeAll_eq_ok.2 ⟨pieces, h, rfl⟩
  obtain ⟨head, hhead⟩ := LengthPrefix.exists_encode (hroom.body _ hbody)
  exact ⟨head, hhead, record_eq_ok.2 ⟨hlen, hroom.blocks, hbody, hhead⟩⟩

/-- The writer of segments does what the writer of fields does. A row of another length is refused as such;
a row whose values are all taken becomes their bytes in order behind their length; any other row is refused
for the first value that is not taken, under the id of its field. The buffer then stays as it is. -/
theorem appendTo_refines (data : Bytes) (row : Row) (hroom : c.HasRoom data.length row) :
    (row.length ≠ c.schema.arity →
      (c.appendTo data row).value = (.error (.fieldNumber c.schema.arity row.length), data)) ∧
    ((∃ n out, (c.appendTo data row).value = (.ok n, out)) ↔
      List.Forall₂ (Field.Accepts c.endian) c.schema.fields row) ∧
    (row.length = c.schema.arity → ∀ pieces, List.Forall₂ (Field.Writes c.endian) (c.schema.fields.zip row) pieces →
      ∃ head, LengthPrefix.encode pieces.flatten.length = .ok head ∧
        (c.appendTo data row).value = (.ok (head ++ pieces.flatten).length, data ++ (head ++ pieces.flatten))) ∧
    (row.length = c.schema.arity → ∀ (i : Nat) (f : Field) (v : Value) (err : CodecError),
      c.schema.fields[i]? = some f → row[i]? = some v → f.write c.endian v = .error err →
      (∀ j < i, ∀ (g : Field) (w : Value), c.schema.fields[j]? = some g → row[j]? = some w → g.Accepts c.endian w) →
      (c.appendTo data row).value = (.error err, data) ∧
        ((∃ fault, err = .field f.id fault) ∨ ∃ n, LengthPrefix.maxLength < n ∧ err = .length (.tooLong n))) := by
  refine ⟨?_, ⟨?_, ?_⟩, ?_, ?_⟩
  · intro hlen
    have hrecord : c.record data.length row = .error (.fieldNumber c.schema.arity row.length) := by
      rw [record, if_pos hlen]
      rfl
    rw [value_appendTo, hrecord]
  · rintro ⟨n, out, h⟩
    obtain ⟨r, hr, -, -⟩ := appendTo_eq_ok.1 h
    obtain ⟨hlen, -, hbody, -⟩ := record_eq_ok.1 hr
    obtain ⟨pieces, hpieces, -⟩ := Field.writeAll_eq_ok.1 hbody
    exact Field.forall₂_accepts hlen hpieces
  · intro hacc
    obtain ⟨pieces, hpieces⟩ := Field.exists_pieces hacc
    obtain ⟨head, -, hr⟩ := record_of_pieces hacc.length_eq.symm hroom hpieces
    exact ⟨_, _, appendTo_eq_ok.2 ⟨_, hr, rfl, rfl⟩⟩
  · intro hlen pieces hpieces
    obtain ⟨head, hhead, hr⟩ := record_of_pieces hlen hroom hpieces
    exact ⟨head, hhead, appendTo_eq_ok.2 ⟨_, hr, rfl, rfl⟩⟩
  · -- all blocks have room, so only a value can be refused
    intro hlen i f v err hf hv herr hacc
    have hrecord : c.record data.length row = .error err := by
      rw [record_eq hlen hroom, Field.writeAll_eq_error hf hv herr hacc]
      rfl
    rw [value_appendTo, hrecord]
    exact ⟨rfl, Field.write_eq_error herr⟩

theorem appendTo_refines_sample :
    sample.HasRoom 1 [.uint 258, .bool true, .pad, .list [.int 1], .list [.bytes [], .bytes [65]]] ∧
      ∃ n out, (sample.appendTo [7]
        [.uint 258, .bool true, .pad, .list [.int 1], .list [.bytes [], .bytes [65]]]).value = (.ok n, out) := by
  have hbody : Field.writeAll sample.endian sample.schema.fields
      [.uint 258, .bool true, .pad, .list [.int 1], .list [.bytes [], .bytes [65]]] =
      .ok [2, 1, 1, 0, 0, 0, 0, 1, 0, 0, 128, 63, 0, 0, 0, 9, 0, 0, 0, 0, 0, 0, 0, 1, 65] := by
    decide +kernel
  have hroom : sample.HasRoom 1 [.uint 258, .bool true, .pad, .list [.int 1], .list [.bytes [], .bytes [65]]] := by
    refine ⟨Writer.hasRoom_of_le sample.covers rfl hbody (by decide), ?_⟩
    intro b hb
    obtain rfl := Except.ok.inj (hbody.symm.trans hb)
    decide
  obtain ⟨pieces, hpieces, -⟩ := Field.writeAll_eq_ok.1 hbody
  exact ⟨hroom, (appendTo_refines [7] _ hroom).2.1.2 (Field.forall₂_accepts rfl hpieces)⟩

end Codec

end RecordPack

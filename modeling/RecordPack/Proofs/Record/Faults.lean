import RecordPack.Proofs.Record.Agreement

/-!
# Where reading fails

An error of the reader names a place in the buffer and how many bytes are left there. `Codec.StandsIn` says, in terms
of the bytes alone, where a reader can stand and where the piece ends that it must not leave: the body of the record,
or the payload of a list of strings inside the body. `Codec.Describes` says which errors are true of a buffer, and
`Codec.describes_of_decodeNext` that the reader reports no other.
-/

namespace RecordPack

open LengthPrefix (Measures)

/-! ## Places in a buffer -/

/-- The record at `cursor`, whose body is all there. -/
structure Frame (data : Bytes) (cursor : Nat) where
  /-- The width of the length in front. -/
  width : Nat
  size : Nat
  decode_eq : LengthPrefix.decode data cursor = .ok (width, size)
  stop_le : cursor + width + size ≤ data.length

namespace Frame

variable {data : Bytes} {cursor : Nat}

def start (fr : Frame data cursor) : Nat := cursor + fr.width

def stop (fr : Frame data cursor) : Nat := cursor + fr.width + fr.size

def body (fr : Frame data cursor) : Bytes := (data.drop fr.start).take fr.size

end Frame

/-- What a reader looks for. -/
inductive Want where
  | length
  | bytes

/-- Where there are so many lengths in front of some bytes, this is what comes behind the first of them. -/
inductive Want.Follows (lengths : Nat) (heads : List Bytes) : Want → Prop
  | length : heads.length < lengths → (∀ head ∈ heads, ∃ n, Measures head n) → Follows lengths heads .length
  | bytes : heads.length = lengths → (∀ head ∈ heads, ∃ n, Measures head n) → Follows lengths heads .bytes

/-- The number of counts in front of the items of a list. -/
def Extent.lengths : Extent → Nat
  | fixed _ => 0
  | dynamic => 1

/-- The number of lengths and counts in front of the bytes of a field. -/
def Field.lengths (f : Field) : Nat :=
  match f.count, f.width with
  | none, .fixed _ => 0
  | none, .dynamic => 1
  | some extent, .fixed _ => extent.lengths
  | some extent, .dynamic => 1 + extent.lengths

namespace Codec

variable {data : Bytes} {cursor : Nat}

/-- The reader of a record looks for something at `offset`, in a piece of the buffer that ends at `stop`: in the body,
behind the fields before and the first lengths of a field; or in the payload of a list, behind the strings before and,
perhaps, the length of a string. -/
inductive StandsIn (c : Codec) (fr : Frame data cursor) : Want → (offset stop : Nat) → Prop
  | field {before after : List Field} {f : Field} {parts : List Part} {row : Row} {heads : List Bytes} {want : Want} :
      c.schema.fields = before ++ f :: after → Field.CarriesAll c.endian before parts row →
      want.Follows f.lengths heads → Part.allBytes parts ++ heads.flatten <+: fr.body →
      StandsIn c fr want (fr.start + (Part.allBytes parts ++ heads.flatten).length) fr.stop
  | item {before after : List Field} {f : Field} {extent : Extent} {parts counts : List Part} {row : Row}
      {head payload : Bytes} {count : Nat} {strings : List (Bytes × Bytes)} {heads : List Bytes} {want : Want} :
      c.schema.fields = before ++ f :: after → Field.CarriesAll c.endian before parts row →
      f.width = .dynamic → f.count = some extent → Measures head payload.length → extent.Counts count counts →
      Part.allBytes parts ++ (head ++ Part.allBytes counts) ++ payload <+: fr.body →
      strings.length < count → (∀ x ∈ strings, Measures x.1 x.2.length) → want.Follows 1 heads →
      Part.allBytes (strings.flatMap Part.ofString) ++ heads.flatten <+: payload →
      StandsIn c fr want
        (fr.start + (Part.allBytes parts ++ (head ++ Part.allBytes counts)).length +
          (Part.allBytes (strings.flatMap Part.ofString) ++ heads.flatten).length)
        (fr.start + (Part.allBytes parts ++ (head ++ Part.allBytes counts)).length + payload.length)

/-- The error is true of the record at `cursor`. -/
def Describes (c : Codec) (data : Bytes) (cursor : Nat) : CodecError → Prop
  | .length (.malformed offset need available) =>
    (need = 4 ∨ need = 8) ∧ available < need ∧
      (offset = cursor ∧ offset + available = data.length ∨
        cursor + 4 ≤ offset ∧ ∃ fr : Frame data cursor, c.StandsIn fr .length offset (offset + available))
  | .truncated offset need available =>
    available < need ∧ cursor + 4 ≤ offset ∧ offset + available ≤ data.length ∧
      ((∃ width, LengthPrefix.decode data cursor = .ok (width, need) ∧ offset = cursor + width ∧
          offset + available = data.length) ∨
        ∃ fr : Frame data cursor, c.StandsIn fr .bytes offset (offset + available))
  | .trailingBytes offset remaining =>
    0 < remaining ∧ ∃ (fr : Frame data cursor) (parts : List Part) (row : Row),
      Field.CarriesAll c.endian c.schema.fields parts row ∧ Part.allBytes parts <+: fr.body ∧
      offset = fr.start + (Part.allBytes parts).length ∧ offset + remaining = fr.stop
  | .listOverflow id count => ∃ f ∈ c.schema.fields, f.id = id ∧
      ∃ width, f.width = .fixed width ∧ UInt64.size ≤ count * width
  | .unusedBytes id remaining => 0 < remaining ∧ ∃ f ∈ c.schema.fields, f.id = id
  | _ => False

end Codec

/-! ## What is missing at a cursor -/

/-- At the cursor, what is looked for is not there, and the error says so. -/
inductive Want.Missed (here : Cursor) : Want → CodecError → Prop
  | length {need : Nat} : need = 4 ∨ need = 8 → here.rest.length < need →
      Missed here .length (.length (.malformed here.offset need here.rest.length))
  | bytes {need : Nat} : here.rest.length < need →
      Missed here .bytes (.truncated here.offset need here.rest.length)

theorem LengthPrefix.read_eq_error {offset : Nat} {rest : Bytes} {cause : LengthError}
    (h : read offset rest = .error cause) :
    ∃ need, (need = 4 ∨ need = 8) ∧ rest.length < need ∧ cause = .malformed offset need rest.length := by
  -- where fewer bytes are there than are taken, these are all
  have hshort : ∀ {n : Nat}, (rest.take n).length < n → (rest.take n).length = rest.length := by
    intro n hlt
    rw [List.length_take] at hlt ⊢
    omega
  simp only [read] at h
  split at h
  · next hlt =>
    cases h
    have heq := hshort hlt
    rw [heq] at hlt ⊢
    exact ⟨4, .inl rfl, hlt, rfl⟩
  · split at h
    · cases h
    · split at h
      · next hlt =>
        cases h
        have heq := hshort hlt
        rw [heq] at hlt ⊢
        exact ⟨8, .inr rfl, hlt, rfl⟩
      · cases h

namespace Cursor

variable {c : Cursor} {err : CodecError}

theorem missed_of_length (h : c.length = .error err) : Want.length.Missed c err := by
  unfold length at h
  split at h
  · cases h
  · next cause hread =>
    cases h
    obtain ⟨need, hneed, hlt, rfl⟩ := LengthPrefix.read_eq_error hread
    exact .length hneed hlt

theorem missed_of_take {n : Nat} (h : c.take n = .error err) : Want.bytes.Missed c err := by
  by_cases hlt : c.rest.length < n
  · rw [take_of_lt hlt] at h
    cases h
    exact .bytes hlt
  · have hle := Nat.le_of_not_lt hlt
    rw [take_eq_ok.2 ⟨List.length_take_of_le hle, passes_take hle⟩] at h
    cases h

theorem missed_of_split {n : Nat} (h : c.split n = .error err) : Want.bytes.Missed c err := by
  unfold split at h
  cases htake : c.take n with
  | error err' =>
    rw [htake] at h
    cases h
    exact missed_of_take htake
  | ok p =>
    rw [htake] at h
    cases h

end Cursor

/-! ## Strings -/

namespace Reader

variable {c : Cursor} {err : CodecError}

theorem string_eq_error (h : string c = .error err) : ∃ (want : Want) (heads : List Bytes) (here : Cursor),
    want.Follows 1 heads ∧ c.Passes heads.flatten here ∧ want.Missed here err := by
  simp only [string, bind_eq_error, Prod.exists] at h
  rcases h with h | ⟨n, c', hn, h⟩
  · exact ⟨.length, [], c, .length Nat.one_pos (by simp), Cursor.passes_nil.2 rfl, Cursor.missed_of_length h⟩
  · obtain ⟨head, hm, hp⟩ := Cursor.length_eq_ok.1 hn
    have hall : ∀ head' ∈ [head], ∃ n, Measures head' n := by simpa using ⟨n, hm⟩
    exact ⟨.bytes, [head], c', .bytes rfl hall, by simpa using hp, Cursor.missed_of_take h⟩

theorem strings_eq_error {count : Nat} : ∀ {c : Cursor}, strings count c = .error err →
    ∃ (done : List (Bytes × Bytes)) (want : Want) (heads : List Bytes) (here : Cursor), done.length < count ∧
      (∀ x ∈ done, Measures x.1 x.2.length) ∧ want.Follows 1 heads ∧
      c.Passes (Part.allBytes (done.flatMap Part.ofString) ++ heads.flatten) here ∧ want.Missed here err := by
  induction count with
  | zero =>
    intro c h
    cases h
  | succ count ih =>
    intro c h
    rcases bind_eq_error.1 h with h | ⟨⟨s, c₁⟩, hs, h⟩
    · obtain ⟨want, heads, here, hwant, hp, hmiss⟩ := string_eq_error h
      exact ⟨[], want, heads, here, Nat.succ_pos count, by simp, hwant, hp, hmiss⟩
    · rcases bind_eq_error.1 h with h | ⟨_, -, h⟩
      · obtain ⟨p, hm, hp⟩ := string_eq_ok.1 hs
        obtain ⟨done, want, heads, here, hlt, hall, hwant, hp', hmiss⟩ := ih h
        refine ⟨(p, s) :: done, want, heads, here, Nat.succ_lt_succ hlt, ?_, hwant, ?_, hmiss⟩
        · exact List.forall_mem_cons.2 ⟨hm, hall⟩
        · have hbytes : Part.allBytes (((p, s) :: done).flatMap Part.ofString) =
              (p ++ s) ++ Part.allBytes (done.flatMap Part.ofString) := by simp [Part.ofString]
          rw [hbytes, List.append_assoc]
          exact Cursor.passes_append.2 ⟨c₁, hp, hp'⟩
      · cases h

end Reader

/-! ## Fields -/

namespace Extent

theorem readCount_eq_error {extent : Extent} {c : Cursor} {err : CodecError} (h : extent.readCount c = .error err) :
    0 < extent.lengths ∧ Want.length.Missed c err := by
  cases extent with
  | fixed n => cases h
  | dynamic => exact ⟨Nat.one_pos, Cursor.missed_of_length h⟩

theorem Counts.exists_heads {extent : Extent} {n : Nat} {counts : List Part} (h : extent.Counts n counts) :
    ∃ heads : List Bytes, Part.allBytes counts = heads.flatten ∧ heads.length = extent.lengths ∧
      ∀ head ∈ heads, ∃ n, Measures head n := by
  cases h with
  | fixed => exact ⟨[], rfl, rfl, by simp⟩
  | @dynamic _ p hm => exact ⟨[p], by simp, rfl, by simpa using ⟨n, hm⟩⟩

end Extent

namespace Field

variable {e : Endian} {f : Field} {c : Cursor} {err : CodecError}

/-- How the reader of a field fails at a cursor. -/
inductive FailsAt (f : Field) (c : Cursor) : CodecError → Prop
  | body {want : Want} {heads : List Bytes} {here : Cursor} {err : CodecError} :
      want.Follows f.lengths heads → c.Passes heads.flatten here → want.Missed here err → FailsAt f c err
  | payload {extent : Extent} {head payload : Bytes} {count : Nat} {counts : List Part} {c₁ c₂ here : Cursor}
      {done : List (Bytes × Bytes)} {want : Want} {heads : List Bytes} {err : CodecError} :
      f.width = .dynamic → f.count = some extent → Measures head payload.length → extent.Counts count counts →
      c.Passes (head ++ Part.allBytes counts) c₁ → c₁.Passes payload c₂ → done.length < count →
      (∀ x ∈ done, Measures x.1 x.2.length) → want.Follows 1 heads →
      Cursor.Passes ⟨c₁.offset, payload⟩ (Part.allBytes (done.flatMap Part.ofString) ++ heads.flatten) here →
      want.Missed here err → FailsAt f c err
  | overflow {width count : Nat} : f.width = .fixed width → UInt64.size ≤ count * width →
      FailsAt f c (.listOverflow f.id count)
  | unused {remaining : Nat} : 0 < remaining → FailsAt f c (.unusedBytes f.id remaining)

theorem failsAt_of_read (h : f.read e c = .error err) : f.FailsAt c err := by
  have hstart : c.Passes ([] : List Bytes).flatten c := Cursor.passes_nil.2 rfl
  have hnone : ∀ head ∈ ([] : List Bytes), ∃ n, Measures head n := by simp
  unfold read at h
  split at h <;>
    simp only [bind_eq_error, Prod.exists, pure_eq_error, and_false, exists_false, or_false] at h
  case h_1 width hcount hwidth =>
    have hlengths : ([] : List Bytes).length = f.lengths := by simp only [lengths, hcount, hwidth, List.length_nil]
    exact .body (.bytes hlengths hnone) hstart (Cursor.missed_of_take h)
  case h_2 hcount hwidth =>
    have hlengths : f.lengths = 1 := by simp only [lengths, hcount, hwidth]
    obtain ⟨want, heads, here, hwant, hp, hmiss⟩ := Reader.string_eq_error h
    exact .body (hlengths ▸ hwant) hp hmiss
  case h_3 extent width hcount hwidth =>
    have hlengths : f.lengths = extent.lengths := by simp only [lengths, hcount, hwidth]
    rcases h with h | ⟨n, c₁, hn, h⟩
    · obtain ⟨hpos, hmiss⟩ := Extent.readCount_eq_error h
      exact .body (.length (hlengths ▸ hpos) hnone) hstart hmiss
    · obtain ⟨counts, hc, hp⟩ := Extent.readCount_eq_ok.1 hn
      obtain ⟨heads, hbytes, hlen, hheads⟩ := hc.exists_heads
      exact .body (.bytes (hlen.trans hlengths.symm) hheads) (hbytes ▸ hp) (Cursor.missed_of_take h)
  case h_4 extent hcount hwidth =>
    have hlengths : f.lengths = 1 + extent.lengths := by simp only [lengths, hcount, hwidth]
    rcases h with h | ⟨size, c₁, hsize, h⟩
    · have hpos : ([] : List Bytes).length < f.lengths := by
        rw [hlengths, List.length_nil]
        omega
      exact .body (.length hpos hnone) hstart (Cursor.missed_of_length h)
    obtain ⟨head, hm, hp⟩ := Cursor.length_eq_ok.1 hsize
    rcases h with h | ⟨n, c₂, hn, h⟩
    · obtain ⟨hpos, hmiss⟩ := Extent.readCount_eq_error h
      have hlt : [head].length < f.lengths := by
        rw [hlengths, List.length_singleton]
        omega
      have hp : c.Passes [head].flatten c₁ := by simpa using hp
      exact .body (.length hlt (by simpa using ⟨size, hm⟩)) hp hmiss
    obtain ⟨counts, hc, hp'⟩ := Extent.readCount_eq_ok.1 hn
    have hboth : c.Passes (head ++ Part.allBytes counts) c₂ := Cursor.passes_append.2 ⟨c₁, hp, hp'⟩
    rcases h with h | ⟨piece, c₃, hpiece, h⟩
    · obtain ⟨heads, hbytes, hlen, hheads⟩ := hc.exists_heads
      have hboth : c.Passes (head :: heads).flatten c₂ := by
        rw [List.flatten_cons, ← hbytes]
        exact hboth
      have hlen' : (head :: heads).length = f.lengths := by rw [hlengths, List.length_cons, hlen, Nat.add_comm]
      exact .body (.bytes hlen' (List.forall_mem_cons.2 ⟨⟨size, hm⟩, hheads⟩)) hboth (Cursor.missed_of_split h)
    · obtain ⟨payload, rfl, rfl, hp''⟩ := Cursor.split_eq_ok.1 hpiece
      simp only [Reader.payload, bind_eq_error, Prod.exists] at h
      rcases h with h | ⟨ss, c₄, -, h⟩
      · obtain ⟨done, want, heads, here, hlt, hall, hwant, hpass, hmiss⟩ := Reader.strings_eq_error h
        exact .payload hwidth hcount hm hc hboth hp'' hlt hall hwant hpass hmiss
      · split at h
        · cases h
        · next hleft =>
          cases h
          exact .unused (List.length_pos_iff.2 (by simpa using hleft))

theorem failsAt_of_readBounded (h : f.readBounded e c = .error err) : f.FailsAt c err := by
  unfold readBounded at h
  split at h
  case h_1 width hcount hwidth =>
    have hlengths : f.lengths = 1 := by simp only [lengths, hcount, hwidth, Extent.lengths]
    have hstart : c.Passes ([] : List Bytes).flatten c := Cursor.passes_nil.2 rfl
    simp only [bind_eq_error, Prod.exists] at h
    rcases h with h | ⟨n, c₁, hn, h⟩
    · exact .body (.length (hlengths ▸ Nat.one_pos) (by simp)) hstart (Cursor.missed_of_length h)
    · split at h
      · next hbig =>
        cases h
        exact .overflow hwidth hbig
      · exact failsAt_of_read h
  case h_2 => exact failsAt_of_read h

theorem read_of_readBounded {v : Value} {c' : Cursor} (h : f.readBounded e c = .ok (v, c')) :
    f.read e c = .ok (v, c') := by
  unfold readBounded at h
  split at h
  case h_1 width hcount hwidth =>
    obtain ⟨⟨n, c₁⟩, hn, h⟩ := bind_eq_ok.1 h
    simp only at h
    split at h
    · cases h
    · exact h
  case h_2 => exact h

theorem CarriesAll.append {fs gs : List Field} {ps qs : List Part} {vs ws : Row}
    (h : CarriesAll e fs ps vs) (h' : CarriesAll e gs qs ws) : CarriesAll e (fs ++ gs) (ps ++ qs) (vs ++ ws) := by
  induction h with
  | nil => exact h'
  | cons hcar _ ih =>
    rw [List.append_assoc]
    exact .cons hcar ih

/-- Fields that are read are those that come next, lists of too many items being refused or not. -/
theorem carriesAll_of_readEach {fs : List Field} : ∀ {c c' : Cursor} {row : Row},
    readEach (readBounded e) fs c = .ok (row, c') → ∃ ps, CarriesAll e fs ps row ∧ c.Passes (Part.allBytes ps) c' := by
  induction fs with
  | nil =>
    rintro c c' row ⟨⟩
    exact ⟨[], .nil, Cursor.passes_nil.2 rfl⟩
  | cons f fs ih =>
    intro c c' row h
    simp only [readEach, bind_eq_ok, Prod.exists, pure_eq_ok, Prod.mk.injEq] at h
    obtain ⟨v, c₁, hv, vs, c₂, hvs, rfl, rfl⟩ := h
    obtain ⟨ps, hcar, hp⟩ := read_eq_ok.1 (read_of_readBounded hv)
    obtain ⟨qs, hcars, hp'⟩ := ih hvs
    refine ⟨ps ++ qs, .cons hcar hcars, ?_⟩
    rw [Part.allBytes_append]
    exact Cursor.passes_append.2 ⟨c₁, hp, hp'⟩

/-- Fields cannot be read: some field fails, and those before it can be read. -/
inductive FailsAmong (e : Endian) (fs : List Field) (c : Cursor) (err : CodecError) : Prop
  | intro {before after : List Field} {f : Field} {parts : List Part} {row : Row} {here : Cursor} :
      fs = before ++ f :: after → CarriesAll e before parts row → c.Passes (Part.allBytes parts) here →
      f.FailsAt here err → FailsAmong e fs c err

namespace FailsAmong

variable {fs gs : List Field}

theorem head (h : f.FailsAt c err) (fs : List Field) : FailsAmong e (f :: fs) c err :=
  .intro (List.nil_append _).symm .nil (Cursor.passes_nil.2 rfl) h

theorem append (h : FailsAmong e fs c err) (gs : List Field) : FailsAmong e (fs ++ gs) c err := by
  obtain ⟨rfl, hcar, hp, hfail⟩ := h
  exact .intro (by rw [List.append_assoc, List.cons_append]) hcar hp hfail

/-- More fields before those that fail can be read. -/
theorem behind {c₁ : Cursor} {ps : List Part} {vs : Row} (hcar : CarriesAll e gs ps vs)
    (hp : c.Passes (Part.allBytes ps) c₁) (h : FailsAmong e fs c₁ err) : FailsAmong e (gs ++ fs) c err := by
  obtain ⟨rfl, hcar', hp', hfail⟩ := h
  refine .intro (List.append_assoc ..).symm (hcar.append hcar') ?_ hfail
  rw [Part.allBytes_append]
  exact Cursor.passes_append.2 ⟨c₁, hp, hp'⟩

end FailsAmong

theorem failsAmong_of_readEach {fs : List Field} : ∀ {c : Cursor},
    readEach (readBounded e) fs c = .error err → FailsAmong e fs c err := by
  induction fs with
  | nil =>
    intro c h
    cases h
  | cons f fs ih =>
    intro c h
    simp only [readEach, bind_eq_error, Prod.exists, pure_eq_error, and_false, exists_false, or_false] at h
    rcases h with h | ⟨v, c₁, hv, h⟩
    · exact .head (failsAt_of_readBounded h) fs
    · obtain ⟨ps, hcar, hp⟩ := read_eq_ok.1 (read_of_readBounded hv)
      have hfirst : CarriesAll e [f] ps [v] := by simpa using CarriesAll.cons hcar .nil
      exact .behind hfirst hp (ih h)

end Field

/-! ## Segments -/

namespace Reader

variable {e : Endian} {order : ByteOrder}

/-- A run of which not all bytes are there fails at its first field. -/
theorem failsAmong_of_segment {seg : Segment} {fs : List Field} (h : seg.IsOf order fs) {c : Cursor} {err : CodecError}
    (herr : segment e seg c = .error err) : Field.FailsAmong e fs c err := by
  cases h with
  | dynamic hof hdyn => exact Field.failsAmong_of_readEach ((dynamicSlots_eq hof hdyn c).symm.trans herr)
  | @fixed slots fs hof hfix =>
    simp only [segment, bind_eq_error, pure_eq_error, and_false, exists_false, or_false] at herr
    cases hof with
    | nil =>
      -- a block of no bytes is always there
      cases herr
    | @cons slot f slots fs hslot _ =>
      have hlengths : ([] : List Bytes).length = f.lengths := by
        obtain ⟨id, type, width, count, note⟩ := f
        have hf := hfix _ List.mem_cons_self
        rcases width with w | _ <;> rcases count with _ | n | _ <;> first | rfl | cases hf
      have hstart : c.Passes ([] : List Bytes).flatten c := Cursor.passes_nil.2 rfl
      exact .head (.body (.bytes hlengths (by simp)) hstart (Cursor.missed_of_take herr)) fs

theorem carriesAll_of_segment {seg : Segment} {fs : List Field} (h : seg.IsOf order fs) {c c' : Cursor} {row : Row}
    (hok : segment e seg c = .ok (row, c')) :
    ∃ ps, Field.CarriesAll e fs ps row ∧ c.Passes (Part.allBytes ps) c' := by
  rcases segment_eq_or_breaksOff (e := e) h c [] with heq | ⟨_, _, herr, -⟩
  · exact Field.carriesAll_of_readEach (heq.symm.trans hok)
  · rw [hok] at herr
    cases herr

theorem carriesAll_of_segments {segs : List Segment} {fields : List Field} (h : Covers order segs fields)
    {c c' : Cursor} {row : Row} (hok : segments e segs c = .ok (row, c')) :
    ∃ ps, Field.CarriesAll e fields ps row ∧ c.Passes (Part.allBytes ps) c' := by
  rcases segments_eq_or_breaksOff (e := e) h c with heq | ⟨_, _, herr, -⟩
  · exact Field.carriesAll_of_readEach (heq.symm.trans hok)
  · rw [hok] at herr
    cases herr

theorem failsAmong_of_segments {segs : List Segment} {fields : List Field} (h : Covers order segs fields) :
    ∀ {c : Cursor} {err : CodecError}, segments e segs c = .error err → Field.FailsAmong e fields c err := by
  induction h with
  | nil =>
    intro c err herr
    cases herr
  | @cons seg fs fields segs hof _ ih =>
    intro c err herr
    simp only [segments, bind_eq_error, Prod.exists, pure_eq_error, and_false, exists_false, or_false] at herr
    rcases herr with herr | ⟨vs, c₁, hseg, herr⟩
    · exact (failsAmong_of_segment hof herr).append fields
    · obtain ⟨ps, hcar, hp⟩ := carriesAll_of_segment hof hseg
      exact .behind hcar hp (ih herr)

end Reader

/-! ## Records -/

/-- What a cursor stands behind is a prefix of the piece, and the end of the piece stays where it is. -/
theorem Cursor.Passes.place {offset : Nat} {piece bs : Bytes} {here : Cursor}
    (h : Cursor.Passes ⟨offset, piece⟩ bs here) :
    bs <+: piece ∧ here.offset = offset + bs.length ∧ here.offset + here.rest.length = offset + piece.length := by
  obtain ⟨hrest, hoff⟩ := h
  have hrest : piece = bs ++ here.rest := hrest
  refine ⟨⟨here.rest, hrest.symm⟩, hoff, ?_⟩
  rw [hoff, hrest, List.length_append, Nat.add_assoc]

namespace Frame

variable {data : Bytes} {cursor : Nat} (fr : Frame data cursor)

theorem length_body : fr.body.length = fr.size := by
  have hle := fr.stop_le
  rw [body, List.length_take, List.length_drop, start]
  omega

theorem le_start : cursor + 4 ≤ fr.start := by
  have hwidth := LengthPrefix.width_of_read fr.decode_eq
  rw [start]
  omega

end Frame

namespace Codec

variable {c : Codec} {data : Bytes} {cursor : Nat} {fr : Frame data cursor}

/-- What is missed where a reader can stand is described truly. -/
theorem describes_of_missed (fr : Frame data cursor) {want : Want} {here : Cursor} {err : CodecError}
    (hmiss : want.Missed here err) (hstands : c.StandsIn fr want here.offset (here.offset + here.rest.length))
    (hstart : fr.start ≤ here.offset) (hstop : here.offset + here.rest.length ≤ fr.stop) :
    c.Describes data cursor err := by
  have hafter : cursor + 4 ≤ here.offset := Nat.le_trans fr.le_start hstart
  cases hmiss with
  | length hneed hlt => exact ⟨hneed, hlt, .inr ⟨hafter, fr, hstands⟩⟩
  | bytes hlt => exact ⟨hlt, hafter, Nat.le_trans hstop fr.stop_le, .inr ⟨fr, hstands⟩⟩

/-- A field that cannot be read behind those before it fails as it should. -/
theorem describes_of_failsAt {before after : List Field} {f : Field} {parts : List Part} {row : Row} {here : Cursor}
    {err : CodecError} (hfields : c.schema.fields = before ++ f :: after)
    (hcar : Field.CarriesAll c.endian before parts row)
    (hp : Cursor.Passes ⟨fr.start, fr.body⟩ (Part.allBytes parts) here) (hfail : f.FailsAt here err) :
    c.Describes data cursor err := by
  have hmem : f ∈ c.schema.fields := by
    rw [hfields]
    exact List.mem_append_right _ List.mem_cons_self
  have hstop : fr.start + fr.body.length = fr.stop := by rw [fr.length_body, Frame.start, Frame.stop]
  cases hfail with
  | @body want heads here' _ hwant hp' hmiss =>
    obtain ⟨hbegins, hoff, hend⟩ := (Cursor.passes_append.2 ⟨here, hp, hp'⟩).place
    rw [hstop] at hend
    refine describes_of_missed fr hmiss ?_ (by omega) hend.le
    rw [hend, hoff]
    exact .field hfields hcar hwant hbegins
  | @payload extent head payload count counts c₁ c₂ here' done want heads _ hwidth hcount hm hc hp₁ hp₂ hlt hall hwant
      hp' hmiss =>
    have hfront := Cursor.passes_append.2 ⟨here, hp, hp₁⟩
    obtain ⟨-, hoff, -⟩ := hfront.place
    obtain ⟨hbegins, hoff₂, hend⟩ := (Cursor.passes_append.2 ⟨c₁, hfront, hp₂⟩).place
    obtain ⟨hbegins', hoff', hend'⟩ := hp'.place
    -- the payload ends where the reader of the body goes on, and that is inside the body
    have hinside : c₁.offset + payload.length ≤ fr.stop := by
      rw [List.length_append] at hoff₂
      omega
    refine describes_of_missed fr hmiss ?_ (by omega) (by omega)
    rw [hend', hoff', hoff]
    exact .item hfields hcar hwidth hcount hm hc hbegins hlt hall hwant hbegins'
  | @overflow width count hwidth hbig => exact ⟨f, hmem, rfl, width, hwidth, hbig⟩
  | unused hpos => exact ⟨hpos, f, hmem, rfl⟩

theorem describes_of_readBody {err : CodecError} (h : c.readBody ⟨fr.start, fr.body⟩ = .error err) :
    c.Describes data cursor err := by
  rcases bind_eq_error.1 h with h | ⟨⟨row, rest⟩, hok, h⟩
  · obtain ⟨hfields, hcar, hp, hfail⟩ := Reader.failsAmong_of_segments c.covers h
    exact describes_of_failsAt hfields hcar hp hfail
  · obtain ⟨parts, hcar, hp⟩ := Reader.carriesAll_of_segments c.covers hok
    obtain ⟨hbegins, hoff, hend⟩ := hp.place
    unfold Reader.usedUp at h
    split at h
    · cases h
    · next hleft =>
      cases h
      refine ⟨List.length_pos_iff.2 (by simpa using hleft), fr, parts, row, hcar, hbegins, hoff, ?_⟩
      rw [hend, fr.length_body, Frame.start, Frame.stop]

/-- Every error of reading a record tells the truth about the buffer. A length that is missing is that of the record,
and cut by the end of the buffer, or the reader came to it inside the record, and it is cut by the end of the piece that
holds it; the same is true of bytes that are missing; and trailing bytes are all that is left of the body behind its
fields. -/
theorem describes_of_decodeNext (c : Codec) (data : Bytes) (cursor : Nat) (err : CodecError)
    (h : (c.decodeNext data cursor).run.value = .error err) : c.Describes data cursor err := by
  rw [value_decodeNext, readAt_eq] at h
  split at h
  · cases h
  · next hrest =>
    have hin : cursor < data.length := by simpa using hrest
    have hlen : (data.drop cursor).length = data.length - cursor := List.length_drop
    simp only [bind_eq_error, Prod.exists, pure_eq_error, and_false, exists_false, or_false] at h
    rcases h with h | ⟨size, afterHead, hsize, h⟩
    · cases Cursor.missed_of_length h with
      | length hneed hlt =>
        refine ⟨hneed, hlt, .inl ⟨rfl, ?_⟩⟩
        simp only
        omega
    · obtain ⟨head, hm, hp⟩ := Cursor.length_eq_ok.1 hsize
      obtain ⟨hdrop, hoff⟩ := hp
      have hdrop : data.drop cursor = head ++ afterHead.rest := hdrop
      have hoff : afterHead.offset = cursor + head.length := hoff
      have hdecode : LengthPrefix.decode data cursor = .ok (head.length, size) := by
        rw [LengthPrefix.decode, hdrop]
        exact LengthPrefix.read_of_measures hm cursor _
      have hleft : head.length + afterHead.rest.length = data.length - cursor := by
        rw [← hlen, hdrop, List.length_append]
      by_cases hfit : size ≤ afterHead.rest.length
      · let fr : Frame data cursor := ⟨head.length, size, hdecode, by omega⟩
        have hbody : afterHead.rest.take size = fr.body := by
          have hrest : data.drop (cursor + head.length) = afterHead.rest := by
            rw [← List.drop_drop, hdrop, List.drop_left]
          rw [Frame.body, Frame.start, hrest]
        have hsplit : afterHead.split size = .ok (⟨fr.start, fr.body⟩, afterHead.skip size) :=
          Cursor.split_eq_ok.2 ⟨fr.body, by rw [hoff]; rfl, fr.length_body, hbody ▸ Cursor.passes_take hfit⟩
        rw [hsplit] at h
        simp only [reduceCtorEq, false_or, Except.ok.injEq, Prod.mk.injEq] at h
        obtain ⟨_, _, ⟨rfl, rfl⟩, h⟩ := h
        exact describes_of_readBody h
      · have hshort := Nat.lt_of_not_le hfit
        have hsplit : afterHead.split size = .error (.truncated afterHead.offset size afterHead.rest.length) := by
          rw [Cursor.split, Cursor.take_of_lt hshort]
          rfl
        rw [hsplit] at h
        simp only [reduceCtorEq, false_and, exists_false, or_false, Except.error.injEq] at h
        subst h
        have hwidth := hm.length_eq
        refine ⟨hshort, by omega, by omega, .inl ⟨head.length, hdecode, hoff, by omega⟩⟩

/-- The payload of the list of strings is said to have seven bytes, so the length of the second string is cut. -/
theorem describes_of_decodeNext_sample :
    let data : Bytes :=
      [7, 0, 0, 0, 25, 2, 1, 1, 0, 0, 0, 0, 1, 0, 0, 128, 191, 0, 0, 0, 7, 0, 0, 0, 0, 0, 0, 0, 1, 65]
    (sample.decodeNext data 1).run.value = .error (.length (.malformed 25 4 3)) ∧
      sample.Describes data 1 (.length (.malformed 25 4 3)) := by
  intro data
  have h : (sample.decodeNext data 1).run.value = .error (.length (.malformed 25 4 3)) := by decide +kernel
  exact ⟨h, describes_of_decodeNext sample data 1 _ h⟩

end Codec

end RecordPack

import RecordPack.Proofs.Codec

/-!
# The reader of segments against the reader of fields

`Codec.readAt` reads the body of a record segment by segment, and takes the block of a fixed run before it looks at
the places in it. `Codec.readFields` knows no segments: it reads one field after the other, each with its own
check that the bytes are there. `Codec.readBody_agrees` compares the two on every body. They succeed together, with
the same row; and they fail with the same error, unless the body ends inside a fixed run (`Reader.BreaksOff`), where
one of them misses the block of the run and the other the first place in it that is not there.

Both come down to the same readers of a single place and of a single string. What those read is not compared here,
but said in `ScalarType.read_eq_iff` and `Field.read_string_eq_ok`.
-/

namespace RecordPack

/-! ## Fields one by one -/

namespace Field

/-- The value of a field, as `Field.read` has it. A count of more items than any buffer can hold is refused before
they are looked for. -/
def readBounded (e : Endian) (f : Field) (c : Cursor) : Except CodecError (Value × Cursor) :=
  match f.count, f.width with
  | some .dynamic, .fixed width => do
    let (n, _) ← c.length
    if UInt64.size ≤ n * width then throw (.listOverflow f.id n)
    f.read e c
  | _, _ => f.read e c

variable {e : Endian} {f : Field}

theorem readBounded_of_fixed (h : f.fixedWidth?.isSome) (c : Cursor) : f.readBounded e c = f.read e c := by
  obtain ⟨id, type, width, count, note⟩ := f
  rcases width with w | _ <;> rcases count with _ | n | _ <;> first | rfl | cases h

/-- Fields of fixed width announce no counts. -/
theorem readEach_bounded_of_fixed {fs : List Field} (h : ∀ f ∈ fs, f.fixedWidth?.isSome) :
    ∀ c : Cursor, readEach (readBounded e) fs c = readAll e fs c := by
  induction fs with
  | nil => intro c; rfl
  | cons f fs ih =>
    intro c
    simp only [readEach, readAll, readBounded_of_fixed (h f List.mem_cons_self),
      ih fun g hg => h g (List.mem_cons_of_mem _ hg)]

end Field

namespace Reader

variable {e : Endian}

/-- The row, if the fields have used up the body. -/
def usedUp (p : Row × Cursor) : Except CodecError Row :=
  if p.2.rest.isEmpty then .ok p.1 else .error (.trailingBytes p.2.offset p.2.rest.length)

/-- The bytes at the cursor end inside a fixed run. The segments before it are read, and the run starts `here`.
`whole` misses the block of the run, and `single` the first place in it that is not there. -/
inductive BreaksOff (e : Endian) (segs : List Segment) (c : Cursor) : (whole single : CodecError) → Prop
  | intro {before after : List Segment} {run : FixedRun} {row : Row} {here : Cursor} {done todo : List Slot}
      {slot : Slot} {width : Nat} :
      segs = before ++ .fixed run :: after → segments e before c = .ok (row, here) →
      run.slots = done ++ slot :: todo → slot.shape.fixedWidth? = some width →
      Slot.totalWidth done ≤ here.rest.length → here.rest.length < Slot.totalWidth done + width →
      BreaksOff e segs c (.truncated here.offset run.width here.rest.length)
        (.truncated (here.offset + Slot.totalWidth done) width (here.rest.length - Slot.totalWidth done))

theorem BreaksOff.cons {seg : Segment} {segs : List Segment} {c c' : Cursor} {vs : Row} {whole single : CodecError}
    (hseg : segment e seg c = .ok (vs, c')) (h : BreaksOff e segs c' whole single) :
    BreaksOff e (seg :: segs) c whole single := by
  cases h with
  | @intro before after run row here done todo slot width hsegs hbefore hslots hwidth hle hlt =>
    have hbefore' : segments e (seg :: before) c = .ok (vs ++ row, here) := by
      simp only [segments, hseg, ok_bind, hbefore]
      rfl
    exact .intro (by rw [hsegs, List.cons_append]) hbefore' hslots hwidth hle hlt

/-! ## Runs of fixed width -/

/-- A place that is not there is missed. -/
theorem read_eq_error_of_lt {f : Field} {width : Nat} {c : Cursor} (hwidth : f.fixedWidth? = some width)
    (hlt : c.rest.length < width) : f.read e c = .error (.truncated c.offset width c.rest.length) := by
  obtain ⟨id, type, w, count, note⟩ := f
  rcases w with w | _ <;> rcases count with _ | n | _ <;> simp only [Field.fixedWidth?, reduceCtorEq] at hwidth
  case fixed.none =>
    cases hwidth
    simp only [Field.read, Cursor.take_of_lt hlt]
    rfl
  case fixed.some.fixed =>
    cases hwidth
    rw [Nat.mul_comm] at hlt ⊢
    simp only [Field.read, Extent.readCount, ok_bind, Cursor.take_of_lt hlt]
    rfl

/-- Where the places of a run are not all there, the first one that is not is missed. -/
theorem readAll_eq_error_of_lt {slots : List Slot} {fs : List Field} (h : List.Forall₂ Slot.IsOf slots fs)
    (hfix : ∀ f ∈ fs, f.fixedWidth?.isSome) : ∀ {c : Cursor}, c.rest.length < Slot.totalWidth slots →
    ∃ done slot todo width, slots = done ++ slot :: todo ∧ slot.shape.fixedWidth? = some width ∧
      Slot.totalWidth done ≤ c.rest.length ∧ c.rest.length < Slot.totalWidth done + width ∧
      Field.readAll e fs c =
        .error (.truncated (c.offset + Slot.totalWidth done) width (c.rest.length - Slot.totalWidth done)) := by
  induction h with
  | nil =>
    intro c hlt
    cases hlt
  | @cons slot f slots fs hof _ ih =>
    intro c hlt
    obtain ⟨w, hw⟩ := Option.isSome_iff_exists.1 (hfix f List.mem_cons_self)
    have hslot : slot.shape.fixedWidth? = some w := hof.fixedWidth?.trans hw
    have htotal : Slot.totalWidth (slot :: slots) = w + Slot.totalWidth slots := by
      rw [Slot.totalWidth, hslot, Option.getD_some]
    by_cases hthere : w ≤ c.rest.length
    · -- this place is there, so the first one that is not stands behind it
      have hlen : (c.rest.take w).length = w := by rw [List.length_take, Nat.min_eq_left hthere]
      have hread : f.read e c = .ok (fixedSlot e slot.shape (c.rest.take w), c.skip w) :=
        (read_fixed_eq_ok hof (by rw [hw]; rfl)).2
          ⟨_, by rw [hlen, hslot, Option.getD_some], Cursor.passes_take hthere, rfl⟩
      have hskip : (c.skip w).rest.length = c.rest.length - w := List.length_drop
      obtain ⟨done, next, todo, width, hslots, hwidth, hle, hshort, herr⟩ :=
        ih (fun g hg => hfix g (List.mem_cons_of_mem _ hg)) (c := c.skip w) (by omega)
      have hdone : Slot.totalWidth (slot :: done) = w + Slot.totalWidth done := by
        rw [Slot.totalWidth, hslot, Option.getD_some]
      refine ⟨slot :: done, next, todo, width, by rw [hslots, List.cons_append], hwidth, by omega, by omega, ?_⟩
      have hoff : (c.skip w).offset + Slot.totalWidth done = c.offset + Slot.totalWidth (slot :: done) := by
        rw [hdone, ← Nat.add_assoc]
        rfl
      have hleft : (c.skip w).rest.length - Slot.totalWidth done =
          c.rest.length - Slot.totalWidth (slot :: done) := by omega
      simp only [Field.readAll, hread, ok_bind, herr, hoff, hleft]
      rfl
    · refine ⟨[], slot, slots, w, rfl, hslot, Nat.zero_le _, ?_, ?_⟩
      · rw [Slot.totalWidth]
        omega
      · simp only [Field.readAll, read_eq_error_of_lt hw (Nat.lt_of_not_le hthere), Slot.totalWidth]
        rfl

/-! ## Segments -/

/-- A field with lengths of its own is read alike, errors included. -/
theorem dynamicSlot_eq {slot : Slot} {f : Field} (h : slot.IsOf f) (hdyn : f.fixedWidth? = none) (c : Cursor) :
    dynamicSlot e slot c = f.readBounded e c := by
  obtain ⟨hid, hshape⟩ := h
  obtain ⟨id, type, width, count, note⟩ := f
  rcases width with w | _ <;> rcases count with _ | n | _ <;>
    simp only [Field.fixedWidth?, reduceCtorEq] at hdyn <;> simp only [Shape.ofField] at hshape
  case fixed.some.dynamic =>
    simp only [dynamicSlot, hshape, hid, Field.readBounded, Field.read, Extent.readCount]
    cases c.length with
    | error err => rfl
    | ok p => rfl
  case dynamic.none => simp only [dynamicSlot, hshape, Field.readBounded, Field.read]
  case dynamic.some.fixed =>
    simp only [dynamicSlot, hshape, hid, Field.readBounded, Field.read, Extent.readCount, ok_bind]
  case dynamic.some.dynamic =>
    simp only [dynamicSlot, hshape, hid, Field.readBounded, Field.read, Extent.readCount]

theorem dynamicSlots_eq {slots : List Slot} {fs : List Field} (h : List.Forall₂ Slot.IsOf slots fs)
    (hdyn : ∀ f ∈ fs, f.fixedWidth? = none) :
    ∀ c : Cursor, dynamicSlots e slots c = Field.readEach (Field.readBounded e) fs c := by
  induction h with
  | nil => intro c; rfl
  | @cons slot f slots fs hof _ ih =>
    intro c
    simp only [dynamicSlots, Field.readEach, dynamicSlot_eq hof (hdyn f List.mem_cons_self),
      ih fun g hg => hdyn g (List.mem_cons_of_mem _ hg)]

/-- One segment is read like its fields, unless it is a run inside which the bytes end. -/
theorem segment_eq_or_breaksOff {order : ByteOrder} {seg : Segment} {fs : List Field} (h : seg.IsOf order fs)
    (c : Cursor) (after : List Segment) : segment e seg c = Field.readEach (Field.readBounded e) fs c ∨
      ∃ whole single, segment e seg c = .error whole ∧
        Field.readEach (Field.readBounded e) fs c = .error single ∧ BreaksOff e (seg :: after) c whole single := by
  cases h with
  | dynamic hof hdyn => exact .inl (dynamicSlots_eq hof hdyn c)
  | @fixed slots fs hof hfix =>
    rw [Field.readEach_bounded_of_fixed hfix]
    by_cases hthere : Slot.totalWidth slots ≤ c.rest.length
    · left
      have hlen : (c.rest.take (Slot.totalWidth slots)).length = Slot.totalWidth slots := by
        rw [List.length_take, Nat.min_eq_left hthere]
      have htake := Cursor.take_eq_ok.2 ⟨hlen, Cursor.passes_take hthere⟩
      rw [(readAll_fixed_eq_ok hof hfix).2 ⟨_, hlen, Cursor.passes_take hthere, rfl⟩]
      simp only [segment, FixedRun.ofSlots, htake, ok_bind]
      rfl
    · right
      have hlt := Nat.lt_of_not_le hthere
      obtain ⟨done, slot, todo, width, hslots, hwidth, hle, hshort, herr⟩ :=
        readAll_eq_error_of_lt (e := e) hof hfix hlt
      have hbefore : segments e [] c = .ok ([], c) := rfl
      refine ⟨_, _, ?_, herr, .intro rfl hbefore hslots hwidth hle hshort⟩
      simp only [segment, FixedRun.ofSlots, Cursor.take_of_lt hlt]
      rfl

/-- Segments are read like their fields, unless the bytes end inside a fixed run. -/
theorem segments_eq_or_breaksOff {order : ByteOrder} {segs : List Segment} {fields : List Field}
    (h : Covers order segs fields) :
    ∀ c : Cursor, segments e segs c = Field.readEach (Field.readBounded e) fields c ∨
      ∃ whole single, segments e segs c = .error whole ∧
        Field.readEach (Field.readBounded e) fields c = .error single ∧ BreaksOff e segs c whole single := by
  induction h with
  | nil => intro c; exact .inl rfl
  | @cons seg fs fields segs hof _ ih =>
    intro c
    simp only [segments, Field.readEach_append]
    rcases segment_eq_or_breaksOff (e := e) hof c segs with heq | ⟨whole, single, hwhole, hsingle, hbreaks⟩
    · rw [← heq]
      cases hseg : segment e seg c with
      | error err => exact .inl rfl
      | ok p =>
        obtain ⟨vs, c'⟩ := p
        simp only [ok_bind]
        rcases ih c' with hrest | ⟨whole, single, hwhole, hsingle, hbreaks⟩
        · rw [hrest]
          exact .inl rfl
        · rw [hwhole, hsingle]
          exact .inr ⟨whole, single, rfl, rfl, hbreaks.cons hseg⟩
    · rw [hwhole, hsingle]
      exact .inr ⟨whole, single, rfl, rfl, hbreaks⟩

end Reader

/-! ## Bodies -/

namespace Codec

/-- The row of a body, read segment by segment. -/
def readBody (c : Codec) (body : Cursor) : Except CodecError Row :=
  Reader.segments c.endian c.segments body >>= Reader.usedUp

/-- The row of a body, read field by field. -/
def readFields (c : Codec) (body : Cursor) : Except CodecError Row :=
  Field.readEach (Field.readBounded c.endian) c.schema.fields body >>= Reader.usedUp

/-- A record is a length and a body that is read segment by segment. -/
theorem readAt_eq (c : Codec) (data : Bytes) (cursor : Nat) : c.readAt data cursor =
    if (data.drop cursor).isEmpty then .ok none else do
      let (size, afterHead) ← (⟨cursor, data.drop cursor⟩ : Cursor).length
      let (body, afterBody) ← afterHead.split size
      let row ← c.readBody body
      return some { row, headWidth := afterHead.offset - cursor, next := afterBody.offset } := by
  unfold readAt readBody
  by_cases hempty : (data.drop cursor).isEmpty = true
  · rw [if_pos hempty, if_pos hempty]
    rfl
  · rw [if_neg hempty, if_neg hempty]
    cases (⟨cursor, data.drop cursor⟩ : Cursor).length with
    | error err => rfl
    | ok p =>
      simp only [ok_bind]
      cases p.2.split p.1 with
      | error err => rfl
      | ok q =>
        simp only [ok_bind, bind_assoc]
        cases Reader.segments c.endian c.segments q.1 with
        | error err => rfl
        | ok r =>
          simp only [ok_bind, Reader.usedUp]
          cases r.2.rest.isEmpty <;> rfl

/-- A body is read segment by segment exactly if it is read field by field, and then as the same row. If it is not,
the errors are the same, but for a body that ends inside a fixed run: read segment by segment, the run as a whole is
missed where it starts. -/
theorem readBody_agrees (c : Codec) (body : Cursor) :
    (∀ row, c.readBody body = .ok row ↔ c.readFields body = .ok row) ∧
      (c.readBody body = c.readFields body ∨ ∃ whole single, c.readBody body = .error whole ∧
        c.readFields body = .error single ∧ Reader.BreaksOff c.endian c.segments body whole single) := by
  unfold readBody readFields
  rcases Reader.segments_eq_or_breaksOff (e := c.endian) c.covers body with
    heq | ⟨whole, single, hwhole, hsingle, hbreaks⟩
  · rw [heq]
    exact ⟨fun row => Iff.rfl, .inl rfl⟩
  · rw [hwhole, hsingle]
    exact ⟨fun row => ⟨nofun, nofun⟩, .inr ⟨whole, single, rfl, rfl, hbreaks⟩⟩

/-- The block of the sample schema takes four bytes. Where only three are there, the filler at its end is missing. -/
example : sample.readBody ⟨10, [2, 1, 1]⟩ = .error (.truncated 10 4 3) ∧
    sample.readFields ⟨10, [2, 1, 1]⟩ = .error (.truncated 13 1 0) := by decide +kernel

end Codec

end RecordPack

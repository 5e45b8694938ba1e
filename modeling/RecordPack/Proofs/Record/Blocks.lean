import RecordPack.Proofs.Layout.Covers
import RecordPack.Proofs.Record.Part

/-!
# Segments are read field by field

The block of a fixed run is taken as a whole and cut up afterwards, which gives the same values as taking
each place when its turn comes. The reader of lists also refuses counts that no buffer can hold; in a
buffer of fewer than 2^64 bytes such a list could not be read anyway (`Reader.segments_eq_ok`).
-/

namespace RecordPack

namespace Reader

variable {e : Endian} {c c' : Cursor}

theorem read_fixed_eq_ok {slot : Slot} {f : Field} {v : Value} (h : slot.IsOf f) (hfix : f.fixedWidth?.isSome) :
    f.read e c = .ok (v, c') ↔ ∃ block, block.length = slot.shape.fixedWidth?.getD 0 ∧ c.Passes block c' ∧
      v = fixedSlot e slot.shape block := by
  rw [h.2]
  obtain ⟨id, type, width, count, note⟩ := f
  rcases width with w | _ <;> rcases count with _ | n | _ <;> simp only [Field.fixedWidth?] at hfix
  case fixed.none =>
    simp only [Field.read, bind_eq_ok, Prod.exists, Cursor.take_eq_ok, pure_eq_ok, Prod.mk.injEq, Shape.ofField,
      Shape.fixedWidth?, Option.getD_some, fixedSlot]
    constructor
    · rintro ⟨block, c₁, ⟨hlen, hp⟩, rfl, rfl⟩
      exact ⟨block, hlen, hp, rfl⟩
    · rintro ⟨block, hlen, hp, rfl⟩
      exact ⟨block, c', ⟨hlen, hp⟩, rfl, rfl⟩
  case fixed.some.fixed =>
    simp only [Field.read, Extent.readCount, ok_bind, bind_eq_ok, Prod.exists, Cursor.take_eq_ok, pure_eq_ok,
      Prod.mk.injEq, Shape.ofField, Shape.fixedWidth?, Option.getD_some, fixedSlot]
    constructor
    · rintro ⟨block, c₁, ⟨hlen, hp⟩, rfl, rfl⟩
      exact ⟨block, by rw [hlen, Nat.mul_comm], hp, rfl⟩
    · rintro ⟨block, hlen, hp, rfl⟩
      exact ⟨block, c', ⟨by rw [hlen, Nat.mul_comm], hp⟩, rfl, rfl⟩
  all_goals simp at hfix

/-- Places are read one by one exactly when their block can be taken as a whole. -/
theorem readAll_fixed_eq_ok {slots : List Slot} {fs : List Field} (h : List.Forall₂ Slot.IsOf slots fs)
    (hfix : ∀ f ∈ fs, f.fixedWidth?.isSome) : ∀ {c c' : Cursor} {row : Row},
    Field.readAll e fs c = .ok (row, c') ↔ ∃ block, block.length = Slot.totalWidth slots ∧ c.Passes block c' ∧
      row = fixedSlots e slots block := by
  induction h with
  | nil =>
    intro c c' row
    simp only [Field.readAll, Except.ok.injEq, Prod.mk.injEq, Slot.totalWidth, fixedSlots]
    constructor
    · rintro ⟨rfl, rfl⟩
      exact ⟨[], rfl, Cursor.passes_nil.2 rfl, rfl⟩
    · rintro ⟨block, hlen, hp, rfl⟩
      obtain rfl := List.eq_nil_of_length_eq_zero hlen
      exact ⟨rfl, (Cursor.passes_nil.1 hp).symm⟩
  | @cons slot f slots fs hof _ ih =>
    intro c c' row
    have hrest : ∀ g ∈ fs, g.fixedWidth?.isSome := fun g hg => hfix g (List.mem_cons_of_mem _ hg)
    simp only [Field.readAll, bind_eq_ok, Prod.exists, read_fixed_eq_ok hof (hfix f List.mem_cons_self), ih hrest,
      pure_eq_ok, Prod.mk.injEq, Slot.totalWidth, fixedSlots]
    constructor
    · rintro ⟨_, c₁, ⟨b, hlen, hp, rfl⟩, _, c₂, ⟨bs, hlen', hp', rfl⟩, rfl, rfl⟩
      refine ⟨b ++ bs, by rw [List.length_append, hlen, hlen'], Cursor.passes_append.2 ⟨c₁, hp, hp'⟩, ?_⟩
      rw [← hlen, List.take_left, List.drop_left]
    · -- the block is cut behind the place of the first field
      rintro ⟨block, hlen, hp, rfl⟩
      rw [← List.take_append_drop (slot.shape.fixedWidth?.getD 0) block] at hp
      obtain ⟨c₁, hp₁, hp₂⟩ := Cursor.passes_append.1 hp
      refine ⟨_, c₁, ⟨_, ?_, hp₁, rfl⟩, _, c', ⟨_, ?_, hp₂, rfl⟩, rfl, rfl⟩
      · rw [List.length_take, hlen]
        omega
      · rw [List.length_drop, hlen]
        omega

theorem dynamicSlot_eq_ok {slot : Slot} {f : Field} {v : Value} (h : slot.IsOf f) (hdyn : f.fixedWidth? = none)
    (hsmall : c.rest.length < UInt64.size) :
    dynamicSlot e slot c = .ok (v, c') ↔ f.read e c = .ok (v, c') := by
  obtain ⟨hid, hshape⟩ := h
  obtain ⟨id, type, width, count, note⟩ := f
  rcases width with w | _ <;> rcases count with _ | n | _ <;>
    simp only [Field.fixedWidth?, reduceCtorEq] at hdyn <;> simp only [Shape.ofField] at hshape
  case fixed.some.dynamic =>
    simp only [dynamicSlot, hshape, Field.read, Extent.readCount, bind_eq_ok, Prod.exists]
    refine exists_congr fun n => exists_congr fun c₁ => and_congr_right fun hn => ?_
    obtain ⟨p, -, hp⟩ := Cursor.length_eq_ok.1 hn
    have hrest := hp.length_eq
    by_cases hbig : UInt64.size ≤ n * w
    · -- so many bytes are not there
      rw [if_pos hbig]
      refine iff_of_false (by simp) ?_
      rintro ⟨block, c₂, hb, -⟩
      obtain ⟨hlen, hp₂⟩ := Cursor.take_eq_ok.1 hb
      have hrest₂ := hp₂.length_eq
      omega
    · simp only [if_neg hbig, bind_eq_ok, Prod.exists]
  case dynamic.none => simp only [dynamicSlot, hshape, Field.read]
  case dynamic.some.fixed =>
    simp only [dynamicSlot, hshape, hid, Field.read, Extent.readCount, ok_bind]
  case dynamic.some.dynamic =>
    simp only [dynamicSlot, hshape, hid, Field.read, Extent.readCount]

theorem dynamicSlots_eq_ok {slots : List Slot} {fs : List Field} (h : List.Forall₂ Slot.IsOf slots fs)
    (hdyn : ∀ f ∈ fs, f.fixedWidth? = none) : ∀ {c c' : Cursor} {row : Row}, c.rest.length < UInt64.size →
    (dynamicSlots e slots c = .ok (row, c') ↔ Field.readAll e fs c = .ok (row, c')) := by
  induction h with
  | nil => intro c c' row _; rfl
  | @cons slot f slots fs hof _ ih =>
    intro c c' row hsmall
    have hrest : ∀ g ∈ fs, g.fixedWidth? = none := fun g hg => hdyn g (List.mem_cons_of_mem _ hg)
    simp only [dynamicSlots, Field.readAll, bind_eq_ok, Prod.exists, pure_eq_ok, Prod.mk.injEq,
      dynamicSlot_eq_ok hof (hdyn f List.mem_cons_self) hsmall]
    refine exists_congr fun v => exists_congr fun c₁ => and_congr_right fun hv => ?_
    -- reading leaves no more than there was
    obtain ⟨ps, -, hp⟩ := Field.read_eq_ok.1 hv
    have hlen := hp.length_eq
    refine exists_congr fun vs => exists_congr fun c₂ => and_congr_left fun _ => ?_
    exact ih hrest (by omega)

theorem segment_eq_ok {order : ByteOrder} {seg : Segment} {fs : List Field} {row : Row} (h : seg.IsOf order fs)
    (hsmall : c.rest.length < UInt64.size) :
    segment e seg c = .ok (row, c') ↔ Field.readAll e fs c = .ok (row, c') := by
  cases h with
  | @dynamic slots fs hof hdyn => exact dynamicSlots_eq_ok hof hdyn hsmall
  | @fixed slots fs hof hfix =>
    simp only [segment, readAll_fixed_eq_ok hof hfix, bind_eq_ok, Prod.exists, Cursor.take_eq_ok, pure_eq_ok,
      Prod.mk.injEq]
    constructor
    · rintro ⟨block, c₁, ⟨hlen, hp⟩, rfl, rfl⟩
      exact ⟨block, hlen, hp, rfl⟩
    · rintro ⟨block, hlen, hp, rfl⟩
      exact ⟨block, c', ⟨hlen, hp⟩, rfl, rfl⟩

/-- Segments are read with the same values as their fields. -/
theorem segments_eq_ok {order : ByteOrder} {segs : List Segment} {fields : List Field}
    (h : Covers order segs fields) : ∀ {c c' : Cursor} {row : Row}, c.rest.length < UInt64.size →
    (segments e segs c = .ok (row, c') ↔ Field.readAll e fields c = .ok (row, c')) := by
  induction h with
  | nil => intro c c' row _; rfl
  | @cons seg fs fields segs hof _ ih =>
    intro c c' row hsmall
    simp only [segments, Field.readAll_append, bind_eq_ok, Prod.exists, pure_eq_ok, Prod.mk.injEq,
      segment_eq_ok hof hsmall]
    refine exists_congr fun vs => exists_congr fun c₁ => and_congr_right fun hvs => ?_
    obtain ⟨ps, -, hp⟩ := Field.readAll_eq_ok.1 hvs
    have hlen := hp.length_eq
    refine exists_congr fun ws => exists_congr fun c₂ => and_congr_left fun _ => ?_
    exact ih (by omega)

end Reader

end RecordPack

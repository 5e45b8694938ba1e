import RecordPack.Proofs.LengthPrefix
import RecordPack.Proofs.Layout.Covers
import RecordPack.Proofs.Record.FieldByField
import RecordPack.Proofs.Record.Place

/-!
# Segments are written field by field

A writer sets the block of a fixed run aside before it looks at the values, and the block of a list before
its items. `Writer.HasRoom` says that no such block is refused. Then what is written for the segments of a
schema, errors included, is what is written field by field (`Writer.segments_eq`); and what is written at
all had room. What has room behind some bytes has room behind fewer (`Writer.hasRoom_mono`).
-/

namespace RecordPack

theorem ScalarType.writeAll_eq (e : Endian) (type : ScalarType) (width : Nat) (items : List Value) :
    type.writeAll e width items = (items.mapM (type.write e width)).map List.flatten := by
  induction items with
  | nil => rfl
  | cons v vs ih =>
    rw [writeAll, ih, List.mapM_cons]
    cases type.write e width v with
    | error err => rfl
    | ok b => cases vs.mapM (type.write e width) <;> rfl

namespace Strings

theorem write_eq (ss : List Bytes) : write ss = (ss.mapM writeOne).map List.flatten := by
  induction ss with
  | nil => rfl
  | cons s ss ih =>
    rw [write, ih, List.mapM_cons]
    cases writeOne s with
    | error err => rfl
    | ok b => cases ss.mapM writeOne <;> rfl

/-- The length that is announced is that of the strings as they are written. -/
theorem payloadLength_eq (ss : List Bytes) :
    payloadLength ss = (ss.mapM writeOne).map fun pieces => pieces.flatten.length := by
  induction ss with
  | nil => rfl
  | cons s ss ih =>
    rw [payloadLength, ih, List.mapM_cons, LengthPrefix.width?_eq, writeOne]
    cases henc : LengthPrefix.encode s.length with
    | error cause =>
      -- both refuse a string for its length, and name that length
      obtain ⟨-, rfl⟩ := LengthPrefix.encode_eq_error_iff.1 henc
      rfl
    | ok p =>
      simp only [map_ok, ok_bind]
      cases ss.mapM writeOne with
      | error cause => rfl
      | ok pieces => simp [pure, Except.pure, bind, Except.bind, Except.map, Nat.add_assoc]

end Strings

namespace Writer

/-- The block for the items of a list fits the buffer, behind their count. -/
def SlotHasRoom (position : Nat) (slot : Slot) (v : Value) : Prop :=
  ∀ type itemWidth items, slot.shape = .list type itemWidth → v = .list items →
    position + (LengthPrefix.width? items.length).getD 8 + items.length * itemWidth ≤ LengthPrefix.maxLength

/-- Each block of a run of lists fits the buffer when its turn comes. -/
def SlotsHaveRoom (e : Endian) (position : Nat) : List Slot → Row → Prop
  | slot :: slots, v :: vs =>
    SlotHasRoom position slot v ∧
      ∀ b, dynamicSlot e position slot v = .ok b → SlotsHaveRoom e (position + b.length) slots vs
  | _, _ => True

/-- The blocks of a segment fit the buffer. -/
def SegmentHasRoom (e : Endian) (position : Nat) (seg : Segment) (row : Row) : Prop :=
  match seg with
  | .fixed run => position + run.width ≤ LengthPrefix.maxLength
  | .dynamic slots => SlotsHaveRoom e position slots row

/-- Every block that is set aside fits the buffer when its turn comes. -/
def HasRoom (e : Endian) (position : Nat) : List Segment → Row → Prop
  | [], _ => True
  | seg :: segs, row =>
    SegmentHasRoom e position seg (row.take seg.slots.length) ∧
      ∀ b, segment e position seg (row.take seg.slots.length) = .ok b →
        HasRoom e (position + b.length) segs (row.drop seg.slots.length)

variable {e : Endian} {position : Nat}

/-! ## Single slots -/

theorem fixedSlot_eq {slot : Slot} {f : Field} (h : slot.IsOf f) (hfix : f.fixedWidth?.isSome) (v : Value) :
    (fixedSlot e slot.shape v).mapError (.field slot.id) = f.write e v := by
  rw [h.1, h.2]
  obtain ⟨id, type, width, count, note⟩ := f
  rcases width with w | _ <;> rcases count with _ | n | _ <;> simp only [Field.fixedWidth?] at hfix
  case fixed.none => rfl
  case fixed.some.fixed =>
    simp only [Shape.ofField, fixedSlot, Field.write, Field.itemsOf, Extent.checkItems, Extent.countBytes]
    cases itemsOf v with
    | error fault => rfl
    | ok items =>
      simp only [ok_bind, mapError_ok]
      cases checkCount n items with
      | error fault => rfl
      | ok u =>
        simp only [ok_bind, mapError_ok, ScalarType.writeAll_eq, pure_bind]
        cases items.mapM (type.write e w) <;> rfl
  all_goals simp at hfix

theorem reserve_eq_ok {width : Nat} : reserve position width = .ok () ↔ position + width ≤ LengthPrefix.maxLength := by
  unfold reserve
  split <;> simp [*]

theorem length_lengthBytes {n : Nat} {b : Bytes} (h : lengthBytes n = .ok b) :
    (LengthPrefix.width? n).getD 8 = b.length := by
  rw [LengthPrefix.width?_eq, mapError_eq_ok.1 h]
  rfl

section Lists

variable {slot : Slot} {type : ScalarType} {note : Option String}

theorem dynamicSlot_list_eq {w : Nat} {v : Value} (hshape : slot.shape = .list type w)
    (hroom : SlotHasRoom position slot v) :
    dynamicSlot e position slot v = Field.write e ⟨slot.id, type, .fixed w, some .dynamic, note⟩ v := by
  simp only [dynamicSlot, hshape, Field.write, Field.itemsOf, Extent.checkItems, Extent.countBytes]
  cases hitems : itemsOf v with
  | error fault => rfl
  | ok items =>
    obtain rfl : v = .list items := by
      cases v <;> cases hitems
      rfl
    have hle := hroom type w items hshape rfl
    -- what fits a buffer is less than the limit on products
    have hlt : ¬ UInt64.size ≤ items.length * w := by
      simp only [LengthPrefix.maxLength, UInt64.size] at hle ⊢
      omega
    simp only [ok_bind, mapError_ok, if_neg hlt, pure_bind]
    cases hhead : lengthBytes items.length with
    | error err => rfl
    | ok head =>
      rw [length_lengthBytes hhead] at hle
      simp only [ok_bind, reserve_eq_ok.2 hle, ScalarType.writeAll_eq]
      cases items.mapM (type.write e w) <;> rfl

theorem dynamicSlot_fixedStringList_eq {n : Nat} (hshape : slot.shape = .fixedStringList n) (v : Value) :
    dynamicSlot e position slot v = Field.write e ⟨slot.id, type, .dynamic, some (.fixed n), note⟩ v := by
  simp only [dynamicSlot, hshape, Field.write, Field.itemsOf, Extent.checkItems, Extent.countBytes]
  cases itemsOf v with
  | error fault => rfl
  | ok items =>
    simp only [ok_bind, mapError_ok]
    cases checkCount n items with
    | error fault => rfl
    | ok u =>
      simp only [ok_bind, mapError_ok, pure_bind]
      cases items.mapM bytesOf with
      | error fault => rfl
      | ok strings =>
        simp only [ok_bind, mapError_ok, Strings.payloadLength_eq, Strings.write_eq]
        cases strings.mapM Strings.writeOne with
        | error cause => rfl
        | ok pieces =>
          simp only [ok_bind, map_ok, mapError_ok]
          cases lengthBytes pieces.flatten.length <;> simp [pure, Except.pure, bind, Except.bind]

theorem dynamicSlot_stringList_eq (hshape : slot.shape = .stringList) (v : Value) :
    dynamicSlot e position slot v = Field.write e ⟨slot.id, type, .dynamic, some .dynamic, note⟩ v := by
  simp only [dynamicSlot, hshape, stringsOf, Field.write, Field.itemsOf, Extent.checkItems, Extent.countBytes]
  cases itemsOf v with
  | error fault => rfl
  | ok items =>
    simp only [ok_bind, mapError_ok, pure_bind]
    cases hstrings : items.mapM bytesOf with
    | error fault => rfl
    | ok strings =>
      -- one count is of the items and the other of their strings
      have hlen : items.length = strings.length := (mapM_eq_ok.1 hstrings).length_eq
      simp only [ok_bind, mapError_ok, Strings.payloadLength_eq, Strings.write_eq, hlen]
      cases strings.mapM Strings.writeOne with
      | error cause => rfl
      | ok pieces => rfl

end Lists

theorem dynamicSlot_eq {slot : Slot} {f : Field} {v : Value} (h : slot.IsOf f) (hdyn : f.fixedWidth? = none)
    (hroom : SlotHasRoom position slot v) : dynamicSlot e position slot v = f.write e v := by
  obtain ⟨hid, hshape⟩ := h
  obtain ⟨id, type, width, count, note⟩ := f
  subst hid
  rcases width with w | _ <;> rcases count with _ | n | _ <;>
    simp only [Field.fixedWidth?, reduceCtorEq] at hdyn <;> simp only [Shape.ofField] at hshape
  case fixed.some.dynamic => exact dynamicSlot_list_eq hshape hroom
  case dynamic.none => simp only [dynamicSlot, hshape, Field.write]
  case dynamic.some.fixed => exact dynamicSlot_fixedStringList_eq hshape v
  case dynamic.some.dynamic => exact dynamicSlot_stringList_eq hshape v

/-! ## Runs -/

theorem fixedSlots_eq {slots : List Slot} {fs : List Field} (h : List.Forall₂ Slot.IsOf slots fs)
    (hfix : ∀ f ∈ fs, f.fixedWidth?.isSome) : ∀ row, fixedSlots e slots row = Field.writeAll e fs row := by
  induction h with
  | nil => intro row; rfl
  | @cons slot f slots fs hof _ ih =>
    intro row
    cases row with
    | nil => rfl
    | cons v vs =>
      rw [fixedSlots, Field.writeAll_cons, fixedSlot_eq hof (hfix f List.mem_cons_self),
        ih fun g hg => hfix g (List.mem_cons_of_mem _ hg)]

theorem dynamicSlots_eq {slots : List Slot} {fs : List Field} (h : List.Forall₂ Slot.IsOf slots fs)
    (hdyn : ∀ f ∈ fs, f.fixedWidth? = none) : ∀ {position : Nat} {row : Row},
    SlotsHaveRoom e position slots row → dynamicSlots e position slots row = Field.writeAll e fs row := by
  induction h with
  | nil => intro position row _; rfl
  | @cons slot f slots fs hof _ ih =>
    intro position row hroom
    cases row with
    | nil => rfl
    | cons v vs =>
      obtain ⟨hslot, hrest⟩ := hroom
      -- where the next slot stands depends on what this one wrote, so the bytes are compared first
      have heq := dynamicSlot_eq (e := e) hof (hdyn f List.mem_cons_self) hslot
      rw [dynamicSlots, Field.writeAll_cons, heq]
      rw [heq] at hrest
      cases hw : f.write e v with
      | error err => rfl
      | ok b =>
        simp only [ok_bind]
        rw [ih (fun g hg => hdyn g (List.mem_cons_of_mem _ hg)) (hrest b hw)]

theorem segment_eq {order : ByteOrder} {seg : Segment} {fs : List Field} {row : Row} (h : seg.IsOf order fs)
    (hroom : SegmentHasRoom e position seg row) : segment e position seg row = Field.writeAll e fs row := by
  cases h with
  | @fixed slots fs hof hfix =>
    have hres : reserve position (FixedRun.ofSlots order slots).width = .ok () := if_pos hroom
    simp only [segment, hres, ok_bind]
    exact fixedSlots_eq hof hfix row
  | @dynamic slots fs hof hdyn => exact dynamicSlots_eq hof hdyn hroom

/-- Where there is room, segments are written field by field: the same bytes, or the same error. -/
theorem segments_eq {order : ByteOrder} {segs : List Segment} {fields : List Field}
    (h : Covers order segs fields) : ∀ {position : Nat} {row : Row}, HasRoom e position segs row →
      segments e position segs row = Field.writeAll e fields row := by
  induction h with
  | nil => intro position row _; rfl
  | @cons seg fs fields segs hof _ ih =>
    intro position row hroom
    obtain ⟨hseg, hrest⟩ := hroom
    have heq := segment_eq hof hseg
    rw [segments, Field.writeAll_append, ← hof.length_eq, heq]
    rw [heq] at hrest
    cases hw : Field.writeAll e fs (row.take seg.slots.length) with
    | error err => rfl
    | ok b =>
      simp only [ok_bind]
      rw [ih (hrest b hw)]

/-! ## What is written had room -/

theorem slotHasRoom_of_eq_ok {slot : Slot} {v : Value} {b : Bytes}
    (h : dynamicSlot e position slot v = .ok b) : SlotHasRoom position slot v := by
  rintro type itemWidth items hshape rfl
  simp only [dynamicSlot, hshape, itemsOf, mapError_ok, ok_bind] at h
  split at h
  · cases h
  · simp only [bind_eq_ok] at h
    obtain ⟨head, hhead, u, hres, -⟩ := h
    rw [length_lengthBytes hhead]
    exact reserve_eq_ok.1 hres

theorem slotsHaveRoom_of_eq_ok {slots : List Slot} : ∀ {position : Nat} {row : Row} {b : Bytes},
    dynamicSlots e position slots row = .ok b → SlotsHaveRoom e position slots row := by
  induction slots with
  | nil => intro position row b _; trivial
  | cons slot slots ih =>
    intro position row b h
    cases row with
    | nil => trivial
    | cons v vs =>
      simp only [dynamicSlots, bind_eq_ok] at h
      obtain ⟨b₁, h₁, b₂, h₂, -⟩ := h
      refine ⟨slotHasRoom_of_eq_ok h₁, ?_⟩
      intro b hb
      obtain rfl : b₁ = b := Except.ok.inj (h₁.symm.trans hb)
      exact ih h₂

theorem segmentHasRoom_of_eq_ok {seg : Segment} {row : Row} {b : Bytes}
    (h : segment e position seg row = .ok b) : SegmentHasRoom e position seg row := by
  cases seg with
  | fixed run =>
    simp only [segment, bind_eq_ok] at h
    obtain ⟨u, hres, -⟩ := h
    exact reserve_eq_ok.1 hres
  | dynamic slots => exact slotsHaveRoom_of_eq_ok h

/-- A writer that succeeds found room for every block. -/
theorem hasRoom_of_eq_ok {segs : List Segment} : ∀ {position : Nat} {row : Row} {b : Bytes},
    segments e position segs row = .ok b → HasRoom e position segs row := by
  induction segs with
  | nil => intro position row b _; trivial
  | cons seg segs ih =>
    intro position row b h
    simp only [segments, bind_eq_ok] at h
    obtain ⟨b₁, h₁, b₂, h₂, -⟩ := h
    refine ⟨segmentHasRoom_of_eq_ok h₁, ?_⟩
    intro b hb
    obtain rfl : b₁ = b := Except.ok.inj (h₁.symm.trans hb)
    exact ih h₂

/-! ## What fits has room -/

theorem length_places {type : ScalarType} {width : Nat} {items : List Value} {places : List Bytes}
    (h : items.mapM (type.write e width) = .ok places) : places.flatten.length = items.length * width := by
  obtain ⟨hlen, hall, -⟩ := ScalarType.places_of_mapM h
  rw [ScalarType.length_flatten_places hall, hlen]

theorem length_of_fixedSlot {slot : Slot} {v : Value} {b : Bytes} (hfix : slot.shape.isFixed = true)
    (h : fixedSlot e slot.shape v = .ok b) : b.length = slot.shape.fixedWidth?.getD 0 := by
  cases hshape : slot.shape <;> rw [hshape] at h hfix
  case scalar type width => exact ScalarType.length_of_write h
  case fixedList type itemWidth count =>
    simp only [fixedSlot, ScalarType.writeAll_eq, bind_eq_ok, map_eq_ok] at h
    obtain ⟨items, -, u, hcount, places, hplaces, rfl⟩ := h
    have hlen : items.length = count := by
      unfold checkCount at hcount
      split at hcount
      · assumption
      · cases hcount
    rw [length_places hplaces, hlen, Nat.mul_comm]
    rfl
  all_goals cases hfix

theorem length_of_fixedSlots {slots : List Slot} (hfix : ∀ slot ∈ slots, slot.shape.isFixed = true) :
    ∀ {row : Row} {b : Bytes}, row.length = slots.length → fixedSlots e slots row = .ok b →
      b.length = Slot.totalWidth slots := by
  induction slots with
  | nil =>
    rintro row b - ⟨⟩
    rfl
  | cons slot slots ih =>
    intro row b hlen h
    cases row with
    | nil => cases hlen
    | cons v vs =>
      simp only [fixedSlots, bind_eq_ok, mapError_eq_ok, pure_eq_ok] at h
      obtain ⟨b₁, h₁, b₂, h₂, rfl⟩ := h
      have hhead := length_of_fixedSlot (hfix slot List.mem_cons_self) h₁
      have htail := ih (fun s hs => hfix s (List.mem_cons_of_mem _ hs)) (Nat.succ.inj hlen) h₂
      rw [List.length_append, hhead, htail, Slot.totalWidth]

theorem slotHasRoom_of_le {slot : Slot} {f : Field} {v : Value} {b : Bytes} (h : slot.IsOf f)
    (hw : f.write e v = .ok b) (hle : position + b.length ≤ LengthPrefix.maxLength) :
    SlotHasRoom position slot v := by
  rintro type itemWidth items hshape rfl
  obtain ⟨id, ftype, width, count, note⟩ := f
  have hof := h.2.symm.trans hshape
  rcases width with w | _ <;> rcases count with _ | n | _ <;>
    simp only [Shape.ofField, reduceCtorEq, Shape.list.injEq] at hof
  obtain ⟨rfl, rfl⟩ := hof
  simp only [Field.write, Field.itemsOf, itemsOf, Extent.checkItems, Extent.countBytes, mapError_ok, ok_bind,
    bind_eq_ok, pure_eq_ok, mapError_eq_ok, exists_eq_left'] at hw
  obtain ⟨head, hhead, places, hplaces, rfl⟩ := hw
  rw [List.length_append, length_places hplaces] at hle
  rw [length_lengthBytes hhead]
  omega

theorem slotsHaveRoom_of_le {slots : List Slot} {fs : List Field} (h : List.Forall₂ Slot.IsOf slots fs)
    (hdyn : ∀ f ∈ fs, f.fixedWidth? = none) : ∀ {position : Nat} {row : Row} {b : Bytes},
    Field.writeAll e fs row = .ok b → position + b.length ≤ LengthPrefix.maxLength →
      SlotsHaveRoom e position slots row := by
  induction h with
  | nil => intro position row b _ _; trivial
  | @cons slot f slots fs hof _ ih =>
    intro position row b hw hle
    cases row with
    | nil => trivial
    | cons v vs =>
      simp only [Field.writeAll_cons, bind_eq_ok, pure_eq_ok] at hw
      obtain ⟨b₁, h₁, b₂, h₂, rfl⟩ := hw
      rw [List.length_append] at hle
      have hslot : SlotHasRoom position slot v := slotHasRoom_of_le hof h₁ (by omega)
      refine ⟨hslot, ?_⟩
      intro b hb
      rw [dynamicSlot_eq hof (hdyn f List.mem_cons_self) hslot] at hb
      obtain rfl : b₁ = b := Except.ok.inj (h₁.symm.trans hb)
      exact ih (fun g hg => hdyn g (List.mem_cons_of_mem _ hg)) h₂ (by omega)

theorem segmentHasRoom_of_le {order : ByteOrder} {seg : Segment} {fs : List Field} {row : Row} {b : Bytes}
    (h : seg.IsOf order fs) (hrow : row.length = fs.length) (hw : Field.writeAll e fs row = .ok b)
    (hle : position + b.length ≤ LengthPrefix.maxLength) : SegmentHasRoom e position seg row := by
  cases h with
  | @dynamic slots fs hof hdyn => exact slotsHaveRoom_of_le hof hdyn hw hle
  | @fixed slots fs hof hfix =>
    have hslots : ∀ slot ∈ slots, slot.shape.isFixed = true := by
      intro slot hslot
      obtain ⟨f, hf, hfs⟩ := exists_mem_of_forall₂ hof.flip slot hslot
      rw [Shape.isFixed, Slot.IsOf.fixedWidth? hfs]
      exact hfix f hf
    have hlen := length_of_fixedSlots hslots (hrow.trans hof.length_eq.symm) ((fixedSlots_eq hof hfix row).trans hw)
    rw [hlen] at hle
    exact hle

/-- Where everything that is written field by field fits, there is room for every block. -/
theorem hasRoom_of_le {order : ByteOrder} {segs : List Segment} {fields : List Field}
    (h : Covers order segs fields) : ∀ {position : Nat} {row : Row} {b : Bytes}, row.length = fields.length →
      Field.writeAll e fields row = .ok b → position + b.length ≤ LengthPrefix.maxLength →
      HasRoom e position segs row := by
  induction h with
  | nil => intro position row b _ _ _; trivial
  | @cons seg fs fields segs hof _ ih =>
    intro position row b hrow hw hle
    simp only [Field.writeAll_append, bind_eq_ok, pure_eq_ok] at hw
    obtain ⟨b₁, h₁, b₂, h₂, rfl⟩ := hw
    -- the blocks of the segment end where its bytes do, or before
    rw [List.length_append] at hle hrow
    rw [← hof.length_eq] at h₁ h₂ hrow
    have hseg : SegmentHasRoom e position seg (row.take seg.slots.length) :=
      segmentHasRoom_of_le hof (by rw [List.length_take, ← hof.length_eq]; omega) h₁ (by omega)
    refine ⟨hseg, ?_⟩
    intro b hb
    rw [segment_eq hof hseg] at hb
    obtain rfl : b₁ = b := Except.ok.inj (h₁.symm.trans hb)
    exact ih (by rw [List.length_drop]; omega) h₂ (by omega)

/-! ## Less before it -/

theorem slotHasRoom_mono {earlier : Nat} {slot : Slot} {v : Value} (hle : earlier ≤ position)
    (h : SlotHasRoom position slot v) : SlotHasRoom earlier slot v := by
  intro type itemWidth items hshape hv
  have := h type itemWidth items hshape hv
  omega

theorem slotsHaveRoom_mono {slots : List Slot} {fs : List Field} (h : List.Forall₂ Slot.IsOf slots fs)
    (hdyn : ∀ f ∈ fs, f.fixedWidth? = none) : ∀ {earlier position : Nat} {row : Row}, earlier ≤ position →
    SlotsHaveRoom e position slots row → SlotsHaveRoom e earlier slots row := by
  induction h with
  | nil => intro earlier position row _ _; trivial
  | @cons slot f slots fs hof _ ih =>
    intro earlier position row hle hroom
    cases row with
    | nil => trivial
    | cons v vs =>
      obtain ⟨hslot, hrest⟩ := hroom
      have hslot' := slotHasRoom_mono hle hslot
      refine ⟨hslot', ?_⟩
      intro b hb
      -- where there is room, the bytes of a slot do not depend on where they stand
      have hf := hdyn f List.mem_cons_self
      rw [dynamicSlot_eq hof hf hslot', ← dynamicSlot_eq hof hf hslot] at hb
      exact ih (fun g hg => hdyn g (List.mem_cons_of_mem _ hg)) (Nat.add_le_add_right hle _) (hrest b hb)

theorem segmentHasRoom_mono {order : ByteOrder} {seg : Segment} {fs : List Field} (h : seg.IsOf order fs)
    {earlier : Nat} {row : Row} (hle : earlier ≤ position) (hroom : SegmentHasRoom e position seg row) :
    SegmentHasRoom e earlier seg row := by
  cases h with
  | dynamic hof hdyn => exact slotsHaveRoom_mono hof hdyn hle hroom
  | fixed _ _ => exact Nat.le_trans (Nat.add_le_add_right hle _) hroom

/-- What has room in a buffer has room in one that holds less. -/
theorem hasRoom_mono {order : ByteOrder} {segs : List Segment} {fields : List Field}
    (h : Covers order segs fields) : ∀ {earlier position : Nat} {row : Row}, earlier ≤ position →
    HasRoom e position segs row → HasRoom e earlier segs row := by
  induction h with
  | nil => intro earlier position row _ _; trivial
  | @cons seg fs fields segs hof _ ih =>
    intro earlier position row hle hroom
    obtain ⟨hseg, hrest⟩ := hroom
    have hseg' := segmentHasRoom_mono hof hle hseg
    refine ⟨hseg', ?_⟩
    intro b hb
    rw [segment_eq hof hseg', ← segment_eq hof hseg] at hb
    exact ih (Nat.add_le_add_right hle _) (hrest b hb)

end Writer

end RecordPack

import RecordPack.Proofs.Layout.Segmentation
import RecordPack.Proofs.Record.Part

/-!
# Layouts of well-formed schemas

What is known of the segments of a schema that a parser can accept (`Segment.wellFormed_of_mem`): every slot
stands for a field of the schema, its places are not empty and fit their type, and no block is longer than a record
can be. The blocks are together as wide as the fixed fields (`Segment.sum_blockWidth`).
-/

namespace RecordPack

/-! ## Shapes -/

namespace Shape

/-- No width and no count of the layout is zero, and the places fit their type. -/
def WellFormed : Shape → Prop
  | scalar type width => 0 < width ∧ type.Fits width
  | fixedList type itemWidth count => 0 < itemWidth ∧ type.Fits itemWidth ∧ 0 < count
  | list type itemWidth => 0 < itemWidth ∧ type.Fits itemWidth
  | fixedStringList count => 0 < count
  | string | stringList => True

theorem wellFormed_ofField {f : Field} (h : f.WellFormed) : (ofField f).WellFormed := by
  obtain ⟨id, type, width, count, note⟩ := f
  rcases width with w | _ <;> rcases count with _ | n | _
  case fixed.none => exact ⟨h.width_pos w rfl, h.fits rfl⟩
  case fixed.some.fixed => exact ⟨h.width_pos w rfl, h.fits rfl, h.count_pos n rfl⟩
  case fixed.some.dynamic => exact ⟨h.width_pos w rfl, h.fits rfl⟩
  case dynamic.none => trivial
  case dynamic.some.fixed => exact h.count_pos n rfl
  case dynamic.some.dynamic => trivial

end Shape

/-! ## Widths -/

theorem Slot.totalWidth_append (slots slots' : List Slot) :
    totalWidth (slots ++ slots') = totalWidth slots + totalWidth slots' := by
  simp only [totalWidth_eq, List.filterMap_append, List.sum_append]

theorem Slot.totalWidth_eq_of_forall₂ {slots : List Slot} {fs : List Field} (h : List.Forall₂ IsOf slots fs) :
    totalWidth slots = Field.totalWidth fs := by
  induction h with
  | nil => rfl
  | cons hof _ ih => rw [totalWidth, ih, hof.fixedWidth?, Field.totalWidth_cons]

theorem Field.totalWidth_eq_zero {fs : List Field} (h : ∀ f ∈ fs, f.fixedWidth? = none) : totalWidth fs = 0 := by
  rw [totalWidth, List.filterMap_eq_nil_iff.2 h, List.sum_nil]

namespace Segment

/-- The bytes of the block, if the segment is one. -/
def blockWidth : Segment → Nat
  | fixed run => run.width
  | dynamic _ => 0

theorem IsOf.blockWidth_eq {order : ByteOrder} {seg : Segment} {fs : List Field} (h : seg.IsOf order fs) :
    seg.blockWidth = Field.totalWidth fs := by
  cases h with
  | fixed hof _ => exact Slot.totalWidth_eq_of_forall₂ hof
  | dynamic _ hdyn => exact (Field.totalWidth_eq_zero hdyn).symm

theorem sum_blockWidth_of_covers {order : ByteOrder} {segs : List Segment} {fields : List Field}
    (h : Covers order segs fields) : (segs.map blockWidth).sum = Field.totalWidth fields := by
  induction h with
  | nil => rfl
  | cons hof _ ih => rw [List.map_cons, List.sum_cons, ih, hof.blockWidth_eq, Field.totalWidth_append]

/-- The blocks are together as wide as the fixed fields. -/
theorem sum_blockWidth (s : Schema) : ((ofSchema s).map blockWidth).sum = Field.totalWidth s.fields :=
  sum_blockWidth_of_covers (covers_ofSchema s)

/-! ## Segments -/

/-- A slot of a segment is that of the field at its position. -/
theorem exists_field_of_mem {s : Schema} {seg : Segment} {slot : Slot} (hseg : seg ∈ ofSchema s)
    (hslot : slot ∈ seg.slots) : ∃ f, s.fields[slot.index]? = some f ∧ slot.IsOf f := by
  obtain ⟨hslots, -⟩ := eq_cut_iff.1 (rfl : ofSchema s = cut s.order (Slot.ofFields s.fields))
  have hmem : slot ∈ Slot.ofFields s.fields := hslots ▸ List.mem_flatMap.2 ⟨seg, hseg, hslot⟩
  obtain ⟨i, hi, rfl⟩ := List.mem_mapIdx.1 hmem
  exact ⟨s.fields[i], List.getElem?_eq_getElem hi, rfl, rfl⟩

/-- A segment on its own, of well-formed slots, whose block is no longer than a record can be. -/
structure WellFormed (order : ByteOrder) (seg : Segment) : Prop extends seg.IsRun order where
  shapes : ∀ slot ∈ seg.slots, slot.shape.WellFormed
  width_le : seg.blockWidth ≤ LengthPrefix.maxLength

theorem wellFormed_of_mem {s : Schema} (hs : s.WellFormed) {seg : Segment} (hseg : seg ∈ ofSchema s) :
    seg.WellFormed s.order := by
  refine ⟨isRun_of_mem_cut hseg, ?_, ?_⟩
  · intro slot hslot
    obtain ⟨f, hf, -, hshape⟩ := exists_field_of_mem hseg hslot
    rw [hshape]
    exact Shape.wellFormed_ofField (hs.fields f (List.mem_of_getElem? hf))
  · calc seg.blockWidth
        ≤ ((ofSchema s).map blockWidth).sum := List.le_sum_of_mem (List.mem_map_of_mem hseg)
      _ = Field.totalWidth s.fields := sum_blockWidth s
      _ ≤ LengthPrefix.maxLength := hs.totalWidth_le

end Segment

end RecordPack

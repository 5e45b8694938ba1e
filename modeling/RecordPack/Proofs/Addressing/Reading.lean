import RecordPack.Proofs.Addressing.Steps
import RecordPack.Proofs.Layout.WellFormed
import RecordPack.Proofs.Record.Cursor

/-!
# Reading in place

A machine takes a block as a whole and reads its values from it: slot after slot, each from the offset where the one
before it ends, the items of a list from the pieces of its place, a number from as many bytes as its type has. For
well-formed segments there is no trap on the way, and what is read is what `Reader.segments` gives
(`getSegments_eq`).
-/

namespace RecordPack.Addressing

variable {e : Endian} {type : ScalarType}

/-! ## Places -/

/-- Reads a value from its place: a number from the first bytes, a byte string from all of them, and a filler from
none. -/
def getScalar (e : Endian) (type : ScalarType) (place : Bytes) : Except Halt Value :=
  match type with
  | .bytes | .pad => .ok (type.read e place)
  | _ => (slice place 0 type.width).map (type.read e)

/-- Reads items from the pieces of a block. -/
def getItems (e : Endian) (type : ScalarType) (itemWidth count : Nat) (block : Bytes) : Except Halt (List Value) := do
  let places ← pieces itemWidth count block
  places.mapM (getScalar e type)

theorem getScalar_eq_ok {place : Bytes} (hfit : type.Fits place.length) :
    getScalar e type place = .ok (type.read e place) := by
  by_cases hbytes : type = .bytes
  · subst hbytes
    rfl
  · have hslice := slice_all place
    rw [hfit.resolve_left hbytes] at hslice
    cases type <;> first | rfl | (simp only [getScalar, hslice]; rfl)

theorem getItems_eq_ok {width count : Nat} (hwidth : 0 < width) (hfit : type.Fits width) {block : Bytes}
    (hlen : block.length = count * width) :
    getItems e type width count block = .ok (type.readAll e width count block) := by
  obtain ⟨places, rfl, hall, rfl⟩ := exists_places hlen
  rw [getItems, pieces_flatten hwidth hall, ok_bind, ScalarType.readAll_flatten e type hall]
  refine mapM_eq_ok.2 (List.forall₂_map_right_iff.2 (List.forall₂_same.2 fun place hplace => ?_))
  exact getScalar_eq_ok (by rwa [hall place hplace])

/-! ## Blocks -/

/-- Reads a value from a block at an offset, and gives the offset where it ends. -/
def getSlot (e : Endian) (slot : Slot) (block : Bytes) (off : Nat) : Except Halt (Value × Nat) :=
  match slot.shape with
  | .scalar type width => do
    let stop ← add off width
    let place ← slice block off stop
    let v ← getScalar e type place
    return (v, stop)
  | .fixedList type itemWidth count => do
    let width ← mul itemWidth count
    let stop ← add off width
    let place ← slice block off stop
    let items ← getItems e type itemWidth count place
    return (.list items, stop)
  | _ => .error (.trap (.misplaced slot.id))

/-- Reads the values of slots, one behind the other. -/
def getSlots (e : Endian) (block : Bytes) : List Slot → Nat → Except Halt (Row × Nat)
  | [], off => .ok ([], off)
  | slot :: slots, off => do
    let (v, off) ← getSlot e slot block off
    let (vs, off) ← getSlots e block slots off
    return (v :: vs, off)

/-- Reads a block, which is taken as a whole. -/
def getRun (e : Endian) (run : FixedRun) (c : Cursor) : Except Halt (Row × Cursor) := do
  let (block, c) ← untrapped (c.take run.width)
  let (vs, off) ← getSlots e block run.slots 0
  if off = run.width then return (vs, c) else .error (.trap .unfilled)

theorem getSlot_eq_ok {slot : Slot} (hwf : slot.shape.WellFormed) (hfixed : slot.shape.isFixed = true)
    (before place after : Bytes) (hlen : place.length = slot.shape.fixedWidth?.getD 0)
    (hle : before.length + place.length ≤ LengthPrefix.maxLength) :
    getSlot e slot (before ++ (place ++ after)) before.length =
      .ok (Reader.fixedSlot e slot.shape place, before.length + place.length) := by
  have hslice := slice_append before place after
  rw [getSlot]
  cases hshape : slot.shape with
  | scalar type width =>
    rw [hshape] at hwf hlen
    obtain rfl : place.length = width := hlen
    simp only [add_eq_ok hle, ok_bind, hslice, getScalar_eq_ok hwf.2]
    rfl
  | fixedList type itemWidth count =>
    rw [hshape] at hwf hlen
    obtain ⟨hwidth, hfit, -⟩ := hwf
    have hlen : place.length = itemWidth * count := hlen
    have hmul : mul itemWidth count = .ok place.length := by
      rw [hlen] at hle ⊢
      exact mul_eq_ok (Nat.le_trans (Nat.le_add_left _ _) hle)
    have hitems := getItems_eq_ok (e := e) hwidth hfit (hlen.trans (Nat.mul_comm _ _))
    simp only [hmul, ok_bind, add_eq_ok hle, hslice, hitems]
    rfl
  | _ =>
    rw [hshape] at hfixed
    cases hfixed

/-- In a block that is as long as its slots together, every slot has its place. -/
theorem getSlots_eq_ok {slots : List Slot} : ∀ before rest : Bytes, (∀ slot ∈ slots, slot.shape.WellFormed) →
    (∀ slot ∈ slots, slot.shape.isFixed = true) → rest.length = Slot.totalWidth slots →
    before.length + rest.length ≤ LengthPrefix.maxLength →
    getSlots e (before ++ rest) slots before.length =
      .ok (Reader.fixedSlots e slots rest, before.length + rest.length) := by
  induction slots with
  | nil =>
    intro before rest _ _ hlen _
    rw [List.length_eq_zero_iff.1 hlen]
    rfl
  | cons slot slots ih =>
    intro before rest hwf hfixed hlen hle
    obtain ⟨hwf, hwfs⟩ := List.forall_mem_cons.1 hwf
    obtain ⟨hfixed, hfixeds⟩ := List.forall_mem_cons.1 hfixed
    rw [Slot.totalWidth] at hlen
    generalize hw : slot.shape.fixedWidth?.getD 0 = width at hlen
    -- the place of the slot, and what is left for the others
    have htake : (rest.take width).length = width := by rw [List.length_take]; omega
    have hdrop : (rest.drop width).length = Slot.totalWidth slots := by rw [List.length_drop]; omega
    have hsplit : rest = rest.take width ++ rest.drop width := (List.take_append_drop width rest).symm
    have hslot := getSlot_eq_ok (e := e) hwf hfixed before (rest.take width) (rest.drop width) (htake.trans hw.symm)
      (by omega)
    have hrest := ih (before ++ rest.take width) (rest.drop width) hwfs hfixeds hdrop
      (by rw [List.length_append]; omega)
    rw [List.length_append, List.append_assoc, ← hsplit, htake, hdrop, Nat.add_assoc, ← hlen] at hrest
    rw [← hsplit, htake] at hslot
    rw [getSlots, hslot, ok_bind, Reader.fixedSlots, hw]
    simp only [hrest, ok_bind]
    rfl

theorem getRun_eq {order : ByteOrder} {run : FixedRun} (hwf : (Segment.fixed run).WellFormed order) (c : Cursor) :
    getRun e run c = untrapped (Reader.segment e (.fixed run) c) := by
  have hwidth := hwf.totalWidth_slots
  rw [getRun, Reader.segment]
  refine untrapped_bind_congr fun (block, c') hblock => ?_
  have hlen : block.length = run.width := (Cursor.take_eq_ok.1 hblock).1
  have hslots := getSlots_eq_ok (e := e) [] block hwf.shapes hwf.uniform (hlen.trans hwidth.symm)
    (by rw [List.length_nil, Nat.zero_add, hlen]; exact hwf.width_le)
  rw [List.nil_append, List.length_nil, Nat.zero_add, hlen, Segment.slots] at hslots
  simp only [hslots, ok_bind, if_true]
  rfl

/-! ## Segments -/

/-- A field with lengths or counts of its own. Only its items may stand in a block. -/
def getDynamic (e : Endian) (slot : Slot) (c : Cursor) : Except Halt (Value × Cursor) :=
  match slot.shape with
  | .list type itemWidth => do
    let (count, c) ← untrapped c.length
    if UInt64.size ≤ count * itemWidth then throw (.error (.listOverflow slot.id count))
    let (block, c) ← untrapped (c.take (count * itemWidth))
    let items ← getItems e type itemWidth count block
    return (.list items, c)
  | .scalar .. | .fixedList .. => .error (.trap (.misplaced slot.id))
  | _ => untrapped (Reader.dynamicSlot e slot c)

def getDynamics (e : Endian) : List Slot → Cursor → Except Halt (Row × Cursor)
  | [], c => .ok ([], c)
  | slot :: slots, c => do
    let (v, c) ← getDynamic e slot c
    let (vs, c) ← getDynamics e slots c
    return (v :: vs, c)

def getSegment (e : Endian) : Segment → Cursor → Except Halt (Row × Cursor)
  | .fixed run, c => getRun e run c
  | .dynamic slots, c => getDynamics e slots c

/-- Reads segments one after the other. -/
def getSegments (e : Endian) : List Segment → Cursor → Except Halt (Row × Cursor)
  | [], c => .ok ([], c)
  | seg :: segs, c => do
    let (vs, c) ← getSegment e seg c
    let (ws, c) ← getSegments e segs c
    return (vs ++ ws, c)

theorem getDynamic_eq {slot : Slot} (hwf : slot.shape.WellFormed) (hdynamic : slot.shape.isFixed = false) (c : Cursor) :
    getDynamic e slot c = untrapped (Reader.dynamicSlot e slot c) := by
  unfold getDynamic Reader.dynamicSlot
  cases hshape : slot.shape with
  | list type itemWidth =>
    rw [hshape] at hwf
    refine untrapped_bind_congr fun (count, c) _ => ?_
    simp only
    split
    · rfl
    · refine untrapped_bind_congr fun (block, c) hblock => ?_
      have hitems := getItems_eq_ok (e := e) hwf.1 hwf.2 (Cursor.take_eq_ok.1 hblock).1
      simp only [hitems, ok_bind]
      rfl
  | scalar type width =>
    rw [hshape] at hdynamic
    cases hdynamic
  | fixedList type itemWidth count =>
    rw [hshape] at hdynamic
    cases hdynamic
  | _ => rfl

theorem getDynamics_eq {slots : List Slot} : (∀ slot ∈ slots, slot.shape.WellFormed) →
    (∀ slot ∈ slots, slot.shape.isFixed = false) → ∀ {c : Cursor},
    getDynamics e slots c = untrapped (Reader.dynamicSlots e slots c) := by
  induction slots with
  | nil =>
    intro _ _ c
    rfl
  | cons slot slots ih =>
    intro hwf hdynamic c
    obtain ⟨hwf, hwfs⟩ := List.forall_mem_cons.1 hwf
    obtain ⟨hdynamic, hdynamics⟩ := List.forall_mem_cons.1 hdynamic
    rw [getDynamics, Reader.dynamicSlots, getDynamic_eq hwf hdynamic]
    refine untrapped_bind_congr fun (v, c) _ => ?_
    simp only
    rw [ih hwfs hdynamics]
    exact untrapped_bind_congr fun _ _ => rfl

theorem getSegment_eq {order : ByteOrder} {seg : Segment} (hwf : seg.WellFormed order) (c : Cursor) :
    getSegment e seg c = untrapped (Reader.segment e seg c) := by
  cases seg with
  | fixed run => exact getRun_eq hwf c
  | dynamic slots => exact getDynamics_eq hwf.shapes hwf.uniform

/-- Reading in place gives what the segments give. -/
theorem getSegments_eq {order : ByteOrder} {segs : List Segment} : (∀ seg ∈ segs, seg.WellFormed order) →
    ∀ {c : Cursor}, getSegments e segs c = untrapped (Reader.segments e segs c) := by
  induction segs with
  | nil =>
    intro _ c
    rfl
  | cons seg segs ih =>
    intro hwf c
    obtain ⟨hwf, hwfs⟩ := List.forall_mem_cons.1 hwf
    rw [getSegments, Reader.segments, getSegment_eq hwf]
    refine untrapped_bind_congr fun (vs, c) _ => ?_
    simp only
    rw [ih hwfs]
    exact untrapped_bind_congr fun _ _ => rfl

end RecordPack.Addressing

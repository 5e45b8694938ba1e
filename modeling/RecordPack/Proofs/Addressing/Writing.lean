import RecordPack.Proofs.Addressing.Steps
import RecordPack.Proofs.Layout.WellFormed
import RecordPack.Proofs.Record.Room

/-!
# Writing in place

A machine sets a block of zero bytes aside and writes its values into it: slot after slot, each at the offset where
the one before it ends, the items of a list into the pieces of its place. Values are taken from the row by their index.
For well-formed segments there is no trap on the way, and what is written is what `Writer.segments` gives
(`putSegments_eq`).
-/

namespace RecordPack.Addressing

variable {e : Endian} {id : String} {type : ScalarType}

/-! ## Places -/

/-- A block before anything is written. -/
def zeros (width : Nat) : Bytes := List.replicate width 0

/-- Writes a value into its place. Byte strings leave what follows them, and fillers everything. -/
def putScalar (e : Endian) (id : String) (type : ScalarType) (v : Value) (place : Bytes) : Except Halt Bytes :=
  match type, v with
  | .bytes, .bytes s =>
    if s.length ≤ place.length then .ok (s ++ place.drop s.length)
    else .error (.error (.field id (.widthExceeded place.length s.length)))
  | .pad, .pad => .ok place
  | _, _ => do
    let n ← untrapped ((type.pattern v).mapError (.field id))
    edit place 0 type.width fun _ => .ok (e.toBytes type.width n)

/-- Writes values into places, as long as there are both. -/
def putPlaces (e : Endian) (id : String) (type : ScalarType) : List Value → List Bytes → Except Halt Bytes
  | v :: vs, place :: places => do
    let b ← putScalar e id type v place
    let bs ← putPlaces e id type vs places
    return b ++ bs
  | _, places => .ok places.flatten

/-- Writes items into the pieces of a block. -/
def putItems (e : Endian) (id : String) (type : ScalarType) (itemWidth : Nat) (items : List Value) (block : Bytes) :
    Except Halt Bytes := do
  let places ← pieces itemWidth items.length block
  putPlaces e id type items places

@[simp] theorem length_zeros (width : Nat) : (zeros width).length = width := List.length_replicate

/-- A number takes up its place. -/
theorem putScalar_number (hbytes : type ≠ .bytes) (hpad : type ≠ .pad) (v : Value) :
    putScalar e id type v (zeros type.width) =
      untrapped ((type.write e type.width v).mapError (.field id)) := by
  have hput : putScalar e id type v (zeros type.width) =
      (untrapped ((type.pattern v).mapError (.field id)) >>= fun n =>
        edit (zeros type.width) 0 type.width fun _ => .ok (e.toBytes type.width n)) := by
    cases type <;> first | rfl | exact absurd rfl hbytes | exact absurd rfl hpad
  rw [hput, ScalarType.write_of_ne_bytes hbytes]
  cases type.pattern v with
  | error fault => rfl
  | ok n =>
    have hedit := edit_all (zeros type.width) fun _ => .ok (e.toBytes type.width n)
    rw [length_zeros] at hedit
    exact hedit

theorem putScalar_zeros {width : Nat} (hfit : type.Fits width) (v : Value) :
    putScalar e id type v (zeros width) = untrapped ((type.write e width v).mapError (.field id)) := by
  by_cases hbytes : type = .bytes
  · subst hbytes
    cases v with
    | bytes s =>
      rw [putScalar, length_zeros, ScalarType.write, zeros, List.drop_replicate]
      by_cases hle : s.length ≤ width
      · rw [if_pos hle, if_pos hle]
        rfl
      · rw [if_neg hle, if_neg hle]
        rfl
    | _ => rfl
  · obtain rfl := hfit.resolve_left hbytes
    by_cases hpad : type = .pad
    · subst hpad
      cases v with
      | pad =>
        -- the number of a filler is zero
        have hzero : e.toBytes ScalarType.pad.width 0 = zeros ScalarType.pad.width := e.toBytes_one 0
        rw [ScalarType.write_of_ne_bytes hbytes]
        exact congrArg Except.ok hzero.symm
      | _ => rfl
    · exact putScalar_number hbytes hpad v

theorem putPlaces_zeros {width : Nat} (hfit : type.Fits width) (items : List Value) :
    putPlaces e id type items (List.replicate items.length (zeros width)) =
      untrapped ((type.writeAll e width items).mapError (.field id)) := by
  induction items with
  | nil => rfl
  | cons v vs ih =>
    rw [List.length_cons, List.replicate_succ, putPlaces, putScalar_zeros hfit, ih, ScalarType.writeAll]
    cases type.write e width v with
    | error fault => rfl
    | ok b => cases type.writeAll e width vs <;> rfl

theorem putItems_zeros {width : Nat} (hwidth : 0 < width) (hfit : type.Fits width) (items : List Value) :
    putItems e id type width items (zeros (items.length * width)) =
      untrapped ((type.writeAll e width items).mapError (.field id)) := by
  have hall : ∀ place ∈ List.replicate items.length (zeros width), place.length = width := by
    intro place h
    rw [List.eq_of_mem_replicate h, length_zeros]
  have hpieces := pieces_flatten hwidth hall
  rw [List.length_replicate, zeros, List.flatten_replicate_replicate] at hpieces
  rw [putItems, zeros, hpieces, ok_bind]
  exact putPlaces_zeros hfit items

/-! ## Blocks -/

/-- Writes a value into a block at an offset, and gives the offset where it ends. -/
def putSlot (e : Endian) (slot : Slot) (v : Value) (block : Bytes) (off : Nat) : Except Halt (Bytes × Nat) :=
  match slot.shape with
  | .scalar type width => do
    let stop ← add off width
    let block ← edit block off stop (putScalar e slot.id type v)
    return (block, stop)
  | .fixedList type itemWidth count => do
    let items ← untrapped ((Writer.itemsOf v).mapError (.field slot.id))
    untrapped ((Writer.checkCount count items).mapError (.field slot.id))
    let width ← mul itemWidth count
    let stop ← add off width
    let block ← edit block off stop (putItems e slot.id type itemWidth items)
    return (block, stop)
  | _ => .error (.trap (.misplaced slot.id))

/-- Writes the values of slots, one behind the other. -/
def putSlots (e : Endian) (row : Row) : List Slot → Bytes → Nat → Except Halt (Bytes × Nat)
  | [], block, off => .ok (block, off)
  | slot :: slots, block, off => do
    let v ← valueAt row slot.index
    let (block, off) ← putSlot e slot v block off
    putSlots e row slots block off

/-- Writes a block, which is set aside before its values are looked at. -/
def putRun (e : Endian) (position : Nat) (row : Row) (run : FixedRun) : Except Halt Bytes := do
  untrapped (Writer.reserve position run.width)
  let (block, off) ← putSlots e row run.slots (zeros run.width) 0
  if off = run.width then return block else .error (.trap .unfilled)

/-- The value that a row has for a slot. -/
def IsAt (row : Row) (slot : Slot) (v : Value) : Prop := row[slot.index]? = some v

theorem putSlot_zeros {slot : Slot} (hwf : slot.shape.WellFormed) (hfixed : slot.shape.isFixed = true) (v : Value)
    (before after : Bytes) (hle : before.length + slot.shape.fixedWidth?.getD 0 ≤ LengthPrefix.maxLength) :
    putSlot e slot v (before ++ (zeros (slot.shape.fixedWidth?.getD 0) ++ after)) before.length =
      untrapped ((Writer.fixedSlot e slot.shape v).mapError (.field slot.id)) >>= fun b =>
        .ok (before ++ b ++ after, before.length + slot.shape.fixedWidth?.getD 0) := by
  rw [putSlot]
  cases hshape : slot.shape with
  | scalar type width =>
    rw [hshape] at hwf hle
    have hedit := edit_append before (zeros width) after (putScalar e slot.id type v)
    rw [length_zeros, putScalar_zeros hwf.2] at hedit
    simp only [Shape.fixedWidth?, Option.getD_some] at hle ⊢
    simp only [add_eq_ok hle, ok_bind, hedit, Writer.fixedSlot]
    cases type.write e width v <;> rfl
  | fixedList type itemWidth count =>
    rw [hshape] at hwf hle
    obtain ⟨hwidth, hfit, -⟩ := hwf
    simp only [Shape.fixedWidth?, Option.getD_some] at hle ⊢
    simp only [Writer.fixedSlot]
    cases Writer.itemsOf v with
    | error fault => rfl
    | ok items =>
      by_cases hcount : items.length = count
      · subst hcount
        have hmul : mul itemWidth items.length = .ok (itemWidth * items.length) :=
          mul_eq_ok (Nat.le_trans (Nat.le_add_left _ _) hle)
        have hedit := edit_append before (zeros (items.length * itemWidth)) after
          (putItems e slot.id type itemWidth items)
        rw [length_zeros, putItems_zeros hwidth hfit, Nat.mul_comm] at hedit
        have hcheck : Writer.checkCount items.length items = .ok () := if_pos rfl
        simp only [hcheck, mapError_ok, untrapped_ok, ok_bind, hmul, add_eq_ok hle, hedit]
        cases type.writeAll e itemWidth items <;> rfl
      · have hcheck : Writer.checkCount count items = .error (.countMismatch count items.length) := if_neg hcount
        simp only [hcheck, mapError_ok, untrapped_ok, ok_bind]
        rfl
  | _ =>
    rw [hshape] at hfixed
    cases hfixed

/-- In a block that is as long as its slots together, every slot has its place. -/
theorem putSlots_zeros {row vs : Row} {slots : List Slot} (hvs : List.Forall₂ (IsAt row) slots vs)
    (hwf : ∀ slot ∈ slots, slot.shape.WellFormed) (hfixed : ∀ slot ∈ slots, slot.shape.isFixed = true) :
    ∀ before : Bytes, before.length + Slot.totalWidth slots ≤ LengthPrefix.maxLength →
    putSlots e row slots (before ++ zeros (Slot.totalWidth slots)) before.length =
      untrapped (Writer.fixedSlots e slots vs) >>= fun bs =>
        .ok (before ++ bs, before.length + Slot.totalWidth slots) := by
  induction hvs with
  | nil =>
    intro before _
    simp [putSlots, Writer.fixedSlots, Slot.totalWidth, zeros]
  | @cons slot v slots vs hv _ ih =>
    intro before hle
    obtain ⟨hwf, hwfs⟩ := List.forall_mem_cons.1 hwf
    obtain ⟨hfixed, hfixeds⟩ := List.forall_mem_cons.1 hfixed
    rw [Slot.totalWidth, ← Nat.add_assoc] at hle
    have hslot := putSlot_zeros (e := e) hwf hfixed v before (zeros (Slot.totalWidth slots))
      (Nat.le_trans (Nat.le_add_right _ _) hle)
    have hzeros : zeros (Slot.totalWidth (slot :: slots)) =
        zeros (slot.shape.fixedWidth?.getD 0) ++ zeros (Slot.totalWidth slots) := List.replicate_add ..
    rw [putSlots, valueAt_eq_ok hv, ok_bind, hzeros, hslot, Writer.fixedSlots]
    cases hb : Writer.fixedSlot e slot.shape v with
    | error fault => rfl
    | ok b =>
      have hlen : (before ++ b).length = before.length + slot.shape.fixedWidth?.getD 0 := by
        rw [List.length_append, Writer.length_of_fixedSlot hfixed hb]
      have hrest := ih hwfs hfixeds (before ++ b) (by rwa [hlen])
      rw [hlen] at hrest
      simp only [mapError_ok, untrapped_ok, ok_bind, hrest, Slot.totalWidth, Nat.add_assoc]
      cases Writer.fixedSlots e slots vs with
      | error err => rfl
      | ok bs => simp

theorem putRun_eq {order : ByteOrder} {run : FixedRun} (hwf : (Segment.fixed run).WellFormed order) {row vs : Row}
    (hvs : List.Forall₂ (IsAt row) run.slots vs) (position : Nat) :
    putRun e position row run = untrapped (Writer.segment e position (.fixed run) vs) := by
  have hwidth := hwf.totalWidth_slots
  have hslots := putSlots_zeros (e := e) hvs hwf.shapes hwf.uniform []
    (by rw [hwidth, List.length_nil, Nat.zero_add]; exact hwf.width_le)
  rw [hwidth] at hslots
  rw [putRun, Writer.segment]
  refine untrapped_bind_congr fun _ _ => ?_
  simp only [List.nil_append, List.length_nil, Nat.zero_add] at hslots
  rw [hslots]
  cases Writer.fixedSlots e run.slots vs <;> simp

/-! ## Segments -/

/-- A field with lengths or counts of its own. Only its items may stand in a block. -/
def putDynamic (e : Endian) (position : Nat) (slot : Slot) (v : Value) : Except Halt Bytes :=
  match slot.shape with
  | .list type itemWidth => do
    let items ← untrapped ((Writer.itemsOf v).mapError (.field slot.id))
    let width := items.length * itemWidth
    if UInt64.size ≤ width then throw (.error (.length (.tooLong (UInt64.size - 1))))
    let head ← untrapped (Writer.lengthBytes items.length)
    untrapped (Writer.reserve (position + head.length) width)
    let block ← putItems e slot.id type itemWidth items (zeros width)
    return head ++ block
  | .scalar .. | .fixedList .. => .error (.trap (.misplaced slot.id))
  | _ => untrapped (Writer.dynamicSlot e position slot v)

def putDynamics (e : Endian) (position : Nat) (row : Row) : List Slot → Except Halt Bytes
  | [] => .ok []
  | slot :: slots => do
    let v ← valueAt row slot.index
    let b ← putDynamic e position slot v
    let bs ← putDynamics e (position + b.length) row slots
    return b ++ bs

def putSegment (e : Endian) (position : Nat) (row : Row) : Segment → Except Halt Bytes
  | .fixed run => putRun e position row run
  | .dynamic slots => putDynamics e position row slots

/-- Writes segments one after the other, each with the whole row at hand. -/
def putSegments (e : Endian) (position : Nat) (row : Row) : List Segment → Except Halt Bytes
  | [] => .ok []
  | seg :: segs => do
    let b ← putSegment e position row seg
    let bs ← putSegments e (position + b.length) row segs
    return b ++ bs

theorem putDynamic_eq {slot : Slot} (hwf : slot.shape.WellFormed) (hdynamic : slot.shape.isFixed = false)
    (position : Nat) (v : Value) : putDynamic e position slot v = untrapped (Writer.dynamicSlot e position slot v) := by
  unfold putDynamic Writer.dynamicSlot
  cases hshape : slot.shape with
  | list type itemWidth =>
    rw [hshape] at hwf
    refine untrapped_bind_congr fun items _ => ?_
    simp only
    split
    · rfl
    · refine untrapped_bind_congr fun head _ => untrapped_bind_congr fun _ _ => ?_
      rw [putItems_zeros hwf.1 hwf.2]
      exact untrapped_bind_congr fun block _ => rfl
  | scalar type width =>
    rw [hshape] at hdynamic
    cases hdynamic
  | fixedList type itemWidth count =>
    rw [hshape] at hdynamic
    cases hdynamic
  | _ => rfl

theorem putDynamics_eq {row vs : Row} {slots : List Slot} (hvs : List.Forall₂ (IsAt row) slots vs)
    (hwf : ∀ slot ∈ slots, slot.shape.WellFormed) (hdynamic : ∀ slot ∈ slots, slot.shape.isFixed = false) :
    ∀ {position : Nat}, putDynamics e position row slots = untrapped (Writer.dynamicSlots e position slots vs) := by
  induction hvs with
  | nil =>
    intro position
    rfl
  | @cons slot v slots vs hv _ ih =>
    intro position
    obtain ⟨hwf, hwfs⟩ := List.forall_mem_cons.1 hwf
    obtain ⟨hdynamic, hdynamics⟩ := List.forall_mem_cons.1 hdynamic
    rw [putDynamics, valueAt_eq_ok hv, ok_bind, Writer.dynamicSlots, putDynamic_eq hwf hdynamic]
    refine untrapped_bind_congr fun b _ => ?_
    rw [ih hwfs hdynamics]
    exact untrapped_bind_congr fun bs _ => rfl

theorem putSegment_eq {order : ByteOrder} {seg : Segment} (hwf : seg.WellFormed order) {row vs : Row}
    (hvs : List.Forall₂ (IsAt row) seg.slots vs) (position : Nat) :
    putSegment e position row seg = untrapped (Writer.segment e position seg vs) := by
  cases seg with
  | fixed run => exact putRun_eq hwf hvs position
  | dynamic slots => exact putDynamics_eq hvs hwf.shapes hwf.uniform

/-- Writing in place gives what the segments give. -/
theorem putSegments_eq {order : ByteOrder} {segs : List Segment} : (∀ seg ∈ segs, seg.WellFormed order) →
    ∀ {row vs : Row} {position : Nat}, List.Forall₂ (IsAt row) (segs.flatMap Segment.slots) vs →
      putSegments e position row segs = untrapped (Writer.segments e position segs vs) := by
  induction segs with
  | nil =>
    intro _ row vs position _
    rfl
  | cons seg segs ih =>
    intro hwf row vs position hvs
    obtain ⟨hwf, hwfs⟩ := List.forall_mem_cons.1 hwf
    rw [List.flatMap_cons] at hvs
    have hhead := List.forall₂_take seg.slots.length hvs
    have htail := List.forall₂_drop seg.slots.length hvs
    rw [List.take_left] at hhead
    rw [List.drop_left] at htail
    rw [putSegments, Writer.segments, putSegment_eq hwf hhead]
    refine untrapped_bind_congr fun b _ => ?_
    rw [ih hwfs htail]
    exact untrapped_bind_congr fun bs _ => rfl

/-- A row with as many values as there are fields has one for each slot. -/
theorem forall₂_isAt {fields : List Field} {row : Row} (h : row.length = fields.length) :
    List.Forall₂ (IsAt row) (Slot.ofFields fields) row := by
  refine List.forall₂_iff_get.2 ⟨by simp [Slot.ofFields, h], fun i hi hi' => ?_⟩
  simp [IsAt, Slot.ofFields, hi']

end RecordPack.Addressing

import RecordPack.Proofs.Addressing.Writing
import RecordPack.Proofs.Codec

/-!
# Records written into a buffer

A machine writes a record at the end of the buffer that holds the earlier ones: four bytes for the length, which is not
known yet, blocks of zero bytes that are filled slot by slot, lengths and strings as they come, and in the end the
length over the four bytes, or in place of them if it takes eight. Each of these steps may fail, and what was written
before it did stands in the buffer (`Step`). `Writes` says that a step leaves alone what the buffer held. So a row that
cannot be written is taken back by cutting the buffer, and the machine gives what `Codec.appendTo` gives
(`Codec.writeTo_atomic`).
-/

namespace RecordPack

namespace InPlace

open Addressing (zeros length_zeros)

variable {α : Type} {e : Endian} {id : String} {type : ScalarType} {width : Nat}

/-! ## Steps -/

/-- A step that writes to a buffer and may fail. What it wrote before it failed stays there. -/
abbrev Step := ExceptT CodecError (StateM Bytes)

/-- What a step gives, and the buffer it leaves. -/
def Step.on (m : Step α) (out : Bytes) : Except CodecError α × Bytes := (m.run).run out

/-- A step that leaves the buffer alone. -/
def lift (x : Except CodecError α) : Step α := ExceptT.mk (pure x)

/-- Puts bytes at the end. -/
def push (bs : Bytes) : Step Unit := modify (· ++ bs)

/-- Puts zero bytes at the end, and gives the offset where they start. -/
def grow (width : Nat) : Step Nat := do
  let start := (← get).length
  lift (Writer.reserve start width)
  push (zeros width)
  return start

/-- Puts bytes in place of those at an offset. -/
def store (offset : Nat) (bs : Bytes) : Step Unit :=
  modify fun out => out.take offset ++ bs ++ out.drop (offset + bs.length)

/-- Cuts the buffer, and gives what was behind the cut. -/
def splitOff (offset : Nat) : Step Bytes := do
  let out ← get
  set (out.take offset)
  return out.drop offset

def truncate (length : Nat) : Step Unit := modify (·.take length)

/-! ## Blocks -/

/-- Writes a value into its place, which holds zero bytes. Byte strings leave what follows them, and fillers leave
everything. -/
def writeScalar (e : Endian) (id : String) (type : ScalarType) (width offset : Nat) (v : Value) : Step Unit :=
  match type, v with
  | .bytes, .bytes s =>
    if s.length ≤ width then store offset s else throw (.field id (.widthExceeded width s.length))
  | .pad, .pad => pure ()
  | _, _ => do
    let n ← lift ((type.pattern v).mapError (.field id))
    store offset (e.toBytes width n)

def writeItems (e : Endian) (id : String) (type : ScalarType) (width : Nat) : (offset : Nat) → List Value → Step Unit
  | _, [] => pure ()
  | offset, v :: vs => do
    writeScalar e id type width offset v
    writeItems e id type width (offset + width) vs

def writeSlot (e : Endian) (slot : Slot) (offset : Nat) (v : Value) : Step Unit :=
  match slot.shape with
  | .scalar type width => writeScalar e slot.id type width offset v
  | .fixedList type itemWidth count => do
    let items ← lift ((Writer.itemsOf v).mapError (.field slot.id))
    lift ((Writer.checkCount count items).mapError (.field slot.id))
    writeItems e slot.id type itemWidth offset items
  | _ => pure ()

def writeSlots (e : Endian) : (offset : Nat) → List Slot → Row → Step Unit
  | offset, slot :: slots, v :: vs => do
    writeSlot e slot offset v
    writeSlots e (offset + slot.shape.fixedWidth?.getD 0) slots vs
  | _, _, _ => pure ()

/-! ## Records -/

def writeLength (n : Nat) : Step Unit := do
  let head ← lift (Writer.lengthBytes n)
  push head

def writeString (s : Bytes) : Step Unit := do
  writeLength s.length
  push s

def writeStrings : List Bytes → Step Unit
  | [] => pure ()
  | s :: ss => do
    writeString s
    writeStrings ss

/-- A field with lengths or counts of its own. -/
def writeDynamic (e : Endian) (slot : Slot) (v : Value) : Step Unit :=
  match slot.shape with
  | .string => do
    let s ← lift ((Writer.bytesOf v).mapError (.field slot.id))
    writeString s
  | .fixedStringList count => do
    let items ← lift ((Writer.itemsOf v).mapError (.field slot.id))
    lift ((Writer.checkCount count items).mapError (.field slot.id))
    let strings ← lift ((items.mapM Writer.bytesOf).mapError (.field slot.id))
    let size ← lift ((Strings.payloadLength strings).mapError .length)
    writeLength size
    writeStrings strings
  | .list type itemWidth => do
    let items ← lift ((Writer.itemsOf v).mapError (.field slot.id))
    let width := items.length * itemWidth
    if UInt64.size ≤ width then throw (.length (.tooLong (UInt64.size - 1)))
    writeLength items.length
    let start ← grow width
    writeItems e slot.id type itemWidth start items
  | .stringList => do
    let strings ← lift ((Writer.stringsOf v).mapError (.field slot.id))
    let size ← lift ((Strings.payloadLength strings).mapError .length)
    writeLength size
    writeLength strings.length
    writeStrings strings
  | _ => pure ()

def writeDynamics (e : Endian) : List Slot → Row → Step Unit
  | slot :: slots, v :: vs => do
    writeDynamic e slot v
    writeDynamics e slots vs
  | _, _ => pure ()

def writeSegment (e : Endian) (seg : Segment) (row : Row) : Step Unit :=
  match seg with
  | .fixed run => do
    let start ← grow run.width
    writeSlots e start run.slots row
  | .dynamic slots => writeDynamics e slots row

def writeSegments (e : Endian) : List Segment → Row → Step Unit
  | [], _ => pure ()
  | seg :: segs, row => do
    writeSegment e seg (row.take seg.slots.length)
    writeSegments e segs (row.drop seg.slots.length)

/-- Makes the four bytes at an offset the length of all that stands behind them. A length of eight bytes takes their
place. -/
def patchLength (start : Nat) : Step Unit := do
  let size := (← get).length - start - 4
  let head ← lift (Writer.lengthBytes size)
  if head.length = 4 then store start head
  else do
    let body ← splitOff (start + 4)
    truncate start
    push head
    push body

def writeRecord (e : Endian) (segs : List Segment) (row : Row) : Step Unit := do
  let start := (← get).length
  push (zeros 4)
  writeSegments e segs row
  patchLength start

/-! ## What a step leaves -/

section Steps

variable {β : Type} {m m' : Step Unit} {out out' before after : Bytes} {x : Except CodecError Bytes}

theorem on_bind_of_ok {m : Step α} {a : α} (h : m.on out = (.ok a, out')) (f : α → Step β) :
    (m >>= f).on out = (f a).on out' := by
  simp only [Step.on, ExceptT.run, StateT.run, bind, ExceptT.bind, ExceptT.mk, StateT.bind] at h ⊢
  rw [h]
  rfl

theorem on_bind_of_error {m : Step α} {err : CodecError} (h : m.on out = (.error err, out')) (f : α → Step β) :
    (m >>= f).on out = (.error err, out') := by
  simp only [Step.on, ExceptT.run, StateT.run, bind, ExceptT.bind, ExceptT.mk, StateT.bind] at h ⊢
  rw [h]
  rfl

theorem on_lift (x : Except CodecError α) (out : Bytes) : (lift x).on out = (x, out) := rfl

theorem on_grow_of_ok (h : Writer.reserve out.length width = .ok ()) :
    (grow width).on out = (.ok out.length, out ++ zeros width) := by
  have hlift : (lift (Writer.reserve out.length width)).on out = (.ok (), out) := by rw [on_lift, h]
  exact on_bind_of_ok hlift _

theorem on_grow_of_error {err : CodecError} (h : Writer.reserve out.length width = .error err) :
    (grow width).on out = (.error err, out) := by
  have hlift : (lift (Writer.reserve out.length width)).on out = (.error err, out) := by rw [on_lift, h]
  exact on_bind_of_error hlift _

theorem on_store {place bs : Bytes} (h : bs.length = place.length) (before after : Bytes) :
    (store before.length bs).on (before ++ (place ++ after)) = (.ok (), before ++ (bs ++ after)) := by
  have hstore : (store before.length bs).on (before ++ (place ++ after)) = (.ok (),
      (before ++ (place ++ after)).take before.length ++ bs ++
        (before ++ (place ++ after)).drop (before.length + bs.length)) := rfl
  rw [hstore, List.take_left, ← List.append_assoc before place after, List.drop_left' (by simp [h]), List.append_assoc]

/-- The step leaves `before`, what `x` gives, and `after`. Where `x` fails, so does the step, for the same reason, and
there is no telling what it left behind `before`. -/
def Writes (m : Step Unit) (out before : Bytes) (x : Except CodecError Bytes) (after : Bytes) : Prop :=
  match x with
  | .ok bs => m.on out = (.ok (), before ++ (bs ++ after))
  | .error err => ∃ rest, m.on out = (.error err, before ++ rest)

/-- The step leaves what the buffer held, and puts behind it what `x` gives. -/
def Appends (m : Step Unit) (out : Bytes) (x : Except CodecError Bytes) : Prop := Writes m out out x []

namespace Writes

theorem of_on_eq (heq : m.on out = m'.on out') (h : Writes m' out' before x after) : Writes m out before x after := by
  cases x with
  | error err =>
    obtain ⟨rest, h⟩ := h
    exact ⟨rest, heq.trans h⟩
  | ok bs => exact heq.trans h

/-- One step after the other: the second starts from what the first left. -/
theorem bind {y : Bytes → Except CodecError Bytes} {after' : Bytes} (h : Writes m out before x after)
    (h' : ∀ bs, x = .ok bs → Writes m' (before ++ (bs ++ after)) before (y bs) after') :
    Writes (m >>= fun _ => m') out before (x >>= y) after' := by
  cases x with
  | error err =>
    obtain ⟨rest, h⟩ := h
    exact ⟨rest, on_bind_of_error h _⟩
  | ok bs => exact of_on_eq (on_bind_of_ok h _) (h' bs rfl)

/-- What stands before the bytes that a step writes may be counted with them. -/
theorem within {bs : Bytes} (h : Writes m out (before ++ bs) x after) :
    Writes m out before (x >>= fun more => .ok (bs ++ more)) after := by
  cases x with
  | error err =>
    obtain ⟨rest, h⟩ := h
    exact ⟨bs ++ rest, by rw [h, List.append_assoc]⟩
  | ok more =>
    have h : m.on out = (.ok (), before ++ bs ++ (more ++ after)) := h
    rw [List.append_assoc, ← List.append_assoc bs] at h
    exact h

theorem lift_bind {a? : Except CodecError α} {f : α → Step Unit} {y : α → Except CodecError Bytes}
    (hkept : before <+: out) (h : ∀ a, a? = .ok a → Writes (f a) out before (y a) after) :
    Writes (lift a? >>= f) out before (a? >>= y) after := by
  cases a? with
  | error err =>
    obtain ⟨rest, hout⟩ := hkept
    exact ⟨rest, by rw [on_bind_of_error (on_lift _ out), hout]⟩
  | ok a => exact of_on_eq (on_bind_of_ok (on_lift _ out) _) (h a rfl)

end Writes

namespace Appends

theorem push (bs : Bytes) : Appends (push bs) out (.ok bs) := by
  rw [Appends, Writes, List.append_nil]
  rfl

theorem pure : Appends (pure ()) out (.ok []) := by
  rw [Appends, Writes, List.append_nil, List.append_nil]
  rfl

theorem bind {y : Bytes → Except CodecError Bytes} (h : Appends m out x)
    (h' : ∀ bs, x = .ok bs → Appends m' (out ++ bs) (y bs)) :
    Appends (m >>= fun _ => m') out (x >>= fun bs => y bs >>= fun more => .ok (bs ++ more)) := by
  refine Writes.bind h fun bs hbs => ?_
  rw [List.append_nil]
  exact (h' bs hbs).within

theorem lift_bind {a? : Except CodecError α} {f : α → Step Unit} {y : α → Except CodecError Bytes}
    (h : ∀ a, a? = .ok a → Appends (f a) out (y a)) : Appends (lift a? >>= f) out (a? >>= y) :=
  Writes.lift_bind (List.prefix_refl out) h

theorem grow_bind {f : Nat → Step Unit} (h : Writes (f out.length) (out ++ (zeros width ++ [])) out x []) :
    Appends (grow width >>= f) out (Writer.reserve out.length width >>= fun _ => x) := by
  cases hres : Writer.reserve out.length width with
  | error err => exact ⟨[], by rw [on_bind_of_error (on_grow_of_error hres), List.append_nil]⟩
  | ok u =>
    rw [List.append_nil] at h
    exact Writes.of_on_eq (on_bind_of_ok (on_grow_of_ok hres) f) h

end Appends

end Steps

/-! ## Blocks are filled -/

theorem zeros_add (m n : Nat) : zeros (m + n) = zeros m ++ zeros n := List.replicate_add ..

section Blocks

variable (before after : Bytes)

/-- A number takes up its place. -/
theorem writes_number (v : Value) (hbytes : type ≠ .bytes) :
    Writes (do let n ← lift ((type.pattern v).mapError (.field id)); store before.length (e.toBytes width n))
      (before ++ (zeros width ++ after)) before ((type.write e width v).mapError (.field id)) after := by
  have hwrite : (type.write e width v).mapError (CodecError.field id) =
      ((type.pattern v).mapError (CodecError.field id) >>= fun n => .ok (e.toBytes width n)) := by
    rw [ScalarType.write_of_ne_bytes hbytes]
    cases type.pattern v <;> rfl
  rw [hwrite]
  refine Writes.lift_bind (List.prefix_append _ _) fun n _ => ?_
  exact on_store (by simp) before after

theorem writes_scalar (v : Value) : Writes (writeScalar e id type width before.length v)
    (before ++ (zeros width ++ after)) before ((type.write e width v).mapError (.field id)) after := by
  cases type
  case bytes =>
    cases v with
    | bytes s =>
      rw [writeScalar, ScalarType.write]
      split
      · next hle =>
        -- the zero bytes behind a shorter string stay
        have hzeros : zeros width ++ after = zeros s.length ++ (zeros (width - s.length) ++ after) := by
          rw [← List.append_assoc, ← zeros_add, Nat.add_sub_cancel' hle]
        rw [hzeros, mapError_ok, Writes, on_store (by simp), List.append_assoc]
        rfl
      · exact ⟨zeros width ++ after, rfl⟩
    | _ => exact ⟨zeros width ++ after, rfl⟩
  case pad =>
    cases v with
    | pad =>
      have hwrite : ScalarType.pad.write e width .pad = .ok (zeros width) := congrArg Except.ok (e.toBytes_zero width)
      rw [hwrite]
      rfl
    | _ => exact ⟨zeros width ++ after, rfl⟩
  all_goals exact writes_number before after v (by decide)

theorem writes_items (items : List Value) : ∀ before : Bytes,
    Writes (writeItems e id type width before.length items) (before ++ (zeros (items.length * width) ++ after)) before
      ((type.writeAll e width items).mapError (.field id)) after := by
  induction items with
  | nil =>
    intro before
    rw [List.length_nil, Nat.zero_mul]
    rfl
  | cons v vs ih =>
    intro before
    simp only [ScalarType.writeAll, mapError_bind]
    rw [List.length_cons, Nat.succ_mul, Nat.add_comm, zeros_add, List.append_assoc]
    refine (writes_scalar before _ v).bind fun b hb => ?_
    -- the next item stands where this one ends
    have hlen : (before ++ b).length = before.length + width := by
      rw [List.length_append, ScalarType.length_of_write (mapError_eq_ok.1 hb)]
    have hrest := ih (before ++ b)
    rw [hlen, List.append_assoc] at hrest
    exact hrest.within

theorem writes_slot {slot : Slot} (hfixed : slot.shape.isFixed = true) (v : Value) :
    Writes (writeSlot e slot before.length v) (before ++ (zeros (slot.shape.fixedWidth?.getD 0) ++ after)) before
      ((Writer.fixedSlot e slot.shape v).mapError (.field slot.id)) after := by
  rw [writeSlot]
  cases hshape : slot.shape with
  | scalar type width => exact writes_scalar before after v
  | fixedList type itemWidth count =>
    simp only [Writer.fixedSlot, mapError_bind]
    refine Writes.lift_bind (List.prefix_append _ _) fun items _ => ?_
    refine Writes.lift_bind (List.prefix_append _ _) fun _ hcheck => ?_
    obtain rfl : items.length = count := by
      by_contra hne
      rw [Writer.checkCount, if_neg hne] at hcheck
      cases hcheck
    simp only [Shape.fixedWidth?, Option.getD_some, Nat.mul_comm itemWidth]
    exact writes_items after items before
  | _ =>
    rw [hshape] at hfixed
    cases hfixed

/-- In a block that is as long as its slots together, every slot has its place. -/
theorem writes_slots {slots : List Slot} : (∀ slot ∈ slots, slot.shape.isFixed = true) →
    ∀ {row : Row} (before : Bytes), row.length = slots.length →
      Writes (writeSlots e before.length slots row) (before ++ (zeros (Slot.totalWidth slots) ++ after)) before
        (Writer.fixedSlots e slots row) after := by
  induction slots with
  | nil =>
    intro _ row before _
    rfl
  | cons slot slots ih =>
    intro hfixed row before hlen
    obtain ⟨hfixed, hfixeds⟩ := List.forall_mem_cons.1 hfixed
    cases row with
    | nil => cases hlen
    | cons v vs =>
      rw [writeSlots, Writer.fixedSlots, Slot.totalWidth, zeros_add, List.append_assoc]
      refine (writes_slot before _ hfixed v).bind fun b hb => ?_
      have hlen' : (before ++ b).length = before.length + slot.shape.fixedWidth?.getD 0 := by
        rw [List.length_append, Writer.length_of_fixedSlot hfixed (mapError_eq_ok.1 hb)]
      have hrest := ih hfixeds (before ++ b) (Nat.succ.inj hlen)
      rw [hlen', List.append_assoc] at hrest
      exact hrest.within

end Blocks

/-! ## Records are appended -/

section Records

variable (out : Bytes)

theorem appends_length (n : Nat) : Appends (writeLength n) out (Writer.lengthBytes n) := by
  have h : Appends (writeLength n) out (Writer.lengthBytes n >>= .ok) := .lift_bind fun head _ => .push head
  cases hhead : Writer.lengthBytes n <;> rw [hhead] at h <;> exact h

theorem appends_string (s : Bytes) : Appends (writeString s) out ((Strings.writeOne s).mapError .length) := by
  have hwrite : (Strings.writeOne s).mapError CodecError.length =
      (Writer.lengthBytes s.length >>= fun head => Except.ok s >>= fun bs => .ok (head ++ bs)) := by
    rw [Strings.writeOne, Writer.lengthBytes]
    cases LengthPrefix.encode s.length <;> rfl
  rw [hwrite]
  exact (appends_length out s.length).bind fun head _ => .push s

theorem appends_strings (ss : List Bytes) : ∀ out : Bytes,
    Appends (writeStrings ss) out ((Strings.write ss).mapError .length) := by
  induction ss with
  | nil =>
    intro out
    exact .pure
  | cons s ss ih =>
    intro out
    simp only [Strings.write, mapError_bind]
    exact (appends_string out s).bind fun b _ => ih (out ++ b)

/-- A block for the items of a list, and the items in it. -/
theorem appends_items (id : String) (type : ScalarType) (width : Nat) (items : List Value) :
    Appends (do let start ← grow (items.length * width); writeItems e id type width start items) out
      (Writer.reserve out.length (items.length * width) >>= fun _ =>
        (type.writeAll e width items).mapError (.field id)) :=
  .grow_bind (writes_items [] items out)

theorem appends_dynamic (slot : Slot) (v : Value) :
    Appends (writeDynamic e slot v) out (Writer.dynamicSlot e out.length slot v) := by
  unfold writeDynamic Writer.dynamicSlot
  cases slot.shape with
  | string => exact Appends.lift_bind fun s _ => appends_string out s
  | fixedStringList count =>
    refine Appends.lift_bind fun items _ => Appends.lift_bind fun _ _ => Appends.lift_bind fun strings _ => ?_
    refine Appends.lift_bind fun size _ => ?_
    exact (appends_length out size).bind fun head _ => appends_strings strings _
  | list type itemWidth =>
    refine Appends.lift_bind fun items _ => ?_
    simp only
    split
    · exact ⟨[], by rw [List.append_nil]; rfl⟩
    · have h := (appends_length out items.length).bind fun head _ =>
        appends_items (e := e) (out ++ head) slot.id type itemWidth items
      simp only [bind_assoc, List.length_append] at h
      exact h
  | stringList =>
    refine Appends.lift_bind fun strings _ => Appends.lift_bind fun size _ => ?_
    have h := (appends_length out size).bind fun head _ =>
      (appends_length (out ++ head) strings.length).bind fun count _ => appends_strings strings _
    simp only [bind_assoc, ok_bind, ← List.append_assoc] at h
    exact h
  | _ => exact .pure

theorem appends_dynamics (slots : List Slot) : ∀ (out : Bytes) (row : Row),
    Appends (writeDynamics e slots row) out (Writer.dynamicSlots e out.length slots row) := by
  induction slots with
  | nil =>
    intro out row
    exact .pure
  | cons slot slots ih =>
    intro out row
    cases row with
    | nil => exact .pure
    | cons v vs =>
      rw [writeDynamics, Writer.dynamicSlots]
      refine (appends_dynamic out slot v).bind fun b _ => ?_
      rw [← List.length_append]
      exact ih (out ++ b) vs

theorem appends_segment {order : ByteOrder} {seg : Segment} {fs : List Field} (h : seg.IsOf order fs) {row : Row}
    (hrow : row.length = seg.slots.length) :
    Appends (writeSegment e seg row) out (Writer.segment e out.length seg row) := by
  cases h with
  | @fixed slots fs hof hfix =>
    have hfixed : ∀ slot ∈ slots, slot.shape.isFixed = true := by
      intro slot hslot
      obtain ⟨f, hf, hfs⟩ := exists_mem_of_forall₂ hof.flip slot hslot
      rw [Shape.isFixed, Slot.IsOf.fixedWidth? hfs]
      exact hfix f hf
    exact Appends.grow_bind (writes_slots [] hfixed out hrow)
  | @dynamic slots fs hof hdyn => exact appends_dynamics slots out row

/-- What the machine appends for segments is what their writer gives. -/
theorem appends_segments {order : ByteOrder} {segs : List Segment} {fields : List Field}
    (h : Covers order segs fields) : ∀ (out : Bytes) {row : Row}, row.length = fields.length →
      Appends (writeSegments e segs row) out (Writer.segments e out.length segs row) := by
  induction h with
  | nil =>
    intro out row _
    exact .pure
  | @cons seg fs fields segs hof _ ih =>
    intro out row hrow
    rw [List.length_append, ← hof.length_eq] at hrow
    rw [writeSegments, Writer.segments]
    refine (appends_segment out hof (by rw [List.length_take]; omega)).bind fun b _ => ?_
    rw [← List.length_append]
    exact ih (out ++ b) (by rw [List.length_drop]; omega)

theorem writes_patchLength (body : Bytes) : Writes (patchLength out.length) (out ++ (zeros 4 ++ body)) out
    (Writer.lengthBytes body.length >>= fun head => .ok (head ++ body)) [] := by
  have hsize : (out ++ (zeros 4 ++ body)).length - out.length - 4 = body.length := by
    simp only [List.length_append, length_zeros]
    omega
  have hget : (patchLength out.length).on (out ++ (zeros 4 ++ body)) =
      (lift (Writer.lengthBytes body.length) >>= fun head =>
        if head.length = 4 then store out.length head
        else do
          let body ← splitOff (out.length + 4)
          truncate out.length
          push head
          push body).on (out ++ (zeros 4 ++ body)) := by
    rw [← hsize]
    rfl
  refine Writes.of_on_eq hget (Writes.lift_bind (List.prefix_append _ _) fun head _ => ?_)
  rw [Writes, List.append_nil]
  split
  · next hhead => exact on_store hhead out body
  · have hsplit : (splitOff (out.length + 4)).on (out ++ (zeros 4 ++ body)) = (.ok body, out ++ zeros 4) := by
      have hon : (splitOff (out.length + 4)).on (out ++ (zeros 4 ++ body)) =
          (.ok ((out ++ (zeros 4 ++ body)).drop (out.length + 4)),
            (out ++ (zeros 4 ++ body)).take (out.length + 4)) := rfl
      rw [hon, ← List.append_assoc, List.drop_left' (by simp), List.take_left' (by simp)]
    have htruncate : (truncate out.length).on (out ++ zeros 4) = (.ok (), out) := by
      have hon : (truncate out.length).on (out ++ zeros 4) = (.ok (), (out ++ zeros 4).take out.length) := rfl
      rw [hon, List.take_left]
    rw [on_bind_of_ok hsplit, on_bind_of_ok htruncate, ← List.append_assoc]
    rfl

/-- A record is appended, its length being put in front of the body that already stands there. -/
theorem appends_record {order : ByteOrder} {segs : List Segment} {fields : List Field} (h : Covers order segs fields)
    {row : Row} (hrow : row.length = fields.length) :
    Appends (writeRecord e segs row) out (Writer.segments e (out.length + 4) segs row >>= fun body =>
      Writer.lengthBytes body.length >>= fun head => .ok (head ++ body)) := by
  have hplace : (writeRecord e segs row).on out =
      (do writeSegments e segs row; patchLength out.length : Step Unit).on (out ++ zeros 4) := rfl
  have hbody := appends_segments (e := e) h (out ++ zeros 4) hrow
  rw [List.length_append, length_zeros] at hbody
  refine Writes.of_on_eq hplace ?_
  cases hsegs : Writer.segments e (out.length + 4) segs row with
  | error err =>
    rw [hsegs] at hbody
    obtain ⟨rest, hbody⟩ := hbody
    exact ⟨zeros 4 ++ rest, by rw [on_bind_of_error hbody, List.append_assoc]⟩
  | ok body =>
    rw [hsegs, Appends, Writes, List.append_nil, List.append_assoc] at hbody
    exact Writes.of_on_eq (on_bind_of_ok hbody _) (writes_patchLength out body)

end Records

end InPlace

namespace Codec

variable {c : Codec}

/-- Writes a row at the end of a buffer. Gives the number of bytes that it takes; a row that cannot be written is cut
off again. -/
def writeTo (c : Codec) (out : Bytes) (row : Row) : Except CodecError Nat × Bytes :=
  if row.length ≠ c.schema.arity then (.error (.fieldNumber c.schema.arity row.length), out)
  else
    match (InPlace.writeRecord c.endian c.segments row).on out with
    | (.ok (), out') => (.ok (out'.length - out.length), out')
    | (.error err, out') => (.error err, out'.take out.length)

/-- What stays in the buffer is what `appendTo` gives. -/
theorem writeTo_eq (c : Codec) (out : Bytes) (row : Row) : c.writeTo out row = (c.appendTo out row).value := by
  rw [value_appendTo, writeTo, record]
  split
  · rfl
  · next hrow =>
    have h := InPlace.appends_record (e := c.endian) out c.covers (not_not.1 hrow)
    cases hsegs : Writer.segments c.endian (out.length + 4) c.segments row with
    | error err =>
      rw [hsegs] at h
      obtain ⟨rest, h⟩ := h
      rw [h]
      simp only [List.take_left]
      rfl
    | ok body =>
      rw [hsegs, ok_bind] at h
      cases hhead : Writer.lengthBytes body.length with
      | error err =>
        rw [hhead] at h
        obtain ⟨rest, h⟩ := h
        rw [h]
        simp only [List.take_left]
        simp [hhead]
      | ok head =>
        rw [hhead, ok_bind, InPlace.Appends, InPlace.Writes, List.append_nil] at h
        rw [h]
        simp [hhead, Record.bytes]

/-- Where there is room, a record does not depend on where it stands. -/
theorem record_eq_of_le {earlier start : Nat} {row : Row} (hle : earlier ≤ start)
    (hroom : Writer.HasRoom c.endian (start + 4) c.segments row) : c.record earlier row = c.record start row := by
  have hroom' := Writer.hasRoom_mono c.covers (Nat.add_le_add_right hle 4) hroom
  simp only [record, Writer.segments_eq c.covers hroom, Writer.segments_eq c.covers hroom']

/-- What a machine makes of a buffer is what `appendTo` gives. A row that cannot be written leaves the buffer as it was;
the record of any other row stands behind all that the buffer held, and is as long as the machine says. Where there is
room, the record and the error are those for an empty buffer. -/
theorem writeTo_atomic (c : Codec) (out : Bytes) (row : Row) :
    c.writeTo out row = (c.appendTo out row).value ∧
    (∀ err, (c.writeTo out row).1 = .error err → (c.writeTo out row).2 = out) ∧
    (∀ n, (c.writeTo out row).1 = .ok n → ∃ bs, bs.length = n ∧ (c.writeTo out row).2 = out ++ bs) ∧
    (Writer.HasRoom c.endian (out.length + 4) c.segments row →
      c.writeTo out row = ((c.writeTo [] row).1, out ++ (c.writeTo [] row).2)) := by
  simp only [writeTo_eq, value_appendTo]
  refine ⟨trivial, ?_, ?_, ?_⟩
  · intro err h
    cases hrecord : c.record out.length row with
    | error err => rfl
    | ok r =>
      rw [hrecord] at h
      cases h
  · intro n h
    cases hrecord : c.record out.length row with
    | error err =>
      rw [hrecord] at h
      cases h
    | ok r =>
      rw [hrecord] at h
      cases h
      exact ⟨r.bytes, rfl, rfl⟩
  · intro hroom
    have hsame : c.record ([] : Bytes).length row = c.record out.length row :=
      record_eq_of_le (Nat.zero_le _) hroom
    rw [hsame]
    cases c.record out.length row with
    | error err => simp
    | ok r => simp

/-- Behind a byte, the record of the sample is the one for an empty buffer. A row whose list of strings has something
else in it is taken back after its block and its first list have been written. -/
theorem writeTo_atomic_sample :
    (∃ n bs, sample.writeTo [] (sampleRow (.uint 258)) = (.ok n, bs) ∧
      sample.writeTo [7] (sampleRow (.uint 258)) = (.ok n, [7] ++ bs)) ∧
    (sample.writeTo [7] [.uint 1, .bool true, .pad, .list [], .list [.bytes [65], .pad]]).2 = [7] := by
  have hroom : Writer.HasRoom sample.endian (([7] : Bytes).length + 4) sample.segments (sampleRow (.uint 258)) :=
    Writer.hasRoom_of_le sample.covers rfl writeAll_sampleRow (by decide)
  obtain ⟨-, -, -, hsame⟩ := writeTo_atomic sample [7] (sampleRow (.uint 258))
  obtain ⟨-, hback, -, -⟩ := writeTo_atomic sample [7] [.uint 1, .bool true, .pad, .list [], .list [.bytes [65], .pad]]
  have hbs : sample.writeTo [] (sampleRow (.uint 258)) = (.ok 29, [0, 0, 0, 25, 2, 1, 1, 0, 0, 0, 0, 1, 0, 0, 128, 191,
      0, 0, 0, 9, 0, 0, 0, 0, 0, 0, 0, 1, 65]) := by
    decide +kernel
  refine ⟨⟨29, _, hbs, ?_⟩, ?_⟩
  · rw [hsame hroom, hbs]
  · exact hback (.field "tags" (.typeMismatch .bytes .pad)) (by decide +kernel)

end Codec

end RecordPack

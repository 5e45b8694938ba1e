import RecordPack.Layout.Segment
import RecordPack.Record.Scalar
import RecordPack.Record.Strings

/-!
# Writing records

The body of a record is the concatenation of its segments. Values are taken from the row in order.
No buffer grows past `LengthPrefix.maxLength` bytes, so a block is refused where it would not fit;
`position` is where in the buffer the bytes will stand.
-/

namespace RecordPack

namespace Writer

/-- Makes sure that a block of `width` bytes fits a buffer at `position`. -/
def reserve (position width : Nat) : Except CodecError Unit :=
  if position + width ≤ LengthPrefix.maxLength then .ok () else .error (.length (.tooLong width))

def itemsOf : Value → Except Fault (List Value)
  | .list items => .ok items
  | v => .error (.typeMismatch .list v.kind)

def bytesOf : Value → Except Fault Bytes
  | .bytes bs => .ok bs
  | v => .error (.typeMismatch .bytes v.kind)

/-- Makes sure that a list has the number of items that the schema says. -/
def checkCount (count : Nat) (items : List Value) : Except Fault Unit :=
  if items.length = count then .ok () else .error (.countMismatch count items.length)

def lengthBytes (n : Nat) : Except CodecError Bytes := (LengthPrefix.encode n).mapError .length

/-- A field of fixed width. -/
def fixedSlot (e : Endian) (shape : Shape) (v : Value) : Except Fault Bytes :=
  match shape with
  | .scalar type width => type.write e width v
  | .fixedList type itemWidth count => do
    let items ← itemsOf v
    checkCount count items
    type.writeAll e itemWidth items
  | _ => .ok []

def fixedSlots (e : Endian) : List Slot → Row → Except CodecError Bytes
  | slot :: slots, v :: vs => do
    let b ← (fixedSlot e slot.shape v).mapError (.field slot.id)
    let bs ← fixedSlots e slots vs
    return b ++ bs
  | _, _ => .ok []

def stringsOf (v : Value) : Except Fault (List Bytes) := do
  let items ← itemsOf v
  items.mapM bytesOf

/-- A field with lengths or counts of its own. -/
def dynamicSlot (e : Endian) (position : Nat) (slot : Slot) (v : Value) :
    Except CodecError Bytes :=
  match slot.shape with
  | .string => do
    let s ← (bytesOf v).mapError (.field slot.id)
    (Strings.writeOne s).mapError .length
  | .fixedStringList count => do
    let items ← (itemsOf v).mapError (.field slot.id)
    (checkCount count items).mapError (.field slot.id)
    let strings ← (items.mapM bytesOf).mapError (.field slot.id)
    let size ← (Strings.payloadLength strings).mapError .length
    let head ← lengthBytes size
    let payload ← (Strings.write strings).mapError .length
    return head ++ payload
  | .list type itemWidth => do
    let items ← (itemsOf v).mapError (.field slot.id)
    let width := items.length * itemWidth
    if UInt64.size ≤ width then throw (.length (.tooLong (UInt64.size - 1)))
    let head ← lengthBytes items.length
    reserve (position + head.length) width
    let block ← (type.writeAll e itemWidth items).mapError (.field slot.id)
    return head ++ block
  | .stringList => do
    let strings ← (stringsOf v).mapError (.field slot.id)
    let size ← (Strings.payloadLength strings).mapError .length
    let head ← lengthBytes size
    let count ← lengthBytes strings.length
    let payload ← (Strings.write strings).mapError .length
    return head ++ count ++ payload
  | _ => .ok []

def dynamicSlots (e : Endian) (position : Nat) : List Slot → Row → Except CodecError Bytes
  | slot :: slots, v :: vs => do
    let b ← dynamicSlot e position slot v
    let bs ← dynamicSlots e (position + b.length) slots vs
    return b ++ bs
  | _, _ => .ok []

/-- A segment. The block of a fixed one is set aside before its values are looked at. -/
def segment (e : Endian) (position : Nat) (seg : Segment) (row : Row) : Except CodecError Bytes :=
  match seg with
  | .fixed run => do
    reserve position run.width
    fixedSlots e run.slots row
  | .dynamic slots => dynamicSlots e position slots row

/-- Segments, one after the other, each with its part of the row. -/
def segments (e : Endian) (position : Nat) : List Segment → Row → Except CodecError Bytes
  | [], _ => .ok []
  | seg :: segs, row => do
    let b ← segment e position seg (row.take seg.slots.length)
    let bs ← segments e (position + b.length) segs (row.drop seg.slots.length)
    return b ++ bs

end Writer

end RecordPack

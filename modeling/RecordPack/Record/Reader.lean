import RecordPack.Layout.Segment
import RecordPack.Record.Scalar

/-!
# Reading records

A cursor is what is left of a bounded piece of a buffer, together with where it stands in the whole
buffer, so that errors can name places there. Nothing is read past the end of the piece.
-/

namespace RecordPack

/-- The rest of a piece of a buffer. -/
structure Cursor where
  /-- Where the rest starts in the whole buffer. -/
  offset : Nat
  /-- The bytes up to the end of the piece. -/
  rest : Bytes
deriving DecidableEq, Repr

namespace Cursor

/-- The cursor after the next `n` bytes. -/
def skip (c : Cursor) (n : Nat) : Cursor := ⟨c.offset + n, c.rest.drop n⟩

/-- The next `n` bytes, and the cursor after them. -/
def take (c : Cursor) (n : Nat) : Except CodecError (Bytes × Cursor) :=
  let block := c.rest.take n
  if block.length < n then .error (.truncated c.offset n block.length)
  else .ok (block, c.skip n)

/-- The next `n` bytes as a piece of their own, and the cursor after them. -/
def split (c : Cursor) (n : Nat) : Except CodecError (Cursor × Cursor) :=
  (c.take n).map fun (block, rest) => (⟨c.offset, block⟩, rest)

/-- The length or count that comes next, and the cursor after it. -/
def length (c : Cursor) : Except CodecError (Nat × Cursor) :=
  match LengthPrefix.read c.offset c.rest with
  | .ok (width, n) => .ok (n, c.skip width)
  | .error cause => .error (.length cause)

end Cursor

namespace Reader

/-- A string after its length. -/
def string (c : Cursor) : Except CodecError (Bytes × Cursor) := do
  let (n, c) ← c.length
  c.take n

/-- `count` strings, each after its length. -/
def strings : (count : Nat) → Cursor → Except CodecError (List Bytes × Cursor)
  | 0, c => .ok ([], c)
  | count + 1, c => do
    let (s, c) ← string c
    let (ss, c) ← strings count c
    return (s :: ss, c)

/-- `count` strings that use up the payload of the field `id`. -/
def payload (id : String) (count : Nat) (c : Cursor) : Except CodecError Value := do
  let (ss, c) ← strings count c
  if c.rest.isEmpty then return .list (ss.map .bytes)
  else throw (.unusedBytes id c.rest.length)

/-- The value of a field of fixed width, which takes up the whole block. -/
def fixedSlot (e : Endian) (shape : Shape) (block : Bytes) : Value :=
  match shape with
  | .scalar type _ => type.read e block
  | .fixedList type itemWidth count => .list (type.readAll e itemWidth count block)
  | _ => .pad

def fixedSlots (e : Endian) : List Slot → Bytes → Row
  | [], _ => []
  | slot :: slots, block =>
    let width := slot.shape.fixedWidth?.getD 0
    fixedSlot e slot.shape (block.take width) :: fixedSlots e slots (block.drop width)

/-- The value of a field with lengths or counts of its own. -/
def dynamicSlot (e : Endian) (slot : Slot) (c : Cursor) : Except CodecError (Value × Cursor) :=
  match slot.shape with
  | .string => do
    let (s, c) ← string c
    return (.bytes s, c)
  | .fixedStringList count => do
    let (n, c) ← c.length
    let (piece, c) ← c.split n
    return (← payload slot.id count piece, c)
  | .list type itemWidth => do
    let (count, c) ← c.length
    if UInt64.size ≤ count * itemWidth then throw (.listOverflow slot.id count)
    let (block, c) ← c.take (count * itemWidth)
    return (.list (type.readAll e itemWidth count block), c)
  | .stringList => do
    let (n, c) ← c.length
    let (count, c) ← c.length
    let (piece, c) ← c.split n
    return (← payload slot.id count piece, c)
  | _ => .ok (.pad, c)

/-- The values of fields with lengths or counts of their own. -/
def dynamicSlots (e : Endian) : List Slot → Cursor → Except CodecError (Row × Cursor)
  | [], c => .ok ([], c)
  | slot :: slots, c => do
    let (v, c) ← dynamicSlot e slot c
    let (vs, c) ← dynamicSlots e slots c
    return (v :: vs, c)

/-- The values of a segment. The block of a fixed one is taken as a whole. -/
def segment (e : Endian) (seg : Segment) (c : Cursor) : Except CodecError (Row × Cursor) :=
  match seg with
  | .fixed run => do
    let (block, c) ← c.take run.width
    return (fixedSlots e run.slots block, c)
  | .dynamic slots => dynamicSlots e slots c

def segments (e : Endian) : List Segment → Cursor → Except CodecError (Row × Cursor)
  | [], c => .ok ([], c)
  | seg :: segs, c => do
    let (vs, c) ← segment e seg c
    let (ws, c) ← segments e segs c
    return (vs ++ ws, c)

end Reader

end RecordPack

import RecordPack.Layout.Shape
import RecordPack.Schema.Basic

/-!
# Segments

The fields of a record fall into runs: a run of fields of fixed width is one block of bytes, and a
run of other fields is read and written field by field. `Segment.ofSchema` cuts a schema into its
runs, each as long as it can be.
-/

namespace RecordPack

/-- A field as the layout sees it. -/
structure Slot where
  /-- The position in the schema, and in every row, counted from zero. -/
  index : Nat
  id : String
  shape : Shape
deriving DecidableEq, Repr

/-- Consecutive fields of fixed width, which make up one block. -/
structure FixedRun where
  slots : List Slot
  /-- The block as a format string, byte order first. -/
  format : String
  width : Nat
deriving DecidableEq, Repr

/-- A run of fields. -/
inductive Segment where
  /-- Fields of fixed width. -/
  | fixed (run : FixedRun)
  /-- Fields with lengths or counts of their own. -/
  | dynamic (slots : List Slot)
deriving DecidableEq, Repr

/-- The fields of a schema as the layout sees them. -/
def Slot.ofFields (fields : List Field) : List Slot :=
  fields.mapIdx fun index f => { index, id := f.id, shape := .ofField f }

/-- The bytes that slots of fixed width take together. -/
def Slot.totalWidth : List Slot → Nat
  | [] => 0
  | slot :: slots => slot.shape.fixedWidth?.getD 0 + totalWidth slots

namespace FixedRun

/-- The block that slots of fixed width make up. -/
def ofSlots (order : ByteOrder) (slots : List Slot) : FixedRun where
  slots
  format := String.join
    (toString order.marker :: slots.map fun slot => slot.shape.formatToken?.getD "")
  width := Slot.totalWidth slots

end FixedRun

namespace Segment

/-- Whether the segment is one block. -/
def isFixed : Segment → Bool
  | fixed _ => true
  | dynamic _ => false

def slots : Segment → List Slot
  | fixed run => run.slots
  | dynamic slots => slots

/-- A run of slots of one kind as a segment. -/
def ofRun (order : ByteOrder) (slots : List Slot) : Segment :=
  if slots.all (·.shape.isFixed) then fixed (.ofSlots order slots) else dynamic slots

/-- The segments of a schema: its slots, cut wherever a fixed one and another one meet. -/
def ofSchema (s : Schema) : List Segment :=
  ((Slot.ofFields s.fields).splitBy fun a b => a.shape.isFixed == b.shape.isFixed).map
    (ofRun s.order)

def display : Segment → String
  | fixed run => s!"fixed[{run.format}; {run.width} bytes]"
  | dynamic slots => "dynamic[" ++ String.intercalate ", " (slots.map (·.shape.name)) ++ "]"

end Segment

end RecordPack

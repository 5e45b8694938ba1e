import RecordPack.Schema.Field

/-!
# Shapes

How one field is laid out in a record: what stands in it, and which prefixes come before.
-/

namespace RecordPack

/-- The layout of a field. -/
inductive Shape where
  /-- One value of `width` bytes. -/
  | scalar (type : ScalarType) (width : Nat)
  /-- A length, then a byte string of that length. -/
  | string
  /-- `count` items back to back, of `itemWidth` bytes each. -/
  | fixedList (type : ScalarType) (itemWidth count : Nat)
  /-- The length of all that follows, then `count` byte strings, each after its own length. -/
  | fixedStringList (count : Nat)
  /-- A count, then that many items back to back. -/
  | list (type : ScalarType) (itemWidth : Nat)
  /-- The length of the strings, a count, then that many byte strings, each after its own length. -/
  | stringList
deriving DecidableEq, Repr

namespace Shape

/-- The layout of a field. -/
def ofField (f : Field) : Shape :=
  match f.count, f.width with
  | none, .fixed width => scalar f.type width
  | none, .dynamic => string
  | some (.fixed count), .fixed itemWidth => fixedList f.type itemWidth count
  | some (.fixed count), .dynamic => fixedStringList count
  | some .dynamic, .fixed itemWidth => list f.type itemWidth
  | some .dynamic, .dynamic => stringList

/-- The number of bytes, if it is the same in every record. -/
def fixedWidth? : Shape → Option Nat
  | scalar _ width => some width
  | fixedList _ itemWidth count => some (itemWidth * count)
  | _ => none

/-- Whether the number of bytes is the same in every record. -/
def isFixed (s : Shape) : Bool := s.fixedWidth?.isSome

/-- The part of a format string that stands for the shape. Byte strings in a list are taken
together. -/
def formatToken? : Shape → Option String
  | scalar type width => some (if type.isString then s!"{width}{type.char}" else toString type.char)
  | fixedList type itemWidth count =>
    some (if type.isString then s!"{itemWidth * count}{type.char}" else s!"{count}{type.char}")
  | _ => none

def name : Shape → String
  | scalar .. => "scalar"
  | string => "dyn-bytes"
  | fixedList .. => "fixed-list"
  | fixedStringList _ => "fixed-list<dyn-bytes>"
  | list .. => "dyn-list"
  | stringList => "dyn-list<dyn-bytes>"

end Shape

end RecordPack

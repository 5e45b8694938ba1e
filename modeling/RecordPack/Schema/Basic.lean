import RecordPack.Schema.Field

/-!
# Schemas

A byte order and the fields of a record, in order, together with the text they were read from.
-/

namespace RecordPack

/-- The description of a record. -/
structure Schema where
  order : ByteOrder
  fields : List Field
  /-- The text as it was given to the parser. -/
  text : String
deriving DecidableEq, Repr

namespace Schema

/-- The number of fields, which is the length of every row. -/
def arity (s : Schema) : Nat := s.fields.length

def ids (s : Schema) : List String := s.fields.map (·.id)

def field? (s : Schema) (id : String) : Option Field := s.fields.find? (·.id == id)

/-- The position of the field with an id, counted from zero. -/
def position? (s : Schema) (id : String) : Option Nat := s.fields.findIdx? (·.id == id)

end Schema

end RecordPack

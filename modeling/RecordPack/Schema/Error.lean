import RecordPack.LengthPrefix
import RecordPack.Text.Quoted

/-!
# Schema errors

Why a text is no schema. Fields are counted from one, offsets in bytes of the text.
-/

namespace RecordPack

/-- Why a schema text is refused. -/
inductive SchemaError where
  /-- The character is the name of no type. -/
  | unknownType (position : Nat) (type : Char)
  /-- A width before a type that has none of its own. -/
  | unexpectedLength (position : Nat) (type : Char)
  | zeroLength (position : Nat) (type : Char)
  | zeroCount (position : Nat) (type : Char)
  /-- A number that is not in ASCII digits or does not fit 64 bits. -/
  | numberTooLarge (position : Nat) (digits : String)
  /-- The fixed fields together are longer than any record. -/
  | widthOverflow (position : Nat)
  | duplicateId (position : Nat) (id : String)
  | unexpectedInput (offset : Nat) (fragment : String)
deriving DecidableEq, Repr

def SchemaError.message : SchemaError → String
  | .unknownType p c => s!"field {p}: unknown type '{c}'"
  | .unexpectedLength p c => s!"field {p}: type '{c}' takes no length"
  | .zeroLength p c => s!"field {p}: length of type '{c}' should be >= 1"
  | .zeroCount p c => s!"field {p}: length of list of '{c}' should be >= 1"
  | .numberTooLarge p digits => s!"field {p}: number {digits} too large"
  | .widthOverflow p => s!"field {p}: fixed width exceeds {LengthPrefix.maxLength} bytes"
  | .duplicateId p id => s!"field {p}: duplicate id {Text.quote id}"
  | .unexpectedInput offset fragment =>
    s!"unexpected input at offset {offset}: {Text.quote fragment}"

end RecordPack

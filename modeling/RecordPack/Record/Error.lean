import RecordPack.Schema.Error
import RecordPack.Schema.Scalar
import RecordPack.Text.Utf8
import RecordPack.Value

/-!
# Record errors

Why a row cannot be written, bytes cannot be read, or a schema cannot be had. A fault of a value
names the field it stands in; an error of reading names the offset in the buffer.
-/

namespace RecordPack

/-- What a field takes, in the wording of messages. -/
inductive Expectation where
  | pad
  | bool
  | int
  | uint
  | float
  | bytes
  | list
deriving DecidableEq, Repr

def Expectation.name : Expectation → String
  | pad => "pad"
  | bool => "bool"
  | int => "int"
  | uint => "uint"
  | float => "float"
  | bytes => "bytes"
  | list => "list"

/-- Why a field does not take a value. -/
inductive Fault where
  | typeMismatch (expected : Expectation) (found : Value.Kind)
  | outOfRange (type : ScalarType) (value : Value)
  | widthExceeded (width actual : Nat)
  | countMismatch (expected actual : Nat)
deriving Repr

def Fault.message : Fault → String
  | typeMismatch expected found => s!"expected {expected.name}, got {found.name}"
  | outOfRange type value => s!"value {value.display} out of range for {type.name}"
  | widthExceeded width actual => s!"{actual} bytes exceed fixed width {width}"
  | countMismatch expected actual => s!"expected {expected} items, got {actual}"

/-- Why packing or unpacking fails. -/
inductive CodecError where
  | schema (cause : SchemaError)
  /-- A length has no prefix, or a prefix is cut short. -/
  | length (cause : LengthError)
  | fieldNumber (expected actual : Nat)
  | field (id : String) (fault : Fault)
  | missingField (id : String)
  | unknownField (id : String)
  /-- At `offset` a length asks for `need` bytes and only `available` are left. -/
  | truncated (offset need available : Nat)
  /-- At `offset` the fields have ended and the record has not. -/
  | trailingBytes (offset remaining : Nat)
  /-- No buffer can hold the items that a count announces. -/
  | listOverflow (id : String) (count : Nat)
  /-- The strings of a list end before the length that was announced for them. -/
  | unusedBytes (id : String) (remaining : Nat)
  | blockNotText (cause : Utf8.Error)
deriving Repr

namespace CodecError

def message : CodecError → String
  | schema cause => s!"schema error: {cause.message}"
  | length cause => s!"length error: {cause.message}"
  | fieldNumber expected actual => s!"field number mismatch: expected {expected}, got {actual}"
  | field id fault => s!"field {id}: {fault.message}"
  | missingField id => s!"missing field: {id}"
  | unknownField id => s!"unknown field: {id}"
  | truncated offset need available =>
    s!"truncated record at offset {offset}: need {need} bytes, have {available}"
  | trailingBytes offset remaining =>
    s!"{remaining} trailing byte(s) after record body at offset {offset}"
  | listOverflow id count => s!"malformed record: field {id}: list of {count} items overflows"
  | unusedBytes id remaining =>
    s!"malformed record: field {id}: {remaining} unused byte(s) in list payload"
  | blockNotText cause => s!"malformed record: schema block is not UTF-8: {cause.message}"

/-- Whether the error says that a buffer is damaged. -/
def isDecodeError : CodecError → Bool
  | length (.malformed ..) => true
  | truncated .. | trailingBytes .. | listOverflow .. | unusedBytes .. | blockNotText .. => true
  | _ => false

end CodecError

end RecordPack

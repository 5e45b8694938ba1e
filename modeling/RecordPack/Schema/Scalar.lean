import RecordPack.Endian

/-!
# Scalar types and byte orders

The alphabets of the schema language: each type and each byte order has one character.
-/

namespace RecordPack

/-- How the numbers of a record are laid out, as its schema says. -/
inductive ByteOrder where
  /-- The order of the machine, which is little-endian. -/
  | native
  | little
  | big
  /-- The order of the network, most significant byte first. -/
  | network
deriving DecidableEq, Repr, Inhabited

namespace ByteOrder

def marker : ByteOrder → Char
  | native => '='
  | little => '<'
  | big => '>'
  | network => '!'

def ofMarker? : Char → Option ByteOrder
  | '=' => some native
  | '<' => some little
  | '>' => some big
  | '!' => some network
  | _ => none

def name : ByteOrder → String
  | native => "native"
  | little => "little-endian"
  | big => "big-endian"
  | network => "network"

def endian : ByteOrder → Endian
  | native => .little
  | little => .little
  | big => .big
  | network => .big

end ByteOrder

/-- What a slot of a record holds. -/
inductive ScalarType where
  /-- Filler without a value. -/
  | pad
  | int8
  | uint8
  | bool
  | int16
  | uint16
  | int32
  | uint32
  | int64
  | uint64
  | float32
  | float64
  | bytes
deriving DecidableEq, Repr

namespace ScalarType

def char : ScalarType → Char
  | pad => 'x'
  | int8 => 'b'
  | uint8 => 'B'
  | bool => '?'
  | int16 => 'h'
  | uint16 => 'H'
  | int32 => 'i'
  | uint32 => 'I'
  | int64 => 'q'
  | uint64 => 'Q'
  | float32 => 'f'
  | float64 => 'd'
  | bytes => 's'

/-- The type of a character. Four characters are second names. -/
def ofChar? : Char → Option ScalarType
  | 'x' => some pad
  | 'b' => some int8
  | 'B' => some uint8
  | '?' => some bool
  | 'h' => some int16
  | 'H' => some uint16
  | 'i' => some int32
  | 'l' => some int32
  | 'I' => some uint32
  | 'L' => some uint32
  | 'q' => some int64
  | 'Q' => some uint64
  | 'f' => some float32
  | 'd' => some float64
  | 's' => some bytes
  | 'S' => some bytes
  | 'p' => some bytes
  | _ => none

def name : ScalarType → String
  | pad => "pad"
  | int8 => "int8"
  | uint8 => "uint8"
  | bool => "bool"
  | int16 => "int16"
  | uint16 => "uint16"
  | int32 => "int32"
  | uint32 => "uint32"
  | int64 => "int64"
  | uint64 => "uint64"
  | float32 => "float32"
  | float64 => "float64"
  | bytes => "bytes"

/-- The bytes a value takes; for a byte string, unless the schema says otherwise. -/
def width : ScalarType → Nat
  | pad | int8 | uint8 | bool | bytes => 1
  | int16 | uint16 => 2
  | int32 | uint32 | float32 => 4
  | int64 | uint64 | float64 => 8

/-- Whether a schema may give the type a width of its own. -/
def isString : ScalarType → Bool
  | bytes => true
  | _ => false

end ScalarType

end RecordPack

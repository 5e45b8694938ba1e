import RecordPack.Endian
import RecordPack.Record.Error

/-!
# Scalars as bytes

How one value stands in its place. Every value but a byte string is a number there, its *pattern*,
written over the width of the place; a byte string is filled up with zero bytes.
-/

namespace RecordPack

open Ieee (Binary32 Binary64)

/-- The number of a value in a floating-point field, in double precision. Integers are rounded. -/
def Value.toFloat? : Value → Option Binary64
  | .int n => some (Binary64.ofInt n.toInt)
  | .uint n => some (Binary64.ofNat n.toNat)
  | v => v.toBinary64?

namespace ScalarType

def expectation : ScalarType → Expectation
  | pad => .pad
  | int8 | int16 | int32 | int64 => .int
  | uint8 | uint16 | uint32 | uint64 => .uint
  | bool => .bool
  | float32 | float64 => .float
  | bytes => .bytes

def mismatch (type : ScalarType) (v : Value) : Fault := .typeMismatch type.expectation v.kind

/-- The number of patterns that the bytes of the type have. -/
def patterns (type : ScalarType) : Nat := Nat.pow 256 type.width

def holds (type : ScalarType) (n : Int) : Bool :=
  let half : Int := ↑(type.patterns / 2)
  match type.expectation with
  | .int => -half ≤ n && n < half
  | .uint => 0 ≤ n && n < type.patterns
  | _ => false

/-- The pattern of an integer in an integer type: negative numbers in two's complement. -/
def integerPattern (type : ScalarType) (v : Value) : Except Fault Nat :=
  match v.toInt? with
  | none => .error (type.mismatch v)
  | some n =>
    if type.holds n then .ok (n % type.patterns).toNat else .error (.outOfRange type v)

/-- The pattern of a number in single precision: first in double precision, then narrowed. A finite
number must not become infinite. -/
def singlePattern (v : Value) : Except Fault Nat :=
  match v.toFloat? with
  | none => .error (float32.mismatch v)
  | some x =>
    let y := x.toBinary32
    if x.isFinite && y.isInfinite then .error (.outOfRange float32 v) else .ok y.bits.toNat

def doublePattern (v : Value) : Except Fault Nat :=
  match v.toFloat? with
  | none => .error (float64.mismatch v)
  | some x => .ok x.bits.toNat

/-- The pattern of a value in a type other than the byte string. -/
def pattern (type : ScalarType) (v : Value) : Except Fault Nat :=
  match type, v with
  | pad, .pad => .ok 0
  | bool, .bool b => .ok b.toNat
  | int8, _ | int16, _ | int32, _ | int64, _ => type.integerPattern v
  | uint8, _ | uint16, _ | uint32, _ | uint64, _ => type.integerPattern v
  | float32, _ => singlePattern v
  | float64, _ => doublePattern v
  | _, _ => .error (type.mismatch v)

/-- The bytes of a value in a place of `width` bytes. -/
def write (e : Endian) (type : ScalarType) (width : Nat) (v : Value) : Except Fault Bytes :=
  match type, v with
  | bytes, .bytes bs =>
    if bs.length ≤ width then .ok (bs ++ List.replicate (width - bs.length) 0)
    else .error (.widthExceeded width bs.length)
  | _, _ => (type.pattern v).map (e.toBytes width)

def read (e : Endian) (type : ScalarType) (bs : Bytes) : Value :=
  let n := e.ofBytes bs
  match type with
  | pad => .pad
  | bool => .bool (n != 0)
  | int8 | int16 | int32 | int64 => .int (Int64.ofInt (Int.bmod n type.patterns))
  | uint8 | uint16 | uint32 | uint64 => .uint (UInt64.ofNat n)
  | float32 => .f32 ⟨UInt32.ofNat n⟩
  | float64 => .f64 ⟨UInt64.ofNat n⟩
  | bytes => .bytes bs

/-- The bytes of values in places of `width` bytes each, back to back. -/
def writeAll (e : Endian) (type : ScalarType) (width : Nat) : List Value → Except Fault Bytes
  | [] => .ok []
  | v :: vs => do
    let b ← type.write e width v
    let bs ← writeAll e type width vs
    return b ++ bs

/-- The values in `count` places of `width` bytes each. -/
def readAll (e : Endian) (type : ScalarType) (width : Nat) : (count : Nat) → Bytes → List Value
  | 0, _ => []
  | count + 1, bs => type.read e (bs.take width) :: readAll e type width count (bs.drop width)

end ScalarType

end RecordPack

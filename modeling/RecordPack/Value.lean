import RecordPack.Bytes
import RecordPack.Ieee.Binary
import RecordPack.Ieee.Decimal
import RecordPack.Text.Utf8

/-!
# Values

What a row holds in one place. A list holds the values of one field.
-/

namespace RecordPack

open Ieee (Binary32 Binary64)

/-- A value of a row. -/
inductive Value where
  /-- The place of a filler, which has no value. -/
  | pad
  | bool (b : Bool)
  /-- A number from a signed field. -/
  | int (n : Int64)
  /-- A number from an unsigned field. -/
  | uint (n : UInt64)
  | f32 (x : Binary32)
  | f64 (x : Binary64)
  | bytes (bs : Bytes)
  /-- The items of a list field. -/
  | list (items : List Value)
deriving Repr

/-- The values of one record, in the order of the fields. -/
abbrev Row := List Value

inductive Value.Kind where
  | pad
  | bool
  | int
  | uint
  | f32
  | f64
  | bytes
  | list
deriving DecidableEq, Repr

def Value.Kind.name : Value.Kind → String
  | pad => "pad"
  | bool => "bool"
  | int => "int"
  | uint => "uint"
  | f32 => "f32"
  | f64 => "f64"
  | bytes => "bytes"
  | list => "list"

namespace Value

def ofText (s : String) : Value := bytes (Utf8.encode s.toList)

def kind : Value → Kind
  | pad => .pad
  | bool _ => .bool
  | int _ => .int
  | uint _ => .uint
  | f32 _ => .f32
  | f64 _ => .f64
  | bytes _ => .bytes
  | list _ => .list

/-! ## What a value can be taken for -/

def toInt? : Value → Option Int
  | int n => some n.toInt
  | uint n => some n.toNat
  | _ => none

/-- The number as a signed one, if it fits. -/
def toInt64? (v : Value) : Option Int64 :=
  match v.toInt? with
  | some n =>
    if Int64.minValue.toInt ≤ n ∧ n ≤ Int64.maxValue.toInt then some (Int64.ofInt n) else none
  | none => none

/-- The number as an unsigned one, if it fits. -/
def toUInt64? (v : Value) : Option UInt64 :=
  match v.toInt? with
  | some n => if 0 ≤ n then some (UInt64.ofNat n.toNat) else none
  | none => none

/-- The number of a floating-point value, in double precision. -/
def toBinary64? : Value → Option Binary64
  | f32 x => some x.toBinary64
  | f64 x => some x
  | _ => none

def toBool? : Value → Option Bool
  | bool b => some b
  | _ => none

def toBytes? : Value → Option Bytes
  | bytes bs => some bs
  | _ => none

def toList? : Value → Option (List Value)
  | list items => some items
  | _ => none

/-! ## Equality by value -/

mutual

/-- Whether two values are of one kind and equal, floating-point numbers being compared as numbers:
the zeros are equal, and what is no number equals nothing. -/
def same : Value → Value → Bool
  | pad, pad => true
  | bool a, bool b => a == b
  | int a, int b => a == b
  | uint a, uint b => a == b
  | f32 a, f32 b => a.same b
  | f64 a, f64 b => a.same b
  | bytes a, bytes b => a == b
  | list a, list b => sameAll a b
  | _, _ => false

/-- Whether two lists of values are equal item by item. -/
def sameAll : List Value → List Value → Bool
  | [], [] => true
  | a :: as, b :: bs => same a b && sameAll as bs
  | _, _ => false

end

/-! ## Values as text -/

/-- A floating-point number for a reader: the shortest decimal, never with an exponent, and of two
equally near decimals the greater. -/
def floatText (f : Ieee.Format) (bits : Nat) : String :=
  let m := f.magnitude bits
  let sign := if f.isNegative bits then "-" else ""
  if f.infinity < m then "NaN"
  else if m = f.infinity then sign ++ "inf"
  else sign ++ String.ofList (f.shortest .up m).positional

mutual

def display : Value → String
  | pad => "<pad>"
  | bool b => if b then "true" else "false"
  | int n => toString n.toInt
  | uint n => toString n.toNat
  | f32 x => floatText Ieee.binary32 x.bits.toNat
  | f64 x => floatText Ieee.binary64 x.bits.toNat
  | bytes bs => Bytes.display bs
  | list items => "[" ++ String.intercalate ", " (displayAll items) ++ "]"

def displayAll : List Value → List String
  | [] => []
  | v :: vs => display v :: displayAll vs

end

end Value

end RecordPack

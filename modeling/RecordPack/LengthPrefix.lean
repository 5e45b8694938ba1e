import RecordPack.Endian

/-!
# Length prefixes

Lengths and counts stand in front of what they measure, in four bytes when they fit 31 bits and in
eight otherwise. Both forms are big-endian, whatever the byte order of the record; the leading bit
tells them apart.
-/

namespace RecordPack

/-- Why a length prefix can be neither written nor read. -/
inductive LengthError where
  /-- The length does not fit 63 bits. -/
  | tooLong (length : Nat)
  /-- At `offset` the prefix needs `need` bytes and only `available` are left. -/
  | malformed (offset need available : Nat)
deriving DecidableEq, Repr

namespace LengthPrefix

/-- The greatest length of the short form. -/
def shortMax : Nat := 0x7FFFFFFF

/-- The greatest length of all. -/
def maxLength : Nat := 0x7FFFFFFFFFFFFFFF

/-- What the long form adds to the length: its leading bit. -/
def longBias : Nat := 0x8000000000000000

/-- The number of bytes of the prefix for a length, if it has one. -/
def width? (n : Nat) : Option Nat :=
  if n ≤ shortMax then some 4 else if n ≤ maxLength then some 8 else none

def encode (n : Nat) : Except LengthError Bytes :=
  if n ≤ shortMax then .ok (Endian.big.toBytes 4 n)
  else if n ≤ maxLength then .ok (Endian.big.toBytes 8 (n + longBias))
  else .error (.tooLong n)

/-- A buffer with the prefix for a length at its end. -/
def append (data : Bytes) (n : Nat) : Except LengthError Bytes :=
  (encode n).map (data ++ ·)

/-- Reads the prefix at the head of `rest`, which stands at `offset`: its width and the length. -/
def read (offset : Nat) (rest : Bytes) : Except LengthError (Nat × Nat) :=
  let head := rest.take 4
  if head.length < 4 then .error (.malformed offset 4 head.length)
  else
    let short := Endian.big.ofBytes head
    if short ≤ shortMax then .ok (4, short)
    else
      let whole := rest.take 8
      if whole.length < 8 then .error (.malformed offset 8 whole.length)
      else .ok (8, Endian.big.ofBytes whole - longBias)

/-- Reads the prefix at `offset` of a buffer. -/
def decode (data : Bytes) (offset : Nat) : Except LengthError (Nat × Nat) :=
  read offset (data.drop offset)

end LengthPrefix

def LengthError.message : LengthError → String
  | .tooLong length => s!"length too long: {length} > {LengthPrefix.maxLength}"
  | .malformed offset need available =>
    s!"malformed length prefix at offset {offset}: need {need} bytes, have {available}"

end RecordPack

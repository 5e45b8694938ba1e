/-!
# Bytes

A byte string is a plain list of bytes: lists are what proofs take apart. `Bytes.hex` and
`Bytes.display` write one as text.
-/

namespace RecordPack

/-- A byte string. -/
abbrev Bytes := List UInt8

namespace Bytes

/-- The two hexadecimal digits of a byte, in lower case. -/
def hexPair (b : UInt8) : List Char :=
  [Nat.digitChar (b.toNat / 16), Nat.digitChar (b.toNat % 16)]

/-- The bytes in hexadecimal, two digits each. -/
def hex (bs : Bytes) : String :=
  String.ofList (bs.flatMap hexPair)

/-- Whether a byte is a visible ASCII character or the space. -/
def isPlain (b : UInt8) : Bool :=
  0x20 ≤ b && b ≤ 0x7e

/-- The bytes for a reader: between quotes when all of them are plain ASCII, in hexadecimal
otherwise. Nothing is escaped between the quotes. -/
def display (bs : Bytes) : String :=
  if bs.all isPlain then "b\"" ++ String.ofList (bs.map fun b => Char.ofNat b.toNat) ++ "\""
  else "0x" ++ hex bs

end Bytes

end RecordPack

import RecordPack.Ieee.Binary
import RecordPack.Ieee.Decimal

/-!
# Writing JSON

Compact objects of plain values. A number is written with the fewest digits that read back, of two
equally near decimals the even one; whole numbers end in a zero after the point, and very great and
very small ones have an exponent with its sign.
-/

namespace RecordPack.Json

open Ieee (Binary64 binary64)

/-- An object of keys that need no escapes and values that are written already. -/
def object (members : List (String × String)) : String :=
  "\x7b" ++ String.intercalate "," (members.map fun (key, value) => "\"" ++ key ++ "\":" ++ value)
    ++ "\x7d"

def boolText (b : Bool) : String := if b then "true" else "false"

/-- A number. What has no number is written as nothing. -/
def numberText (x : Binary64) : String :=
  if x.isFinite then
    let d := binary64.shortest .even x.magnitude
    let sign := if x.isNegative then "-" else ""
    let digits :=
      if x.magnitude = 0 ∨ -5 ≤ d.leading ∧ d.leading < 16 then
        d.positional ++ if d.isWhole then ['.', '0'] else []
      else d.scientific
    sign ++ String.ofList digits
  else "null"

end RecordPack.Json

/-!
# Character ranges

A class of characters is written down as the ranges of numbers it consists of.
-/

namespace RecordPack.Text

/-- Whether a character's number lies in one of the ranges, ends included. -/
def inRanges (ranges : List (Nat × Nat)) (c : Char) : Bool :=
  ranges.any fun r => r.1 ≤ c.toNat && c.toNat ≤ r.2

end RecordPack.Text

import RecordPack.LengthPrefix

/-!
# Byte strings back to back

The payload of a list of byte strings: each after its own length.
-/

namespace RecordPack.Strings

/-- The bytes that strings take with their lengths. -/
def payloadLength : List Bytes → Except LengthError Nat
  | [] => .ok 0
  | s :: ss =>
    match LengthPrefix.width? s.length with
    | none => .error (.tooLong s.length)
    | some w => (payloadLength ss).map (w + s.length + ·)

/-- A string after its length. -/
def writeOne (s : Bytes) : Except LengthError Bytes :=
  (LengthPrefix.encode s.length).map (· ++ s)

def write : List Bytes → Except LengthError Bytes
  | [] => .ok []
  | s :: ss => do
    let b ← writeOne s
    let bs ← write ss
    return b ++ bs

end RecordPack.Strings

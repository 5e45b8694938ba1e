/-!
# Options

The choices a caller has when a schema is parsed and when rows are packed.
-/

namespace RecordPack

/-- How a schema text is parsed. -/
structure ParseOptions where
  /-- Whether text that belongs to no field is reported and dropped rather than refused. -/
  allowTrailing : Bool := false
deriving DecidableEq, Repr

/-- How rows are packed. -/
structure PackConfig where
  /-- The bytes set aside for the output at first, a number of the platform word. -/
  initialCapacity : UInt64 := 4096
  /-- Whether the output starts with the text of the schema. -/
  embedSchema : Bool := false
deriving DecidableEq, Repr

/-- The options that are given, and the defaults of those that are not. -/
def ParseOptions.ofGiven (allowTrailing : Option Bool) : ParseOptions :=
  let default : ParseOptions := {}
  { allowTrailing := allowTrailing.getD default.allowTrailing }

/-- The options that are given, and the defaults of those that are not. What is given as a capacity
fits the word. -/
def PackConfig.ofGiven (initialCapacity : Option Nat) (embedSchema : Option Bool) : PackConfig :=
  let default : PackConfig := {}
  { initialCapacity := (initialCapacity.map UInt64.ofNat).getD default.initialCapacity
    embedSchema := embedSchema.getD default.embedSchema }

end RecordPack

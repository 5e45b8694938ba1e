import RecordPack.Json.Record
import RecordPack.Json.Writer
import RecordPack.Options

/-!
# Options in JSON

Options may be given in part: what is missing keeps its default.
-/

namespace RecordPack

namespace ParseOptions

def toJson (o : ParseOptions) : String :=
  Json.object [("allow_trailing", Json.boolText o.allowTrailing)]

def columns : List Json.Column := [⟨"allow_trailing", .bool⟩]

def ofJson (text : String) : Except Json.Fault ParseOptions := do
  let found ← Json.readRecord true columns text
  return .ofGiven (found.bool? "allow_trailing")

end ParseOptions

namespace PackConfig

def toJson (o : PackConfig) : String :=
  Json.object [("initial_capacity", toString o.initialCapacity),
    ("embed_schema", Json.boolText o.embedSchema)]

def columns : List Json.Column := [⟨"initial_capacity", .natural⟩, ⟨"embed_schema", .bool⟩]

def ofJson (text : String) : Except Json.Fault PackConfig := do
  let found ← Json.readRecord true columns text
  return .ofGiven (found.natural? "initial_capacity") (found.bool? "embed_schema")

end PackConfig

end RecordPack

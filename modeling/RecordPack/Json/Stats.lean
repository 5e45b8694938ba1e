import RecordPack.Json.Record
import RecordPack.Json.Writer
import RecordPack.Stats.Snapshot

/-!
# Statistics in JSON

Counters and snapshots are written and read with all their values.
-/

namespace RecordPack

namespace Counters

/-- The members of the JSON form. -/
def members (c : Counters) : List (String × String) :=
  [("rows_encoded", toString c.rowsEncoded), ("rows_decoded", toString c.rowsDecoded),
    ("bytes_records", toString c.bytesRecords), ("bytes_prefix", toString c.bytesPrefix),
    ("bytes_schema", toString c.bytesSchema)]

def toJson (c : Counters) : String := Json.object c.members

def columns : List Json.Column :=
  [⟨"rows_encoded", .natural⟩, ⟨"rows_decoded", .natural⟩, ⟨"bytes_records", .natural⟩,
    ⟨"bytes_prefix", .natural⟩, ⟨"bytes_schema", .natural⟩]

/-- The counters under their keys. -/
def ofFound (found : Json.Found) : Counters where
  rowsEncoded := (found.natural? "rows_encoded").getD 0
  rowsDecoded := (found.natural? "rows_decoded").getD 0
  bytesRecords := (found.natural? "bytes_records").getD 0
  bytesPrefix := (found.natural? "bytes_prefix").getD 0
  bytesSchema := (found.natural? "bytes_schema").getD 0

def ofJson (text : String) : Except Json.Fault Counters :=
  (Json.readRecord false columns text).map ofFound

end Counters

namespace Snapshot

def toJson (s : Snapshot) : String :=
  Json.object (s.counters.members ++
    [("prefix_overhead_ratio", Json.numberText s.prefixRatio),
      ("avg_record_bytes", Json.numberText s.averageRecord)])

def columns : List Json.Column :=
  Counters.columns ++ [⟨"prefix_overhead_ratio", .number⟩, ⟨"avg_record_bytes", .number⟩]

def ofJson (text : String) : Except Json.Fault Snapshot := do
  let found ← Json.readRecord false columns text
  return {
    counters := .ofFound found
    prefixRatio := (found.number? "prefix_overhead_ratio").getD .zero
    averageRecord := (found.number? "avg_record_bytes").getD .zero }

end Snapshot

end RecordPack

import RecordPack.Stream.Packer
import RecordPack.Stream.Records

/-!
# Whole buffers

Rows to bytes and back in one step, with the schema given as text or found in the buffer.
-/

namespace RecordPack

/-- The records of rows under a schema. -/
def dumps (schema : String) (rows : List Row) : PackM Bytes := do
  let codec ← Codec.ofText {} schema
  let packer ← Attempt.always (Packer.new codec {})
  let (packer, _) ← packer.addRows rows
  return packer.data

/-- The rows of a buffer under a schema. -/
def loads (schema : String) (data : Bytes) : PackM (List Row) := do
  let codec ← Codec.ofText {} schema
  (codec.decodeAll data).rows

/-- The rows of a buffer that starts with its schema. -/
def loadsSelfDescribed (data : Bytes) : PackM (Codec × List Row) := do
  let (codec, start) ← SchemaBlock.read data
  let rows ← (codec.decodeFrom data start).rows
  return (codec, rows)

end RecordPack

import RecordPack.Codec

/-!
# Schema blocks

A buffer may start with the text of its schema, after the length of the text, so that it can be
read without knowing the schema.
-/

namespace RecordPack.SchemaBlock

def encode (s : Schema) : Except LengthError Bytes :=
  let text := Utf8.encode s.text.toList
  (LengthPrefix.encode text.length).map (· ++ text)

/-- A buffer with the block of a schema at its end. -/
def append (data : Bytes) (s : Schema) : Except LengthError Bytes :=
  (encode s).map (data ++ ·)

/-- The text of the block at the head of a buffer, and where the block ends. -/
def readText (data : Bytes) : Except CodecError (String × Nat) := do
  let (width, size) ← (LengthPrefix.decode data 0).mapError .length
  let available := data.length - width
  if available < size then throw (.truncated width size available)
  let text ← (Utf8.decode ((data.drop width).take size)).mapError .blockNotText
  return (String.ofList text, width + size)

/-- The codec of the block at the head of a buffer, and where the block ends. -/
def read (data : Bytes) : PackM (Codec × Nat) := do
  let (text, stop) ← Attempt.lift (readText data)
  let codec ← Codec.ofText {} text
  Attempt.emit (.schemaBlockRead text stop)
  return (codec, stop)

end RecordPack.SchemaBlock

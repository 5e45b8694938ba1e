import RecordPack.Stats.Snapshot
import RecordPack.Stream.SchemaBlock

/-!
# Packers

A packer appends records to its output, counting as it goes. An attempt that fails yields no packer,
so the one before it stands: `Packer.step` says what a packer is after each thing asked of it. A
packer that works in place, and takes back what it wrote, comes to the same (`Packer.perform_eq`).

The bytes that the options set aside for the output bound nothing, they only save moves later on. An
allocation that fails is outside of all this: a packer here always has the room it asks for.
-/

namespace RecordPack

/-- The records of rows, one after the other. -/
structure Packer where
  codec : Codec
  config : PackConfig
  data : Bytes
  rows : Nat
  counters : Counters

namespace Packer

/-- Puts the schema at the end of the output and counts it, if the options say so. -/
def start (p : Packer) : Logged Packer :=
  if p.config.embedSchema then
    match SchemaBlock.encode p.codec.schema with
    | .ok block => do
      Logged.emit (.schemaEmbedded block.length)
      return { p with data := p.data ++ block, counters := p.counters.addSchema block.length }
    | .error cause => do
      Logged.emit (.schemaSkipped cause)
      return p
  else pure p

/-- A packer without rows. -/
def new (codec : Codec) (config : PackConfig) : Logged Packer :=
  start { codec, config, data := [], rows := 0, counters := {} }

/-- Appends a row. Also yields the number of bytes appended. -/
def addRow (p : Packer) (row : Row) : PackM (Packer × Nat) := do
  let r ← p.codec.append p.data row
  let size := r.bytes.length
  Attempt.emit (.rowPacked (p.rows + 1) size)
  return ({ p with
    data := p.data ++ r.bytes
    rows := p.rows + 1
    counters := p.counters.addEncoded size r.head.length }, size)

/-- Appends rows, all of them or none. -/
def addRows (p : Packer) : List Row → PackM (Packer × Nat)
  | [] => pure (p, 0)
  | row :: rows => do
    let (p, n) ← p.addRow row
    let (p, m) ← addRows p rows
    return (p, n + m)

def addNamed (p : Packer) (pairs : List (String × Value)) : PackM (Packer × Nat) := do
  let row ← Attempt.lift (p.codec.rowOfNamed pairs)
  p.addRow row

/-- Drops all rows. The schema is put into the output again. -/
def clear (p : Packer) : Logged Packer :=
  start { p with data := [], rows := 0, counters := {} }

/-- What a packer can be asked to do. -/
inductive Op where
  | addRow (row : Row)
  | addRows (rows : List Row)
  | addNamed (pairs : List (String × Value))
  | clear

/-- The number of bytes that an attempt appended and the packer it made; after a failure, the error
and the packer there was. -/
def settle (p : Packer) (attempt : PackM (Packer × Nat)) : Logged (Except CodecError Nat × Packer) := do
  match ← attempt.run with
  | .ok (p, n) => return (.ok n, p)
  | .error e => return (.error e, p)

def step (p : Packer) : Op → Logged (Except CodecError Nat × Packer)
  | .addRow row => p.settle (p.addRow row)
  | .addRows rows => p.settle (p.addRows rows)
  | .addNamed pairs => p.settle (p.addNamed pairs)
  | .clear => do return (.ok 0, ← p.clear)

def snapshot (p : Packer) : Snapshot := .ofCounters p.counters

end Packer

end RecordPack

/-!
# Counters

What a packer or a reader has handled. Counters of several workers add up.
-/

namespace RecordPack

/-- Counts of rows and bytes. -/
@[ext] structure Counters where
  rowsEncoded : Nat := 0
  rowsDecoded : Nat := 0
  /-- The bytes of their records, the length in front included. -/
  bytesRecords : Nat := 0
  /-- The bytes of those lengths alone. -/
  bytesPrefix : Nat := 0
  bytesSchema : Nat := 0
deriving DecidableEq, Repr

namespace Counters

def addEncoded (c : Counters) (record head : Nat) : Counters :=
  { c with
    rowsEncoded := c.rowsEncoded + 1
    bytesRecords := c.bytesRecords + record
    bytesPrefix := c.bytesPrefix + head }

def addDecoded (c : Counters) (record head : Nat) : Counters :=
  { c with
    rowsDecoded := c.rowsDecoded + 1
    bytesRecords := c.bytesRecords + record
    bytesPrefix := c.bytesPrefix + head }

def addSchema (c : Counters) (block : Nat) : Counters :=
  { c with bytesSchema := c.bytesSchema + block }

def totalBytes (c : Counters) : Nat := c.bytesRecords + c.bytesSchema

/-- The counters of two workers together. -/
instance : Add Counters where
  add a b :=
    { rowsEncoded := a.rowsEncoded + b.rowsEncoded
      rowsDecoded := a.rowsDecoded + b.rowsDecoded
      bytesRecords := a.bytesRecords + b.bytesRecords
      bytesPrefix := a.bytesPrefix + b.bytesPrefix
      bytesSchema := a.bytesSchema + b.bytesSchema }

end Counters

end RecordPack

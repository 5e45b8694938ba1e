import RecordPack.Ieee.Binary
import RecordPack.Stats.Counters

/-!
# Snapshots

Counters at one moment, with two ratios drawn from them.
-/

namespace RecordPack

open Ieee (Binary64)

/-- The counters and what follows from them. -/
structure Snapshot where
  counters : Counters
  /-- The bytes of lengths per byte of records. -/
  prefixRatio : Binary64
  /-- The bytes of a record on average. -/
  averageRecord : Binary64
deriving DecidableEq, Repr

namespace Snapshot

/-- The quotient of two counts, zero when there is nothing to divide by. -/
def ratioOrZero (a b : Nat) : Binary64 := if b = 0 then .zero else .ratio a b

def ofCounters (c : Counters) : Snapshot where
  counters := c
  prefixRatio := ratioOrZero c.bytesPrefix c.bytesRecords
  averageRecord := ratioOrZero c.bytesRecords (c.rowsEncoded + c.rowsDecoded)

/-- Whether the lengths take no more than the records they belong to. -/
def isSane (s : Snapshot) : Bool :=
  s.counters.bytesPrefix ≤ s.counters.bytesRecords && s.prefixRatio.atMostOne

end Snapshot

end RecordPack

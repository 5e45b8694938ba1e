import RecordPack.Schema.Printer
import RecordPack.Stream.Whole
import RecordPack.Json.Options
import RecordPack.Json.Stats
import RecordPack.Proofs.Ieee.Narrowing
import RecordPack.Proofs.LengthPrefix
import RecordPack.Proofs.PrefixCode
import RecordPack.Proofs.Record.Place
import RecordPack.Proofs.Schema.WellFormed
import RecordPack.Proofs.Layout.Covers
import RecordPack.Proofs.Record.Cursor
import RecordPack.Proofs.Record.Leaves
import RecordPack.Proofs.Record.FieldByField
import RecordPack.Proofs.Record.Room
import RecordPack.Proofs.Record.Blocks
import RecordPack.Proofs.Record.Part
import RecordPack.Proofs.Record.Canonical
import RecordPack.Proofs.Codec
import RecordPack.Proofs.Record.RoundTrip
import RecordPack.Proofs.Record.Refinement
import RecordPack.Proofs.Decidable
import RecordPack.Proofs.Schema.Lexing
import RecordPack.Proofs.Schema.Grammar
import RecordPack.Proofs.Schema.Recognition
import RecordPack.Proofs.Stream.Packing
import RecordPack.Proofs.Text.Utf8
import RecordPack.Proofs.Schema.Modes
import RecordPack.Proofs.Schema.Dropped
import RecordPack.Proofs.Schema.Permissive
import RecordPack.Proofs.Stream.SchemaBlock
import RecordPack.Proofs.Stream.ReadBack
import RecordPack.Proofs.Schema.Canonical
import RecordPack.Proofs.Stats.Counters
import RecordPack.Proofs.Stream.Reading
import RecordPack.Proofs.Record.Framing
import RecordPack.Proofs.Stream.Truncation
import RecordPack.Proofs.Record.Translation
import RecordPack.Proofs.Stream.Concatenation
import RecordPack.Proofs.Layout.Segmentation
import RecordPack.Proofs.Record.Acceptance
import RecordPack.Proofs.Record.Agreement
import RecordPack.Proofs.Layout.Format
import RecordPack.Proofs.Schema.Overflow
import RecordPack.Proofs.Addressing.Layout
import RecordPack.Proofs.Addressing.Writing
import RecordPack.Proofs.Addressing.Reading
import RecordPack.Proofs.Addressing.Safety
import RecordPack.Proofs.Record.InPlace
import RecordPack.Proofs.Stream.Batches
import RecordPack.Proofs.Record.Faults
import RecordPack.Proofs.Record.Isolation
import RecordPack.Proofs.Record.Bounds
import RecordPack.Proofs.Addressing.Records
import RecordPack.Proofs.Record.Directions
import RecordPack.Proofs.Stream.Directions
import RecordPack.Proofs.Record.Names
import RecordPack.Proofs.Record.ByteOrder
import RecordPack.Proofs.Schema.Checks
import RecordPack.Proofs.Schema.Matches
import RecordPack.Proofs.Schema.FirstProblem
import RecordPack.Proofs.Stream.NameOrder
import RecordPack.Proofs.Record.Refusals
import RecordPack.Proofs.Schema.Table
import RecordPack.Proofs.Ieee.Monotone
import RecordPack.Proofs.Stream.Workers
import RecordPack.Proofs.Record.Payload
import RecordPack.Proofs.Text.Pattern
import RecordPack.Proofs.Schema.Scanning
import RecordPack.Proofs.Ieee.Nearest
import RecordPack.Proofs.Ieee.Twice
import RecordPack.Proofs.Record.Rounding
import RecordPack.Proofs.Ieee.Shortest
import RecordPack.Proofs.Ieee.Steps
import RecordPack.Proofs.Json.Number
import RecordPack.Proofs.Json.Printed
import RecordPack.Proofs.Json.Object
import RecordPack.Proofs.Json.ReadBack
import RecordPack.Proofs.Stats.ReadBack

import RecordPack.Proofs.Record.Directions
import RecordPack.Proofs.Stream.Batches
import RecordPack.Proofs.Stream.Reading

/-!
# Readers report damage, and packers do not

What a reader of records yields in the place of a row is an error of reading, and what a packer answers is not, whatever
it is asked to do. `Codec.ErrorsByDirection` says so of all that reads and writes with one codec, and
`Codec.errorsByDirection` that it holds of the codec of every schema that is accepted.
-/

namespace RecordPack

/-! ## Readers -/

namespace Records

variable {r r' : Records}

theorem failsOnly_of_next {x : Except CodecError Row} (h : r.next.value = (some x, r')) :
    FailsOnly (·.isDecodeError = true) x := by
  cases hdone : r.done with
  | true =>
    rw [value_next_of_done hdone] at h
    cases h
  | false =>
    rw [value_next hdone] at h
    split at h
    · cases h
      exact failsOnly_ok _
    · cases h
    · next err hread =>
      cases h
      exact failsOnly_error (r.codec.failsOnly_readAt r.data r.cursor err hread)

/-- A whole run yields what its steps yield. -/
theorem failsOnly_of_mem_drain (r : Records) : ∀ y ∈ r.drain.value.1, FailsOnly (·.isDecodeError = true) y.1 := by
  -- induction on how often there can be something to yield
  induction hbudget : r.budget using Nat.strong_induction_on generalizing r with
  | _ n ih =>
    match hnext : r.next.value with
    | (none, r') =>
      rw [value_drain_of_none hnext]
      exact List.forall_mem_nil _
    | (some x, r') =>
      rw [value_drain_of_some hnext]
      have hlt : r'.budget < n := by
        rw [← hbudget]
        exact budget_lt_of_next hnext
      exact List.forall_mem_cons.2 ⟨failsOnly_of_next hnext, ih r'.budget hlt r' rfl⟩

theorem failsOnly_rows (r : Records) : FailsOnly (·.isDecodeError = true) r.rows.run.value := by
  rw [value_rows]
  exact FailsOnly.mapM r.failsOnly_of_mem_drain

end Records

/-! ## Packers -/

theorem Codec.failsOnly_records (c : Codec) (rows : List Row) : ∀ start : Nat,
    FailsOnly (·.isDecodeError = false) (c.records start rows) := by
  induction rows with
  | nil =>
    intro start
    exact failsOnly_ok []
  | cons row rows ih =>
    intro start
    exact FailsOnly.bind (c.failsOnly_record start row) fun r => (ih _).bind fun rs => failsOnly_ok _

namespace Packer

theorem Op.failsOnly_records (c : Codec) (start : Nat) (op : Op) :
    FailsOnly (·.isDecodeError = false) (op.records c start) := by
  cases op with
  | addRow row => exact (c.failsOnly_record start row).map
  | addRows rows => exact c.failsOnly_records rows start
  | addNamed pairs => exact (c.failsOnly_rowOfNamed pairs).bind fun row => (c.failsOnly_record start row).map
  | clear => exact failsOnly_ok []

theorem failsOnly_step (p : Packer) (op : Op) : FailsOnly (·.isDecodeError = false) (p.step op).value.1 := by
  by_cases hop : op = .clear
  · subst hop
    rw [value_step_clear]
    exact failsOnly_ok 0
  · rw [value_step p hop]
    have hrecords := op.failsOnly_records p.codec p.data.length
    cases h : op.records p.codec p.data.length with
    | ok rs => exact failsOnly_ok _
    | error err => exact failsOnly_error (hrecords err h)

end Packer

/-! ## One codec -/

/-- Whatever goes wrong in reading is an error of reading, and whatever goes wrong in writing is none. -/
structure Codec.ErrorsByDirection (c : Codec) : Prop where
  /-- A record is read. -/
  decodeNext : ∀ data cursor, FailsOnly (·.isDecodeError = true) (c.decodeNext data cursor).run.value
  /-- A record is read by index and offset, and no slot is in the wrong place. -/
  getAt : ∀ data cursor,
    FailsOnly (fun halt => ∃ err, halt = .error err ∧ err.isDecodeError = true) (c.getAt data cursor)
  /-- A reader of records, in any state, yields something. -/
  next : ∀ r : Records, r.codec = c → ∀ x r', r.next.value = (some x, r') → FailsOnly (·.isDecodeError = true) x
  /-- A reader of records yields all that is left. -/
  drain : ∀ r : Records, r.codec = c → ∀ y ∈ r.drain.value.1, FailsOnly (·.isDecodeError = true) y.1
  rows : ∀ r : Records, r.codec = c → FailsOnly (·.isDecodeError = true) r.rows.run.value
  /-- The length of a record is read once more, to be counted. -/
  decode : ∀ data cursor,
    FailsOnly (·.isDecodeError = true) ((LengthPrefix.decode data cursor).mapError CodecError.length)
  /-- A row is written on its own. -/
  encode : ∀ row, FailsOnly (·.isDecodeError = false) (c.encode row)
  appendTo : ∀ data row, FailsOnly (·.isDecodeError = false) (c.appendTo data row).value.1
  /-- A row is written in place. -/
  writeTo : ∀ data row, FailsOnly (·.isDecodeError = false) (c.writeTo data row).1
  /-- A record is put together by index and offset, and no slot is in the wrong place. -/
  putRecord : ∀ start row,
    FailsOnly (fun halt => ∃ err, halt = .error err ∧ err.isDecodeError = false) (c.putRecord start row)
  rowOfNamed : ∀ pairs, FailsOnly (·.isDecodeError = false) (c.rowOfNamed pairs)
  /-- A packer, in any state, is asked for something. -/
  step : ∀ p : Packer, p.codec = c → ∀ op, FailsOnly (·.isDecodeError = false) (p.step op).value.1
  /-- A packer writes in place, and reads back the length that it wrote. -/
  writeRow : ∀ p : Packer, p.codec = c → ∀ row, FailsOnly (·.isDecodeError = false) (p.writeRow row).1
  writeRows : ∀ p : Packer, p.codec = c → ∀ rows, FailsOnly (·.isDecodeError = false) (p.writeRows rows).1

namespace Codec

variable {c : Codec}

theorem failsOnly_appendTo (c : Codec) (data : Bytes) (row : Row) :
    FailsOnly (·.isDecodeError = false) (c.appendTo data row).value.1 := by
  rw [value_appendTo]
  have hrecord := c.failsOnly_record data.length row
  cases h : c.record data.length row with
  | ok r => exact failsOnly_ok _
  | error err => exact failsOnly_error (hrecord err h)

/-- With the codec of an accepted schema, all errors of reading are told from all errors of writing by what they are. -/
theorem errorsByDirection {options : ParseOptions} {text : String}
    (hc : (Codec.ofText options text).run.value = .ok c) : c.ErrorsByDirection where
  decodeNext data cursor := by
    rw [value_decodeNext]
    exact c.failsOnly_readAt data cursor
  getAt := failsOnly_getAt (wellFormed_of_ofText hc)
  next _ _ _ _ := Records.failsOnly_of_next
  drain r _ := r.failsOnly_of_mem_drain
  rows r _ := r.failsOnly_rows
  decode data cursor := failsOnly_length (LengthPrefix.failsOnly_read cursor (data.drop cursor))
  encode row := (c.failsOnly_record 0 row).map
  appendTo := c.failsOnly_appendTo
  writeTo data row := by
    rw [writeTo_eq]
    exact c.failsOnly_appendTo data row
  putRecord := failsOnly_putRecord (wellFormed_of_ofText hc)
  rowOfNamed := c.failsOnly_rowOfNamed
  step p _ op := p.failsOnly_step op
  writeRow p _ row := by
    rw [p.writeRow_eq]
    exact p.failsOnly_step (.addRow row)
  writeRows p _ rows := by
    rw [p.writeRows_eq]
    exact p.failsOnly_step (.addRows rows)

/-- A length that is cut short is damage, and a number that is too large is not. -/
theorem errorsByDirection_sample :
    (∃ err, (sample.decodeNext [0, 0] 0).run.value = .error err ∧ err.isDecodeError = true) ∧
      ∃ err, (sample.appendTo [] (sampleRow (.uint 65536))).value.1 = .error err ∧ err.isDecodeError = false := by
  have hsample := errorsByDirection ofText_sample
  constructor
  · have hread : (sample.decodeNext [0, 0] 0).run.value = .error (.length (.malformed 0 4 2)) := by decide +kernel
    have hdamage := hsample.decodeNext [0, 0] 0 _ hread
    exact ⟨_, hread, hdamage⟩
  · have hwrite : (sample.appendTo [] (sampleRow (.uint 65536))).value.1 =
        .error (.field "n" (.outOfRange .int16 (.uint 65536))) := by decide +kernel
    have hnone := hsample.appendTo [] (sampleRow (.uint 65536)) _ hwrite
    exact ⟨_, hwrite, hnone⟩

end Codec

end RecordPack

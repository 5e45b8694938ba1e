import RecordPack.Proofs.Codec
import RecordPack.Proofs.Stats.Counters
import RecordPack.Stream.Packer

/-!
# What a packer holds

A `Session` is a packer in use, with the rows that were accepted since it was made or cleared. Whatever is
asked of it (`Session.run`), its output is the block of the schema and the records of those rows, each as it is
on its own, and its counters are those of these records (`Session.holds_run`, `Session.output_run`).

What one thing asked of a packer does is said once, in `Packer.value_step`: the rows it is about all have
records from the end of the output on, and these are appended, or the packer stays as it is.
-/

namespace RecordPack

/-! ## Records one after the other -/

namespace Codec

/-- The records of rows, one after the other, for a buffer that holds `start` bytes. -/
def records (c : Codec) : (start : Nat) → List Row → Except CodecError (List Record)
  | _, [] => .ok []
  | start, row :: rows => do
    let r ← c.record start row
    let rs ← c.records (start + r.bytes.length) rows
    return r :: rs

/-- Each row has its record on its own, too. -/
theorem forall₂_record_of_records {c : Codec} {rows : List Row} : ∀ {start : Nat} {rs : List Record},
    c.records start rows = .ok rs → List.Forall₂ (fun row r => c.record 0 row = .ok r) rows rs := by
  induction rows with
  | nil =>
    rintro start rs ⟨⟩
    exact .nil
  | cons row rows ih =>
    intro start rs h
    simp only [records, bind_eq_ok, pure_eq_ok] at h
    obtain ⟨r, hr, rs', hrs, rfl⟩ := h
    exact .cons (record_mono (Nat.zero_le start) hr) (ih hrs)

end Codec

namespace Counters

/-- What records count. -/
def ofRecords (rs : List Record) : Counters where
  rowsEncoded := rs.length
  bytesRecords := (rs.map (·.bytes.length)).sum
  bytesPrefix := (rs.map (·.head.length)).sum

theorem add_ofRecords_append (c : Counters) (rs rs' : List Record) :
    c + ofRecords (rs ++ rs') = c + ofRecords rs + ofRecords rs' := by
  ext <;> simp [ofRecords, Nat.add_assoc]

theorem add_ofRecords_nil (c : Counters) : c + ofRecords [] = c := by
  ext <;> simp [ofRecords]

theorem addEncoded_eq (c : Counters) (r : Record) : c.addEncoded r.bytes.length r.head.length = c + ofRecords [r] := by
  ext <;> simp [addEncoded, ofRecords]

end Counters

/-! ## Single steps -/

namespace Packer

/-- The packer with more records at the end of its output. -/
def extend (p : Packer) (rs : List Record) : Packer :=
  { p with
    data := p.data ++ rs.flatMap Record.bytes
    rows := p.rows + rs.length
    counters := p.counters + .ofRecords rs }

theorem extend_nil (p : Packer) : p.extend [] = p := by
  simp [extend, Counters.add_ofRecords_nil]

theorem extend_append (p : Packer) (rs rs' : List Record) : p.extend (rs ++ rs') = (p.extend rs).extend rs' := by
  simp [extend, Counters.add_ofRecords_append, Nat.add_assoc]

theorem value_addRow (p : Packer) (row : Row) : (p.addRow row).run.value =
    (p.codec.record p.data.length row).map fun r => (p.extend [r], r.bytes.length) := by
  simp only [addRow, Codec.append, Attempt.value_bind, Attempt.value_lift, Attempt.value_emit]
  cases p.codec.record p.data.length row with
  | error e => rfl
  | ok r => simp [extend, Counters.addEncoded_eq, bind, Except.bind, Except.map]

/-- All rows of a batch are appended, or none. -/
theorem value_addRows (rows : List Row) : ∀ p : Packer, (p.addRows rows).run.value =
    (p.codec.records p.data.length rows).map fun rs => (p.extend rs, (rs.flatMap Record.bytes).length) := by
  induction rows with
  | nil =>
    intro p
    simp [addRows, Codec.records, extend_nil]
  | cons row rows ih =>
    intro p
    simp only [addRows, Codec.records, Attempt.value_bind, value_addRow]
    cases p.codec.record p.data.length row with
    | error e => rfl
    | ok r =>
      have hcodec : (p.extend [r]).codec = p.codec := rfl
      have hlength : (p.extend [r]).data.length = p.data.length + r.bytes.length := by simp [extend]
      simp only [map_ok, ok_bind, ih, hcodec, hlength]
      cases p.codec.records (p.data.length + r.bytes.length) rows with
      | error e => rfl
      | ok rs =>
        have hall : p.extend (r :: rs) = (p.extend [r]).extend rs := extend_append p [r] rs
        have hsize : ((r :: rs).flatMap Record.bytes).length = r.bytes.length + (rs.flatMap Record.bytes).length := by
          rw [List.flatMap_cons, List.length_append]
        show Except.ok ((p.extend [r]).extend rs, _) = Except.ok (p.extend (r :: rs), _)
        rw [hall, hsize]

/-- The records that something asked of a packer puts behind `start` bytes. -/
def Op.records (c : Codec) (start : Nat) : Op → Except CodecError (List Record)
  | .addRow row => (c.record start row).map ([·])
  | .addRows rows => c.records start rows
  | .addNamed pairs => c.rowOfNamed pairs >>= fun row => (c.record start row).map ([·])
  | .clear => .ok []

/-- Whatever is asked of a packer but to be cleared, it appends the records that this takes, or it stays as it is. -/
theorem value_step (p : Packer) {op : Op} (hop : op ≠ .clear) :
    (p.step op).value = match op.records p.codec p.data.length with
      | .ok rs => (.ok (rs.flatMap Record.bytes).length, p.extend rs)
      | .error e => (.error e, p) := by
  cases op with
  | addRow row =>
    simp only [step, settle, Logged.value_bind, value_addRow, Op.records]
    cases p.codec.record p.data.length row with
    | error e => rfl
    | ok r => simp
  | addRows rows =>
    simp only [step, settle, Logged.value_bind, value_addRows, Op.records]
    cases p.codec.records p.data.length rows <;> rfl
  | addNamed pairs =>
    simp only [step, settle, Logged.value_bind, addNamed, Attempt.value_bind, Attempt.value_lift, value_addRow,
      Op.records]
    cases p.codec.rowOfNamed pairs with
    | error e => rfl
    | ok row =>
      simp only [ok_bind]
      cases p.codec.record p.data.length row with
      | error e => rfl
      | ok r => simp
  | clear => exact absurd rfl hop

/-- The block that the output of a packer starts with: that of the schema, if the options ask for it. -/
def blockOf (s : Schema) (config : PackConfig) : Bytes :=
  if config.embedSchema then (SchemaBlock.encode s).toOption.getD [] else []

theorem value_start (p : Packer) : p.start.value =
    { p with
      data := p.data ++ blockOf p.codec.schema p.config
      counters := p.counters.addSchema (blockOf p.codec.schema p.config).length } := by
  unfold start blockOf
  cases p.config.embedSchema with
  | false => simp [Counters.addSchema]
  | true =>
    cases SchemaBlock.encode p.codec.schema with
    | ok block => simp [Except.toOption]
    | error cause => simp [Counters.addSchema, Except.toOption]

/-- A packer without rows holds the block, and has counted it. -/
theorem value_new (c : Codec) (config : PackConfig) : (new c config).value =
    { codec := c, config, data := blockOf c.schema config, rows := 0,
      counters := { bytesSchema := (blockOf c.schema config).length } } := by
  rw [new, value_start]
  simp [Counters.addSchema]

/-- Clearing forgets all that was packed, so the packer is as good as new. -/
theorem value_step_clear (p : Packer) : (p.step .clear).value = (.ok 0, (new p.codec p.config).value) := rfl

end Packer

/-! ## Whole runs -/

/-- A packer in use. -/
structure Session where
  packer : Packer
  /-- The rows that it accepted since it was made or cleared, in order. -/
  rows : List Row

namespace Session

def start (c : Codec) (config : PackConfig) : Session := ⟨(Packer.new c config).value, []⟩

/-- The rows there are after something was asked of the packer, with this result. -/
def keep (s : Session) : Packer.Op → Except CodecError Nat → List Row
  | _, .error _ => s.rows
  | .addRow row, .ok _ => s.rows ++ [row]
  | .addRows rows, .ok _ => s.rows ++ rows
  | .addNamed pairs, .ok _ => s.rows ++ (s.packer.codec.rowOfNamed pairs).toOption.toList
  | .clear, .ok _ => []

def step (s : Session) (op : Packer.Op) : Session :=
  let (result, packer) := (s.packer.step op).value
  { packer, rows := s.keep op result }

/-- What becomes of a packer when one thing after the other is asked of it. -/
def run (s : Session) (ops : List Packer.Op) : Session := ops.foldl step s

/-- The packer holds the block of the schema and, behind it, these records of its rows. -/
structure Holds (c : Codec) (config : PackConfig) (s : Session) (rs : List Record) : Prop where
  codec_eq : s.packer.codec = c
  config_eq : s.packer.config = config
  records : List.Forall₂ (fun row r => c.record 0 row = .ok r) s.rows rs
  data_eq : s.packer.data = Packer.blockOf c.schema config ++ rs.flatMap Record.bytes
  rows_eq : s.packer.rows = rs.length
  counters_eq : s.packer.counters = { bytesSchema := (Packer.blockOf c.schema config).length } + Counters.ofRecords rs

variable {c : Codec} {config : PackConfig} {s : Session} {rs : List Record}

theorem holds_start (c : Codec) (config : PackConfig) : Holds c config (start c config) [] := by
  have hnew := Packer.value_new c config
  constructor <;> simp [start, hnew, Counters.add_ofRecords_nil]

/-- The rows that are kept are those whose records were appended. -/
theorem keep_records {op : Packer.Op} (hop : op ≠ .clear) {start n : Nat} {new : List Record}
    (h : op.records s.packer.codec start = .ok new) : ∃ rows, s.keep op (.ok n) = s.rows ++ rows ∧
      s.packer.codec.records start rows = .ok new := by
  have hsingle : ∀ {row : Row}, (s.packer.codec.record start row).map ([·]) = .ok new →
      s.packer.codec.records start [row] = .ok new := by
    intro row h
    obtain ⟨r, hr, rfl⟩ := map_eq_ok.1 h
    rw [Codec.records, hr]
    rfl
  cases op with
  | addRow row => exact ⟨[row], rfl, hsingle h⟩
  | addRows rows => exact ⟨rows, rfl, h⟩
  | addNamed pairs =>
    obtain ⟨row, hrow, h⟩ := bind_eq_ok.1 h
    exact ⟨[row], by simp [keep, hrow, Except.toOption], hsingle h⟩
  | clear => exact absurd rfl hop

theorem step_clear (h : Holds c config s rs) : s.step .clear = start c config := by
  simp only [step, Packer.value_step_clear, h.codec_eq, h.config_eq]
  rfl

/-- Whatever is asked of it, a packer goes on to hold the records of its rows. -/
theorem holds_step (h : Holds c config s rs) (op : Packer.Op) : ∃ rs', Holds c config (s.step op) rs' := by
  by_cases hop : op = .clear
  · subst hop
    rw [step_clear h]
    exact ⟨[], holds_start c config⟩
  · simp only [step, Packer.value_step _ hop]
    cases hnew : op.records s.packer.codec s.packer.data.length with
    | error e => exact ⟨rs, h.codec_eq, h.config_eq, h.records, h.data_eq, h.rows_eq, h.counters_eq⟩
    | ok new =>
      obtain ⟨rows, hkeep, hrecords⟩ := keep_records (n := (new.flatMap Record.bytes).length) hop hnew
      rw [h.codec_eq] at hrecords
      refine ⟨rs ++ new, h.codec_eq, h.config_eq, ?_, ?_, ?_, ?_⟩
      · show List.Forall₂ _ (s.keep op _) _
        rw [hkeep]
        exact List.rel_append h.records (Codec.forall₂_record_of_records hrecords)
      · simp [Packer.extend, h.data_eq]
      · simp [Packer.extend, h.rows_eq]
      · simp only [Packer.extend, h.counters_eq, Counters.add_ofRecords_append]

theorem holds_run (h : Holds c config s rs) (ops : List Packer.Op) : ∃ rs', Holds c config (s.run ops) rs' := by
  induction ops generalizing s rs with
  | nil => exact ⟨rs, h⟩
  | cons op ops ih =>
    obtain ⟨rs', h'⟩ := holds_step h op
    exact ih h'

theorem step_clear_eq (h : Holds c config s rs) :
    (s.packer.step .clear).value = (.ok 0, (Packer.new c config).value) := by
  rw [Packer.value_step_clear, h.codec_eq, h.config_eq]

/-- However a packer is used, its output is the block and the records of the rows that it accepted since it was
made or cleared, each the record of its row on its own, and it has counted just these. What is asked of it
succeeds exactly if all rows that it is about have records there. What fails leaves the packer as it was, and
clearing makes it a new one. -/
theorem output_run (c : Codec) (config : PackConfig) (ops : List Packer.Op) :
    let s := (start c config).run ops
    let block := Packer.blockOf c.schema config
    (∃ rs : List Record,
      List.Forall₂ (fun row r => c.encode row = .ok r.bytes ∧ LengthPrefix.encode r.body.length = .ok r.head)
        s.rows rs ∧
      s.packer.data = block ++ rs.flatMap Record.bytes ∧
      s.packer.rows = s.rows.length ∧
      s.packer.counters =
        { rowsEncoded := s.rows.length
          rowsDecoded := 0
          bytesRecords := (rs.map (·.bytes.length)).sum
          bytesPrefix := (rs.map (·.head.length)).sum
          bytesSchema := block.length } ∧
      s.packer.counters.totalBytes = s.packer.data.length) ∧
    (∀ op, (s.packer.step op).value.1 =
      (op.records c s.packer.data.length).map fun rs => (rs.flatMap Record.bytes).length) ∧
    (∀ op e, (s.packer.step op).value.1 = .error e → (s.packer.step op).value.2 = s.packer) ∧
    (s.packer.step .clear).value = (.ok 0, (Packer.new c config).value) := by
  intro s block
  obtain ⟨rs, h⟩ := holds_run (holds_start c config) ops
  have hlen : s.rows.length = rs.length := h.records.length_eq
  have hcounters : s.packer.counters =
      { rowsEncoded := s.rows.length, rowsDecoded := 0, bytesRecords := (rs.map (·.bytes.length)).sum,
        bytesPrefix := (rs.map (·.head.length)).sum, bytesSchema := block.length } := by
    rw [hlen, h.counters_eq]
    ext <;> simp [Counters.ofRecords, block]
  refine ⟨⟨rs, ?_, h.data_eq, h.rows_eq.trans hlen.symm, hcounters, ?_⟩, ?_, ?_, step_clear_eq h⟩
  · refine h.records.imp ?_
    intro row r hr
    exact ⟨by rw [Codec.encode, hr, map_ok], (Codec.record_eq_ok.1 hr).2.2.2⟩
  · rw [hcounters, h.data_eq, List.length_append, List.length_flatMap]
    exact Nat.add_comm _ _
  · intro op
    by_cases hop : op = .clear
    · subst hop
      rfl
    · rw [Packer.value_step _ hop, h.codec_eq]
      cases op.records c s.packer.data.length <;> rfl
  · intro op e he
    by_cases hop : op = .clear
    · subst hop
      cases he
    · rw [Packer.value_step _ hop] at he ⊢
      cases hnew : op.records s.packer.codec s.packer.data.length with
      | error e' => rfl
      | ok new =>
        rw [hnew] at he
        cases he

end Session

end RecordPack

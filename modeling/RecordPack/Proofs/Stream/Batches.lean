import RecordPack.Proofs.Record.InPlace
import RecordPack.Proofs.Stream.Packing

/-!
# Packers in place

A machine appends a row in place, reads the width of its length back from the output, and counts. For a batch it
remembers where the output ended and what was counted, and after a row that cannot be written it goes back to that,
piece by piece. `Packer.writeRows` is this machine, and `Packer.writeRows_all_or_none` says that no batch is ever
written in part: it does what its rows do one after the other, or nothing.

To be cleared, the machine cuts its output to nothing, starts to count again, and appends the schema as it did in the
beginning (`Packer.wipe`). Whatever is asked of it, it does what a packer does (`Packer.perform_eq`), and so it does in
a whole run (`Session.packer_run`).
-/

namespace RecordPack

/-! ## Records of more rows -/

namespace Codec

variable {c : Codec}

theorem records_append (a b : List Row) : ∀ start, c.records start (a ++ b) = do
    let rs ← c.records start a
    let rs' ← c.records (start + (rs.flatMap Record.bytes).length) b
    return rs ++ rs' := by
  induction a with
  | nil =>
    intro start
    simp [records]
  | cons row a ih =>
    intro start
    rw [List.cons_append, records, records]
    cases c.record start row with
    | error e => rfl
    | ok r =>
      simp only [ok_bind, ih, bind_assoc, pure_bind, List.flatMap_cons, List.length_append, ← Nat.add_assoc]
      rfl

/-- A batch fails at one of its rows, with records for all rows before it. -/
theorem exists_of_records_eq_error {rows : List Row} : ∀ {start : Nat} {err : CodecError},
    c.records start rows = .error err → ∃ before row after rs, rows = before ++ row :: after ∧
      c.records start before = .ok rs ∧
      c.record (start + (rs.flatMap Record.bytes).length) row = .error err := by
  induction rows with
  | nil =>
    intro start err h
    cases h
  | cons row rows ih =>
    intro start err h
    rw [records, bind_eq_error] at h
    rcases h with hrow | ⟨r, hr, h⟩
    · exact ⟨[], row, rows, [], rfl, rfl, hrow⟩
    · rcases bind_eq_error.1 h with hrows | ⟨rs, -, h⟩
      · obtain ⟨before, row', after, rs, rfl, hbefore, hrow'⟩ := ih hrows
        refine ⟨row :: before, row', after, r :: rs, rfl, ?_, ?_⟩
        · rw [records, hr, ok_bind, hbefore]
          rfl
        · rwa [List.flatMap_cons, List.length_append, ← Nat.add_assoc]
      · cases h

/-- The width of the length of a record can be read back from where it was written. -/
theorem decode_of_record {start : Nat} {row : Row} {r : Record} (h : c.record start row = .ok r) (data : Bytes) :
    LengthPrefix.decode (data ++ r.bytes) data.length = .ok (r.head.length, r.body.length) := by
  obtain ⟨-, -, -, hhead⟩ := record_eq_ok.1 h
  rw [LengthPrefix.decode, List.drop_left]
  exact LengthPrefix.read_of_measures (LengthPrefix.measures_of_encode hhead) _ _

end Codec

/-! ## The schema in front of the rows -/

namespace InPlace

/-- Puts the block of a schema at the end, and gives the number of bytes that it takes. -/
def writeBlock (s : Schema) : Step Nat := do
  let text := Utf8.encode s.text.toList
  let head ← lift (Writer.lengthBytes text.length)
  push head
  push text
  return head.length + text.length

/-- Where the length cannot be written, there is no block at all. -/
theorem on_writeBlock (s : Schema) (out : Bytes) : (writeBlock s).on out =
    match SchemaBlock.encode s with
    | .ok block => (.ok block.length, out ++ block)
    | .error cause => (.error (.length cause), out) := by
  rw [writeBlock, SchemaBlock.encode, Writer.lengthBytes]
  cases LengthPrefix.encode (Utf8.encode s.text.toList).length with
  | error cause => exact on_bind_of_error (on_lift _ out) _
  | ok head =>
    refine (on_bind_of_ok (on_lift _ out) _).trans ?_
    simp only [map_ok, List.length_append, ← List.append_assoc]
    rfl

end InPlace

namespace Packer

/-! ## A packer in place -/

/-- Appends a row. -/
def writeRow (p : Packer) (row : Row) : Except CodecError Nat × Packer :=
  match p.codec.writeTo p.data row with
  | (.error err, data) => (.error err, { p with data })
  | (.ok size, data) =>
    match LengthPrefix.decode data p.data.length with
    | .error cause => (.error (.length cause), { p with data })
    | .ok (width, _) => (.ok size, { p with data, rows := p.rows + 1, counters := p.counters.addEncoded size width })

/-- Goes back to an output of `start` bytes, and to a number of rows and to counters. -/
def restore (p : Packer) (start rows : Nat) (counters : Counters) : Packer :=
  { p with data := p.data.take start, rows, counters }

/-- Appends the rest of a batch that began at `saved`, behind rows of `total` bytes. -/
def writeRest (saved : Packer) : (total : Nat) → Packer → List Row → Except CodecError Nat × Packer
  | total, p, [] => (.ok total, p)
  | total, p, row :: rows =>
    match p.writeRow row with
    | (.ok n, p) => writeRest saved (total + n) p rows
    | (.error err, p) => (.error err, p.restore saved.data.length saved.rows saved.counters)

/-- Appends a batch. -/
def writeRows (p : Packer) (rows : List Row) : Except CodecError Nat × Packer := writeRest p 0 p rows

/-- Appends the block of the schema, if the options say so, and counts it. -/
def writeSchema (p : Packer) : Packer :=
  if p.config.embedSchema then
    match (InPlace.writeBlock p.codec.schema).on p.data with
    | (.ok n, data) => { p with data, counters := p.counters.addSchema n }
    | (.error _, data) => { p with data }
  else p

/-- Drops all rows. -/
def wipe (p : Packer) : Packer := (p.restore 0 0 {}).writeSchema

/-- Appends the row of named values. -/
def writeNamed (p : Packer) (pairs : List (String × Value)) : Except CodecError Nat × Packer :=
  match p.codec.rowOfNamed pairs with
  | .error err => (.error err, p)
  | .ok row => p.writeRow row

/-- Does what is asked. -/
def perform (p : Packer) : Op → Except CodecError Nat × Packer
  | .addRow row => p.writeRow row
  | .addRows rows => p.writeRows rows
  | .addNamed pairs => p.writeNamed pairs
  | .clear => (.ok 0, p.wipe)

/-- Each of the rows in turn is appended, with these numbers of bytes, and the last one leaves `q`. -/
inductive Adds : Packer → List Row → List Nat → Packer → Prop
  | nil (p : Packer) : Adds p [] [] p
  | cons {p p' q : Packer} {row : Row} {rows : List Row} {n : Nat} {ns : List Nat} :
      p.writeRow row = (.ok n, p') → Adds p' rows ns q → Adds p (row :: rows) (n :: ns) q

/-! ## Single rows -/

theorem writeRow_eq_match (p : Packer) (row : Row) :
    p.writeRow row = match p.codec.record p.data.length row with
      | .ok r => (.ok r.bytes.length, p.extend [r])
      | .error err => (.error err, p) := by
  rw [writeRow, Codec.writeTo_eq, Codec.value_appendTo]
  cases hrecord : p.codec.record p.data.length row with
  | error err => rfl
  | ok r => simp [Codec.decode_of_record hrecord, extend, Counters.addEncoded_eq]

theorem writeRow_eq (p : Packer) (row : Row) : p.writeRow row = (p.step (.addRow row)).value := by
  have hop : Op.addRow row ≠ .clear := by simp
  rw [writeRow_eq_match, value_step p hop, Op.records]
  cases p.codec.record p.data.length row with
  | error err => rfl
  | ok r => simp

theorem writeRow_eq_ok {p q : Packer} {row : Row} {n : Nat} : p.writeRow row = (.ok n, q) ↔
    ∃ r, p.codec.record p.data.length row = .ok r ∧ n = r.bytes.length ∧ q = p.extend [r] := by
  rw [writeRow_eq_match]
  cases p.codec.record p.data.length row <;> simp [eq_comm]

theorem writeRow_eq_error {p q : Packer} {row : Row} {err : CodecError} : p.writeRow row = (.error err, q) ↔
    p.codec.record p.data.length row = .error err ∧ q = p := by
  rw [writeRow_eq_match]
  cases p.codec.record p.data.length row <;> simp [eq_comm]

theorem length_data_extend (p : Packer) (rs : List Record) :
    (p.extend rs).data.length = p.data.length + (rs.flatMap Record.bytes).length := List.length_append

/-- Rows are appended in turn if there are records for all of them, each behind the one before it. -/
theorem adds_iff {rows : List Row} : ∀ {p q : Packer} {ns : List Nat}, Adds p rows ns q ↔
    ∃ rs, p.codec.records p.data.length rows = .ok rs ∧ ns = rs.map (·.bytes.length) ∧ q = p.extend rs := by
  induction rows with
  | nil =>
    intro p q ns
    constructor
    · rintro ⟨⟩
      exact ⟨[], rfl, rfl, p.extend_nil.symm⟩
    · rintro ⟨rs, ⟨⟩, rfl, rfl⟩
      rw [extend_nil]
      exact .nil p
  | cons row rows ih =>
    intro p q ns
    have hlength : ∀ r : Record, (p.extend [r]).data.length = p.data.length + r.bytes.length := by
      intro r
      rw [length_data_extend, List.flatMap_singleton]
    simp only [Codec.records, bind_eq_ok, pure_eq_ok]
    constructor
    · intro h
      cases h with
      | cons hrow hrows =>
        obtain ⟨r, hr, rfl, rfl⟩ := writeRow_eq_ok.1 hrow
        obtain ⟨rs, hrs, rfl, rfl⟩ := ih.1 hrows
        rw [hlength] at hrs
        exact ⟨r :: rs, ⟨r, hr, rs, hrs, rfl⟩, rfl, (p.extend_append [r] rs).symm⟩
    · rintro ⟨_, ⟨r, hr, rs, hrs, rfl⟩, rfl, rfl⟩
      refine .cons (writeRow_eq_ok.2 ⟨r, hr, rfl, rfl⟩) (ih.2 ⟨rs, ?_, rfl, p.extend_append [r] rs⟩)
      rw [hlength]
      exact hrs

/-! ## Whole batches -/

theorem restore_extend (p : Packer) (rs : List Record) :
    (p.extend rs).restore p.data.length p.rows p.counters = p := by
  rw [restore, extend]
  simp

/-- What becomes of the rest of a batch, when records have been written for the rows before. -/
theorem writeRest_eq (p : Packer) (rows : List Row) : ∀ (total : Nat) (rs : List Record),
    writeRest p total (p.extend rs) rows =
      match p.codec.records (p.extend rs).data.length rows with
      | .ok rs' => (.ok (total + (rs'.flatMap Record.bytes).length), p.extend (rs ++ rs'))
      | .error err => (.error err, p) := by
  induction rows with
  | nil =>
    intro total rs
    simp [writeRest, Codec.records]
  | cons row rows ih =>
    intro total rs
    have hcodec : (p.extend rs).codec = p.codec := rfl
    rw [writeRest, writeRow_eq_match, hcodec, Codec.records]
    cases p.codec.record (p.extend rs).data.length row with
    | error err =>
      simp only [restore_extend]
      rfl
    | ok r =>
      have hlength : (p.extend (rs ++ [r])).data.length = (p.extend rs).data.length + r.bytes.length := by
        simp [length_data_extend, Nat.add_assoc]
      simp only [ok_bind, ← extend_append, ih, hlength]
      cases p.codec.records ((p.extend rs).data.length + r.bytes.length) rows with
      | error err => rfl
      | ok rs' => simp [pure, Except.pure, Nat.add_assoc]

theorem writeRows_eq_match (p : Packer) (rows : List Row) :
    p.writeRows rows = match p.codec.records p.data.length rows with
      | .ok rs => (.ok (rs.flatMap Record.bytes).length, p.extend rs)
      | .error err => (.error err, p) := by
  have h := writeRest_eq p rows 0 []
  simp only [extend_nil, Nat.zero_add, List.nil_append] at h
  exact h

theorem writeRows_eq (p : Packer) (rows : List Row) : p.writeRows rows = (p.step (.addRows rows)).value := by
  have hop : Op.addRows rows ≠ .clear := by simp
  rw [writeRows_eq_match, value_step p hop]
  rfl

theorem writeRows_eq_ok {p q : Packer} {rows : List Row} {n : Nat} : p.writeRows rows = (.ok n, q) ↔
    ∃ rs, p.codec.records p.data.length rows = .ok rs ∧ n = (rs.flatMap Record.bytes).length ∧ q = p.extend rs := by
  rw [writeRows_eq_match]
  cases p.codec.records p.data.length rows <;> simp [eq_comm]

/-- A batch does what its rows do one after the other. If one of them cannot be written, it fails as that one does
after the rows before it, and everything is as it was. A batch in two parts is one part after the other. -/
theorem writeRows_all_or_none (p : Packer) (rows : List Row) :
    p.writeRows rows = (p.step (.addRows rows)).value ∧
    (∀ row, p.writeRow row = (p.step (.addRow row)).value) ∧
    (∀ ns q, Adds p rows ns q → p.writeRows rows = (.ok ns.sum, q)) ∧
    (∀ before row after ns q err, rows = before ++ row :: after → Adds p before ns q →
      (q.writeRow row).1 = .error err → p.writeRows rows = (.error err, p)) ∧
    ((∃ ns q, Adds p rows ns q) ∨ ∃ before row after ns q err, rows = before ++ row :: after ∧ Adds p before ns q ∧
      (q.writeRow row).1 = .error err) ∧
    (∀ rows' k r, p.writeRows (rows ++ rows') = (.ok k, r) ↔
      ∃ n m q, p.writeRows rows = (.ok n, q) ∧ q.writeRows rows' = (.ok m, r) ∧ k = n + m) := by
  refine ⟨writeRows_eq p rows, writeRow_eq p, ?_, ?_, ?_, ?_⟩
  · intro ns q h
    obtain ⟨rs, hrs, rfl, rfl⟩ := adds_iff.1 h
    exact writeRows_eq_ok.2 ⟨rs, hrs, List.length_flatMap.symm, rfl⟩
  · rintro before row after ns q err rfl h herr
    obtain ⟨rs, hrs, -, rfl⟩ := adds_iff.1 h
    obtain ⟨hrecord, -⟩ := writeRow_eq_error.1 (Prod.ext herr rfl)
    rw [length_data_extend] at hrecord
    have hrecord : p.codec.record (p.data.length + (rs.flatMap Record.bytes).length) row = .error err := hrecord
    rw [writeRows_eq_match, Codec.records_append, hrs, ok_bind, Codec.records, hrecord]
    rfl
  · cases hrecords : p.codec.records p.data.length rows with
    | ok rs => exact .inl ⟨_, _, adds_iff.2 ⟨rs, hrecords, rfl, rfl⟩⟩
    | error err =>
      obtain ⟨before, row, after, rs, rfl, hbefore, hrow⟩ := Codec.exists_of_records_eq_error hrecords
      refine .inr ⟨before, row, after, _, _, err, rfl, adds_iff.2 ⟨rs, hbefore, rfl, rfl⟩, ?_⟩
      rw [← length_data_extend] at hrow
      rw [writeRow_eq_error.2 ⟨hrow, rfl⟩]
  · intro rows' k r
    simp only [writeRows_eq_ok, Codec.records_append, bind_eq_ok, pure_eq_ok]
    constructor
    · rintro ⟨_, ⟨rs, hrs, rs', hrs', rfl⟩, rfl, rfl⟩
      refine ⟨_, _, _, ⟨rs, hrs, rfl, rfl⟩, ⟨rs', ?_, rfl, p.extend_append rs rs'⟩, ?_⟩
      · rw [length_data_extend]
        exact hrs'
      · rw [List.flatMap_append, List.length_append]
    · rintro ⟨_, _, _, ⟨rs, hrs, rfl, rfl⟩, ⟨rs', hrs', rfl, rfl⟩, rfl⟩
      rw [length_data_extend] at hrs'
      refine ⟨_, ⟨rs, hrs, rs', hrs', rfl⟩, ?_, (p.extend_append rs rs').symm⟩
      rw [List.flatMap_append, List.length_append]

/-- Behind a schema block, a batch whose second row has a number too large for its field is taken back. -/
theorem writeRows_all_or_none_sample :
    let p := (new Codec.sample { embedSchema := true }).value
    p.writeRows [Codec.sampleRow (.uint 258), Codec.sampleRow (.uint 65536)] =
      (.error (.field "n" (.outOfRange .int16 (.uint 65536))), p) := by
  intro p
  obtain ⟨-, -, -, hback, -, -⟩ :=
    writeRows_all_or_none p [Codec.sampleRow (.uint 258), Codec.sampleRow (.uint 65536)]
  have hrecord : p.codec.record p.data.length (Codec.sampleRow (.uint 258)) =
      .ok ⟨[0, 0, 0, 25], [2, 1, 1, 0, 0, 0, 0, 1, 0, 0, 128, 191, 0, 0, 0, 9, 0, 0, 0, 0, 0, 0, 0, 1, 65]⟩ := by
    decide +kernel
  have hfirst : Adds p [Codec.sampleRow (.uint 258)] [29] _ :=
    .cons (writeRow_eq_ok.2 ⟨_, hrecord, rfl, rfl⟩) (.nil _)
  exact hback [Codec.sampleRow (.uint 258)] (Codec.sampleRow (.uint 65536)) [] [29] _ _ rfl hfirst (by decide +kernel)

/-! ## All that is asked of a packer -/

theorem writeSchema_eq (p : Packer) : p.writeSchema = p.start.value := by
  rw [writeSchema, start, InPlace.on_writeBlock]
  split
  · cases SchemaBlock.encode p.codec.schema <;> rfl
  · rfl

theorem wipe_eq (p : Packer) : p.wipe = p.clear.value := by
  rw [wipe, writeSchema_eq]
  rfl

theorem writeNamed_eq (p : Packer) (pairs : List (String × Value)) :
    p.writeNamed pairs = (p.step (.addNamed pairs)).value := by
  have hop : Op.addNamed pairs ≠ .clear := by simp
  rw [writeNamed, value_step p hop, Op.records]
  cases p.codec.rowOfNamed pairs with
  | error err => rfl
  | ok row =>
    simp only [ok_bind, writeRow_eq_match]
    cases p.codec.record p.data.length row with
    | error err => rfl
    | ok r => simp

/-- In place, a packer answers and becomes what it does otherwise. -/
theorem perform_eq (p : Packer) (op : Op) : p.perform op = (p.step op).value := by
  cases op with
  | addRow row => exact writeRow_eq p row
  | addRows rows => exact writeRows_eq p rows
  | addNamed pairs => exact writeNamed_eq p pairs
  | clear =>
    rw [perform, wipe_eq]
    rfl

end Packer

namespace Session

/-- The packer of a session is made in place, from an empty one. -/
theorem packer_start (c : Codec) (config : PackConfig) :
    (start c config).packer = Packer.writeSchema { codec := c, config, data := [], rows := 0, counters := {} } := by
  rw [Packer.writeSchema_eq]
  rfl

/-- Whatever is asked of it, one thing after the other, is done in place. -/
theorem packer_run (s : Session) (ops : List Packer.Op) :
    (s.run ops).packer = ops.foldl (fun p op => (p.perform op).2) s.packer := by
  induction ops generalizing s with
  | nil => rfl
  | cons op ops ih =>
    have hstep : (s.step op).packer = (s.packer.perform op).2 := by
      rw [Packer.perform_eq]
      rfl
    rw [List.foldl_cons, ← hstep]
    exact ih (s.step op)

end Session

end RecordPack

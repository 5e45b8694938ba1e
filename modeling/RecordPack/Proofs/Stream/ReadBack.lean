import RecordPack.Proofs.Record.RoundTrip
import RecordPack.Proofs.Stream.Packing
import RecordPack.Proofs.Stream.Reading
import RecordPack.Proofs.Stream.SchemaBlock

/-!
# Reading what a packer wrote

Where records stand in a buffer, they are read one after the other (`Codec.exists_reads_of_records`). So a reader
in front of records yields their rows, counts what their writer counted, and stops at the end of the buffer
(`Records.Faces.value_drain`). With that, whatever a packer was asked to do, the rows that it accepted are read
from its output (`Session.drain_run`).
-/

namespace RecordPack

/-! ## Whole buffers -/

/-- Records are read from where they stand, whatever is before and behind them. -/
theorem Codec.exists_reads_of_records {c : Codec} (hwf : c.schema.WellFormed) {rows : List Row} {rs : List Record}
    (h : List.Forall₂ (fun row x => c.record 0 row = .ok x) rows rs) (post : Bytes) : ∀ pre : Bytes, ∃ ds,
    c.Reads (pre ++ rs.flatMap Record.bytes ++ post) pre.length ds (pre ++ rs.flatMap Record.bytes).length ∧
      ds.map (·.row) = rows.map c.schema.settle ∧ ds.map (·.headWidth) = rs.map (·.head.length) := by
  induction h with
  | nil => exact fun pre => ⟨[], by simpa using .nil, rfl, rfl⟩
  | @cons row x rows rs hx _ ih =>
    intro pre
    -- the records behind the first one stand behind more bytes
    obtain ⟨ds, hds, hrows, hwidths⟩ := ih (pre ++ x.bytes)
    have hbytes : pre ++ (x :: rs).flatMap Record.bytes = pre ++ x.bytes ++ rs.flatMap Record.bytes := by
      rw [List.flatMap_cons, List.append_assoc]
    have hread := Codec.readAt_of_record hwf hx pre (rs.flatMap Record.bytes ++ post)
    rw [← List.append_assoc] at hread
    rw [List.length_append] at hds
    rw [hbytes]
    refine ⟨_, .cons hread hds, ?_, ?_⟩
    · rw [List.map_cons, List.map_cons, hrows]
    · rw [List.map_cons, List.map_cons, hwidths]

/-- What a reader counts of records. -/
def Counters.ofRead (rs : List Record) : Counters where
  rowsDecoded := rs.length
  bytesRecords := (rs.map (·.bytes.length)).sum
  bytesPrefix := (rs.map (·.head.length)).sum

namespace Records

/-- The reader stands behind some bytes and in front of records, which are all that is left. -/
structure Faces (c : Codec) (r : Records) (pre : Bytes) (rs : List Record) : Prop where
  codec_eq : r.codec = c
  data_eq : r.data = pre ++ rs.flatMap Record.bytes
  cursor_eq : r.cursor = pre.length
  done_eq : r.done = false

variable {c : Codec} {r : Records} {pre : Bytes}

theorem faces_decodeFrom (c : Codec) (pre : Bytes) (rs : List Record) :
    Faces c (c.decodeFrom (pre ++ rs.flatMap Record.bytes) pre.length) pre rs := ⟨rfl, rfl, rfl, rfl⟩

/-- A reader yields the rows of the records in front of it. It stops at the end of the buffer, and has counted
these records. -/
theorem Faces.value_drain (hwf : c.schema.WellFormed) {rows : List Row} {rs : List Record}
    (h : List.Forall₂ (fun row x => c.record 0 row = .ok x) rows rs) (hr : Faces c r pre rs) :
    r.drain.value.1.map (·.1) = rows.map (fun row => .ok (c.schema.settle row)) ∧
      r.drain.value.2 = { r with cursor := r.data.length, done := true, counters := r.counters + .ofRead rs } := by
  obtain ⟨codec, data, cursor, done, counters⟩ := r
  obtain ⟨rfl, rfl, rfl, rfl⟩ := hr
  obtain ⟨ds, hds, hrows, hwidths⟩ := Codec.exists_reads_of_records hwf h [] pre
  rw [List.append_nil] at hds
  obtain ⟨hyields, hstop⟩ := value_drain_of_reads hds (Codec.ends_none_iff.2 (Nat.le_refl _)) counters
  have hcounters : Counters.ofDecoded ds ((pre ++ rs.flatMap Record.bytes).length - pre.length) = .ofRead rs := by
    have hcount : ds.length = rs.length := by simpa using congrArg List.length hwidths
    simp [Counters.ofDecoded, Counters.ofRead, hcount, hwidths, List.length_flatMap]
  refine ⟨?_, by rw [hstop, hcounters]⟩
  rw [hyields, Codec.yields_none, hrows, List.map_map]
  rfl

theorem Faces.value_rows (hwf : c.schema.WellFormed) {rows : List Row} {rs : List Record}
    (h : List.Forall₂ (fun row x => c.record 0 row = .ok x) rows rs) (hr : Faces c r pre rs) :
    r.rows.run.value = .ok (rows.map c.schema.settle) := by
  have hyields := (Faces.value_drain hwf h hr).1
  rw [Records.value_rows, mapM_eq_ok]
  have hall : List.Forall₂ (fun x row => x = .ok row) (r.drain.value.1.map (·.1)) (rows.map c.schema.settle) := by
    rw [hyields, List.forall₂_map_left_iff, List.forall₂_map_right_iff, List.forall₂_same]
    exact fun _ _ => rfl
  exact List.forall₂_map_left_iff.1 hall

end Records

/-! ## Packers and their readers -/

theorem Packer.blockOf_eq {s : Schema} {config : PackConfig} {block : Bytes} (hembed : config.embedSchema = true)
    (h : SchemaBlock.encode s = .ok block) : blockOf s config = block := by
  simp [blockOf, hembed, h, Except.toOption]

variable {text : String} {c : Codec}

theorem value_dumps (hc : (Codec.ofText {} text).run.value = .ok c) (rows : List Row) :
    (dumps text rows).run.value = (c.records 0 rows).map (·.flatMap Record.bytes) := by
  have hblock : Packer.blockOf c.schema {} = [] := rfl
  simp only [dumps, Attempt.value_bind, Attempt.value_always, hc, ok_bind, Packer.value_new, Packer.value_addRows, hblock,
    List.length_nil]
  cases c.records 0 rows <;> rfl

theorem value_loads (hc : (Codec.ofText {} text).run.value = .ok c) (data : Bytes) :
    (loads text data).run.value = (c.decodeAll data).rows.run.value := by
  rw [loads, Attempt.value_bind, hc, ok_bind]

namespace Session

variable {config : PackConfig} {s : Session} {rs : List Record}

theorem Holds.faces (h : Holds c config s rs) : Records.Faces c
    (c.decodeFrom s.packer.data (Packer.blockOf c.schema config).length) (Packer.blockOf c.schema config) rs := by
  rw [h.data_eq]
  exact Records.faces_decodeFrom c _ rs

/-- Whatever a packer was asked to do, the rows that it accepted since it was made or cleared are read from its
output, each as its record holds it. The reader stops at the end without an error, and has counted what the packer
counted. If the output starts with the schema, it is read without knowing it. Rows that are packed in one step are
unpacked in one step. -/
theorem drain_run (hc : (Codec.ofText {} text).run.value = .ok c) (config : PackConfig) (ops : List Packer.Op) :
    let s := (start c config).run ops
    let p := s.packer
    let all := (c.decodeFrom p.data (Packer.blockOf c.schema config).length).drain.value
    all.1.map (·.1) = s.rows.map (fun row => .ok (c.schema.settle row)) ∧
    all.2 =
      { codec := c
        data := p.data
        cursor := p.data.length
        done := true
        counters :=
          { rowsDecoded := p.counters.rowsEncoded
            bytesRecords := p.counters.bytesRecords
            bytesPrefix := p.counters.bytesPrefix } } ∧
    (config.embedSchema = true → (Utf8.encode text.toList).length ≤ LengthPrefix.maxLength →
      (SchemaBlock.read p.data).run.value = .ok (c, p.counters.bytesSchema) ∧
      (loadsSelfDescribed p.data).run.value = .ok (c, s.rows.map c.schema.settle)) ∧
    ∀ rows data, (dumps text rows).run.value = .ok data →
      (loads text data).run.value = .ok (rows.map c.schema.settle) := by
  intro s p all
  have hwf := Codec.wellFormed_of_ofText hc
  obtain ⟨rs, h⟩ := holds_run (holds_start c config) ops
  obtain ⟨hrows, hend⟩ := Records.Faces.value_drain hwf h.records h.faces
  have hcounters : ({} : Counters) + Counters.ofRead rs =
      { rowsDecoded := p.counters.rowsEncoded
        bytesRecords := p.counters.bytesRecords
        bytesPrefix := p.counters.bytesPrefix } := by
    rw [h.counters_eq]
    ext <;> simp [Counters.ofRecords, Counters.ofRead]
  refine ⟨hrows, ?_, ?_, ?_⟩
  · rw [← hcounters]
    exact hend
  · intro hembed hsize
    rw [← Codec.text_of_ofText hc] at hsize
    obtain ⟨block, hblock⟩ := SchemaBlock.exists_encode hsize
    have hblockOf := Packer.blockOf_eq hembed hblock
    have hlength : p.counters.bytesSchema = block.length := by
      rw [h.counters_eq, hblockOf]
      rfl
    have hread : (SchemaBlock.read p.data).run.value = .ok (c, block.length) := by
      rw [h.data_eq, hblockOf, SchemaBlock.value_read hblock, Codec.text_of_ofText hc, hc, map_ok]
    have hfaces := h.faces
    rw [hblockOf] at hfaces
    have hloads : (c.decodeFrom p.data block.length).rows.run.value = .ok (s.rows.map c.schema.settle) :=
      Records.Faces.value_rows hwf h.records hfaces
    refine ⟨by rw [hread, hlength], ?_⟩
    simp only [loadsSelfDescribed, Attempt.value_bind, Attempt.value_pure, hread, hloads, ok_bind]
  · intro rows data hdumps
    rw [value_dumps hc, map_eq_ok] at hdumps
    obtain ⟨rs', hrs, rfl⟩ := hdumps
    rw [value_loads hc]
    exact Records.Faces.value_rows hwf (Codec.forall₂_record_of_records hrs) (Records.faces_decodeFrom c [] rs')

/-- A packer that was given a row, was cleared, refused a batch, and was given a row by name. -/
def sample : Session := (start Codec.sample { embedSchema := true }).run [
  .addRow [.int 1, .bool false, .pad, .list [], .list [.bytes [], .bytes []]],
  .clear,
  .addRows [[.int 2, .bool true, .pad, .list [], .list [.bytes [65], .bytes []]], [.int 3]],
  .addNamed [("tags", .list [.bytes [66], .bytes []]), ("ok", .bool true), ("xs", .list [.int 1]), ("n", .uint 4)]]

theorem rows_sample : sample.rows = [[.uint 4, .bool true, .pad, .list [.int 1], .list [.bytes [66], .bytes []]]] := by
  decide +kernel

theorem drain_run_sample : (loadsSelfDescribed sample.packer.data).run.value = .ok (Codec.sample,
    [[.int 4, .bool true, .pad, .list [.f32 ⟨0x3F800000⟩], .list [.bytes [66], .bytes []]]]) := by
  have hsettle : sample.rows.map Codec.sample.schema.settle =
      [[.int 4, .bool true, .pad, .list [.f32 ⟨0x3F800000⟩], .list [.bytes [66], .bytes []]]] := by
    rw [rows_sample]
    decide +kernel
  rw [← hsettle, sample]
  obtain ⟨-, -, hself, -⟩ := drain_run Codec.ofText_sample { embedSchema := true } _
  exact (hself rfl (by decide +kernel)).2

end Session

end RecordPack

import RecordPack.Proofs.Stats.Counters
import RecordPack.Proofs.Stream.Batches
import RecordPack.Proofs.Stream.ReadBack

/-!
# Rows shared among workers

Rows may be packed in consecutive chunks, each by a packer of its own. What a packer counts is the sum of what it counts
of each row (`Session.IsWorker.counters_eq`), and so is what a reader of its output counts. So the counters of the
workers are merged to those of one packer and of one reader of all rows (`Session.merged_workers`). Counters that come
from packers, readers and merging are `Framed`: a record has a length of at least four bytes, no longer than itself.
-/

namespace RecordPack

/-! ## Rows and their records -/

namespace Codec

variable {c : Codec} {rows : List Row} {rs : List Record}

/-- What has records has them behind fewer bytes, too. -/
theorem records_mono {rows : List Row} : ∀ {earlier start : Nat} {rs : List Record}, earlier ≤ start →
    c.records start rows = .ok rs → c.records earlier rows = .ok rs := by
  induction rows with
  | nil => exact fun _ h => h
  | cons row rows ih =>
    intro earlier start rs hle h
    simp only [records, bind_eq_ok, pure_eq_ok] at h ⊢
    obtain ⟨r, hr, rs, hrs, rfl⟩ := h
    exact ⟨r, record_mono hle hr, rs, ih (Nat.add_le_add_right hle _) hrs, rfl⟩

/-- Rows that each have a record have their records one after the other, as far as a buffer can hold them. -/
theorem records_of_le {rows : List Row} {rs : List Record}
    (h : List.Forall₂ (fun row r => c.record 0 row = .ok r) rows rs) : ∀ {start : Nat},
    start + (rs.flatMap Record.bytes).length ≤ LengthPrefix.maxLength → c.records start rows = .ok rs := by
  induction h with
  | nil => exact fun _ => rfl
  | @cons row r rows rs hr _ ih =>
    intro start hle
    have hbytes : r.bytes.length = r.head.length + r.body.length := List.length_append
    obtain ⟨hlen, -, hbody, hhead⟩ := record_eq_ok.1 hr
    have hwidth := (LengthPrefix.measures_of_encode hhead).length_eq
    rw [List.flatMap_cons, List.length_append] at hle
    have hroom : Writer.HasRoom c.endian (start + 4) c.segments row :=
      Writer.hasRoom_of_le c.covers hlen hbody (by omega)
    rw [records, record_eq_ok.2 ⟨hlen, hroom, hbody, hhead⟩, ok_bind, ih (by omega)]
    rfl

/-- A chunk of rows that have records has records in an output of its own. -/
theorem exists_records_of_mem {start : Nat} {chunks : List (List Row)} {chunk : List Row}
    (h : c.records start chunks.flatten = .ok rs) (hchunk : chunk ∈ chunks) :
    ∃ rs', c.records 0 chunk = .ok rs' := by
  obtain ⟨before, after, rfl⟩ := List.append_of_mem hchunk
  simp only [List.flatten_append, List.flatten_cons, records_append, bind_eq_ok, pure_eq_ok] at h
  obtain ⟨rs₁, -, -, ⟨rs', hrs', -⟩, -⟩ := h
  exact ⟨rs', records_mono (Nat.zero_le _) hrs'⟩

theorem exists_records_of_encode {pieces : List Bytes}
    (h : List.Forall₂ (fun row b => c.encode row = .ok b) rows pieces) : ∃ rs,
      List.Forall₂ (fun row r => c.record 0 row = .ok r) rows rs ∧ pieces.flatten = rs.flatMap Record.bytes := by
  induction h with
  | nil => exact ⟨[], .nil, rfl⟩
  | cons hb _ ih =>
    obtain ⟨r, hr, rfl⟩ := map_eq_ok.1 hb
    obtain ⟨rs, hrs, hpieces⟩ := ih
    exact ⟨r :: rs, .cons hr hrs, by rw [List.flatten_cons, List.flatMap_cons, hpieces]⟩

theorem eq_of_forall₂_record {rs' : List Record} (h : List.Forall₂ (fun row r => c.record 0 row = .ok r) rows rs)
    (h' : List.Forall₂ (fun row r => c.record 0 row = .ok r) rows rs') : rs = rs' :=
  Except.ok.inj ((mapM_eq_ok.2 h).symm.trans (mapM_eq_ok.2 h'))

/-- What `count` says of the record of a row. -/
def counted (c : Codec) (count : Record → Counters) (row : Row) : Counters :=
  ((c.record 0 row).toOption.map count).getD 0

theorem sum_counted (count : Record → Counters) (h : List.Forall₂ (fun row r => c.record 0 row = .ok r) rows rs) :
    (rows.map (c.counted count)).sum = (rs.map count).sum := by
  induction h with
  | nil => rfl
  | cons hr _ ih =>
    rw [List.map_cons, List.map_cons, List.sum_cons, List.sum_cons, ih, counted, hr]
    rfl

end Codec

namespace Counters

theorem ofRecords_eq_sum (rs : List Record) : ofRecords rs = (rs.map fun r => ofRecords [r]).sum := by
  induction rs with
  | nil => rfl
  | cons r rs ih =>
    rw [List.map_cons, List.sum_cons, ← ih]
    ext <;> simp [ofRecords, Nat.add_comm]

theorem ofRead_eq_sum (rs : List Record) : ofRead rs = (rs.map fun r => ofRead [r]).sum := by
  induction rs with
  | nil => rfl
  | cons r rs ih =>
    rw [List.map_cons, List.sum_cons, ← ih]
    ext <;> simp [ofRead, Nat.add_comm]

end Counters

/-! ## Packers -/

namespace Session

variable {c : Codec} {config : PackConfig} {s : Session} {rs : List Record}

/-- The rows of a packer have their records where they stand, each behind the one before. -/
theorem records_step (h : Holds c config s rs)
    (hrs : c.records (Packer.blockOf c.schema config).length s.rows = .ok rs) (op : Packer.Op) :
    ∃ rs', Holds c config (s.step op) rs' ∧
      c.records (Packer.blockOf c.schema config).length (s.step op).rows = .ok rs' := by
  obtain ⟨rs', h'⟩ := holds_step h op
  suffices hexists : ∃ rs'', c.records (Packer.blockOf c.schema config).length (s.step op).rows = .ok rs'' by
    obtain ⟨rs'', hrs''⟩ := hexists
    obtain rfl := Codec.eq_of_forall₂_record h'.records (Codec.forall₂_record_of_records hrs'')
    exact ⟨rs', h', hrs''⟩
  by_cases hop : op = .clear
  · subst hop
    rw [step_clear h]
    exact ⟨[], rfl⟩
  · simp only [step, Packer.value_step _ hop]
    cases hnew : op.records s.packer.codec s.packer.data.length with
    | error e => exact ⟨rs, hrs⟩
    | ok new =>
      obtain ⟨rows, hkeep, hrecords⟩ := keep_records (n := (new.flatMap Record.bytes).length) hop hnew
      rw [h.codec_eq, h.data_eq, List.length_append] at hrecords
      refine ⟨rs ++ new, ?_⟩
      show c.records _ (s.keep op _) = _
      rw [hkeep, Codec.records_append, hrs, ok_bind, hrecords]
      rfl

theorem records_run (c : Codec) (config : PackConfig) (ops : List Packer.Op) :
    ∃ rs, Holds c config ((start c config).run ops) rs ∧
      c.records (Packer.blockOf c.schema config).length ((start c config).run ops).rows = .ok rs := by
  suffices hrun : ∀ {s : Session} {rs : List Record}, Holds c config s rs →
      c.records (Packer.blockOf c.schema config).length s.rows = .ok rs →
      ∃ rs', Holds c config (s.run ops) rs' ∧
        c.records (Packer.blockOf c.schema config).length (s.run ops).rows = .ok rs' from
    hrun (holds_start c config) rfl
  induction ops with
  | nil => exact fun h hrs => ⟨_, h, hrs⟩
  | cons op ops ih =>
    intro s rs h hrs
    obtain ⟨rs', h', hrs'⟩ := records_step h hrs op
    exact ih h' hrs'

/-! ## What a worker counts -/

theorem blockOf_of_not_embedSchema (hembed : config.embedSchema = false) (s : Schema) :
    Packer.blockOf s config = [] := by
  rw [Packer.blockOf, hembed]
  rfl

/-- What a reader of the output of a packer has counted at the end. -/
def readerCounters (s : Session) : Counters := (s.packer.codec.decodeAll s.packer.data).drain.value.2.counters

/-- The packer was made for the codec, without a schema block. -/
def IsWorker (c : Codec) (s : Session) : Prop :=
  ∃ config ops, config.embedSchema = false ∧ s = (start c config).run ops

theorem IsWorker.exists_holds (h : IsWorker c s) :
    ∃ config rs, Packer.blockOf c.schema config = [] ∧ Holds c config s rs ∧ c.records 0 s.rows = .ok rs := by
  obtain ⟨config, ops, hembed, rfl⟩ := h
  have hblock := blockOf_of_not_embedSchema hembed c.schema
  obtain ⟨rs, hholds, hrs⟩ := records_run c config ops
  rw [hblock] at hrs
  exact ⟨config, rs, hblock, hholds, hrs⟩

/-- A packer counts its rows, each on its own. -/
theorem IsWorker.counters_eq (h : IsWorker c s) :
    s.packer.counters = (s.rows.map (c.counted fun r => .ofRecords [r])).sum := by
  obtain ⟨config, rs, hblock, hholds, -⟩ := h.exists_holds
  rw [Codec.sum_counted _ hholds.records, ← Counters.ofRecords_eq_sum, hholds.counters_eq, hblock]
  exact zero_add _

/-- A reader of the output counts the rows in the same way. -/
theorem IsWorker.readerCounters_eq (hwf : c.schema.WellFormed) (h : IsWorker c s) :
    s.readerCounters = (s.rows.map (c.counted fun r => .ofRead [r])).sum := by
  obtain ⟨config, rs, hblock, hholds, -⟩ := h.exists_holds
  have hfaces := hholds.faces
  rw [hblock] at hfaces
  have hdrain := (Records.Faces.value_drain hwf hholds.records hfaces).2
  rw [Codec.sum_counted _ hholds.records, ← Counters.ofRead_eq_sum, readerCounters, hholds.codec_eq]
  exact (congrArg Records.counters hdrain).trans (zero_add _)

/-- Rows that have their records at the start of an output are those of a worker. -/
theorem exists_worker {rows : List Row} (h : c.records 0 rows = .ok rs) : ∃ s, IsWorker c s ∧ s.rows = rows := by
  refine ⟨(start c {}).run [.addRows rows], ⟨{}, _, rfl, rfl⟩, ?_⟩
  show ((start c {}).step (.addRows rows)).rows = rows
  have hstart : (start c {}).packer = (Packer.new c {}).value := rfl
  have hblock : Packer.blockOf c.schema {} = [] := rfl
  have hop : Packer.Op.addRows rows ≠ .clear := by simp
  simp only [step, hstart, Packer.value_step _ hop, Packer.value_new, hblock, Packer.Op.records, List.length_nil, h]
  rfl

/-- What is counted row by row is counted in chunks. -/
theorem sum_workers {workers : List Session} {count : Row → Counters} {counters : Session → Counters}
    (hcounters : ∀ w ∈ workers, counters w = (w.rows.map count).sum) :
    (workers.map counters).sum = ((workers.map Session.rows).flatten.map count).sum := by
  rw [List.map_flatten, List.sum_flatten, List.map_map, List.map_map, List.map_congr_left hcounters]
  rfl

end Session

/-! ## Lengths against records -/

namespace Counters

/-- Each record has a length of four bytes at least, which is no longer than it. -/
structure Framed (a : Counters) : Prop where
  rows_le : 4 * (a.rowsEncoded + a.rowsDecoded) ≤ a.bytesPrefix
  prefix_le : a.bytesPrefix ≤ a.bytesRecords
  eq_zero_iff : a.bytesRecords = 0 ↔ a.rowsEncoded + a.rowsDecoded = 0

theorem Framed.add {a b : Counters} (ha : a.Framed) (hb : b.Framed) : (a + b).Framed := by
  obtain ⟨harows, haprefix, hazero⟩ := ha
  obtain ⟨hbrows, hbprefix, hbzero⟩ := hb
  constructor <;> simp only [rowsEncoded_add, rowsDecoded_add, bytesPrefix_add, bytesRecords_add] <;> omega

/-- Bytes of a schema play no part. -/
theorem Framed.schema (n : Nat) : Framed { bytesSchema := n } := by
  constructor <;> simp

theorem framed_ofRecords_singleton {c : Codec} {row : Row} {r : Record} (h : c.record 0 row = .ok r) :
    (ofRecords [r]).Framed := by
  obtain ⟨-, -, -, hhead⟩ := Codec.record_eq_ok.1 h
  have hlen := (LengthPrefix.measures_of_encode hhead).length_eq
  have hbytes : r.bytes.length = r.head.length + r.body.length := List.length_append
  constructor <;> simp only [ofRecords, List.length_singleton, List.map_singleton, List.sum_singleton] <;> omega

theorem framed_ofRecords {c : Codec} {rows : List Row} {rs : List Record}
    (h : List.Forall₂ (fun row r => c.record 0 row = .ok r) rows rs) : (ofRecords rs).Framed := by
  induction h with
  | nil => exact .schema 0
  | @cons row r rows rs hr _ ih =>
    have hsum : ofRecords (r :: rs) = ofRecords [r] + ofRecords rs := by
      rw [ofRecords_eq_sum, List.map_cons, List.sum_cons, ← ofRecords_eq_sum]
    rw [hsum]
    exact (framed_ofRecords_singleton hr).add ih

/-- What is read is framed alike. -/
theorem framed_ofDecoded {c : Codec} {data : Bytes} {cursor stop : Nat} {ds : List Decoded}
    (h : c.Reads data cursor ds stop) : (ofDecoded ds (stop - cursor)).Framed := by
  induction h with
  | nil =>
    rw [Nat.sub_self]
    exact .schema 0
  | @cons cursor stop d ds hd hds ih =>
    obtain ⟨⟨size, hdecode, hnext⟩, -, -⟩ := Codec.next_of_readAt hd
    have hwidth := LengthPrefix.width_of_read hdecode
    have hle := hds.le_stop
    obtain ⟨hrows, hprefix, hzero⟩ := ih
    simp only [ofDecoded] at hrows hprefix hzero
    constructor <;> simp only [ofDecoded, List.length_cons, List.map_cons, List.sum_cons] <;> omega

/-- Counters of a packer or of a reader at any time, or merged from such. -/
inductive Reachable : Counters → Prop
  | packer (c : Codec) (config : PackConfig) (ops : List Packer.Op) :
      Reachable ((Session.start c config).run ops).packer.counters
  | reader (c : Codec) (data : Bytes) (cursor n : Nat) : Reachable ((c.decodeFrom data cursor).after n).counters
  | merge {a b : Counters} : Reachable a → Reachable b → Reachable (a + b)

theorem Reachable.framed {a : Counters} (h : Reachable a) : a.Framed := by
  induction h with
  | packer c config ops =>
    obtain ⟨rs, hrs⟩ := Session.holds_run (Session.holds_start c config) ops
    rw [hrs.counters_eq]
    exact (Framed.schema _).add (framed_ofRecords hrs.records)
  | reader c data cursor n =>
    obtain ⟨ds, stop, fault, hds, hend⟩ := c.exists_reads data cursor
    obtain ⟨hbefore, -, hcounters, -⟩ := Records.after_of_reads hds hend n {}
    have hframed := (Framed.schema 0).add (framed_ofDecoded hbefore)
    rw [← hcounters] at hframed
    exact hframed
  | merge _ _ iha ihb => exact iha.add ihb

end Counters

namespace Session

variable {options : ParseOptions} {text : String} {c : Codec} {s : Session}

/-- A packer takes any rows that can be written, as far as a buffer can hold their records. They can be packed in
chunks, too, each by a packer of its own. However the counters of these packers are merged, and those of readers of
their outputs, they come to what the one packer has counted, and a reader of its output. In all counters that come from
packers, readers and merging there are four bytes of lengths for each row at least and no more than bytes of records, of
which there are none only without rows; so every snapshot is sane. -/
theorem merged_workers (hc : (Codec.ofText options text).run.value = .ok c) :
    (∀ rows pieces, List.Forall₂ (fun row b => c.encode row = .ok b) rows pieces →
      pieces.flatten.length ≤ LengthPrefix.maxLength → ∃ s, IsWorker c s ∧ s.rows = rows) ∧
    (∀ s, IsWorker c s → ∀ chunks : List (List Row), chunks.flatten = s.rows →
      (∀ chunk ∈ chunks, ∃ w, IsWorker c w ∧ w.rows = chunk) ∧
      ∀ workers : List Session, (∀ w ∈ workers, IsWorker c w) → workers.map Session.rows = chunks → ∀ total,
        (Counters.Merged (workers.map (·.packer.counters) : List Counters) total ↔ total = s.packer.counters) ∧
        (Counters.Merged (workers.map (·.readerCounters) : List Counters) total ↔ total = s.readerCounters)) ∧
    ∀ a, Counters.Reachable a → 4 * (a.rowsEncoded + a.rowsDecoded) ≤ a.bytesPrefix ∧
      a.bytesPrefix ≤ a.bytesRecords ∧ (a.bytesRecords = 0 ↔ a.rowsEncoded + a.rowsDecoded = 0) ∧
      (Snapshot.ofCounters a).isSane = true := by
  have hwf := Codec.wellFormed_of_ofText hc
  refine ⟨?_, ?_, ?_⟩
  · intro rows pieces hpieces hle
    obtain ⟨rs, hrs, hbytes⟩ := Codec.exists_records_of_encode hpieces
    rw [hbytes, ← Nat.zero_add (List.length _)] at hle
    exact exists_worker (Codec.records_of_le hrs hle)
  · intro s hs chunks hchunks
    refine ⟨?_, ?_⟩
    · intro chunk hchunk
      obtain ⟨-, rs, -, -, hrs⟩ := hs.exists_holds
      rw [← hchunks] at hrs
      obtain ⟨rs', hrs'⟩ := Codec.exists_records_of_mem hrs hchunk
      exact exists_worker hrs'
    · intro workers hworkers hrows total
      rw [Counters.merged_iff, Counters.merged_iff, Multiset.sum_coe, Multiset.sum_coe,
        sum_workers fun w hw => (hworkers w hw).counters_eq,
        sum_workers fun w hw => (hworkers w hw).readerCounters_eq hwf, hrows, hchunks, hs.counters_eq,
        hs.readerCounters_eq hwf]
      exact ⟨Iff.rfl, Iff.rfl⟩
  · intro a ha
    have hframed := ha.framed
    exact ⟨hframed.rows_le, hframed.prefix_le, hframed.eq_zero_iff,
      (Snapshot.isSane_ofCounters_iff a).2 hframed.prefix_le⟩

/-- Two rows, each packed by a packer of its own. -/
theorem merged_workers_sample :
    let s := (start Codec.sample {}).run [.addRows [Codec.sampleRow (.int 1), Codec.sampleRow (.int 2)]]
    let w := (start Codec.sample {}).run [.addRow (Codec.sampleRow (.int 1))]
    let w' := (start Codec.sample {}).run [.addRow (Codec.sampleRow (.int 2))]
    Counters.Merged ([w.packer.counters, w'.packer.counters] : List Counters) s.packer.counters ∧
      Counters.Merged ([w.readerCounters, w'.readerCounters] : List Counters) s.readerCounters := by
  intro s w w'
  obtain ⟨-, hworkers, -⟩ := merged_workers Codec.ofText_sample
  have hw : ∀ v ∈ [w, w'], IsWorker Codec.sample v := by
    simp only [List.forall_mem_cons, List.not_mem_nil, false_imp_iff, implies_true, and_true]
    exact ⟨⟨{}, _, rfl, rfl⟩, ⟨{}, _, rfl, rfl⟩⟩
  obtain ⟨-, hmerged⟩ := hworkers s ⟨{}, _, rfl, rfl⟩
    [[Codec.sampleRow (.int 1)], [Codec.sampleRow (.int 2)]] (by decide +kernel)
  exact ⟨(hmerged [w, w'] hw (by decide +kernel) _).1.2 rfl, (hmerged [w, w'] hw (by decide +kernel) _).2.2 rfl⟩

end Session

end RecordPack

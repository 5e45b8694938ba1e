import RecordPack.Proofs.Codec
import RecordPack.Proofs.Stats.Counters
import RecordPack.Stream.Records

/-!
# Reading record after record

Any buffer, from any cursor on, is a run of records and what ends it: `c.Reads data cursor ds stop` says that the
records `ds` are read one after the other from the cursor on, up to `stop`, and `c.Ends data stop fault` that none
is read there, because the buffer ends or because of an error. Every buffer is read like this in one way
(`Codec.exists_reads`). A reader yields the rows of the run and then the error, if there is one, and nothing for
ever after (`Records.answer_decodeFrom`).
-/

namespace RecordPack

/-! ## Single records -/

namespace Codec

variable {c : Codec} {data : Bytes} {cursor : Nat} {d : Decoded}

/-- A record starts with its length, which says where it ends, inside the buffer. -/
theorem next_of_readAt (h : c.readAt data cursor = .ok (some d)) :
    (∃ size, LengthPrefix.decode data cursor = .ok (d.headWidth, size) ∧ d.next = cursor + d.headWidth + size) ∧
      cursor + 4 ≤ d.next ∧ d.next ≤ data.length := by
  obtain ⟨head, body, post, hm, -, hdrop, hwidth, hnext⟩ := readAt_eq_ok.1 h
  have hlen := congrArg List.length hdrop
  simp only [List.length_drop, List.length_append] at hlen
  have hhead : 4 ≤ head.length := by rcases hm.length_eq with h | h <;> omega
  refine ⟨⟨(Part.allBytes body).length, ?_, by rw [hnext, hwidth]⟩, by omega, by omega⟩
  rw [LengthPrefix.decode, hdrop, List.append_assoc, hwidth]
  exact LengthPrefix.read_of_measures hm cursor _

theorem readAt_eq_none_iff : c.readAt data cursor = .ok none ↔ data.length ≤ cursor := by
  unfold readAt
  by_cases hend : data.length ≤ cursor
  · simp [List.drop_eq_nil_of_le hend, hend, pure, Except.pure]
  · have hne : (data.drop cursor).isEmpty = false := by simpa using hend
    simp only [hne, Bool.false_eq_true, if_false, hend, iff_false, bind_eq_ok, Prod.exists, not_exists, not_and]
    intro size afterHead _ body afterBody _ row rest _
    split <;> simp [throw, throwThe, MonadExceptOf.throw, pure, Except.pure]

/-! ## Runs of records -/

/-- From the cursor on these records are read, one after the other, and there the next one is to start. -/
inductive Reads (c : Codec) (data : Bytes) : (cursor : Nat) → List Decoded → (stop : Nat) → Prop
  | nil {cursor : Nat} : Reads c data cursor [] cursor
  | cons {cursor stop : Nat} {d : Decoded} {ds : List Decoded} :
      c.readAt data cursor = .ok (some d) → Reads c data d.next ds stop → Reads c data cursor (d :: ds) stop

/-- No record is read at the cursor: the buffer has ended, or there is an error. -/
def Ends (c : Codec) (data : Bytes) (cursor : Nat) (fault : Option CodecError) : Prop :=
  c.readAt data cursor = match fault with
    | none => .ok none
    | some e => .error e

/-- What a reader yields for records and what ends them. -/
def yields (ds : List Decoded) (fault : Option CodecError) : List (Except CodecError Row) :=
  ds.map (fun d => .ok d.row) ++ (fault.map .error).toList

/-- What a reader yields, taken together: all the rows, or the error. -/
def together (ds : List Decoded) : (fault : Option CodecError) → Except CodecError (List Row)
  | none => .ok (ds.map (·.row))
  | some e => .error e

variable {ds es : List Decoded} {stop mid : Nat} {fault : Option CodecError}

theorem yields_none (ds : List Decoded) : yields ds none = (ds.map (·.row)).map .ok := by
  simp [yields]

theorem mapM_yields (ds : List Decoded) (fault : Option CodecError) :
    (yields ds fault).mapM id = together ds fault := by
  induction ds with
  | nil => cases fault <;> rfl
  | cons d ds ih =>
    have hcons : yields (d :: ds) fault = .ok d.row :: yields ds fault := rfl
    rw [hcons, List.mapM_cons, ih]
    cases fault <;> rfl

theorem Reads.append (h : c.Reads data cursor ds mid) (h' : c.Reads data mid es stop) :
    c.Reads data cursor (ds ++ es) stop := by
  induction h with
  | nil => exact h'
  | cons hd _ ih => exact .cons hd (ih h')

theorem reads_singleton_iff :
    c.Reads data cursor [d] stop ↔ c.readAt data cursor = .ok (some d) ∧ d.next = stop := by
  constructor
  · intro h
    cases h with
    | cons hd hds =>
      cases hds
      exact ⟨hd, rfl⟩
  · rintro ⟨hd, rfl⟩
    exact .cons hd .nil

/-- A run stops where its last record does. -/
theorem Reads.stop_eq (h : c.Reads data cursor ds stop) : stop = ds.foldl (fun _ d => d.next) cursor := by
  induction h with
  | nil => rfl
  | cons _ _ ih => exact ih

/-- Each record takes four bytes at least. -/
theorem Reads.length_le (h : c.Reads data cursor ds stop) :
    cursor + 4 * ds.length ≤ stop ∧ (ds ≠ [] → stop ≤ data.length) := by
  induction h with
  | nil => exact ⟨Nat.le_refl _, fun h => absurd rfl h⟩
  | @cons cursor stop d ds hd hds ih =>
    obtain ⟨-, hlow, hhigh⟩ := next_of_readAt hd
    rw [List.length_cons]
    refine ⟨by omega, fun _ => ?_⟩
    cases ds with
    | nil =>
      cases hds
      exact hhigh
    | cons e es => exact ih.2 (List.cons_ne_nil e es)

theorem Reads.le_stop (h : c.Reads data cursor ds stop) : cursor ≤ stop :=
  Nat.le_trans (Nat.le_add_right _ _) h.length_le.1

/-- A run ends without an error where nothing is left of the buffer. -/
theorem ends_none_iff : c.Ends data stop none ↔ data.length ≤ stop := readAt_eq_none_iff

/-- Every buffer is a run of records and what ends it. -/
theorem exists_reads (c : Codec) (data : Bytes) (cursor : Nat) :
    ∃ ds stop fault, c.Reads data cursor ds stop ∧ c.Ends data stop fault := by
  -- each record uses up a part of what is left
  induction hleft : data.length - cursor using Nat.strong_induction_on generalizing cursor with
  | _ left ih =>
    cases hread : c.readAt data cursor with
    | error e => exact ⟨[], cursor, some e, .nil, hread⟩
    | ok d? =>
      cases d? with
      | none => exact ⟨[], cursor, none, .nil, hread⟩
      | some d =>
        obtain ⟨-, hlow, hhigh⟩ := next_of_readAt hread
        obtain ⟨ds, stop, fault, hds, hend⟩ := ih (data.length - d.next) (by omega) d.next rfl
        exact ⟨d :: ds, stop, fault, .cons hread hds, hend⟩

end Codec

/-! ## Single steps of a reader -/

namespace Records

variable {r r' : Records}

theorem value_next_of_ok (hdone : r.done = false) {d : Decoded}
    (h : r.codec.readAt r.data r.cursor = .ok (some d)) : r.next.value = (some (.ok d.row),
      { r with cursor := d.next, counters := r.counters.addDecoded (d.next - r.cursor) d.headWidth }) := by
  rw [value_next hdone, h]

theorem value_next_of_ends (hdone : r.done = false) {fault : Option CodecError}
    (h : r.codec.Ends r.data r.cursor fault) : r.next.value = (fault.map .error, { r with done := true }) := by
  unfold Codec.Ends at h
  rw [value_next hdone, h]
  cases fault <;> rfl

theorem value_drain_of_none (h : r.next.value = (none, r')) : r.drain.value = ([], r') := by
  rw [drain]
  split
  · next h' =>
    cases h.symm.trans h'
    rfl
  · next h' => cases h.symm.trans h'

theorem value_drain_of_some {x : Except CodecError Row} (h : r.next.value = (some x, r')) :
    r.drain.value = ((x, r') :: r'.drain.value.1, r'.drain.value.2) := by
  rw [drain]
  split
  · next h' => cases h.symm.trans h'
  · next h' =>
    cases h.symm.trans h'
    rfl

end Records

/-! ## Whole runs of a reader -/

/-- What a reader counts of records that take so many bytes together. -/
def Counters.ofDecoded (ds : List Decoded) (size : Nat) : Counters where
  rowsDecoded := ds.length
  bytesRecords := size
  bytesPrefix := (ds.map (·.headWidth)).sum

theorem Counters.add_ofDecoded_nil (c : Counters) : c + ofDecoded [] 0 = c := by
  ext <;> simp [ofDecoded]

theorem Counters.addDecoded_add_ofDecoded (c : Counters) (d : Decoded) (ds : List Decoded) (size size' : Nat) :
    c.addDecoded size d.headWidth + ofDecoded ds size' = c + ofDecoded (d :: ds) (size + size') := by
  ext <;> simp [addDecoded, ofDecoded] <;> omega

namespace Records

/-- The reader after some calls for the next row. -/
def after (r : Records) : Nat → Records
  | 0 => r
  | n + 1 => r.next.value.2.after n

/-- What a call for the next row yields, after some calls before it. -/
def answer (r : Records) (n : Nat) : Option (Except CodecError Row) := (r.after n).next.value.1

theorem after_of_done {r : Records} (hdone : r.done = true) (n : Nat) : r.after n = r := by
  induction n with
  | zero => rfl
  | succ n ih => rw [after, value_next_of_done hdone, ih]

variable {c : Codec} {data : Bytes} {cursor stop : Nat} {ds : List Decoded} {fault : Option CodecError}

/-- Whenever a reader is called, it stands between the records that it has read and those that are left. It has
counted the former, and yields what comes next. -/
theorem after_of_reads (h : c.Reads data cursor ds stop) (hend : c.Ends data stop fault) : ∀ (n : Nat)
    (counters : Counters), let r : Records := ⟨c, data, cursor, false, counters⟩
    c.Reads data cursor (ds.take n) (r.after n).cursor ∧ c.Reads data (r.after n).cursor (ds.drop n) stop ∧
      (r.after n).counters = counters + .ofDecoded (ds.take n) ((r.after n).cursor - cursor) ∧
      r.answer n = (Codec.yields ds fault)[n]? := by
  induction h with
  | @nil cursor =>
    intro n counters r
    have hnext : r.next.value = (fault.map .error, { r with done := true }) := value_next_of_ends rfl hend
    have hcounters := counters.add_ofDecoded_nil.symm
    cases n with
    | zero =>
      refine ⟨.nil, .nil, by simpa [after, r] using hcounters, ?_⟩
      rw [answer, after, hnext]
      cases fault <;> rfl
    | succ n =>
      -- the reader is done, so it stays where it is
      have hafter : r.after (n + 1) = { r with done := true } := by
        rw [after, hnext]
        exact after_of_done rfl n
      rw [answer, hafter, value_next_of_done rfl]
      refine ⟨.nil, .nil, by simpa [r] using hcounters, ?_⟩
      cases fault <;> rfl
  | @cons cursor stop d ds hd hds ih =>
    intro n counters r
    have hnext : r.next.value = (some (.ok d.row),
        ⟨c, data, d.next, false, counters.addDecoded (d.next - cursor) d.headWidth⟩) := value_next_of_ok rfl hd
    cases n with
    | zero =>
      refine ⟨.nil, .cons hd hds, by simpa [after, r] using counters.add_ofDecoded_nil.symm, ?_⟩
      rw [answer, after, hnext]
      rfl
    | succ n =>
      have hafter : r.after (n + 1) =
          after ⟨c, data, d.next, false, counters.addDecoded (d.next - cursor) d.headWidth⟩ n := by
        rw [after, hnext]
      obtain ⟨hbefore, hleft, hcounters, hanswer⟩ := ih hend n (counters.addDecoded (d.next - cursor) d.headWidth)
      rw [answer, hafter]
      refine ⟨.cons hd hbefore, hleft, ?_, hanswer⟩
      obtain ⟨-, hlow, -⟩ := Codec.next_of_readAt hd
      have hle := hbefore.le_stop
      rw [hcounters, Counters.addDecoded_add_ofDecoded]
      congr 2
      omega

/-- While there are records left, a reader stands in front of the next one. -/
theorem cursor_after_of_getElem? (h : c.Reads data cursor ds stop) (hend : c.Ends data stop fault)
    (counters : Counters) {n : Nat} {d : Decoded} (hd : ds[n]? = some d) :
    let r : Records := ⟨c, data, cursor, false, counters⟩
    c.readAt data (r.after n).cursor = .ok (some d) ∧ (r.after (n + 1)).cursor = d.next := by
  intro r
  obtain ⟨hn, rfl⟩ := List.getElem?_eq_some_iff.1 hd
  obtain ⟨-, hleft, -⟩ := after_of_reads h hend n counters
  obtain ⟨hbefore, -⟩ := after_of_reads h hend (n + 1) counters
  rw [List.drop_eq_getElem_cons hn] at hleft
  cases hleft with
  | cons hread _ =>
    refine ⟨hread, ?_⟩
    rw [hbefore.stop_eq, List.take_add_one, hd, List.foldl_append]
    rfl

/-- Behind the last record a reader stays where it is. -/
theorem cursor_after_of_length_le (h : c.Reads data cursor ds stop) (hend : c.Ends data stop fault)
    (counters : Counters) {n : Nat} (hn : ds.length ≤ n) :
    (after ⟨c, data, cursor, false, counters⟩ n).cursor = stop := by
  obtain ⟨-, hleft, -⟩ := after_of_reads h hend n counters
  rw [List.drop_eq_nil_of_le hn] at hleft
  cases hleft
  rfl

theorem cursor_after_le_succ (h : c.Reads data cursor ds stop) (hend : c.Ends data stop fault)
    (counters : Counters) (n : Nat) : let r : Records := ⟨c, data, cursor, false, counters⟩
    (r.after n).cursor ≤ (r.after (n + 1)).cursor := by
  intro r
  rcases Nat.lt_or_ge n ds.length with hn | hn
  · obtain ⟨hread, hnext⟩ := cursor_after_of_getElem? h hend counters (List.getElem?_eq_getElem hn)
    rw [hnext]
    exact Nat.le_trans (Nat.le_add_right _ 4) (Codec.next_of_readAt hread).2.1
  · rw [cursor_after_of_length_le h hend counters hn,
      cursor_after_of_length_le h hend counters (Nat.le_succ_of_le hn)]

/-- All that a reader yields, and the reader at the end. -/
theorem value_drain_of_reads (h : c.Reads data cursor ds stop) (hend : c.Ends data stop fault) :
    ∀ counters : Counters, let r : Records := ⟨c, data, cursor, false, counters⟩
    r.drain.value.1.map (·.1) = Codec.yields ds fault ∧
      r.drain.value.2 = ⟨c, data, stop, true, counters + .ofDecoded ds (stop - cursor)⟩ := by
  induction h with
  | @nil cursor =>
    intro counters r
    have hnext : r.next.value = (fault.map .error, { r with done := true }) := value_next_of_ends rfl hend
    rw [Nat.sub_self, Counters.add_ofDecoded_nil]
    cases fault with
    | none =>
      rw [value_drain_of_none hnext]
      exact ⟨rfl, rfl⟩
    | some e =>
      rw [value_drain_of_some hnext, value_drain_of_none (value_next_of_done rfl)]
      exact ⟨rfl, rfl⟩
  | @cons cursor stop d ds hd hds ih =>
    intro counters r
    obtain ⟨-, hlow, -⟩ := Codec.next_of_readAt hd
    have hsize : d.next - cursor + (stop - d.next) = stop - cursor := by
      have := hds.le_stop
      omega
    obtain ⟨hyields, hstop⟩ := ih hend (counters.addDecoded (d.next - cursor) d.headWidth)
    rw [value_drain_of_some (value_next_of_ok rfl hd), List.map_cons, hyields, hstop,
      Counters.addDecoded_add_ofDecoded, hsize]
    exact ⟨rfl, rfl⟩

theorem value_rows (r : Records) : r.rows.run.value = r.drain.value.1.mapM (·.1) := rfl

theorem value_rows_of_reads (h : c.Reads data cursor ds stop) (hend : c.Ends data stop fault) :
    (c.decodeFrom data cursor).rows.run.value = Codec.together ds fault := by
  obtain ⟨hyields, -⟩ := value_drain_of_reads h hend {}
  rw [value_rows, ← Codec.mapM_yields, ← hyields, List.mapM_map]
  rfl

/-- Consecutive pieces of a buffer are one piece. -/
theorem extract_append_extract (data : Bytes) {i j k : Nat} (hij : i ≤ j) (hjk : j ≤ k) :
    data.extract i j ++ data.extract j k = data.extract i k := by
  have hdrop : data.drop j = (data.drop i).drop (j - i) := by rw [List.drop_drop, Nat.add_sub_cancel' hij]
  have hsize : k - i = (j - i) + (k - j) := by omega
  simp only [List.extract_eq_take_drop]
  rw [hsize, List.take_add, hdrop]

/-- Pieces of a buffer that each start where the one before ends are one piece. -/
theorem flatMap_extract (data : Bytes) {f : Nat → Nat} (hf : ∀ n, f n ≤ f (n + 1)) (n : Nat) :
    ((List.range n).flatMap fun i => data.extract (f i) (f (i + 1))) = data.extract (f 0) (f n) := by
  induction n with
  | zero => simp
  | succ n ih =>
    rw [List.range_succ, List.flatMap_append, ih, List.flatMap_singleton]
    exact extract_append_extract data (monotone_nat_of_le_succ hf (Nat.zero_le n)) (hf n)

/-- From any place in any buffer a reader yields the rows of finitely many records, perhaps an error, and nothing
for ever after. It stands in front of the next record whenever it is called. So each record that it reads starts
where the one before ends and takes at least four bytes of the buffer, and it has counted these records and nothing
else. An error is that of the record in front of it, where it stays. Without an error it stops at the end of the
buffer. -/
theorem answer_decodeFrom (c : Codec) (data : Bytes) (start : Nat) :
    let r := c.decodeFrom data start
    let cursor := fun n => (r.after n).cursor
    ∃ (ds : List Decoded) (fault : Option CodecError),
      (∀ n, r.answer n = (ds.map (fun d => .ok d.row) ++ (fault.map .error).toList)[n]?) ∧
      ds.length ≤ (data.length - start) / 4 ∧
      cursor 0 = start ∧
      (∀ n d, ds[n]? = some d →
        (c.decodeNext data (cursor n)).run.value = .ok (some d) ∧ cursor (n + 1) = d.next ∧
        cursor n + 4 ≤ cursor (n + 1) ∧ cursor (n + 1) ≤ data.length ∧
        ∃ size, LengthPrefix.decode data (cursor n) = .ok (d.headWidth, size) ∧
          cursor (n + 1) = cursor n + d.headWidth + size) ∧
      (∀ n, ds.length ≤ n → cursor n = cursor ds.length) ∧
      (∀ n, ((List.range n).flatMap fun i => data.extract (cursor i) (cursor (i + 1))) =
        data.extract start (cursor n)) ∧
      (∀ n, (r.after n).counters =
        { rowsEncoded := 0
          rowsDecoded := min n ds.length
          bytesRecords := cursor n - start
          bytesPrefix := ((ds.take n).map (·.headWidth)).sum
          bytesSchema := 0 }) ∧
      (fault = none → data.length ≤ cursor ds.length) ∧
      ∀ e, fault = some e → (c.decodeNext data (cursor ds.length)).run.value = .error e := by
  intro r cursor
  obtain ⟨ds, stop, fault, hds, hend⟩ := c.exists_reads data start
  have hafter := fun n => after_of_reads hds hend n {}
  have hlast : ∀ n, ds.length ≤ n → cursor n = stop := fun n hn => cursor_after_of_length_le hds hend {} hn
  have hcount : ds.length ≤ (data.length - start) / 4 := by
    obtain ⟨hlow, hhigh⟩ := hds.length_le
    cases ds with
    | nil => exact Nat.zero_le _
    | cons d ds =>
      have := hhigh (List.cons_ne_nil d ds)
      omega
  refine ⟨ds, fault, fun n => (hafter n).2.2.2, hcount, rfl, ?_, ?_,
    flatMap_extract data (cursor_after_le_succ hds hend {}), ?_, ?_, ?_⟩
  · intro n d hd
    obtain ⟨hread : c.readAt data (cursor n) = .ok (some d), hnext : cursor (n + 1) = d.next⟩ :=
      cursor_after_of_getElem? hds hend {} hd
    obtain ⟨⟨size, hsize, heq⟩, hlow, hhigh⟩ := Codec.next_of_readAt hread
    rw [Codec.value_decodeNext, hnext]
    exact ⟨hread, rfl, hlow, hhigh, size, hsize, heq⟩
  · intro n hn
    rw [hlast n hn, hlast ds.length (Nat.le_refl _)]
  · intro n
    refine (hafter n).2.2.1.trans ?_
    ext <;> simp [Counters.ofDecoded, cursor, r, Codec.decodeFrom]
  · rintro rfl
    rw [hlast ds.length (Nat.le_refl _)]
    exact Codec.ends_none_iff.1 hend
  · rintro e rfl
    rw [Codec.value_decodeNext, hlast ds.length (Nat.le_refl _)]
    exact hend

end Records

end RecordPack

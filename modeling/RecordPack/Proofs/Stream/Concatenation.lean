import RecordPack.Proofs.Record.Framing
import RecordPack.Proofs.Record.Translation
import RecordPack.Proofs.Stream.ReadBack

/-!
# Streams back to back

A record is read whatever follows it (`Codec.readAt_append_right`), and whatever is in front of it
(`Codec.readAt_append`). So a buffer that reads as rows may be put in front of any other one: its rows come first,
and an error of the other one stays the same error, further on (`loads_append`). The other way round there is only
one way to cut a buffer that reads as rows into those of the single rows.
-/

namespace RecordPack

namespace Codec

variable {c : Codec} {data : Bytes} {cursor stop : Nat} {d : Decoded} {ds : List Decoded}
  {fault : Option CodecError}

/-! ## More bytes behind -/

theorem Reads.append_right (h : c.Reads data cursor ds stop) (b : Bytes) : c.Reads (data ++ b) cursor ds stop := by
  induction h with
  | nil => exact .nil
  | cons hd _ ih => exact .cons (readAt_append_right hd b) ih

/-! ## More bytes in front -/

theorem Reads.shift (h : c.Reads data cursor ds stop) (a : Bytes) :
    c.Reads (a ++ data) (cursor + a.length) (ds.map (.shift a.length)) (stop + a.length) := by
  induction h with
  | nil => exact .nil
  | @cons cursor stop d ds hd _ ih =>
    have hread : c.readAt (a ++ data) (cursor + a.length) = .ok (some (d.shift a.length)) := by
      rw [readAt_append, hd]
      rfl
    exact .cons hread ih

theorem Ends.shift (h : c.Ends data stop fault) (a : Bytes) :
    c.Ends (a ++ data) (stop + a.length) (fault.map (.shift a.length)) := by
  unfold Ends at h ⊢
  rw [readAt_append, h]
  cases fault <;> rfl

theorem map_row_shift (ds : List Decoded) (n : Nat) : (ds.map (Decoded.shift n)).map (·.row) = ds.map (·.row) := by
  rw [List.map_map]
  rfl

/-! ## Cutting a buffer -/

/-- The records of a run lie side by side. -/
theorem Reads.exists_pieces (h : c.Reads data cursor ds stop) : ∃ xs : List Bytes,
    xs.flatten = data.extract cursor stop ∧ List.Forall₂ (fun x d => c.IsRecord x d.row) xs ds := by
  induction h with
  | nil => exact ⟨[], by simp, .nil⟩
  | @cons cursor stop d ds hd hds ih =>
    obtain ⟨xs, hflat, hall⟩ := ih
    obtain ⟨-, hlow, -⟩ := next_of_readAt hd
    obtain ⟨ps, hcar, hbytes, -⟩ := carries_of_readAt hd
    rw [← List.extract_eq_take_drop] at hbytes
    refine ⟨data.extract cursor d.next :: xs, ?_, .cons (hbytes ▸ isRecord_of_carries hcar) hall⟩
    rw [List.flatten_cons, hflat]
    exact Records.extract_append_extract data (by omega) hds.le_stop

/-- Records in a row can be cut in one way only. -/
theorem eq_of_flatten_eq {rows : List Row} : ∀ {xs ys : List Bytes}, List.Forall₂ c.IsRecord xs rows →
    List.Forall₂ c.IsRecord ys rows → xs.flatten = ys.flatten → xs = ys := by
  induction rows with
  | nil =>
    intro xs ys hxs hys _
    cases hxs
    cases hys
    rfl
  | cons row rows ih =>
    intro xs ys hxs hys hflat
    obtain ⟨x, xs, hx, hxs', rfl⟩ := List.forall₂_cons_right_iff.1 hxs
    obtain ⟨y, ys, hy, hys', rfl⟩ := List.forall₂_cons_right_iff.1 hys
    rw [List.flatten_cons, List.flatten_cons] at hflat
    obtain rfl := hx.eq_of_append_eq hy hflat
    rw [ih hxs' hys' (List.append_cancel_left hflat)]

end Codec

/-! ## Whole buffers -/

variable {text : String} {c : Codec}

theorem loads_of_reads (hc : (Codec.ofText {} text).run.value = .ok c) {data : Bytes} {ds : List Decoded}
    {stop : Nat} {fault : Option CodecError} (h : c.Reads data 0 ds stop) (hend : c.Ends data stop fault) :
    (loads text data).run.value = Codec.together ds fault := by
  rw [value_loads hc]
  exact Records.value_rows_of_reads h hend

/-- A buffer reads as rows exactly if it is the records of these rows. -/
theorem loads_eq_ok (hc : (Codec.ofText {} text).run.value = .ok c) {data : Bytes} {rows : List Row} :
    (loads text data).run.value = .ok rows ↔ ∃ ds, c.Reads data 0 ds data.length ∧ ds.map (·.row) = rows := by
  constructor
  · intro h
    obtain ⟨ds, stop, fault, hds, hend⟩ := c.exists_reads data 0
    rw [loads_of_reads hc hds hend] at h
    cases fault with
    | some e => cases h
    | none =>
      have hstop : stop = data.length := by
        refine Nat.le_antisymm ?_ (Codec.ends_none_iff.1 hend)
        cases hds with
        | nil => exact Nat.zero_le _
        | cons hd hds => exact (Codec.Reads.length_le (.cons hd hds)).2 (List.cons_ne_nil _ _)
      rw [hstop] at hds
      exact ⟨ds, hds, Except.ok.inj h⟩
  · rintro ⟨ds, hds, rfl⟩
    exact loads_of_reads hc hds (Codec.ends_none_iff.2 (Nat.le_refl _))

theorem loads_eq_ok_singleton (hc : (Codec.ofText {} text).run.value = .ok c) {x : Bytes} {row : Row} :
    (loads text x).run.value = .ok [row] ↔ c.IsRecord x row := by
  rw [loads_eq_ok hc]
  constructor
  · rintro ⟨ds, hds, hrows⟩
    obtain ⟨d, rfl, hrow⟩ := List.map_eq_singleton_iff.1 hrows
    obtain ⟨hd, hnext⟩ := Codec.reads_singleton_iff.1 hds
    exact ⟨d, hd, hnext, hrow⟩
  · rintro ⟨d, hd, hnext, rfl⟩
    exact ⟨[d], Codec.reads_singleton_iff.2 ⟨hd, hnext⟩, rfl⟩

theorem exists_codec_of_loads {data : Bytes} {rows : List Row} (h : (loads text data).run.value = .ok rows) :
    ∃ c, (Codec.ofText {} text).run.value = .ok c := by
  rw [loads, Attempt.value_bind, bind_eq_ok] at h
  obtain ⟨c, hc, -⟩ := h
  exact ⟨c, hc⟩

/-- A buffer that reads as rows reads as these rows in front of any other buffer, and then what comes of the other
buffer follows: its rows, or its error with the place in the buffer moved. There is exactly one way to cut a
buffer that reads as rows into buffers that read as one row each. -/
theorem loads_append (text : String) :
    (∀ a b ra, (loads text a).run.value = .ok ra →
      (loads text (a ++ b)).run.value = match (loads text b).run.value with
        | .ok rb => .ok (ra ++ rb)
        | .error e => .error (e.shift a.length)) ∧
    ∀ d rows, (loads text d).run.value = .ok rows →
      ∃! xs : List Bytes, xs.flatten = d ∧ List.Forall₂ (fun x row => (loads text x).run.value = .ok [row]) xs rows := by
  constructor
  · intro a b ra ha
    obtain ⟨c, hc⟩ := exists_codec_of_loads ha
    obtain ⟨ds, hds, rfl⟩ := (loads_eq_ok hc).1 ha
    obtain ⟨es, stop, fault, hes, hend⟩ := c.exists_reads b 0
    have hes' := hes.shift a
    rw [Nat.zero_add] at hes'
    rw [loads_of_reads hc ((hds.append_right b).append hes') (hend.shift a), loads_of_reads hc hes hend]
    cases fault with
    | none => simp only [Codec.together, Option.map_none, List.map_append, Codec.map_row_shift]
    | some e => rfl
  · intro d rows hd
    obtain ⟨c, hc⟩ := exists_codec_of_loads hd
    obtain ⟨ds, hds, rfl⟩ := (loads_eq_ok hc).1 hd
    obtain ⟨xs, hflat, hxs⟩ := hds.exists_pieces
    simp only [loads_eq_ok_singleton hc]
    refine ⟨xs, ⟨?_, List.forall₂_map_right_iff.2 hxs⟩, ?_⟩
    · rw [hflat]
      simp
    · rintro ys ⟨hys, hall⟩
      refine Codec.eq_of_flatten_eq hall (List.forall₂_map_right_iff.2 hxs) ?_
      rw [hys, hflat]
      simp

/-- A record in front of a length that is cut, and twice the same record. -/
theorem loads_append_sample :
    let row : Row := [.int 2, .bool true, .pad, .list [], .list [.bytes [], .bytes []]]
    let x : Bytes := [0, 0, 0, 20, 2, 0, 1, 0, 0, 0, 0, 0, 0, 0, 0, 8, 0, 0, 0, 0, 0, 0, 0, 0]
    (loads Schema.sample.text (x ++ [0, 0, 0])).run.value = .error (.length (.malformed 24 4 3)) ∧
      ∃! xs : List Bytes, xs.flatten = x ++ x ∧
        List.Forall₂ (fun x row => (loads Schema.sample.text x).run.value = .ok [row]) xs [row, row] := by
  intro row x
  have hx : (loads Schema.sample.text x).run.value = .ok [row] :=
    (loads_eq_ok_singleton Codec.ofText_sample).2 ⟨⟨row, 4, 24⟩, by decide +kernel, rfl, rfl⟩
  have hends : Codec.sample.Ends [0, 0, 0] 0 (some (.length (.malformed 0 4 3))) := by
    unfold Codec.Ends
    decide +kernel
  have hb : (loads Schema.sample.text [0, 0, 0]).run.value = .error (.length (.malformed 0 4 3)) :=
    loads_of_reads Codec.ofText_sample .nil hends
  obtain ⟨happend, hcut⟩ := loads_append Schema.sample.text
  constructor
  · rw [happend x [0, 0, 0] [row] hx, hb]
    rfl
  · have htwice : (loads Schema.sample.text (x ++ x)).run.value = .ok [row, row] := by
      rw [happend x x [row] hx, hx]
      rfl
    exact hcut (x ++ x) [row, row] htwice

end RecordPack

import Mathlib.Data.Nat.Find
import RecordPack.Proofs.Record.Framing
import RecordPack.Proofs.Stream.ReadBack

/-!
# Streams that are cut short

What is left of a stream of records that is cut anywhere reads as the rows of the records that are whole. If it
ends inside a record, the error for that one follows (`Codec.drain_take`).
-/

namespace RecordPack

/-! ## Where records end -/

/-- Where the first `i` of these records end. -/
def Record.bound (rs : List Record) (i : Nat) : Nat := ((rs.take i).flatMap Record.bytes).length

namespace Record

theorem bound_mono (rs : List Record) {i j : Nat} (h : i ≤ j) : bound rs i ≤ bound rs j := by
  have hbegin : rs.take i <+: rs.take j := List.take_prefix_take_left h
  obtain ⟨more, hmore⟩ := hbegin
  simp only [bound, ← hmore, List.flatMap_append, List.length_append]
  exact Nat.le_add_right _ _

theorem bound_succ {rs : List Record} {i : Nat} {r : Record} (h : rs[i]? = some r) :
    bound rs (i + 1) = bound rs i + r.bytes.length := by
  simp [bound, List.take_add_one, h]

/-- Every place in a stream is behind some records, and not behind any other. -/
theorem exists_bound_le (rs : List Record) (p : Nat) :
    ∃ m ≤ rs.length, ∀ i ≤ rs.length, bound rs i ≤ p ↔ i ≤ m := by
  let m := Nat.findGreatest (fun i => bound rs i ≤ p) rs.length
  have hm : bound rs m ≤ p := Nat.findGreatest_spec (P := fun i => bound rs i ≤ p) (Nat.zero_le _) (Nat.zero_le p)
  refine ⟨m, Nat.findGreatest_le _, ?_⟩
  intro i hi
  constructor
  · exact fun hbound => Nat.le_findGreatest (P := fun i => bound rs i ≤ p) hi hbound
  · exact fun him => Nat.le_trans (bound_mono rs him) hm

theorem take_bound (rs : List Record) (m : Nat) :
    (rs.flatMap Record.bytes).take (bound rs m) = (rs.take m).flatMap Record.bytes := by
  have hsplit : rs.flatMap Record.bytes = (rs.take m).flatMap Record.bytes ++ (rs.drop m).flatMap Record.bytes := by
    rw [← List.flatMap_append, List.take_append_drop]
  rw [hsplit, bound, List.take_left]

/-- A stream up to some place is the records that are whole and a part of the next one. -/
theorem take_flatMap_bytes {rs : List Record} {m : Nat} {r : Record} (hr : rs[m]? = some r) {p : Nat}
    (hlow : bound rs m ≤ p) (hhigh : p ≤ bound rs (m + 1)) :
    (rs.flatMap Record.bytes).take p = (rs.take m).flatMap Record.bytes ++ r.bytes.take (p - bound rs m) := by
  obtain ⟨hlt, rfl⟩ := List.getElem?_eq_some_iff.1 hr
  have hsplit : rs.flatMap Record.bytes =
      (rs.take m).flatMap Record.bytes ++ (rs[m].bytes ++ (rs.drop (m + 1)).flatMap Record.bytes) := by
    rw [← List.flatMap_cons, ← List.drop_eq_getElem_cons hlt, ← List.flatMap_append, List.take_append_drop]
  rw [bound_succ hr] at hhigh
  rw [hsplit, List.take_append, List.take_of_length_le hlow]
  congr 1
  exact List.take_append_of_le_length (Nat.sub_le_iff_le_add'.2 hhigh)

end Record

/-! ## Reading what is left -/

namespace Codec

variable {c : Codec} {rows : List Row} {rs : List Record}

/-- Behind the first records of a stream, a reader has yielded their rows and goes on with what is there. -/
theorem yields_take (hwf : c.schema.WellFormed) (h : List.Forall₂ (fun row r => c.record 0 row = .ok r) rows rs)
    (m : Nat) (post : Bytes) {fault : Option CodecError}
    (hend : c.Ends ((rs.take m).flatMap Record.bytes ++ post) (Record.bound rs m) fault) :
    (c.decodeAll ((rs.take m).flatMap Record.bytes ++ post)).drain.value.1.map (·.1) =
      (rows.take m).map (fun row => .ok (c.schema.settle row)) ++ (fault.map .error).toList := by
  obtain ⟨ds, hds, hrows, -⟩ := exists_reads_of_records hwf (List.forall₂_take m h) post []
  obtain ⟨hyields, -⟩ := Records.value_drain_of_reads hds hend {}
  have hoks : ds.map (fun d => (.ok d.row : Except CodecError Row)) =
      (rows.take m).map (fun row => .ok (c.schema.settle row)) := by
    simpa only [List.map_map, Function.comp_def] using congrArg (List.map Except.ok) hrows
  rw [← hoks]
  exact hyields

/-- A stream of records that is cut anywhere yields the rows of the records that are whole. If it is cut between
two records, nothing follows, and otherwise the error for the record that is cut. No record is the beginning of
another one. -/
theorem drain_take {options : ParseOptions} {text : String} {c : Codec}
    (hc : (Codec.ofText options text).run.value = .ok c) {rows : List Row} {rs : List Record}
    (hrs : rows.mapM (c.record 0) = .ok rs) {p : Nat} (hp : p ≤ (rs.flatMap Record.bytes).length) :
    let yields := (c.decodeAll ((rs.flatMap Record.bytes).take p)).drain.value.1.map (·.1)
    (∃ m ≤ rs.length, (∀ i ≤ rs.length, Record.bound rs i ≤ p ↔ i ≤ m) ∧
      (p = Record.bound rs m → yields = (rows.take m).map (fun row => .ok (c.schema.settle row))) ∧
      (p ≠ Record.bound rs m → ∃ r, rs[m]? = some r ∧
        yields = (rows.take m).map (fun row => .ok (c.schema.settle row)) ++
          [.error (r.cutError (Record.bound rs m) (p - Record.bound rs m))])) ∧
    ∀ row row' bs bs', c.encode row = .ok bs → c.encode row' = .ok bs' → bs <+: bs' → bs = bs' := by
  intro yields
  have hwf := wellFormed_of_ofText hc
  have hall := mapM_eq_ok.1 hrs
  have hunique : ∀ row row' bs bs', c.encode row = .ok bs → c.encode row' = .ok bs' → bs <+: bs' → bs = bs' :=
    fun _ _ _ _ h h' => (isRecord_of_encode hwf h).eq_of_isPrefix (isRecord_of_encode hwf h')
  refine ⟨?_, hunique⟩
  obtain ⟨m, hm, hbounds⟩ := Record.exists_bound_le rs p
  have hlow := (hbounds m hm).2 (Nat.le_refl m)
  refine ⟨m, hm, hbounds, ?_, ?_⟩
  · intro heq
    have hend : c.Ends ((rs.take m).flatMap Record.bytes ++ []) (Record.bound rs m) none :=
      ends_none_iff.2 (by simp [Record.bound])
    have hyields := yields_take hwf hall m [] hend
    rw [List.append_nil, ← Record.take_bound, ← heq] at hyields
    exact hyields.trans (List.append_nil _)
  · intro hne
    -- a record is left, since the stream does not end here
    have hlt : m < rs.length := by
      refine Nat.lt_of_le_of_ne hm ?_
      rintro rfl
      rw [Record.bound, List.take_length] at hlow hne
      omega
    have hr := List.getElem?_eq_getElem hlt
    have hhigh : p < Record.bound rs (m + 1) := by
      rw [← Nat.not_le, hbounds (m + 1) hlt]
      omega
    have htake := Record.take_flatMap_bytes hr hlow hhigh.le
    rw [Record.bound_succ hr] at hhigh
    obtain ⟨row, -, hrow⟩ := exists_mem_of_forall₂ hall rs[m] (List.getElem_mem hlt)
    have hend : c.Ends ((rs.take m).flatMap Record.bytes ++ rs[m].bytes.take (p - Record.bound rs m))
        (Record.bound rs m) (some (rs[m].cutError (Record.bound rs m) (p - Record.bound rs m))) :=
      readAt_of_cut c (measures_of_record hrow) _ (by omega) (by omega)
    have hyields := yields_take hwf hall m _ hend
    rw [← htake] at hyields
    exact ⟨rs[m], hr, hyields⟩

/-- Two records, the second of which is cut inside its body. -/
theorem drain_take_sample :
    let row : Row := [.int 2, .bool true, .pad, .list [], .list [.bytes [], .bytes []]]
    let r : Record := ⟨[0, 0, 0, 20], [2, 0, 1, 0, 0, 0, 0, 0, 0, 0, 0, 8, 0, 0, 0, 0, 0, 0, 0, 0]⟩
    (sample.decodeAll ((r.bytes ++ r.bytes).take 30)).drain.value.1.map (·.1) =
      [.ok row, .error (.truncated 28 20 2)] := by
  intro row r
  have hrs : [row, row].mapM (sample.record 0) = .ok [r, r] := by decide +kernel
  obtain ⟨⟨m, hm, hbounds, -, hcut⟩, -⟩ := drain_take ofText_sample hrs (p := 30) (by decide)
  have hlow : 1 ≤ m := (hbounds 1 (by decide)).1 (by decide)
  have hhigh : ¬ 2 ≤ m := fun h => absurd ((hbounds 2 (by decide)).2 h) (by decide)
  obtain rfl : m = 1 := by omega
  obtain ⟨r', hr', hyields⟩ := hcut (by decide)
  cases hr'
  have hsettle : sample.schema.settle row = row := by decide +kernel
  rw [List.take_one, List.head?_cons, Option.toList_some, List.map_singleton, hsettle] at hyields
  exact hyields

end Codec

end RecordPack

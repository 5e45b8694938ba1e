import RecordPack.Proofs.Codec

/-!
# Records come back

A row that was written is read back from where it stands, whatever is before and behind it, as the row that
its record holds. A row that was read is written again, in no more bytes, as a record of the same row.
-/

namespace RecordPack

open LengthPrefix (Measures)

namespace Codec

variable {c : Codec}

theorem carries_of_record {start : Nat} {row : Row} {r : Record} (hwf : c.schema.WellFormed)
    (h : c.record start row = .ok r) : ∃ body, Measures r.head (Part.allBytes body).length ∧
      Field.CarriesAll c.endian c.schema.fields body (c.schema.settle row) ∧ Part.allBytes body = r.body := by
  obtain ⟨hlen, -, hbody, hhead⟩ := record_eq_ok.1 h
  obtain ⟨body, hcar, hbytes⟩ := Field.carriesAll_of_writeAll hwf.fields hlen hbody
  refine ⟨body, ?_, hcar, hbytes⟩
  rw [hbytes]
  exact LengthPrefix.measures_of_encode hhead

/-- A record is read back from where it stands. -/
theorem readAt_of_record {start : Nat} {row : Row} {r : Record} (hwf : c.schema.WellFormed)
    (h : c.record start row = .ok r) (pre post : Bytes) :
    c.readAt (pre ++ r.bytes ++ post) pre.length =
      .ok (some ⟨c.schema.settle row, r.head.length, pre.length + r.bytes.length⟩) := by
  obtain ⟨body, hm, hcar, hbytes⟩ := carries_of_record hwf h
  apply readAt_eq_ok.2
  refine ⟨r.head, body, post, hm, hcar, ?_, rfl, ?_⟩
  · rw [List.append_assoc, List.drop_left, hbytes, Record.bytes]
  · rw [hbytes, Record.bytes, List.length_append, Nat.add_assoc]

/-- A record is read back anywhere in a buffer as the row that it holds, and the next record starts right
behind it. A row in the form of its fields comes back as it was. -/
theorem decodeNext_of_appendTo {options : ParseOptions} {text : String}
    (hc : (Codec.ofText options text).run.value = .ok c) {pre out : Bytes} {row : Row} {n : Nat}
    (h : (c.appendTo pre row).value = (.ok n, out)) :
    ∃ bs : Bytes, out = pre ++ bs ∧ bs.length = n ∧
      ∀ post, ∃ d, (c.decodeNext (pre ++ bs ++ post) pre.length).run.value = .ok (some d) ∧
        d.row = c.schema.settle row ∧ d.next = pre.length + n ∧ (c.schema.IsSettled row → d.row = row) := by
  obtain ⟨r, hr, rfl, rfl⟩ := appendTo_eq_ok.1 h
  refine ⟨r.bytes, rfl, rfl, ?_⟩
  intro post
  refine ⟨⟨c.schema.settle row, r.head.length, pre.length + r.bytes.length⟩, ?_, rfl, rfl,
    Schema.settle_eq_self⟩
  rw [value_decodeNext]
  exact readAt_of_record (Codec.wellFormed_of_ofText hc) hr pre post

/-- Behind a byte, a row with integers in its lists comes back in the form of its fields, and a row that has this form,
the quiet pattern of no number in it, as it was. -/
theorem decodeNext_of_appendTo_sample :
    let row : Row := [.uint 258, .bool true, .pad, .list [.int 1], .list [.bytes [], .bytes [65]]]
    let settled : Row := [.int 258, .bool true, .pad, .list [.f32 .quietNaN], .list [.bytes [], .bytes [65]]]
    (∃ bs : Bytes,
      [7, 0, 0, 0, 25, 2, 1, 1, 0, 0, 0, 0, 1, 0, 0, 128, 63, 0, 0, 0, 9, 0, 0, 0, 0, 0, 0, 0, 1, 65] = [7] ++ bs ∧
      bs.length = 29 ∧ ∀ post, ∃ d, (sample.decodeNext ([7] ++ bs ++ post) 1).run.value = .ok (some d) ∧
        d.row = Schema.sample.settle row ∧ d.next = 1 + 29) ∧
    Schema.sample.IsSettled settled ∧
    ∃ bs : Bytes,
      [7, 0, 0, 0, 25, 2, 1, 1, 0, 0, 0, 0, 1, 0, 0, 192, 127, 0, 0, 0, 9, 0, 0, 0, 0, 0, 0, 0, 1, 65] = [7] ++ bs ∧
      bs.length = 29 ∧ ∀ post, ∃ d, (sample.decodeNext ([7] ++ bs ++ post) 1).run.value = .ok (some d) ∧
        d.row = settled ∧ d.next = 1 + 29 := by
  intro row settled
  have hsettled : Schema.sample.IsSettled settled :=
    .cons ⟨258, rfl⟩ (.cons ⟨true, rfl⟩ (.cons rfl (.cons ⟨[.f32 .quietNaN], rfl, by
      rintro item hitem
      obtain rfl := List.mem_singleton.1 hitem
      exact ⟨.quietNaN, rfl, .inr rfl⟩⟩ (.cons ⟨[[], [65]], rfl⟩ .nil))))
  refine ⟨?_, hsettled, ?_⟩
  · obtain ⟨bs, hout, hlen, hread⟩ := decodeNext_of_appendTo ofText_sample
      (by decide +kernel : (sample.appendTo [7] row).value = (.ok 29, [7, 0, 0, 0, 25, 2, 1, 1, 0, 0, 0, 0, 1, 0, 0, 128,
        63, 0, 0, 0, 9, 0, 0, 0, 0, 0, 0, 0, 1, 65]))
    refine ⟨bs, hout, hlen, ?_⟩
    intro post
    obtain ⟨d, hd, hrow, hnext, -⟩ := hread post
    exact ⟨d, hd, hrow, hnext⟩
  · obtain ⟨bs, hout, hlen, hread⟩ := decodeNext_of_appendTo ofText_sample
      (by decide +kernel : (sample.appendTo [7] settled).value = (.ok 29, [7, 0, 0, 0, 25, 2, 1, 1, 0, 0, 0, 0, 1, 0, 0,
        192, 127, 0, 0, 0, 9, 0, 0, 0, 0, 0, 0, 0, 1, 65]))
    refine ⟨bs, hout, hlen, ?_⟩
    intro post
    obtain ⟨d, hd, -, hnext, hself⟩ := hread post
    exact ⟨d, hd, hself hsettled, hnext⟩

/-! ## Writing what was read -/

theorem exists_record_of_form (hwf : c.schema.WellFormed) {ps : List Part} {row : Row}
    (h : c.Carries ps row) (hx : ∀ v ∈ row, v.HasSettledFloats) :
    ∃ r : Record, Field.writeAll c.endian c.schema.fields row = .ok r.body ∧
      LengthPrefix.encode r.body.length = .ok r.head ∧ Part.Condenses r.bytes ps := by
  obtain ⟨head, body, rfl, hm, hcar⟩ := h
  obtain ⟨b, hb, hcon⟩ := Field.exists_writeAll hcar hwf.fields hx
  obtain ⟨q, hq, hcon'⟩ := Part.condenses_sized hm .nil hcon
  rw [List.append_nil] at hcon'
  exact ⟨⟨q, b⟩, hb, hq, hcon'⟩

/-- A row that has a form has a record, which condenses all of its forms. -/
theorem exists_record_of_carries (hwf : c.schema.WellFormed) {ps : List Part} {row : Row}
    (h : c.Carries ps row) (hx : ∀ v ∈ row, v.HasSettledFloats) :
    ∃ r : Record, Field.writeAll c.endian c.schema.fields row = .ok r.body ∧
      LengthPrefix.encode r.body.length = .ok r.head ∧ ∀ qs, c.Carries qs row → Part.Condenses r.bytes qs := by
  obtain ⟨r, hbody, hhead, -⟩ := exists_record_of_form hwf h hx
  refine ⟨r, hbody, hhead, ?_⟩
  intro qs hqs
  obtain ⟨r', hbody', hhead', hcon⟩ := exists_record_of_form hwf hqs hx
  -- there is only one record of the row
  have hb : r'.body = r.body := Except.ok.inj (hbody'.symm.trans hbody)
  rw [hb] at hhead'
  have hh : r'.head = r.head := Except.ok.inj (hhead'.symm.trans hhead)
  rwa [Record.bytes, hb, hh] at hcon

/-- A record that fits a buffer is written there. -/
theorem record_of_fits {start : Nat} {row : Row} {r : Record} (hrow : row.length = c.schema.arity)
    (hbody : Field.writeAll c.endian c.schema.fields row = .ok r.body)
    (hhead : LengthPrefix.encode r.body.length = .ok r.head)
    (hfit : start + r.bytes.length ≤ LengthPrefix.maxLength) : c.record start row = .ok r := by
  have hlen : 4 ≤ r.head.length := by
    rw [LengthPrefix.length_encode hhead]
    split <;> omega
  rw [Record.bytes, List.length_append] at hfit
  exact record_eq_ok.2 ⟨hrow, Writer.hasRoom_of_le c.covers hrow hbody (by omega), hbody, hhead⟩

/-- A row that was read can be written on its own, and at the end of any buffer that has room for it. Its
record is no longer than the one that was read, holds the same row, and is the same bytes exactly if every
prefix there was as short as it can be, every truth value zero or one and every filler zero. -/
theorem appendTo_of_decodeNext {options : ParseOptions} {text : String}
    (hc : (Codec.ofText options text).run.value = .ok c) {data : Bytes} {cursor : Nat} {d : Decoded}
    (hdata : data.length ≤ LengthPrefix.maxLength)
    (h : (c.decodeNext data cursor).run.value = .ok (some d)) (hx : ∀ v ∈ d.row, v.HasSettledFloats) :
    let source := (data.drop cursor).take (d.next - cursor)
    ∃ bs : Bytes, c.encode d.row = .ok bs ∧ bs.length ≤ d.next - cursor ∧
      (∀ pre : Bytes, pre.length + (d.next - cursor) ≤ LengthPrefix.maxLength →
        (c.appendTo pre d.row).value = (.ok bs.length, pre ++ bs)) ∧
      (∃ d', (c.decodeNext bs 0).run.value = .ok (some d') ∧ d'.row = d.row ∧ d'.next = bs.length) ∧
      (∃ ps, c.Carries ps d.row ∧ Part.allBytes ps = source) ∧
      ∀ ps, c.Carries ps d.row → Part.allBytes ps = source → (bs = source ↔ ∀ p ∈ ps, p.IsCanonical) := by
  intro source
  have hwf := Codec.wellFormed_of_ofText hc
  rw [value_decodeNext] at h
  obtain ⟨ps, hcar, hsource, hlen⟩ := carries_of_readAt h
  have hle : d.next - cursor ≤ data.length := by
    rw [← hlen, hsource, List.length_take, List.length_drop]
    omega
  obtain ⟨r, hbody, hhead, hcon⟩ := exists_record_of_carries hwf hcar hx
  have hshort : r.bytes.length ≤ d.next - cursor := hlen ▸ (hcon ps hcar).length_le
  have hrecord : ∀ start, start + (d.next - cursor) ≤ LengthPrefix.maxLength → c.record start d.row = .ok r := by
    intro start hstart
    exact record_of_fits hcar.length_eq hbody hhead (by omega)
  refine ⟨r.bytes, ?_, hshort, ?_, ?_, ⟨ps, hcar, hsource⟩, ?_⟩
  · rw [encode, hrecord 0 (by omega)]
    rfl
  · intro pre hpre
    rw [appendTo_eq_ok]
    exact ⟨r, hrecord pre.length hpre, rfl, rfl⟩
  · -- the row is settled, so its record holds it as it is
    have hread := readAt_of_record hwf (hrecord 0 (by omega)) [] []
    rw [Schema.settle_eq_self (hcar.isSettled hx), List.append_nil, List.nil_append, List.length_nil,
      Nat.zero_add] at hread
    refine ⟨⟨d.row, r.head.length, r.bytes.length⟩, ?_, rfl, rfl⟩
    rw [value_decodeNext]
    exact hread
  · intro qs hqs hbytes
    rw [← hbytes]
    exact (hcon qs hqs).eq_iff

/-- The parts of a record of the sample schema, behind some length, with some truth value and some filler. -/
def sampleParts (head : Bytes) (ok gap : UInt8) : List Part :=
  [.measure head, .place .int16 [2, 1], .place .bool [ok], .place .pad [gap], .measure [0, 0, 0, 1],
    .place .float32 [0, 0, 128, 63], .measure [0, 0, 0, 9], .measure [0, 0, 0, 0], .text [], .measure [0, 0, 0, 1],
    .text [65]]

theorem carries_sampleParts {head : Bytes} (h : Measures head 25) (ok gap : UInt8) :
    sample.Carries (sampleParts head ok gap) [ScalarType.int16.read .little [2, 1], ScalarType.bool.read .little [ok],
      .pad, .list [ScalarType.float32.read .little [0, 0, 128, 63]], .list [.bytes [], .bytes [65]]] := by
  have hn := @Field.Carries.scalar .little { id := "n", type := .int16, width := .fixed 2 } [2, 1] rfl rfl
  have hok := @Field.Carries.scalar .little { id := "ok", type := .bool, width := .fixed 1 } [ok] rfl rfl
  have hgap := @Field.Carries.scalar .little { id := "gap", type := .pad, width := .fixed 1 } [gap] rfl rfl
  have hxs := @Field.Carries.list .little
    { id := "xs", type := .float32, width := .fixed 4, count := some .dynamic } .dynamic 4 [.measure [0, 0, 0, 1]]
    [[0, 0, 128, 63]] rfl rfl (.dynamic rfl) (by simp)
  have hstrings : ∀ x ∈ [(([0, 0, 0, 0] : Bytes), ([] : Bytes)), ([0, 0, 0, 1], [65])], Measures x.1 x.2.length := by
    simp only [List.forall_mem_cons]
    exact ⟨rfl, rfl, List.forall_mem_nil _⟩
  have htags := @Field.Carries.strings .little
    { id := "tags", type := .bytes, width := .dynamic, count := some (.fixed 2) } (.fixed 2) [0, 0, 0, 9] []
    [([0, 0, 0, 0], []), ([0, 0, 0, 1], [65])] rfl rfl rfl (.fixed 2) hstrings
  exact ⟨head, _, rfl, h, .cons hn (.cons hok (.cons hgap (.cons hxs (.cons htags .nil))))⟩

/-- With a long prefix, another true and a filler that is not zero, a record is read but not written. With none of
these, it is the one that is written. -/
theorem appendTo_of_decodeNext_sample :
    let row : Row := [.int 258, .bool true, .pad, .list [.f32 ⟨0x3F800000⟩], .list [.bytes [], .bytes [65]]]
    let long := sampleParts [128, 0, 0, 0, 0, 0, 0, 25] 9 5
    let short := sampleParts [0, 0, 0, 25] 1 0
    ∃ bs : Bytes, sample.encode row = .ok bs ∧ bs.length ≤ 33 ∧
      sample.Carries long row ∧ bs ≠ Part.allBytes long ∧ sample.Carries short row ∧ bs = Part.allBytes short := by
  intro row long short
  have hone : (⟨0x3F800000⟩ : Ieee.Binary32).IsSettled := .inl (by decide)
  have hfloats : ∀ v ∈ row, v.HasSettledFloats := by simp [row, Value.HasSettledFloats, Value.scalars, hone]
  have hrow : ∀ ok : UInt8, ScalarType.bool.read .little [ok] = .bool true → row = [ScalarType.int16.read .little [2, 1],
      ScalarType.bool.read .little [ok], .pad, .list [ScalarType.float32.read .little [0, 0, 128, 63]],
      .list [.bytes [], .bytes [65]]] := by
    intro ok hok
    rw [hok]
    decide +kernel
  have hlong : sample.Carries long row := by
    have hhead : Measures [128, 0, 0, 0, 0, 0, 0, 25] 25 := rfl
    rw [hrow 9 rfl]
    exact carries_sampleParts hhead 9 5
  have hshort : sample.Carries short row := by
    have hhead : Measures [0, 0, 0, 25] 25 := rfl
    rw [hrow 1 rfl]
    exact carries_sampleParts hhead 1 0
  have hread : (sample.decodeNext (Part.allBytes long) 0).run.value = .ok (some ⟨row, 8, 33⟩) := by decide +kernel
  have hread' : (sample.decodeNext (Part.allBytes short) 0).run.value = .ok (some ⟨row, 4, 29⟩) := by decide +kernel
  obtain ⟨bs, henc, hlen, -, -, -, hiff⟩ := appendTo_of_decodeNext ofText_sample (by decide) hread hfloats
  obtain ⟨bs', henc', -, -, -, -, hiff'⟩ := appendTo_of_decodeNext ofText_sample (by decide) hread' hfloats
  obtain rfl := Except.ok.inj (henc.symm.trans henc')
  refine ⟨bs, henc, hlen, hlong, ?_, hshort, (hiff' short hshort rfl).2 ?_⟩
  · intro hbytes
    have hplain : ScalarType.bool.IsPlain [9] :=
      (hiff long hlong rfl).1 hbytes (.place .bool [9]) (by simp [long, sampleParts])
    simp [ScalarType.IsPlain] at hplain
  · have hshortest : ∀ {n : Nat} {bs : Bytes}, LengthPrefix.encode n = .ok bs → LengthPrefix.IsShortest bs :=
      fun h => (LengthPrefix.isShortest_iff (LengthPrefix.measures_of_encode h)).2 h
    have h25 := hshortest (by decide : LengthPrefix.encode 25 = .ok [0, 0, 0, 25])
    have h9 := hshortest (by decide : LengthPrefix.encode 9 = .ok [0, 0, 0, 9])
    have h1 := hshortest (by decide : LengthPrefix.encode 1 = .ok [0, 0, 0, 1])
    have h0 := hshortest (by decide : LengthPrefix.encode 0 = .ok [0, 0, 0, 0])
    simp [short, sampleParts, Part.IsCanonical, ScalarType.IsPlain, h25, h9, h1, h0]

end Codec

end RecordPack

import RecordPack.Proofs.Record.Isolation

/-!
# A row is no larger than its record

What a record announces and what it holds are two things. `Value.PaidBy vs n` says that `n` bytes are enough for the
items of all lists in some values, one byte each, and for all their byte strings. A row that is read is paid for by the
bytes of its record, whatever its counts and lengths say (`Field.CarriesAll.paidBy`): a place is as wide as its value,
and a string stands behind its length. So a list of strings that announces more items than there can be lengths in its
payload is not read (`Field.four_mul_count_le`).
-/

namespace RecordPack

open LengthPrefix (Measures)

/-! ## What values hold -/

namespace Value

mutual

/-- The number of items of all lists in a value. -/
def itemCount : Value → Nat
  | list items => items.length + itemCountAll items
  | _ => 0

def itemCountAll : List Value → Nat
  | [] => 0
  | v :: vs => itemCount v + itemCountAll vs

end

mutual

/-- The number of bytes of all byte strings in a value. -/
def byteCount : Value → Nat
  | bytes bs => bs.length
  | list items => byteCountAll items
  | _ => 0

def byteCountAll : List Value → Nat
  | [] => 0
  | v :: vs => byteCount v + byteCountAll vs

end

/-- So many bytes are enough for all items of the values, and for all their byte strings. -/
structure PaidBy (vs : List Value) (n : Nat) : Prop where
  items : itemCountAll vs ≤ n
  bytes : byteCountAll vs ≤ n

theorem PaidBy.nil : PaidBy [] 0 := ⟨Nat.le_refl _, Nat.le_refl _⟩

theorem PaidBy.cons {v : Value} {vs : List Value} {m n : Nat} (h : PaidBy [v] m) (h' : PaidBy vs n) :
    PaidBy (v :: vs) (m + n) := by
  obtain ⟨hitems, hbytes⟩ := h
  obtain ⟨hitems', hbytes'⟩ := h'
  simp only [itemCountAll, byteCountAll, Nat.add_zero] at hitems hbytes
  constructor
  · exact Nat.add_le_add hitems hitems'
  · exact Nat.add_le_add hbytes hbytes'

theorem PaidBy.mono {vs : List Value} {m n : Nat} (h : PaidBy vs m) (hle : m ≤ n) : PaidBy vs n :=
  ⟨Nat.le_trans h.items hle, Nat.le_trans h.bytes hle⟩

/-- Where no item is a list, a byte for each is enough for all. -/
theorem PaidBy.list {items : List Value} {n : Nat} (hflat : itemCountAll items = 0) (hlen : items.length ≤ n)
    (hbytes : byteCountAll items ≤ n) : PaidBy [.list items] n := by
  constructor
  · simpa only [itemCountAll, itemCount, hflat, Nat.add_zero] using hlen
  · simpa only [byteCountAll, byteCount, Nat.add_zero] using hbytes

end Value

open Value (itemCount itemCountAll byteCount byteCountAll PaidBy)

/-! ## What is read from places and strings -/

namespace ScalarType

theorem itemCount_read (e : Endian) (type : ScalarType) (bs : Bytes) : (type.read e bs).itemCount = 0 := by
  cases type <;> rfl

theorem byteCount_read_le (e : Endian) (type : ScalarType) (bs : Bytes) :
    (type.read e bs).byteCount ≤ bs.length := by
  cases type
  case bytes => exact Nat.le_refl _
  all_goals exact Nat.zero_le _

theorem itemCountAll_map_read (e : Endian) (type : ScalarType) (places : List Bytes) :
    itemCountAll (places.map (type.read e)) = 0 := by
  induction places with
  | nil => rfl
  | cons bs places ih => rw [List.map_cons, itemCountAll, itemCount_read, ih]

theorem byteCountAll_map_read_le (e : Endian) (type : ScalarType) (places : List Bytes) :
    byteCountAll (places.map (type.read e)) ≤ places.flatten.length := by
  induction places with
  | nil => exact Nat.le_refl _
  | cons bs places ih =>
    rw [List.map_cons, byteCountAll, List.flatten_cons, List.length_append]
    exact Nat.add_le_add (type.byteCount_read_le e bs) ih

end ScalarType

theorem itemCountAll_strings (strings : List (Bytes × Bytes)) :
    itemCountAll (strings.map (.bytes ·.2)) = 0 := by
  induction strings with
  | nil => rfl
  | cons x strings ih =>
    rw [List.map_cons, itemCountAll, ih]
    rfl

/-- Strings take up four bytes each, for their lengths, and their own bytes. -/
theorem byteCountAll_strings_le {strings : List (Bytes × Bytes)} (h : ∀ x ∈ strings, Measures x.1 x.2.length) :
    4 * strings.length + byteCountAll (strings.map (.bytes ·.2)) ≤
      (Part.allBytes (strings.flatMap Part.ofString)).length := by
  induction strings with
  | nil => exact Nat.le_refl _
  | cons x strings ih =>
    obtain ⟨hx, hstrings⟩ := List.forall_mem_cons.1 h
    have hwidth := hx.length_eq
    have hrest := ih hstrings
    simp only [List.map_cons, byteCountAll, byteCount, List.length_cons, List.flatMap_cons, Part.ofString,
      Part.allBytes_append, Part.allBytes_cons, Part.allBytes_nil, Part.bytes, List.length_append,
      List.length_nil] at hrest ⊢
    omega

/-! ## What is read from fields -/

namespace Field

variable {e : Endian} {f : Field}

theorem Carries.paidBy {ps : List Part} {v : Value} (hf : f.WellFormed) (h : f.Carries e ps v) :
    PaidBy [v] (Part.allBytes ps).length := by
  cases h with
  | @scalar bs hcount hwidth =>
    have hbytes := f.type.byteCount_read_le e bs
    constructor
    · simp [itemCountAll, ScalarType.itemCount_read]
    · simpa [byteCountAll] using hbytes
  | @string p s hcount hwidth hm =>
    constructor
    · exact Nat.zero_le _
    · simp [byteCountAll, byteCount, Part.ofString]
  | @list extent width count places hcount hwidth hc hall =>
    have hlen := ScalarType.length_flatten_places hall
    -- a place has bytes, so there are no more places than bytes
    have hplaces : places.length ≤ places.flatten.length := by
      rw [hlen]
      exact Nat.le_mul_of_pos_right _ (hf.width_pos width hwidth)
    refine PaidBy.mono (.list (f.type.itemCountAll_map_read e places) ?_ (f.type.byteCountAll_map_read_le e places)) ?_
    · rwa [List.length_map]
    · rw [Part.allBytes_append, Part.allBytes_places, List.length_append]
      exact Nat.le_add_left _ _
  | @strings extent size count strings hcount hwidth hsize hc hall =>
    have hpayload := byteCountAll_strings_le hall
    refine PaidBy.mono (.list (itemCountAll_strings strings) ?_ (Nat.le_trans (Nat.le_add_left _ _) hpayload)) ?_
    · rw [List.length_map]
      omega
    · rw [Part.allBytes_cons, Part.allBytes_append, List.length_append, List.length_append]
      omega

theorem CarriesAll.paidBy {fs : List Field} {ps : List Part} {row : Row} (hfs : ∀ f ∈ fs, f.WellFormed)
    (h : CarriesAll e fs ps row) : PaidBy row (Part.allBytes ps).length := by
  induction h with
  | nil => exact .nil
  | cons hcar _ ih =>
    obtain ⟨hf, hfs⟩ := List.forall_mem_cons.1 hfs
    rw [Part.allBytes_append, List.length_append]
    exact (hcar.paidBy hf).cons (ih hfs)

/-- A list of strings that is read has announced no more items than there can be lengths in its payload. -/
theorem four_mul_count_le {extent : Extent} {c c₁ c₂ c' : Cursor} {size count : Nat} {v : Value}
    (hwidth : f.width = .dynamic) (hcount : f.count = some extent) (hsize : c.length = .ok (size, c₁))
    (hn : extent.readCount c₁ = .ok (count, c₂)) (h : f.read e c = .ok (v, c')) : 4 * count ≤ size := by
  simp only [read, hcount, hwidth, hsize, hn, ok_bind, bind_eq_ok, Prod.exists] at h
  obtain ⟨piece, c₃, hpiece, v', hv, -⟩ := h
  obtain ⟨payload, rfl, rfl, -⟩ := Cursor.split_eq_ok.1 hpiece
  obtain ⟨strings, -, rfl, hall, rfl⟩ := Reader.payload_eq_ok.1 hv
  have hpayload := byteCountAll_strings_le hall
  rw [Part.allBytes_strings] at hpayload
  omega

end Field

/-! ## Records -/

namespace Codec

variable {c : Codec} {data : Bytes} {cursor : Nat}

/-- The reader of the body comes to a list of strings, of which the record says that it takes up `size` bytes. It
has `count` items: so says the record too, or the schema. -/
inductive Announces (c : Codec) (fr : Frame data cursor) : (size count : Nat) → Prop
  | intro {before after : List Field} {f : Field} {extent : Extent} {row : Row} {here afterSize afterCount : Cursor}
      {size count : Nat} :
      c.schema.fields = before ++ f :: after → f.width = .dynamic → f.count = some extent →
      Field.readAll c.endian before ⟨fr.start, fr.body⟩ = .ok (row, here) →
      here.length = .ok (size, afterSize) → extent.readCount afterSize = .ok (count, afterCount) →
      Announces c fr size count

/-- A body that is read holds the fields, one after the other. -/
theorem readAll_of_readBody {body : Cursor} {row : Row} (h : c.readBody body = .ok row) :
    ∃ rest, Field.readAll c.endian c.schema.fields body = .ok (row, rest) := by
  simp only [readBody, bind_eq_ok, Prod.exists] at h
  obtain ⟨row', rest, hsegs, hused⟩ := h
  obtain ⟨parts, hcar, hp⟩ := Reader.carriesAll_of_segments c.covers hsegs
  unfold Reader.usedUp at hused
  split at hused
  · cases hused
    exact ⟨rest, Field.readAll_eq_ok.2 ⟨parts, hcar, hp⟩⟩
  · cases hused

theorem four_mul_count_le_of_announces {fr : Frame data cursor} {size count : Nat} {row : Row}
    (hlist : c.Announces fr size count) (h : c.readBody ⟨fr.start, fr.body⟩ = .ok row) : 4 * count ≤ size := by
  obtain ⟨rest, hall⟩ := readAll_of_readBody h
  cases hlist with
  | intro hfields hwidth hcount hbefore hsize hn =>
    rw [hfields, Field.readAll_append, hbefore] at hall
    simp only [ok_bind, Field.readAll, bind_eq_ok, Prod.exists] at hall
    obtain ⟨_, _, ⟨v, _, hf, -⟩, -⟩ := hall
    exact Field.four_mul_count_le hwidth hcount hsize hn hf

/-- A row that is read from any bytes at all has a value for each field, and no more items in its lists, and no more
bytes in its byte strings, than its record has bytes, all of which are in the buffer. A list of strings with more items
than a quarter of the bytes that it is said to take up is an error. -/
theorem decodeNext_bounded {options : ParseOptions} {text : String} {c : Codec}
    (hc : (Codec.ofText options text).run.value = .ok c) (data : Bytes) (cursor : Nat) :
    (∀ d, (c.decodeNext data cursor).run.value = .ok (some d) →
      d.row.length = c.schema.arity ∧ cursor < d.next ∧ d.next ≤ data.length ∧
        itemCountAll d.row ≤ d.next - cursor ∧ byteCountAll d.row ≤ d.next - cursor) ∧
      ∀ (fr : Frame data cursor) (size count : Nat), c.Announces fr size count → size < 4 * count →
        ∃ err, (c.decodeNext data cursor).run.value = .error err := by
  simp only [value_decodeNext]
  refine ⟨?_, ?_⟩
  · intro d hd
    obtain ⟨ps, hcar, hbytes, hlen⟩ := carries_of_readAt hd
    have hwf := (wellFormed_of_ofText hc).fields
    have hinside : (Part.allBytes ps).length ≤ data.length - cursor := by
      rw [hbytes, List.length_take, List.length_drop]
      exact Nat.min_le_right _ _
    obtain ⟨hin, hlt⟩ := lt_next_of_readAt hd
    have harity := hcar.length_eq
    obtain ⟨head, body, rfl, -, hall⟩ := hcar
    -- the length in front pays for nothing
    have hbody : (Part.allBytes body).length ≤ d.next - cursor := by
      rw [← hlen, Part.allBytes_cons, List.length_append]
      exact Nat.le_add_left _ _
    have hpaid := (hall.paidBy hwf).mono hbody
    exact ⟨harity, hlt, by omega, hpaid.items, hpaid.bytes⟩
  · intro fr size count hlist hlt
    cases hbody : c.readBody ⟨fr.start, fr.body⟩ with
    | error err => exact ⟨err, by rw [readAt_of_frame c fr, hbody]; rfl⟩
    | ok row =>
      have hle := four_mul_count_le_of_announces hlist hbody
      omega

/-- A row with three items and one byte in its strings; and the same record, but that its two strings are said to take
up seven bytes. -/
theorem decodeNext_bounded_sample :
    (∃ d, (sample.decodeNext
        [0, 0, 0, 25, 2, 1, 1, 0, 0, 0, 0, 1, 0, 0, 128, 191, 0, 0, 0, 9, 0, 0, 0, 0, 0, 0, 0, 1, 65] 0).run.value =
        .ok (some d) ∧ itemCountAll d.row ≤ 29 ∧ byteCountAll d.row ≤ 29) ∧
      ∃ err, (sample.decodeNext
        [7, 0, 0, 0, 25, 2, 1, 1, 0, 0, 0, 0, 1, 0, 0, 128, 191, 0, 0, 0, 7, 0, 0, 0, 0, 0, 0, 0, 1, 65] 1).run.value =
        .error err := by
  constructor
  · let data : Bytes := [0, 0, 0, 25, 2, 1, 1, 0, 0, 0, 0, 1, 0, 0, 128, 191, 0, 0, 0, 9, 0, 0, 0, 0, 0, 0, 0, 1, 65]
    have hread : (sample.decodeNext data 0).run.value = .ok (some ⟨[.int 258, .bool true, .pad,
        .list [.f32 ⟨0xBF800000⟩], .list [.bytes [], .bytes [65]]], 4, 29⟩) := by decide +kernel
    obtain ⟨-, -, -, hitems, hbytes⟩ := (decodeNext_bounded ofText_sample data 0).1 _ hread
    exact ⟨_, hread, hitems, hbytes⟩
  · let data : Bytes :=
      [7, 0, 0, 0, 25, 2, 1, 1, 0, 0, 0, 0, 1, 0, 0, 128, 191, 0, 0, 0, 7, 0, 0, 0, 0, 0, 0, 0, 1, 65]
    let fr : Frame data 1 := ⟨4, 25, by decide, by decide⟩
    have hfields : sample.schema.fields = sample.schema.fields.take 4 ++
        ({ id := "tags", type := .bytes, width := .dynamic, count := some (.fixed 2) } : Field) :: [] := rfl
    have hbefore : Field.readAll sample.endian (sample.schema.fields.take 4) ⟨fr.start, fr.body⟩ =
        .ok ([.int 258, .bool true, .pad, .list [.f32 ⟨0xBF800000⟩]],
          ⟨17, [0, 0, 0, 7, 0, 0, 0, 0, 0, 0, 0, 1, 65]⟩) := by decide +kernel
    have hlist : sample.Announces fr 7 2 := .intro hfields rfl rfl hbefore rfl rfl
    exact (decodeNext_bounded ofText_sample data 1).2 fr 7 2 hlist (by decide)

end Codec

end RecordPack

import RecordPack.Proofs.Record.Cursor
import RecordPack.Proofs.Record.FieldByField
import RecordPack.Proofs.Record.Place
import RecordPack.Proofs.Schema.WellFormed

/-!
# Parts of a record

The bytes of a record are prefixes, places of values, and strings, one after the other.
`Field.Carries e f ps v` says that the parts `ps` are a form of the value `v` in the field `f`; there may be
many, since a reader takes long prefixes, any byte that is not zero for true, and any filler. A reader of a
field succeeds exactly on such forms (`Field.read_eq_ok`), and a writer makes one of them
(`Field.carries_of_write`).
-/

namespace RecordPack

open LengthPrefix (Measures)

/-- A part of a record. -/
inductive Part where
  /-- The prefix for a length or a count. -/
  | measure (bs : Bytes)
  /-- The place of a value. -/
  | place (type : ScalarType) (bs : Bytes)
  /-- A byte string, after its length. -/
  | text (bs : Bytes)

namespace Part

/-- The bytes of a part. -/
@[simp] def bytes : Part → Bytes
  | measure bs => bs
  | place _ bs => bs
  | text bs => bs

/-- The bytes of parts, one after the other. -/
def allBytes (ps : List Part) : Bytes := ps.flatMap bytes

@[simp] theorem allBytes_nil : allBytes [] = [] := rfl

@[simp] theorem allBytes_cons (p : Part) (ps : List Part) : allBytes (p :: ps) = p.bytes ++ allBytes ps := rfl

@[simp] theorem allBytes_append (ps qs : List Part) : allBytes (ps ++ qs) = allBytes ps ++ allBytes qs :=
  List.flatMap_append

@[simp] theorem allBytes_places (type : ScalarType) (places : List Bytes) :
    allBytes (places.map (place type)) = places.flatten := by
  induction places with
  | nil => rfl
  | cons b bs ih => simp [ih]

/-- A string behind its length. -/
def ofString (x : Bytes × Bytes) : List Part := [measure x.1, text x.2]

@[simp] theorem allBytes_strings (strings : List (Bytes × Bytes)) :
    allBytes (strings.flatMap ofString) = strings.flatMap fun x => x.1 ++ x.2 := by
  induction strings with
  | nil => rfl
  | cons x xs ih => simp [ofString, ih]

end Part

/-- The parts say how many items there are, unless the schema does. -/
inductive Extent.Counts : Extent → Nat → List Part → Prop
  | fixed (n : Nat) : Counts (.fixed n) n []
  | dynamic {n : Nat} {p : Bytes} : Measures p n → Counts .dynamic n [.measure p]

/-- The parts are a form of the value in the field. -/
inductive Field.Carries (e : Endian) (f : Field) : List Part → Value → Prop
  | scalar {bs : Bytes} : f.count = none → f.width = .fixed bs.length →
      Carries e f [.place f.type bs] (f.type.read e bs)
  | string {p s : Bytes} : f.count = none → f.width = .dynamic → Measures p s.length →
      Carries e f (Part.ofString (p, s)) (.bytes s)
  | list {extent : Extent} {width : Nat} {count : List Part} {places : List Bytes} :
      f.count = some extent → f.width = .fixed width → extent.Counts places.length count →
      (∀ bs ∈ places, bs.length = width) →
      Carries e f (count ++ places.map (.place f.type)) (.list (places.map (f.type.read e)))
  | strings {extent : Extent} {size : Bytes} {count : List Part} {strings : List (Bytes × Bytes)} :
      f.count = some extent → f.width = .dynamic →
      Measures size (Part.allBytes (strings.flatMap Part.ofString)).length →
      extent.Counts strings.length count → (∀ x ∈ strings, Measures x.1 x.2.length) →
      Carries e f (.measure size :: (count ++ strings.flatMap Part.ofString)) (.list (strings.map (.bytes ·.2)))

/-- The parts are a form of the row in the fields. -/
inductive Field.CarriesAll (e : Endian) : List Field → List Part → Row → Prop
  | nil : CarriesAll e [] [] []
  | cons {f : Field} {fs : List Field} {ps qs : List Part} {v : Value} {vs : Row} :
      f.Carries e ps v → CarriesAll e fs qs vs → CarriesAll e (f :: fs) (ps ++ qs) (v :: vs)

theorem Field.CarriesAll.length_eq {e : Endian} {fs : List Field} {ps : List Part} {row : Row}
    (h : CarriesAll e fs ps row) : row.length = fs.length := by
  induction h with
  | nil => rfl
  | cons _ _ ih => rw [List.length_cons, List.length_cons, ih]

/-! ## Reading -/

theorem ScalarType.readAll_flatten (e : Endian) (type : ScalarType) {width : Nat} {places : List Bytes}
    (h : ∀ bs ∈ places, bs.length = width) :
    type.readAll e width places.length places.flatten = places.map (type.read e) := by
  induction places with
  | nil => rfl
  | cons b bs ih =>
    have hb : b.length = width := h b List.mem_cons_self
    -- the first place is as wide as what the reader takes
    rw [List.length_cons, List.flatten_cons, readAll, ← hb, List.take_left, List.drop_left, hb,
      ih fun b' hb' => h b' (List.mem_cons_of_mem _ hb')]
    rfl

/-- A block of equal places falls into them. -/
theorem exists_places {width : Nat} : ∀ {n : Nat} {block : Bytes}, block.length = n * width →
    ∃ places : List Bytes, places.length = n ∧ (∀ bs ∈ places, bs.length = width) ∧ places.flatten = block := by
  intro n
  induction n with
  | zero =>
    intro block h
    rw [Nat.zero_mul] at h
    exact ⟨[], rfl, by simp, (List.eq_nil_of_length_eq_zero h).symm⟩
  | succ n ih =>
    intro block h
    rw [Nat.succ_mul] at h
    obtain ⟨places, hlen, hall, hflat⟩ := ih (by rw [List.length_drop, h, Nat.add_sub_cancel] :
      (block.drop width).length = n * width)
    refine ⟨block.take width :: places, by rw [List.length_cons, hlen], ?_, ?_⟩
    · intro bs hbs
      rcases List.mem_cons.1 hbs with rfl | hbs
      · rw [List.length_take, h]
        omega
      · exact hall bs hbs
    · rw [List.flatten_cons, hflat, List.take_append_drop]

theorem Extent.readCount_eq_ok {extent : Extent} {n : Nat} {c c' : Cursor} :
    extent.readCount c = .ok (n, c') ↔ ∃ ps, extent.Counts n ps ∧ c.Passes (Part.allBytes ps) c' := by
  cases extent with
  | fixed m =>
    simp only [readCount, Except.ok.injEq, Prod.mk.injEq]
    constructor
    · rintro ⟨rfl, rfl⟩
      exact ⟨[], .fixed m, Cursor.passes_nil.2 rfl⟩
    · rintro ⟨ps, ⟨⟩, hp⟩
      exact ⟨rfl, (Cursor.passes_nil.1 hp).symm⟩
  | dynamic =>
    simp only [readCount, Cursor.length_eq_ok]
    constructor
    · rintro ⟨p, hm, hp⟩
      exact ⟨[.measure p], .dynamic hm, by simpa using hp⟩
    · rintro ⟨ps, hc, hp⟩
      cases hc with
      | dynamic hm => exact ⟨_, hm, by simpa using hp⟩

namespace Field

variable {e : Endian} {f : Field} {c c' : Cursor}

theorem carries_of_read {v : Value} (h : f.read e c = .ok (v, c')) :
    ∃ ps, f.Carries e ps v ∧ c.Passes (Part.allBytes ps) c' := by
  unfold read at h
  split at h <;> simp only [bind_eq_ok, Prod.exists, pure_eq_ok, Prod.mk.injEq] at h
  case h_1 width hcount hwidth =>
    obtain ⟨bs, c₁, hb, rfl, rfl⟩ := h
    obtain ⟨rfl, hp⟩ := Cursor.take_eq_ok.1 hb
    exact ⟨_, .scalar hcount hwidth, by simpa using hp⟩
  case h_2 hcount hwidth =>
    obtain ⟨s, c₁, hs, rfl, rfl⟩ := h
    obtain ⟨p, hm, hp⟩ := Reader.string_eq_ok.1 hs
    exact ⟨_, .string hcount hwidth hm, by simpa [Part.ofString] using hp⟩
  case h_3 extent width hcount hwidth =>
    obtain ⟨n, c₁, hn, block, c₂, hb, rfl, rfl⟩ := h
    obtain ⟨count, hc, hp⟩ := Extent.readCount_eq_ok.1 hn
    obtain ⟨hlen, hp'⟩ := Cursor.take_eq_ok.1 hb
    -- the block of the items is as many places as were counted
    obtain ⟨places, rfl, hall, rfl⟩ := exists_places hlen
    rw [ScalarType.readAll_flatten e f.type hall]
    refine ⟨_, .list hcount hwidth hc hall, ?_⟩
    rw [Part.allBytes_append, Part.allBytes_places]
    exact Cursor.passes_append.2 ⟨c₁, hp, hp'⟩
  case h_4 extent hcount hwidth =>
    obtain ⟨m, c₁, hm, n, c₂, hn, piece, c₃, hpiece, v', hv, rfl, rfl⟩ := h
    obtain ⟨size, hsize, hp⟩ := Cursor.length_eq_ok.1 hm
    obtain ⟨count, hc, hp'⟩ := Extent.readCount_eq_ok.1 hn
    obtain ⟨bs, rfl, rfl, hp''⟩ := Cursor.split_eq_ok.1 hpiece
    obtain ⟨strings, rfl, rfl, hall, rfl⟩ := Reader.payload_eq_ok.1 hv
    refine ⟨_, .strings hcount hwidth (by rwa [Part.allBytes_strings]) hc hall, ?_⟩
    rw [Part.allBytes_cons, Part.allBytes_append, Part.allBytes_strings]
    exact Cursor.passes_append.2 ⟨c₁, hp, Cursor.passes_append.2 ⟨c₂, hp', hp''⟩⟩

theorem read_of_carries {ps : List Part} {v : Value} (h : f.Carries e ps v)
    (hp : c.Passes (Part.allBytes ps) c') : f.read e c = .ok (v, c') := by
  cases h with
  | @scalar bs hcount hwidth =>
    simp only [read, hcount, hwidth, bind_eq_ok, Prod.exists, pure_eq_ok, Prod.mk.injEq]
    exact ⟨bs, c', Cursor.take_eq_ok.2 ⟨rfl, by simpa using hp⟩, rfl, rfl⟩
  | @string p s hcount hwidth hm =>
    simp only [read, hcount, hwidth, bind_eq_ok, Prod.exists, pure_eq_ok, Prod.mk.injEq]
    refine ⟨s, c', Reader.string_eq_ok.2 ⟨p, hm, ?_⟩, rfl, rfl⟩
    simpa [Part.ofString] using hp
  | @list extent width count places hcount hwidth hc hall =>
    rw [Part.allBytes_append, Part.allBytes_places] at hp
    obtain ⟨c₁, hp, hp'⟩ := Cursor.passes_append.1 hp
    simp only [read, hcount, hwidth, bind_eq_ok, Prod.exists, pure_eq_ok, Prod.mk.injEq]
    refine ⟨places.length, c₁, Extent.readCount_eq_ok.2 ⟨count, hc, hp⟩, places.flatten, c', ?_, ?_, rfl⟩
    · exact Cursor.take_eq_ok.2 ⟨ScalarType.length_flatten_places hall, hp'⟩
    · rw [ScalarType.readAll_flatten e f.type hall]
  | @strings extent size count strings hcount hwidth hsize hc hall =>
    rw [Part.allBytes_strings] at hsize
    rw [Part.allBytes_cons, Part.allBytes_append, Part.allBytes_strings] at hp
    obtain ⟨c₁, hp, hp'⟩ := Cursor.passes_append.1 hp
    obtain ⟨c₂, hp', hp''⟩ := Cursor.passes_append.1 hp'
    simp only [read, hcount, hwidth, bind_eq_ok, Prod.exists, pure_eq_ok, Prod.mk.injEq]
    refine ⟨_, c₁, Cursor.length_eq_ok.2 ⟨size, hsize, hp⟩, strings.length, c₂,
      Extent.readCount_eq_ok.2 ⟨count, hc, hp'⟩, _, c', Cursor.split_eq_ok.2 ⟨_, rfl, rfl, hp''⟩, _, ?_, rfl, rfl⟩
    exact Reader.payload_eq_ok.2 ⟨strings, rfl, rfl, hall, rfl⟩

/-- A field reads as a value exactly if a form of the value comes next. -/
theorem read_eq_ok {v : Value} :
    f.read e c = .ok (v, c') ↔ ∃ ps, f.Carries e ps v ∧ c.Passes (Part.allBytes ps) c' := by
  constructor
  · exact carries_of_read
  · rintro ⟨ps, hcar, hp⟩
    exact read_of_carries hcar hp

/-- Fields read as a row exactly if a form of the row comes next. -/
theorem readAll_eq_ok {fs : List Field} : ∀ {c c' : Cursor} {row : Row},
    readAll e fs c = .ok (row, c') ↔ ∃ ps, CarriesAll e fs ps row ∧ c.Passes (Part.allBytes ps) c' := by
  induction fs with
  | nil =>
    intro c c' row
    simp only [readAll, Except.ok.injEq, Prod.mk.injEq]
    constructor
    · rintro ⟨rfl, rfl⟩
      exact ⟨[], .nil, Cursor.passes_nil.2 rfl⟩
    · rintro ⟨ps, ⟨⟩, hp⟩
      exact ⟨rfl, (Cursor.passes_nil.1 hp).symm⟩
  | cons f fs ih =>
    intro c c' row
    simp only [readAll, bind_eq_ok, Prod.exists, read_eq_ok, ih, pure_eq_ok, Prod.mk.injEq]
    constructor
    · rintro ⟨v, c₁, ⟨ps, hcar, hp⟩, vs, c₂, ⟨qs, hcars, hp'⟩, rfl, rfl⟩
      refine ⟨ps ++ qs, .cons hcar hcars, ?_⟩
      rw [Part.allBytes_append]
      exact Cursor.passes_append.2 ⟨c₁, hp, hp'⟩
    · rintro ⟨_, hall, hp⟩
      cases hall with
      | @cons _ _ ps qs v vs hcar hcars =>
        rw [Part.allBytes_append] at hp
        obtain ⟨c₁, hp, hp'⟩ := Cursor.passes_append.1 hp
        exact ⟨v, c₁, ⟨ps, hcar, hp⟩, vs, c', ⟨qs, hcars, hp'⟩, rfl, rfl⟩

end Field

/-! ## Writing -/

theorem Field.WellFormed.fits {f : Field} (h : f.WellFormed) {width : Nat} (hwidth : f.width = .fixed width) :
    f.type.Fits width := by
  cases hs : f.type.isString with
  | true =>
    left
    cases htype : f.type <;> rw [htype] at hs <;> first | rfl | cases hs
  | false =>
    right
    have := hwidth.symm.trans (h.width_eq hs)
    injection this

theorem Extent.counts_of_countBytes {extent : Extent} {items : List Value} {b : Bytes}
    (hitems : extent.checkItems items = .ok ()) (h : extent.countBytes items.length = .ok b) :
    ∃ ps, extent.Counts items.length ps ∧ Part.allBytes ps = b := by
  cases extent with
  | fixed m =>
    cases h
    simp only [checkItems, Writer.checkCount] at hitems
    split at hitems
    · next hlen =>
      subst hlen
      exact ⟨[], .fixed _, rfl⟩
    · cases hitems
  | dynamic =>
    have hm := LengthPrefix.measures_of_encode (mapError_eq_ok.1 h)
    exact ⟨[.measure b], .dynamic hm, by simp⟩

theorem Field.itemsOf_eq_ok {f : Field} {extent : Extent} {v : Value} {items : List Value} :
    f.itemsOf extent v = .ok items ↔ v = .list items ∧ extent.checkItems items = .ok () := by
  simp only [itemsOf, bind_eq_ok, mapError_eq_ok, pure_eq_ok]
  constructor
  · rintro ⟨items', hv, u, hitems, rfl⟩
    cases v <;> cases hv
    exact ⟨rfl, hitems⟩
  · rintro ⟨rfl, hitems⟩
    exact ⟨items, rfl, (), hitems, rfl⟩

theorem Writer.bytesOf_eq_ok {v : Value} {bs : Bytes} : bytesOf v = .ok bs ↔ v = .bytes bs := by
  cases v <;> simp [bytesOf]

theorem mapM_bytesOf_eq_ok {items : List Value} {strings : List Bytes} :
    items.mapM Writer.bytesOf = .ok strings ↔ items = strings.map .bytes := by
  simp only [mapM_eq_ok, Writer.bytesOf_eq_ok]
  rw [← List.forall₂_map_right_iff, List.forall₂_eq_eq_eq]

/-- Strings that are written are strings behind their lengths. -/
theorem exists_strings {ss pieces : List Bytes} (h : ss.mapM Strings.writeOne = .ok pieces) :
    ∃ strings : List (Bytes × Bytes), strings.map Prod.snd = ss ∧ (∀ x ∈ strings, Measures x.1 x.2.length) ∧
      Part.allBytes (strings.flatMap Part.ofString) = pieces.flatten := by
  -- induction on the strings together with what is written for each
  have hall := mapM_eq_ok.1 h
  clear h
  induction hall with
  | nil => exact ⟨[], rfl, by simp, rfl⟩
  | @cons s b ss bs hb _ ih =>
    obtain ⟨strings, rfl, hmeas, hbytes⟩ := ih
    obtain ⟨p, hp, rfl⟩ := map_eq_ok.1 hb
    refine ⟨(p, s) :: strings, rfl, ?_, ?_⟩
    · intro x hx
      rcases List.mem_cons.1 hx with rfl | hx
      · exact LengthPrefix.measures_of_encode hp
      · exact hmeas x hx
    · rw [List.flatMap_cons, Part.allBytes_append, hbytes, List.flatten_cons]
      simp [Part.ofString]

/-- A place that is written is a form of the settled value. -/
theorem Field.carries_place {e : Endian} {f : Field} (hf : f.WellFormed) {width : Nat} {v : Value} {b : Bytes}
    (hcount : f.count = none) (hwidth : f.width = .fixed width) (h : f.type.write e width v = .ok b) :
    f.Carries e [.place f.type b] (f.settle v) := by
  have hsettle : f.settle v = f.type.read e b := by
    rw [ScalarType.read_of_write (hf.fits hwidth) h]
    simp only [settle, hcount, hwidth]
  rw [hsettle]
  exact .scalar hcount (by rw [hwidth, ScalarType.length_of_write h])

/-- Places that are written, behind their count, are a form of the list of the settled items. -/
theorem Field.carries_places {e : Endian} {f : Field} (hf : f.WellFormed) {extent : Extent} {width : Nat}
    {items : List Value} {count : List Part} {places : List Bytes} (hcount : f.count = some extent)
    (hwidth : f.width = .fixed width) (hc : extent.Counts items.length count)
    (h : items.mapM (f.type.write e width) = .ok places) :
    f.Carries e (count ++ places.map (.place f.type)) (f.settle (.list items)) := by
  obtain ⟨hlen, hall, hmap⟩ := ScalarType.places_of_mapM h
  -- each place holds its item as the type settles it
  have hsettle : f.settle (.list items) = .list (places.map (f.type.read e)) := by
    simp only [settle, hcount, hwidth, hmap (hf.fits hwidth)]
  rw [hsettle]
  exact .list hcount hwidth (hlen ▸ hc) hall

/-- What is written for a value is a form of the settled value. -/
theorem Field.carries_of_write {e : Endian} {f : Field} (hf : f.WellFormed) {v : Value} {b : Bytes}
    (h : f.write e v = .ok b) : ∃ ps, f.Carries e ps (f.settle v) ∧ Part.allBytes ps = b := by
  unfold write at h
  split at h
  case h_1 width hcount hwidth =>
    exact ⟨_, carries_place hf hcount hwidth (mapError_eq_ok.1 h), by simp⟩
  case h_2 hcount hwidth =>
    simp only [bind_eq_ok, mapError_eq_ok, Writer.bytesOf_eq_ok] at h
    obtain ⟨s, rfl, hs⟩ := h
    obtain ⟨p, hp, rfl⟩ := map_eq_ok.1 hs
    have hsettle : f.settle (.bytes s) = .bytes s := by simp only [settle, hcount, hwidth]
    rw [hsettle]
    exact ⟨_, .string hcount hwidth (LengthPrefix.measures_of_encode hp), by simp [Part.ofString]⟩
  case h_3 extent width hcount hwidth =>
    simp only [bind_eq_ok, mapError_eq_ok, pure_eq_ok, itemsOf_eq_ok] at h
    obtain ⟨items, ⟨rfl, hitems⟩, cb, hcb, places, hplaces, rfl⟩ := h
    obtain ⟨count, hc, rfl⟩ := Extent.counts_of_countBytes hitems hcb
    exact ⟨_, carries_places hf hcount hwidth hc hplaces, by rw [Part.allBytes_append, Part.allBytes_places]⟩
  case h_4 extent hcount hwidth =>
    simp only [bind_eq_ok, mapError_eq_ok, pure_eq_ok, itemsOf_eq_ok, mapM_bytesOf_eq_ok] at h
    obtain ⟨items, ⟨rfl, hitems⟩, ss, rfl, pieces, hpieces, size, hsize, cb, hcb, rfl⟩ := h
    obtain ⟨strings, rfl, hmeas, hbytes⟩ := exists_strings hpieces
    obtain ⟨count, hc, rfl⟩ := Extent.counts_of_countBytes hitems hcb
    rw [List.length_map, List.length_map] at hc
    have hsettle : f.settle (.list ((strings.map Prod.snd).map .bytes)) = .list (strings.map (.bytes ·.2)) := by
      simp only [settle, hcount, hwidth, List.map_map]
      rfl
    rw [hsettle]
    -- the size in front counts the strings with their lengths, and not the count
    have hm : Measures size (Part.allBytes (strings.flatMap Part.ofString)).length := by
      rw [hbytes]
      exact LengthPrefix.measures_of_encode (mapError_eq_ok.1 hsize)
    refine ⟨_, .strings hcount hwidth hm hc hmeas, ?_⟩
    rw [Part.allBytes_cons, Part.allBytes_append, hbytes, List.append_assoc]
    rfl

/-- What is written for a row is a form of the settled row. -/
theorem Field.carriesAll_of_writeAll {e : Endian} {fs : List Field} : ∀ {row : Row} {b : Bytes},
    (∀ f ∈ fs, f.WellFormed) → row.length = fs.length → writeAll e fs row = .ok b →
      ∃ ps, CarriesAll e fs ps (fs.zipWith Field.settle row) ∧ Part.allBytes ps = b := by
  induction fs with
  | nil =>
    intro row b _ _ h
    cases h
    exact ⟨[], .nil, rfl⟩
  | cons f fs ih =>
    intro row b hwf hlen h
    cases row with
    | nil => cases hlen
    | cons v vs =>
      simp only [writeAll_cons, bind_eq_ok, pure_eq_ok] at h
      obtain ⟨b₁, h₁, b₂, h₂, rfl⟩ := h
      obtain ⟨ps, hcar, rfl⟩ := carries_of_write (hwf f List.mem_cons_self) h₁
      obtain ⟨qs, hcars, rfl⟩ := ih (fun g hg => hwf g (List.mem_cons_of_mem _ hg)) (Nat.succ.inj hlen) h₂
      exact ⟨ps ++ qs, .cons hcar hcars, Part.allBytes_append ps qs⟩

end RecordPack

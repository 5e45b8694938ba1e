import RecordPack.Proofs.Record.Forms
import RecordPack.Proofs.Record.Renaming
import RecordPack.Proofs.Record.RoundTrip

/-!
# What the byte order changes

Byte order touches the numbers of more than one byte and nothing else. `Part.mirror` reverses the bytes of such a number
in its place; the mirrored form of a row is a form of the same row in the other order (`Field.Carries.mirror`), and what
is written there (`Field.write_flip`). The order makes no difference to what succeeds: the writers of both take the same
rows, in as many bytes, and the readers of both come to the same places, whatever the bytes say (`map_bind_congr` steps
through them). Together that is `Codec.mirrors_of_fields_eq`.
-/

namespace RecordPack

/-! ## The other order -/

/-- The other end first. -/
def Endian.flip : Endian → Endian
  | little => big
  | big => little

namespace Endian

theorem eq_flip_of_ne {e e' : Endian} (h : e ≠ e') : e' = e.flip := by
  cases e <;> cases e' <;> first | rfl | exact absurd rfl h

theorem toBytes_flip (e : Endian) (width n : Nat) : e.flip.toBytes width n = (e.toBytes width n).reverse := by
  cases e <;> simp [flip, toBytes]

theorem ofBytes_flip (e : Endian) (bs : Bytes) : e.flip.ofBytes bs.reverse = e.ofBytes bs := by
  cases e <;> simp [flip, ofBytes]

end Endian

namespace ScalarType

variable {type : ScalarType} {e : Endian}

/-- The bytes of a place in the other order: a number of more than one byte is reversed. -/
def mirror (type : ScalarType) (bs : Bytes) : Bytes := if 1 < type.width then bs.reverse else bs

@[simp] theorem length_mirror (type : ScalarType) (bs : Bytes) : (type.mirror bs).length = bs.length := by
  unfold mirror
  split <;> simp

/-- A place of one byte has no order. -/
theorem mirror_eq_reverse {bs : Bytes} (hlen : bs.length = type.width) :
    type.mirror bs = bs.reverse := by
  unfold mirror
  split
  · rfl
  · next hwidth =>
    have hpos := type.width_pos
    obtain ⟨b, rfl⟩ := List.length_eq_one_iff.1 (show bs.length = 1 by omega)
    rfl

theorem read_mirror {bs : Bytes} (hfit : type.Fits bs.length) :
    type.read e.flip (type.mirror bs) = type.read e bs := by
  by_cases htype : type = bytes
  · subst htype
    rfl
  · have hlen := hfit.resolve_left htype
    rw [read_eq_valueOf htype e hlen, read_eq_valueOf htype e.flip (by rwa [length_mirror]),
      mirror_eq_reverse hlen, e.ofBytes_flip]

theorem write_flip {width : Nat} (hfit : type.Fits width) (v : Value) :
    type.write e.flip width v = (type.write e width v).map type.mirror := by
  by_cases htype : type = bytes
  · subst htype
    -- a string is written in either order alike, and is no number
    have hsame : bytes.write e.flip width v = bytes.write e width v := by cases v <;> rfl
    rw [hsame]
    cases bytes.write e width v <;> rfl
  · obtain rfl := hfit.resolve_left htype
    rw [write_of_ne_bytes htype, write_of_ne_bytes htype]
    cases type.pattern v with
    | error fault => rfl
    | ok k => rw [map_ok, map_ok, map_ok, mirror_eq_reverse (Endian.length_toBytes _ _ _), e.toBytes_flip]

theorem mapM_write_flip {width : Nat} (hfit : type.Fits width) (items : List Value) :
    items.mapM (type.write e.flip width) = (items.mapM (type.write e width)).map (List.map type.mirror) := by
  rw [← mapM_map]
  exact congrArg (items.mapM ·) (funext (write_flip hfit))

end ScalarType

/-! ## Mirrored parts -/

/-- The part in the other order. Only the place of a number of more than one byte is changed. -/
def Part.mirror : Part → Part
  | place type bs => place type (type.mirror bs)
  | p => p

theorem Part.mirror_places (type : ScalarType) (places : List Bytes) :
    (places.map (place type)).map mirror = (places.map type.mirror).map (place type) := by
  rw [List.map_map, List.map_map]
  rfl

@[simp] theorem Part.mirror_strings (strings : List (Bytes × Bytes)) :
    (strings.flatMap ofString).map mirror = strings.flatMap ofString := by
  rw [List.map_flatMap]
  rfl

@[simp] theorem Part.length_mirror (ps : List Part) : (allBytes (ps.map mirror)).length = (allBytes ps).length := by
  induction ps with
  | nil => rfl
  | cons p ps ih =>
    cases p <;> simp [mirror, ih]

theorem Extent.Counts.mirror {extent : Extent} {n : Nat} {ps : List Part} (h : extent.Counts n ps) :
    ps.map .mirror = ps := by
  cases h <;> rfl

namespace Field

variable {e : Endian} {f : Field}

theorem Carries.mirror {ps : List Part} {v : Value} (hf : f.WellFormed) (h : f.Carries e ps v) :
    f.Carries e.flip (ps.map .mirror) v := by
  cases h with
  | @scalar bs hcount hwidth =>
    rw [← ScalarType.read_mirror (hf.fits hwidth)]
    exact .scalar hcount (by rw [hwidth, ScalarType.length_mirror])
  | string hcount hwidth hm => exact .string hcount hwidth hm
  | @list extent width count places hcount hwidth hc hall =>
    have hread : places.map (f.type.read e) = (places.map f.type.mirror).map (f.type.read e.flip) := by
      rw [List.map_map]
      refine List.map_congr_left fun bs hbs => (ScalarType.read_mirror ?_).symm
      rw [hall bs hbs]
      exact hf.fits hwidth
    rw [hread, List.map_append, hc.mirror, Part.mirror_places]
    refine .list hcount hwidth (by rwa [List.length_map]) (List.forall_mem_map.2 fun bs hbs => ?_)
    rw [ScalarType.length_mirror, hall bs hbs]
  | strings hcount hwidth hsize hc hall =>
    rw [List.map_cons, List.map_append, hc.mirror, Part.mirror_strings]
    exact .strings hcount hwidth hsize hc hall

theorem CarriesAll.mirror {fs : List Field} {ps : List Part} {row : Row} (hwf : ∀ f ∈ fs, f.WellFormed)
    (h : CarriesAll e fs ps row) : CarriesAll e.flip fs (ps.map .mirror) row := by
  induction h with
  | nil => exact .nil
  | cons hcar _ ih =>
    rw [List.map_append]
    exact .cons (hcar.mirror (hwf _ List.mem_cons_self)) (ih fun g hg => hwf g (List.mem_cons_of_mem _ hg))

/-- Strings stand there in either order alike. -/
theorem write_flip_of_dynamic (hwidth : f.width = .dynamic) (v : Value) : f.write e.flip v = f.write e v := by
  cases hcount : f.count <;> simp only [write, hcount, hwidth]

theorem Carries.mirror_of_dynamic {ps : List Part} {v : Value} (hwidth : f.width = .dynamic) (h : f.Carries e ps v) :
    ps.map .mirror = ps := by
  cases h with
  | scalar _ hwidth' => rw [hwidth] at hwidth'; cases hwidth'
  | string => rfl
  | list _ hwidth' => rw [hwidth] at hwidth'; cases hwidth'
  | strings _ _ _ hc => rw [List.map_cons, List.map_append, hc.mirror, Part.mirror_strings]; rfl

/-- What is written in one order for a value is mirrored in the other. -/
theorem write_flip (hf : f.WellFormed) {v : Value} {b : Bytes} (h : f.write e v = .ok b) :
    ∃ ps, f.Carries e ps (f.settle v) ∧ Part.allBytes ps = b ∧
      f.write e.flip v = .ok (Part.allBytes (ps.map .mirror)) := by
  cases hwidth : f.width with
  | dynamic =>
    obtain ⟨ps, hcar, hbytes⟩ := carries_of_write hf h
    refine ⟨ps, hcar, hbytes, ?_⟩
    rw [write_flip_of_dynamic hwidth, hcar.mirror_of_dynamic hwidth, hbytes]
    exact h
  | fixed width =>
    have hfit := hf.fits hwidth
    cases hcount : f.count with
    | none =>
      simp only [write, hcount, hwidth, mapError_eq_ok] at h
      refine ⟨_, carries_place hf hcount hwidth h, by simp, ?_⟩
      simp only [write, hcount, hwidth, ScalarType.write_flip hfit, h]
      simp [Part.mirror]
    | some extent =>
      simp only [write, hcount, hwidth, bind_eq_ok, mapError_eq_ok, pure_eq_ok, itemsOf_eq_ok] at h
      obtain ⟨items, ⟨rfl, hitems⟩, cb, hcb, places, hplaces, rfl⟩ := h
      obtain ⟨count, hc, rfl⟩ := Extent.counts_of_countBytes hitems hcb
      refine ⟨_, carries_places hf hcount hwidth hc hplaces, by rw [Part.allBytes_append, Part.allBytes_places], ?_⟩
      have hlist : f.itemsOf extent (.list items) = .ok items := itemsOf_eq_ok.2 ⟨rfl, hitems⟩
      rw [List.map_append, hc.mirror, Part.mirror_places, Part.allBytes_append, Part.allBytes_places]
      simp only [write, hcount, hwidth, hlist, ok_bind, hcb, ScalarType.mapM_write_flip hfit, hplaces, map_ok,
        mapError_ok]
      rfl

theorem writeAll_flip {fs : List Field} : ∀ {row : Row} {b : Bytes},
    (∀ f ∈ fs, f.WellFormed) → row.length = fs.length → writeAll e fs row = .ok b →
      ∃ ps, CarriesAll e fs ps (fs.zipWith settle row) ∧ Part.allBytes ps = b ∧
        writeAll e.flip fs row = .ok (Part.allBytes (ps.map .mirror)) := by
  induction fs with
  | nil =>
    intro row b _ _ h
    cases h
    exact ⟨[], .nil, rfl, rfl⟩
  | cons f fs ih =>
    intro row b hwf hlen h
    cases row with
    | nil => cases hlen
    | cons v vs =>
      simp only [writeAll_cons, bind_eq_ok, pure_eq_ok] at h
      obtain ⟨b₁, h₁, b₂, h₂, rfl⟩ := h
      obtain ⟨ps, hcar, rfl, hflip⟩ := write_flip (hwf f List.mem_cons_self) h₁
      obtain ⟨qs, hcars, rfl, hflips⟩ := ih (fun g hg => hwf g (List.mem_cons_of_mem _ hg)) (Nat.succ.inj hlen) h₂
      refine ⟨ps ++ qs, .cons hcar hcars, Part.allBytes_append ps qs, ?_⟩
      rw [writeAll_cons, hflip, hflips, List.map_append, Part.allBytes_append]
      rfl

end Field

/-! ## Success does not depend on the order -/

section

variable {ε α β γ δ : Type}

/-- Steps that give the same up to what `p` and `q` look at, one after the other, give the same together. -/
theorem map_bind_congr {x y : Except ε α} {f g : α → Except ε β} {p : α → γ} {q : β → δ} (h : x.map p = y.map p)
    (hfg : ∀ a b, p a = p b → (f a).map q = (g b).map q) : (x >>= f).map q = (y >>= g).map q := by
  cases x with
  | error e =>
    cases y with
    | error e' => cases h; rfl
    | ok b => cases h
  | ok a =>
    cases y with
    | error e' => cases h
    | ok b => exact hfg a b (Except.ok.inj h)

/-- The same step before both. -/
theorem map_bind_same {f g : α → Except ε β} {q : β → δ} (x : Except ε α) (hfg : ∀ a, (f a).map q = (g a).map q) :
    (x >>= f).map q = (x >>= g).map q := by
  cases x with
  | error e => rfl
  | ok a => exact hfg a

theorem map_mapError {ε' : Type} (x : Except ε α) (p : α → γ) (g : ε → ε') :
    (x.mapError g).map p = (x.map p).mapError g := by
  cases x <;> rfl

theorem map_mapError_congr {ε' : Type} {x y : Except ε α} {p : α → γ} (h : x.map p = y.map p) (g : ε → ε') :
    (x.mapError g).map p = (y.mapError g).map p := by
  rw [map_mapError, map_mapError, h]

theorem map_pure_congr {a b : α} {p : α → γ} (h : p a = p b) :
    (pure a : Except ε α).map p = (pure b : Except ε α).map p := congrArg Except.ok h

/-- Pieces of the same sizes are together of the same size. -/
theorem length_pure_append {a a' b b' : Bytes} (h : a.length = a'.length) (h' : b.length = b'.length) :
    (pure (a ++ b) : Except ε Bytes).map List.length = (pure (a' ++ b') : Except ε Bytes).map List.length := by
  apply map_pure_congr
  rw [List.length_append, List.length_append, h, h']

end

variable {e e' : Endian}

theorem ScalarType.length_write (type : ScalarType) (width : Nat) (v : Value) :
    (type.write e width v).map List.length = (type.write e' width v).map List.length := by
  by_cases htype : type = bytes
  · subst htype
    cases v <;> rfl
  · rw [write_of_ne_bytes htype, write_of_ne_bytes htype]
    cases type.pattern v with
    | error fault => rfl
    | ok k => simp

theorem ScalarType.length_writeAll (type : ScalarType) (width : Nat) (items : List Value) :
    (type.writeAll e width items).map List.length = (type.writeAll e' width items).map List.length := by
  induction items with
  | nil => rfl
  | cons v vs ih =>
    refine map_bind_congr (type.length_write width v) fun b b' hb => ?_
    exact map_bind_congr ih fun bs bs' hbs => length_pure_append hb hbs

namespace Writer

theorem length_fixedSlot (shape : Shape) (v : Value) :
    (fixedSlot e shape v).map List.length = (fixedSlot e' shape v).map List.length := by
  unfold fixedSlot
  split
  case h_1 type width => exact type.length_write width v
  case h_2 type itemWidth count =>
    exact map_bind_same _ fun items => map_bind_same _ fun _ => type.length_writeAll itemWidth items
  case h_3 => rfl

theorem length_fixedSlots (slots : List Slot) : ∀ row : Row,
    (fixedSlots e slots row).map List.length = (fixedSlots e' slots row).map List.length := by
  induction slots with
  | nil => intro row; rfl
  | cons slot slots ih =>
    intro row
    cases row with
    | nil => rfl
    | cons v vs =>
      refine map_bind_congr (map_mapError_congr (length_fixedSlot slot.shape v) _) fun b b' hb => ?_
      exact map_bind_congr (ih vs) fun bs bs' hbs => length_pure_append hb hbs

theorem length_dynamicSlot (position : Nat) (slot : Slot) (v : Value) :
    (dynamicSlot e position slot v).map List.length = (dynamicSlot e' position slot v).map List.length := by
  unfold dynamicSlot
  split
  case h_3 type itemWidth _ =>
    refine map_bind_same _ fun items => ?_
    simp only
    split
    · rfl
    · refine map_bind_same _ fun head => map_bind_same _ fun _ => ?_
      refine map_bind_congr (map_mapError_congr (type.length_writeAll itemWidth items) _) fun b b' hb => ?_
      exact length_pure_append rfl hb
  all_goals rfl

theorem length_dynamicSlots (slots : List Slot) : ∀ (position : Nat) (row : Row),
    (dynamicSlots e position slots row).map List.length = (dynamicSlots e' position slots row).map List.length := by
  induction slots with
  | nil => intro position row; rfl
  | cons slot slots ih =>
    intro position row
    cases row with
    | nil => rfl
    | cons v vs =>
      refine map_bind_congr (length_dynamicSlot position slot v) fun b b' hb => ?_
      rw [hb]
      exact map_bind_congr (ih _ vs) fun bs bs' hbs => length_pure_append hb hbs

theorem length_segment (position : Nat) (seg : Segment) (row : Row) :
    (segment e position seg row).map List.length = (segment e' position seg row).map List.length := by
  cases seg with
  | fixed run => exact map_bind_same _ fun _ => length_fixedSlots run.slots row
  | dynamic slots => exact length_dynamicSlots slots position row

theorem length_segments (segs : List Segment) : ∀ (position : Nat) (row : Row),
    (segments e position segs row).map List.length = (segments e' position segs row).map List.length := by
  induction segs with
  | nil => intro position row; rfl
  | cons seg segs ih =>
    intro position row
    refine map_bind_congr (length_segment position seg _) fun b b' hb => ?_
    rw [hb]
    exact map_bind_congr (ih _ _) fun bs bs' hbs => length_pure_append hb hbs

end Writer

namespace Reader

theorem next_dynamicSlot (slot : Slot) (c : Cursor) :
    (dynamicSlot e slot c).map Prod.snd = (dynamicSlot e' slot c).map Prod.snd := by
  unfold dynamicSlot
  split
  case h_3 type itemWidth _ =>
    refine map_bind_same _ ?_
    rintro ⟨count, c⟩
    simp only
    split
    · rfl
    · exact map_bind_same _ fun _ => rfl
  all_goals rfl

theorem next_dynamicSlots (slots : List Slot) : ∀ c : Cursor,
    (dynamicSlots e slots c).map Prod.snd = (dynamicSlots e' slots c).map Prod.snd := by
  induction slots with
  | nil => intro c; rfl
  | cons slot slots ih =>
    intro c
    refine map_bind_congr (next_dynamicSlot slot c) ?_
    rintro ⟨v, c⟩ ⟨v', _⟩ rfl
    exact map_bind_congr (ih c) fun _ _ h => map_pure_congr h

theorem next_segment (seg : Segment) (c : Cursor) :
    (segment e seg c).map Prod.snd = (segment e' seg c).map Prod.snd := by
  cases seg with
  | fixed run => exact map_bind_same _ fun _ => rfl
  | dynamic slots => exact next_dynamicSlots slots c

theorem next_segments (segs : List Segment) : ∀ c : Cursor,
    (segments e segs c).map Prod.snd = (segments e' segs c).map Prod.snd := by
  induction segs with
  | nil => intro c; rfl
  | cons seg segs ih =>
    intro c
    refine map_bind_congr (next_segment seg c) ?_
    rintro ⟨vs, c⟩ ⟨vs', _⟩ rfl
    exact map_bind_congr (ih c) fun _ _ h => map_pure_congr h

end Reader

/-! ## Records -/

theorem CodecError.rename_id {α : Type} (x : Except CodecError α) : x.mapError (.rename id) = x := by
  cases x with
  | error err => cases err <;> rfl
  | ok a => rfl

namespace Codec

variable {c c' : Codec}

/-- The segments of the same fields differ in their formats only. -/
theorem segments_of_fields_eq (hfields : c.schema.fields = c'.schema.fields) :
    c'.segments = c.segments.map (.rename c'.schema.order id) := by
  rw [c.segments_eq, c'.segments_eq]
  exact Segment.ofSchema_rename (congrArg _ hfields) (by rw [List.map_id, Schema.ids, Schema.ids, hfields])

theorem length_record (hfields : c.schema.fields = c'.schema.fields) (start : Nat) (row : Row) :
    (c.record start row).map (·.bytes.length) = (c'.record start row).map (·.bytes.length) := by
  have harity : c.schema.arity = c'.schema.arity := congrArg List.length hfields
  have hsegs : Writer.segments c'.endian (start + 4) c'.segments row =
      Writer.segments c'.endian (start + 4) c.segments row := by
    rw [segments_of_fields_eq hfields, Writer.segments_rename, CodecError.rename_id]
  simp only [record, harity, hsegs]
  split
  · rfl
  · refine map_bind_congr (Writer.length_segments c.segments (start + 4) row) fun b b' hb => ?_
    rw [hb]
    exact map_bind_same _ fun head => map_pure_congr (by simp [Record.bytes, hb])

/-- What is written in one order is mirrored in the other. -/
theorem record_flip (hwf : c.schema.WellFormed) (hfields : c.schema.fields = c'.schema.fields)
    (hendian : c.endian ≠ c'.endian) {start : Nat} {row : Row} {r : Record} (h : c.record start row = .ok r) :
    ∃ ps r', c.Carries ps (c.schema.settle row) ∧ Part.allBytes ps = r.bytes ∧
      c'.record start row = .ok r' ∧ Part.allBytes (ps.map .mirror) = r'.bytes := by
  obtain ⟨r', hr', hlen⟩ : ∃ r', c'.record start row = .ok r' ∧ r'.bytes.length = r.bytes.length := by
    have hsize := length_record hfields start row
    rw [h] at hsize
    exact map_eq_ok.1 hsize.symm
  obtain ⟨harity, -, hbody, hhead⟩ := record_eq_ok.1 h
  obtain ⟨-, -, hbody', hhead'⟩ := record_eq_ok.1 hr'
  obtain ⟨body, hcar, hbytes, hflip⟩ := Field.writeAll_flip hwf.fields harity hbody
  rw [← hfields, Endian.eq_flip_of_ne hendian, hflip] at hbody'
  have hbytes' : Part.allBytes (body.map .mirror) = r'.body := Except.ok.inj hbody'
  -- bodies of the same length have the same prefix
  have hheads : r.head = r'.head := by
    rw [← hbytes', Part.length_mirror, hbytes, hhead] at hhead'
    exact Except.ok.inj hhead'
  refine ⟨.measure r.head :: body, r', ⟨r.head, body, rfl, ?_, hcar⟩, ?_, hr', ?_⟩
  · rw [hbytes]
    exact LengthPrefix.measures_of_encode hhead
  · rw [Part.allBytes_cons, hbytes]
    rfl
  · rw [List.map_cons, Part.allBytes_cons, hbytes', Record.bytes, ← hheads]
    rfl

theorem next_readAt (hfields : c.schema.fields = c'.schema.fields) (data : Bytes) (cursor : Nat) :
    (c.readAt data cursor).map (Option.map fun d => (d.headWidth, d.next)) =
      (c'.readAt data cursor).map (Option.map fun d => (d.headWidth, d.next)) := by
  have hsegs (body : Cursor) :
      Reader.segments c'.endian c'.segments body = Reader.segments c'.endian c.segments body := by
    rw [segments_of_fields_eq hfields, Reader.segments_rename, CodecError.rename_id]
  simp only [readAt, hsegs]
  split
  · rfl
  · refine map_bind_same _ ?_
    rintro ⟨size, afterHead⟩
    refine map_bind_same _ ?_
    rintro ⟨body, afterBody⟩
    refine map_bind_congr (Reader.next_segments c.segments body) ?_
    rintro ⟨row, rest⟩ ⟨row', _⟩ rfl
    simp only
    split <;> rfl

/-- The mirrored form of a row is a form of the row in the other order, and reads as the row there. -/
theorem readAt_mirror (hwf : c.schema.WellFormed) (hfields : c.schema.fields = c'.schema.fields)
    (hendian : c.endian ≠ c'.endian) {data : Bytes} {cursor : Nat} {d : Decoded}
    (h : c.readAt data cursor = .ok (some d)) :
    ∃ ps, c.Carries ps d.row ∧ Part.allBytes ps = (data.drop cursor).take (d.next - cursor) ∧
      ∀ pre post, c'.readAt (pre ++ Part.allBytes (ps.map .mirror) ++ post) pre.length =
        .ok (some ⟨d.row, d.headWidth, pre.length + (d.next - cursor)⟩) := by
  obtain ⟨head, body, after, hm, hcar, hdrop, hwidth, hnext⟩ := readAt_eq_ok.1 h
  have hlen : d.next - cursor = (head ++ Part.allBytes body).length := by
    rw [hnext, List.length_append]
    omega
  have hcar' : Field.CarriesAll c'.endian c'.schema.fields (body.map .mirror) d.row := by
    rw [← hfields, Endian.eq_flip_of_ne hendian]
    exact hcar.mirror hwf.fields
  refine ⟨.measure head :: body, ⟨head, body, rfl, hm, hcar⟩, ?_, ?_⟩
  · rw [hdrop, hlen, List.take_left]
    rfl
  · intro pre post
    refine readAt_eq_ok.2 ⟨head, body.map .mirror, post, by rwa [Part.length_mirror], hcar', ?_, hwidth, ?_⟩
    · rw [List.append_assoc, List.drop_left]
      rfl
    · rw [Part.length_mirror, hlen, List.length_append, Nat.add_assoc]

/-- Byte order touches the numbers of more than one byte and nothing else. Of two schemas with the same fields and
different orders, both refuse a row with the same error, or both write it, and then one record is the other with each
such number reversed in its place. Both come to the same place in every buffer or fail with the same error there, and
what was read in one order reads as the same row in the other one when it is mirrored. What stands in which place is
never in doubt, since the bytes of a record determine its parts. -/
theorem mirrors_of_fields_eq {options : ParseOptions} {text : String}
    (hc : (Codec.ofText options text).run.value = .ok c) (hfields : c.schema.fields = c'.schema.fields)
    (hendian : c.endian ≠ c'.endian) :
    (∀ data row,
      (∃ err, (c.appendTo data row).value = (.error err, data) ∧ (c'.appendTo data row).value = (.error err, data)) ∨
      ∃ ps, c.Carries ps (c.schema.settle row) ∧
        (c.appendTo data row).value = (.ok (Part.allBytes ps).length, data ++ Part.allBytes ps) ∧
        (c'.appendTo data row).value = (.ok (Part.allBytes ps).length, data ++ Part.allBytes (ps.map .mirror))) ∧
    (∀ data cursor,
      (c.decodeNext data cursor).run.value.map (Option.map fun d => (d.headWidth, d.next)) =
        (c'.decodeNext data cursor).run.value.map (Option.map fun d => (d.headWidth, d.next))) ∧
    (∀ data cursor d, (c.decodeNext data cursor).run.value = .ok (some d) →
      ∃ ps, c.Carries ps d.row ∧ Part.allBytes ps = (data.drop cursor).take (d.next - cursor) ∧
        ∀ pre post, (c'.decodeNext (pre ++ Part.allBytes (ps.map .mirror) ++ post) pre.length).run.value =
          .ok (some ⟨d.row, d.headWidth, pre.length + (d.next - cursor)⟩)) ∧
    ∀ ps qs row row', c.Carries ps row → c.Carries qs row' → Part.allBytes ps = Part.allBytes qs → ps = qs := by
  have hwf := Codec.wellFormed_of_ofText hc
  refine ⟨?_, ?_, ?_, ?_⟩
  · intro data row
    rw [value_appendTo, value_appendTo]
    have hsize := length_record hfields data.length row
    cases hr : c.record data.length row with
    | error err =>
      rw [hr] at hsize
      left
      refine ⟨err, rfl, ?_⟩
      cases hr' : c'.record data.length row with
      | error err' =>
        rw [hr'] at hsize
        cases hsize
        rfl
      | ok r' =>
        rw [hr'] at hsize
        cases hsize
    | ok r =>
      right
      obtain ⟨ps, r', hcar, hbytes, hr', hbytes'⟩ := record_flip hwf hfields hendian hr
      have hlen : (Part.allBytes ps).length = r'.bytes.length := by rw [← hbytes', Part.length_mirror]
      refine ⟨ps, hcar, ?_, ?_⟩
      · rw [hbytes]
      · rw [hr', hlen, hbytes']
  · intro data cursor
    rw [value_decodeNext, value_decodeNext]
    exact next_readAt hfields data cursor
  · intro data cursor d h
    rw [value_decodeNext] at h
    simp only [value_decodeNext]
    exact readAt_mirror hwf hfields hendian h
  · intro ps qs row row' hps hqs hbytes
    exact (hps.inj hqs hbytes).1

/-- The sample schema in both orders: the number, the item of the list and nothing else is reversed. -/
theorem mirrors_of_fields_eq_sample : ∃ c' : Codec, sample.endian ≠ c'.endian ∧
    ∃ ps, sample.Carries ps (Schema.sample.settle (sampleRow (.uint 258))) ∧
      Part.allBytes ps =
        [0, 0, 0, 25, 2, 1, 1, 0, 0, 0, 0, 1, 0, 0, 128, 191, 0, 0, 0, 9, 0, 0, 0, 0, 0, 0, 0, 1, 65] ∧
      Part.allBytes (ps.map .mirror) =
        [0, 0, 0, 25, 1, 2, 1, 0, 0, 0, 0, 1, 191, 128, 0, 0, 0, 0, 0, 9, 0, 0, 0, 0, 0, 0, 0, 1, 65] := by
  let c' : Codec := (Codec.ofSchema { Schema.sample with order := .big }).value
  have hlittle : (sample.appendTo [] (sampleRow (.uint 258))).value = (.ok 29,
      [0, 0, 0, 25, 2, 1, 1, 0, 0, 0, 0, 1, 0, 0, 128, 191, 0, 0, 0, 9, 0, 0, 0, 0, 0, 0, 0, 1, 65]) := by
    decide +kernel
  have hbig : (c'.appendTo [] (sampleRow (.uint 258))).value = (.ok 29,
      [0, 0, 0, 25, 1, 2, 1, 0, 0, 0, 0, 1, 191, 128, 0, 0, 0, 0, 0, 9, 0, 0, 0, 0, 0, 0, 0, 1, 65]) := by
    decide +kernel
  have hfields : sample.schema.fields = c'.schema.fields := rfl
  have hendian : sample.endian ≠ c'.endian := by decide
  refine ⟨c', hendian, ?_⟩
  rcases (mirrors_of_fields_eq ofText_sample hfields hendian).1 [] (sampleRow (.uint 258)) with
    ⟨err, herr, -⟩ | ⟨ps, hcar, h, h'⟩
  · rw [hlittle] at herr
    cases herr
  · exact ⟨ps, hcar, (congrArg Prod.snd (h.symm.trans hlittle)), (congrArg Prod.snd (h'.symm.trans hbig))⟩

end Codec

end RecordPack

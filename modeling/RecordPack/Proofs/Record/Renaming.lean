import RecordPack.Proofs.Codec
import RecordPack.Proofs.Layout.Segmentation

/-!
# What records depend on

A record depends on the layouts of the fields and on the endianness, and on nothing else of a schema. Ids reach errors
only: under other ids the same segments are cut (`Segment.ofSchema_rename`), and every writer and reader does the same,
with the ids in its errors changed (`renamed_bind` steps through them). So two texts whose fields are laid out alike
have the same records (`Codec.renamed_of_shapes`).
-/

namespace RecordPack

/-! ## Errors under other ids -/

/-- The error of fields whose ids have been changed. -/
def CodecError.rename (g : String → String) : CodecError → CodecError
  | field id fault => field (g id) fault
  | missingField id => missingField (g id)
  | listOverflow id count => listOverflow (g id) count
  | unusedBytes id remaining => unusedBytes (g id) remaining
  | e => e

variable {α β : Type} {g : String → String}

/-- Steps whose errors are renamed, one after the other, fail together with renamed errors. -/
theorem renamed_bind {x x' : Except CodecError α} {f f' : α → Except CodecError β}
    (hx : x' = x.mapError (.rename g)) (hf : ∀ a, f' a = (f a).mapError (.rename g)) :
    (x' >>= f') = (x >>= f).mapError (.rename g) := by
  rw [mapError_bind, hx]
  exact congrArg _ (funext hf)

/-- A fault of a value is named after the field. -/
theorem renamed_field (id : String) (x : Except Fault α) :
    x.mapError (CodecError.field (g id)) = (x.mapError (CodecError.field id)).mapError (.rename g) := by
  cases x <;> rfl

/-- A length is no field's affair. -/
theorem renamed_length (x : Except LengthError α) :
    x.mapError CodecError.length = (x.mapError .length).mapError (.rename g) := by
  cases x <;> rfl

/-! ## Slots and segments under other ids -/

/-- The slot under another id. -/
def Slot.rename (g : String → String) (slot : Slot) : Slot := { slot with id := g slot.id }

/-- The segment with the ids of its slots changed, in a schema of another byte order. -/
def Segment.rename (order : ByteOrder) (g : String → String) : Segment → Segment
  | fixed run => fixed { FixedRun.ofSlots order (run.slots.map (.rename g)) with width := run.width }
  | dynamic slots => dynamic (slots.map (.rename g))

theorem Slot.ofFields_rename {fields fields' : List Field}
    (hshapes : fields.map Shape.ofField = fields'.map Shape.ofField)
    (hids : fields.map (g ·.id) = fields'.map (·.id)) :
    ofFields fields' = (ofFields fields).map (rename g) := by
  have hlen : fields.length = fields'.length := by simpa using congrArg List.length hshapes
  apply List.ext_getElem
  · simp [ofFields, hlen]
  · intro i h _
    have hi' : i < fields'.length := by simpa [ofFields] using h
    have hi : i < fields.length := hlen ▸ hi'
    have hshape : Shape.ofField fields[i] = .ofField fields'[i] := by
      simpa [hi, hi'] using congrArg (·[i]?) hshapes
    have hid : g fields[i].id = fields'[i].id := by
      simpa [hi, hi'] using congrArg (·[i]?) hids
    simp [ofFields, rename, hshape, hid]

theorem Slot.totalWidth_rename (slots : List Slot) : totalWidth (slots.map (rename g)) = totalWidth slots := by
  induction slots with
  | nil => rfl
  | cons slot slots ih => rw [List.map_cons, totalWidth, totalWidth, ih, rename]

namespace Segment

variable {order order' : ByteOrder}

@[simp] theorem slots_rename (seg : Segment) : (seg.rename order g).slots = seg.slots.map (.rename g) := by
  cases seg <;> rfl

@[simp] theorem isFixed_rename (seg : Segment) : (seg.rename order g).isFixed = seg.isFixed := by
  cases seg <;> rfl

/-- The class of a slot is that of its layout, so a renamed run is the run of the renamed slots. -/
theorem ofRun_rename (run : List Slot) :
    ofRun order' (run.map (.rename g)) = (ofRun order run).rename order' g := by
  have hclass : (run.map (Slot.rename g)).all (·.shape.isFixed) = run.all (·.shape.isFixed) := by
    rw [List.all_map]
    rfl
  unfold ofRun
  rw [hclass]
  split
  · simp only [rename, FixedRun.ofSlots, Slot.totalWidth_rename]
  · rfl

theorem isRun_rename {seg : Segment} (h : seg.IsRun order) : (seg.rename order' g).IsRun order' := by
  rw [← h.eq_ofRun, ← ofRun_rename]
  apply isRun_ofRun
  · simpa using h.ne_nil
  · have hall : ∀ slot ∈ seg.slots.map (Slot.rename g), slot.shape.isFixed = seg.isFixed :=
      List.forall_mem_map.2 h.uniform
    cases hseg : seg.isFixed <;> rw [hseg] at hall
    · exact .inr hall
    · exact .inl hall

/-- Schemas whose fields are laid out alike are cut at the same places. -/
theorem ofSchema_rename {s s' : Schema} (hshapes : s.fields.map Shape.ofField = s'.fields.map Shape.ofField)
    (hids : s.ids.map g = s'.ids) : ofSchema s' = (ofSchema s).map (rename s'.order g) := by
  obtain ⟨hslots, hruns, hchain⟩ := eq_cut_iff.1 (rfl : ofSchema s = cut s.order (Slot.ofFields s.fields))
  have hids' : s.fields.map (g ·.id) = s'.fields.map (·.id) := by
    simpa [Schema.ids, Function.comp_def] using hids
  refine Eq.symm (eq_cut_iff.2 ⟨?_, ?_, ?_⟩)
  · rw [Slot.ofFields_rename hshapes hids', ← hslots, List.flatMap_map, List.map_flatMap]
    simp
  · exact List.forall_mem_map.2 fun seg hseg => isRun_rename (hruns seg hseg)
  · simpa [List.isChain_map] using hchain

end Segment

/-! ## Writers -/

namespace Writer

theorem lengthBytes_rename (n : Nat) : lengthBytes n = (lengthBytes n).mapError (.rename g) := renamed_length _

theorem reserve_rename (position width : Nat) :
    reserve position width = (reserve position width).mapError (.rename g) := by
  unfold reserve
  split <;> rfl

theorem fixedSlots_rename (e : Endian) (slots : List Slot) : ∀ row : Row,
    fixedSlots e (slots.map (.rename g)) row = (fixedSlots e slots row).mapError (.rename g) := by
  induction slots with
  | nil => intro row; rfl
  | cons slot slots ih =>
    intro row
    cases row with
    | nil => rfl
    | cons v vs => exact renamed_bind (renamed_field slot.id _) fun b => renamed_bind (ih vs) fun bs => rfl

theorem dynamicSlot_rename (e : Endian) (position : Nat) (slot : Slot) (v : Value) :
    dynamicSlot e position (slot.rename g) v = (dynamicSlot e position slot v).mapError (.rename g) := by
  have hfield {γ : Type} (x : Except Fault γ) :
      x.mapError (CodecError.field (slot.rename g).id) = (x.mapError (CodecError.field slot.id)).mapError (.rename g) :=
    renamed_field slot.id x
  have hshape : (slot.rename g).shape = slot.shape := rfl
  simp only [dynamicSlot, hshape]
  split
  case h_1 => exact renamed_bind (hfield _) fun s => renamed_length _
  case h_2 =>
    refine renamed_bind (hfield _) fun items => ?_
    refine renamed_bind (hfield _) fun _ => ?_
    refine renamed_bind (hfield _) fun strings => ?_
    refine renamed_bind (renamed_length _) fun size => ?_
    refine renamed_bind (lengthBytes_rename size) fun head => ?_
    exact renamed_bind (renamed_length _) fun payload => rfl
  case h_3 =>
    refine renamed_bind (hfield _) fun items => ?_
    split
    · rfl
    · refine renamed_bind (lengthBytes_rename items.length) fun head => ?_
      refine renamed_bind (reserve_rename _ _) fun _ => ?_
      exact renamed_bind (hfield _) fun block => rfl
  case h_4 =>
    refine renamed_bind (hfield _) fun strings => ?_
    refine renamed_bind (renamed_length _) fun size => ?_
    refine renamed_bind (lengthBytes_rename size) fun head => ?_
    refine renamed_bind (lengthBytes_rename strings.length) fun count => ?_
    exact renamed_bind (renamed_length _) fun payload => rfl
  case h_5 => rfl

theorem dynamicSlots_rename (e : Endian) (slots : List Slot) : ∀ (position : Nat) (row : Row),
    dynamicSlots e position (slots.map (.rename g)) row =
      (dynamicSlots e position slots row).mapError (.rename g) := by
  induction slots with
  | nil => intro position row; rfl
  | cons slot slots ih =>
    intro position row
    cases row with
    | nil => rfl
    | cons v vs =>
      refine renamed_bind (dynamicSlot_rename e position slot v) fun b => ?_
      exact renamed_bind (ih (position + b.length) vs) fun bs => rfl

theorem segment_rename (e : Endian) (position : Nat) (order : ByteOrder) (seg : Segment) (row : Row) :
    segment e position (seg.rename order g) row = (segment e position seg row).mapError (.rename g) := by
  cases seg with
  | fixed run => exact renamed_bind (reserve_rename position run.width) fun _ => fixedSlots_rename e run.slots row
  | dynamic slots => exact dynamicSlots_rename e slots position row

theorem segments_rename (e : Endian) (order : ByteOrder) (segs : List Segment) : ∀ (position : Nat) (row : Row),
    segments e position (segs.map (.rename order g)) row = (segments e position segs row).mapError (.rename g) := by
  induction segs with
  | nil => intro position row; rfl
  | cons seg segs ih =>
    intro position row
    have hslots : (seg.rename order g).slots.length = seg.slots.length := by simp
    rw [List.map_cons, segments, segments, hslots]
    refine renamed_bind (segment_rename e position order seg _) fun b => ?_
    exact renamed_bind (ih (position + b.length) _) fun bs => rfl

end Writer

/-! ## Readers -/

theorem Cursor.take_rename (c : Cursor) (n : Nat) : c.take n = (c.take n).mapError (.rename g) := by
  simp only [take]
  split <;> rfl

theorem Cursor.split_rename (c : Cursor) (n : Nat) : c.split n = (c.split n).mapError (.rename g) := by
  simp only [split, take]
  split <;> rfl

theorem Cursor.length_rename (c : Cursor) : c.length = c.length.mapError (.rename g) := by
  unfold length
  split <;> rfl

namespace Reader

theorem string_rename (c : Cursor) : string c = (string c).mapError (.rename g) :=
  renamed_bind c.length_rename fun (n, c) => c.take_rename n

theorem strings_rename (count : Nat) : ∀ c : Cursor, strings count c = (strings count c).mapError (.rename g) := by
  induction count with
  | zero => intro c; rfl
  | succ count ih =>
    intro c
    refine renamed_bind (string_rename c) ?_
    rintro ⟨s, c⟩
    exact renamed_bind (ih c) fun _ => rfl

theorem payload_rename (id : String) (count : Nat) (c : Cursor) :
    payload (g id) count c = (payload id count c).mapError (.rename g) := by
  refine renamed_bind (strings_rename count c) ?_
  rintro ⟨ss, c⟩
  simp only
  split <;> rfl

theorem dynamicSlot_rename (e : Endian) (slot : Slot) (c : Cursor) :
    dynamicSlot e (slot.rename g) c = (dynamicSlot e slot c).mapError (.rename g) := by
  have hshape : (slot.rename g).shape = slot.shape := rfl
  simp only [dynamicSlot, hshape]
  split
  case h_1 => exact renamed_bind (string_rename c) fun _ => rfl
  case h_2 count _ =>
    refine renamed_bind c.length_rename ?_
    rintro ⟨size, c⟩
    refine renamed_bind (c.split_rename size) ?_
    rintro ⟨piece, c⟩
    exact renamed_bind (payload_rename slot.id count piece) fun v => rfl
  case h_3 =>
    refine renamed_bind c.length_rename ?_
    rintro ⟨count, c⟩
    simp only
    split
    · rfl
    · exact renamed_bind (c.take_rename _) fun _ => rfl
  case h_4 =>
    refine renamed_bind c.length_rename ?_
    rintro ⟨size, c⟩
    refine renamed_bind c.length_rename ?_
    rintro ⟨count, c⟩
    refine renamed_bind (c.split_rename size) ?_
    rintro ⟨piece, c⟩
    exact renamed_bind (payload_rename slot.id count piece) fun v => rfl
  case h_5 => rfl

theorem dynamicSlots_rename (e : Endian) (slots : List Slot) : ∀ c : Cursor,
    dynamicSlots e (slots.map (.rename g)) c = (dynamicSlots e slots c).mapError (.rename g) := by
  induction slots with
  | nil => intro c; rfl
  | cons slot slots ih =>
    intro c
    refine renamed_bind (dynamicSlot_rename e slot c) ?_
    rintro ⟨v, c⟩
    exact renamed_bind (ih c) fun _ => rfl

/-- The values of a block are cut out by widths alone. -/
theorem fixedSlots_rename (e : Endian) (slots : List Slot) : ∀ block : Bytes,
    fixedSlots e (slots.map (.rename g)) block = fixedSlots e slots block := by
  induction slots with
  | nil => intro block; rfl
  | cons slot slots ih =>
    intro block
    simp only [List.map_cons, fixedSlots, ih]
    rfl

theorem segment_rename (e : Endian) (order : ByteOrder) (seg : Segment) (c : Cursor) :
    segment e (seg.rename order g) c = (segment e seg c).mapError (.rename g) := by
  cases seg with
  | fixed run =>
    refine renamed_bind (c.take_rename run.width) ?_
    rintro ⟨block, c⟩
    exact congrArg (fun row => Except.ok (row, c)) (fixedSlots_rename e run.slots block)
  | dynamic slots => exact dynamicSlots_rename e slots c

theorem segments_rename (e : Endian) (order : ByteOrder) (segs : List Segment) : ∀ c : Cursor,
    segments e (segs.map (.rename order g)) c = (segments e segs c).mapError (.rename g) := by
  induction segs with
  | nil => intro c; rfl
  | cons seg segs ih =>
    intro c
    refine renamed_bind (segment_rename e order seg c) ?_
    rintro ⟨vs, c⟩
    exact renamed_bind (ih c) fun _ => rfl

end Reader

/-! ## Records -/

/-- Distinct elements can be mapped to any others, one by one. -/
theorem exists_map_eq [DecidableEq α] {as : List α} (h : as.Nodup) : ∀ {bs : List β} [Nonempty β],
    as.length = bs.length → ∃ g : α → β, as.map g = bs := by
  induction h with
  | nil =>
    intro bs _ hlen
    obtain rfl := List.eq_nil_of_length_eq_zero hlen.symm
    exact ⟨fun _ => Classical.ofNonempty, rfl⟩
  | @cons a as hne _ ih =>
    intro bs _ hlen
    obtain ⟨b, bs, rfl⟩ := List.exists_cons_of_length_eq_add_one hlen.symm
    obtain ⟨g, rfl⟩ := ih (Nat.succ.inj hlen)
    refine ⟨Function.update g a b, ?_⟩
    rw [List.map_cons, Function.update_self]
    -- the first element does not occur again, so its new image changes no other
    exact congrArg _ (List.map_congr_left fun a' ha' => Function.update_of_ne (hne a' ha').symm b g)

namespace Codec

variable {c c' : Codec}

/-- The two codecs have the same endianness and the same segments up to ids. -/
structure Renames (g : String → String) (c c' : Codec) : Prop where
  endian : c'.endian = c.endian
  arity : c'.schema.arity = c.schema.arity
  segments : c'.segments = c.segments.map (.rename c'.schema.order g)

theorem renames_of_shapes (hendian : c.endian = c'.endian)
    (hshapes : c.schema.fields.map Shape.ofField = c'.schema.fields.map Shape.ofField)
    (hids : c.schema.ids.map g = c'.schema.ids) : c.Renames g c' where
  endian := hendian.symm
  arity := by simpa [Schema.arity] using (congrArg List.length hshapes).symm
  segments := by rw [c.segments_eq, c'.segments_eq, Segment.ofSchema_rename hshapes hids]

theorem record_rename (h : c.Renames g c') (start : Nat) (row : Row) :
    c'.record start row = (c.record start row).mapError (.rename g) := by
  simp only [record, h.endian, h.arity, h.segments]
  split
  · rfl
  · refine renamed_bind (Writer.segments_rename c.endian _ c.segments (start + 4) row) fun body => ?_
    exact renamed_bind (Writer.lengthBytes_rename body.length) fun head => rfl

theorem readAt_rename (h : c.Renames g c') (data : Bytes) (cursor : Nat) :
    c'.readAt data cursor = (c.readAt data cursor).mapError (.rename g) := by
  simp only [readAt, h.endian, h.segments]
  split
  · rfl
  · refine renamed_bind (Cursor.length_rename _) ?_
    rintro ⟨size, afterHead⟩
    refine renamed_bind (afterHead.split_rename size) ?_
    rintro ⟨body, afterBody⟩
    refine renamed_bind (Reader.segments_rename c.endian _ c.segments body) ?_
    rintro ⟨row, rest⟩
    simp only
    split <;> rfl

/-- Schemas whose fields are laid out alike, in byte orders of one endianness, have the same records, however their
texts read. Rows are written to the same bytes and buffers are read to the same rows and places, or both fail with the
same error up to the id in it, which is that of the field at the same position. -/
theorem renamed_of_shapes {options : ParseOptions} {text : String} (hc : (Codec.ofText options text).run.value = .ok c)
    (hshapes : c.schema.fields.map Shape.ofField = c'.schema.fields.map Shape.ofField)
    (hendian : c.endian = c'.endian) :
    ∃ g : String → String, c.schema.ids.map g = c'.schema.ids ∧
      (∀ row, c'.encode row = (c.encode row).mapError (.rename g)) ∧
      (∀ data row, (c'.appendTo data row).value =
        ((c.appendTo data row).value.1.mapError (.rename g), (c.appendTo data row).value.2)) ∧
      ∀ data cursor, (c'.decodeNext data cursor).run.value =
        (c.decodeNext data cursor).run.value.mapError (.rename g) := by
  have hlen : c.schema.ids.length = c'.schema.ids.length := by
    simpa [Schema.ids] using congrArg List.length hshapes
  obtain ⟨g, hg⟩ := exists_map_eq (Codec.wellFormed_of_ofText hc).nodup hlen
  have hrenames : c.Renames g c' := renames_of_shapes hendian hshapes hg
  refine ⟨g, hg, ?_, ?_, ?_⟩
  · intro row
    rw [encode, encode, record_rename hrenames]
    cases c.record 0 row <;> rfl
  · intro data row
    rw [value_appendTo, value_appendTo, record_rename hrenames]
    cases c.record data.length row <;> rfl
  · intro data cursor
    rw [value_decodeNext, value_decodeNext]
    exact readAt_rename hrenames data cursor

example : ByteOrder.network.endian = ByteOrder.big.endian ∧ ByteOrder.native.endian = ByteOrder.little.endian :=
  ⟨rfl, rfl⟩

/-- The sample schema in the byte order of the machine, with other spellings and ids, a remark, and text that belongs
to no field. -/
theorem renamed_of_shapes_sample : ∃ (c' : Codec) (g : String → String),
    (Codec.ofText ⟨true⟩ "= h ?(ok whether) x - ~:f 2:~p(notes)").run.value = .ok c' ∧
      c'.schema.ids = ["f1", "ok", "f3", "f4", "notes"] ∧ sample.schema.ids.map g = c'.schema.ids ∧
      ∀ row, c'.encode row = (sample.encode row).mapError (.rename g) := by
  let s : Schema := {
    order := .native
    fields := [
      { id := "f1", type := .int16, width := .fixed 2 },
      { id := "ok", type := .bool, width := .fixed 1, note := some "whether" },
      { id := "f3", type := .pad, width := .fixed 1 },
      { id := "f4", type := .float32, width := .fixed 4, count := some .dynamic },
      { id := "notes", type := .bytes, width := .dynamic, count := some (.fixed 2) }]
    text := "= h ?(ok whether) x - ~:f 2:~p(notes)" }
  have hshapes : Schema.sample.fields.map Shape.ofField = s.fields.map Shape.ofField := by decide
  obtain ⟨g, hids, hencode, -⟩ :=
    renamed_of_shapes ofText_sample (show _ = (Codec.ofSchema s).value.schema.fields.map _ from hshapes) rfl
  exact ⟨_, g, Codec.ofText_eq_ok.2 ⟨s, by decide +kernel, rfl⟩, rfl, hids, hencode⟩

end Codec

end RecordPack

import RecordPack.Proofs.Layout.WellFormed
import RecordPack.Proofs.Record.Acceptance

/-!
# Why rows are refused

An error of the writer names what is wrong with a row. `Field.Blames` says when a fault is true of the value of a field,
and `Field.RefusedAmong` where the writer stops and why: for the value of a field, for a length that has no prefix, or
for a block that does not fit the buffer. So an error always has the reason that it names
(`Codec.justifies_of_appendTo`). A length that is too long is greater than the greatest there is, except for that of a
block, which may be so only with what stands before it (`Codec.exists_length_not_too_long`).
-/

namespace RecordPack

/-! ## Single values -/

namespace Value

variable {v w : Value}

/-- Whether a value is an integer, or a number, is a matter of its kind. -/
theorem toInt?_eq_none_iff : v.toInt? = none ↔ v.kind ≠ .int ∧ v.kind ≠ .uint := by
  cases v <;> simp [toInt?, kind]

theorem toFloat?_eq_none_iff :
    v.toFloat? = none ↔ v.toInt? = none ∧ v.kind ≠ .f32 ∧ v.kind ≠ .f64 := by
  cases v <;> simp [toFloat?, toBinary64?, toInt?, kind]

theorem IsInteger.kind_ne {n : Int} (hw : w.IsInteger n) (hv : v.toInt? = none) : w.kind ≠ v.kind := by
  intro h
  have hnone : w.toInt? = none := by
    rw [toInt?_eq_none_iff] at hv ⊢
    rwa [h]
  rw [isInteger_iff.1 hw] at hnone
  cases hnone

theorem IsNumber.kind_ne (hw : w.IsNumber) (hv : v.toFloat? = none) : w.kind ≠ v.kind := by
  intro h
  have hnone : w.toFloat? = none := by
    rw [toFloat?_eq_none_iff, toInt?_eq_none_iff] at hv ⊢
    rwa [h]
  obtain ⟨x, hx⟩ := isNumber_iff.1 hw
  rw [hx] at hnone
  cases hnone

end Value

namespace ScalarType

variable {type : ScalarType} {v : Value} {width : Nat} {fault : Fault}

/-- The fault is true of a value in a place of the type: no value of its kind is taken there, it is a number out of the
range of the type, or it is a byte string that is longer than the place. -/
inductive Refuses (type : ScalarType) (width : Nat) (v : Value) : Fault → Prop
  | mismatch : (∀ w, type.Conforms width w → w.kind ≠ v.kind) →
      Refuses type width v (.typeMismatch type.expectation v.kind)
  | range : v.IsNumber → ¬ type.Conforms width v → Refuses type width v (.outOfRange type v)
  | width {bs : Bytes} : type = bytes → v = .bytes bs → width < bs.length →
      Refuses type width v (.widthExceeded width bs.length)

theorem refuses_of_integerPattern (hconf : ∀ w, type.Conforms width w → ∃ n, w.IsInteger n)
    (hnot : ¬ type.Conforms width v) (h : type.integerPattern v = .error fault) : type.Refuses width v fault := by
  unfold integerPattern at h
  split at h
  · next hv =>
    cases h
    apply Refuses.mismatch
    intro w hw
    obtain ⟨n, hn⟩ := hconf w hw
    exact hn.kind_ne hv
  · next n hv =>
    split at h
    · cases h
    · cases h
      exact .range (.inr (.inr ⟨n, Value.isInteger_iff.2 hv⟩)) hnot

theorem refuses_of_pattern (htype : type ≠ bytes) (h : type.pattern v = .error fault) :
    type.Refuses width v fault := by
  have hnot : ¬ type.Conforms width v := by
    intro hconf
    obtain ⟨k, hk⟩ := (exists_pattern_iff htype width).2 hconf
    rw [h] at hk
    cases hk
  cases htyp : type.expectation with
  | int =>
    rw [pattern_of_int htyp] at h
    refine refuses_of_integerPattern (fun w hw => ?_) hnot h
    obtain ⟨n, hn, -⟩ := (conforms_of_int htyp width).1 hw
    exact ⟨n, hn⟩
  | uint =>
    rw [pattern_of_uint htyp] at h
    refine refuses_of_integerPattern (fun w hw => ?_) hnot h
    obtain ⟨n, hn, -⟩ := (conforms_of_uint htyp width).1 hw
    exact ⟨n, hn⟩
  | pad =>
    cases type <;> simp only [expectation, reduceCtorEq] at htyp
    cases v <;> cases h <;> exact .mismatch fun w hw => by rw [show w = .pad from hw]; rintro ⟨⟩
  | bool =>
    cases type <;> simp only [expectation, reduceCtorEq] at htyp
    cases v <;> cases h <;> exact .mismatch fun w hw => by obtain ⟨b, rfl⟩ := hw; rintro ⟨⟩
  | float =>
    cases type <;> simp only [expectation, reduceCtorEq] at htyp
    case float32 =>
      simp only [pattern, singlePattern] at h
      split at h
      · next hv =>
        cases h
        exact .mismatch fun w hw => hw.1.kind_ne hv
      · next x hv =>
        split at h
        · cases h
          exact .range (Value.isNumber_iff.2 ⟨x, hv⟩) hnot
        · cases h
    case float64 =>
      simp only [pattern, doublePattern] at h
      split at h
      · next hv =>
        cases h
        exact .mismatch fun w hw => hw.kind_ne hv
      · cases h
  | bytes => cases type <;> first | exact absurd rfl htype | cases htyp
  | list => cases type <;> cases htyp

theorem refuses_of_write {e : Endian} (h : type.write e width v = .error fault) : type.Refuses width v fault := by
  by_cases htype : type = bytes
  · subst htype
    cases v
    case bytes bs =>
      simp only [write] at h
      split at h
      · cases h
      · next hlt =>
        cases h
        exact .width rfl rfl (Nat.lt_of_not_le hlt)
    all_goals
      cases h
      exact .mismatch fun w hw => by obtain ⟨bs, rfl, -⟩ := hw; rintro ⟨⟩
  · rw [write_of_ne_bytes htype, map_eq_error] at h
    exact refuses_of_pattern htype h

end ScalarType

theorem Writer.bytesOf_eq_error {v : Value} {fault : Fault} (h : bytesOf v = .error fault) :
    v.kind ≠ .bytes ∧ fault = .typeMismatch .bytes v.kind := by
  cases v <;> cases h <;> exact ⟨nofun, rfl⟩

theorem Writer.itemsOf_eq_error {v : Value} {fault : Fault} (h : itemsOf v = .error fault) :
    v.kind ≠ .list ∧ fault = .typeMismatch .list v.kind := by
  cases v <;> cases h <;> exact ⟨nofun, rfl⟩

/-! ## Fields -/

namespace Field

variable {e : Endian} {f : Field} {v item : Value} {fault : Fault} {err : CodecError} {position : Nat}

/-- What the field takes by itself, or as an item if it is a list. -/
def itemExpectation (f : Field) : Expectation :=
  match f.width with
  | .fixed _ => f.type.expectation
  | .dynamic => .bytes

/-- The values that the field has to write for a value: the value itself, or the items of a list. -/
inductive InPlace (f : Field) (v : Value) : Value → Prop
  | self : f.count = none → InPlace f v v
  | item {extent : Extent} {items : List Value} {item : Value} :
      f.count = some extent → v = .list items → item ∈ items → InPlace f v item

/-- The fault is true of a value of the field: no value of its kind is taken there, or no item of its kind, an item is a
number out of the range of its type or a byte string longer than its place, or a list has another number of items than
the schema says. -/
inductive Blames (f : Field) (v : Value) : Fault → Prop
  | noList : f.isList = true → (∀ w, f.Conforms w → w.kind ≠ v.kind) → Blames f v (.typeMismatch .list v.kind)
  | mismatch {item : Value} : f.InPlace v item → (∀ w, f.ItemConforms w → w.kind ≠ item.kind) →
      Blames f v (.typeMismatch f.itemExpectation item.kind)
  | range {item : Value} : f.InPlace v item → item.IsNumber → ¬ f.ItemConforms item →
      Blames f v (.outOfRange f.type item)
  | width {width : Nat} {bs : Bytes} : f.width = .fixed width → f.InPlace v (.bytes bs) → width < bs.length →
      Blames f v (.widthExceeded width bs.length)
  | count {count : Nat} {items : List Value} : f.count = some (.fixed count) → v = .list items →
      items.length ≠ count → Blames f v (.countMismatch count items.length)

theorem blames_of_refuses {width : Nat} (hwidth : f.width = .fixed width) (hplace : f.InPlace v item)
    (h : f.type.Refuses width item fault) : f.Blames v fault := by
  have hconf : ∀ w, f.ItemConforms w ↔ f.type.Conforms width w := by
    intro w
    rw [ItemConforms, hwidth]
  cases h with
  | mismatch hkind =>
    have hexp : f.type.expectation = f.itemExpectation := by rw [itemExpectation, hwidth]
    rw [hexp]
    exact .mismatch hplace fun w hw => hkind w ((hconf w).1 hw)
  | range hnum hnot => exact .range hplace hnum (mt (hconf item).1 hnot)
  | width _ hitem hlt => exact .width hwidth (hitem ▸ hplace) hlt

theorem blames_of_bytesOf (hwidth : f.width = .dynamic) (hplace : f.InPlace v item)
    (h : Writer.bytesOf item = .error fault) : f.Blames v fault := by
  obtain ⟨hitem, rfl⟩ := Writer.bytesOf_eq_error h
  have hkind : ∀ w, f.ItemConforms w → w.kind ≠ item.kind := by
    intro w hw heq
    rw [ItemConforms, hwidth] at hw
    obtain ⟨bs, rfl⟩ := hw
    exact hitem heq.symm
  have hexp : .bytes = f.itemExpectation := by rw [itemExpectation, hwidth]
  rw [hexp]
  exact .mismatch hplace hkind

theorem blames_of_itemsOf {extent : Extent} (hcount : f.count = some extent) (h : f.itemsOf extent v = .error err) :
    ∃ fault, f.Blames v fault ∧ err = .field f.id fault := by
  rcases bind_eq_error.1 h with h | ⟨items, hitems, h⟩
  · obtain ⟨fault, hf, rfl⟩ := mapError_eq_error.1 h
    obtain ⟨hlist, rfl⟩ := Writer.itemsOf_eq_error hf
    refine ⟨_, .noList (by rw [isList, hcount]; rfl) fun w hw heq => ?_, rfl⟩
    rw [Conforms, hcount] at hw
    obtain ⟨items, rfl, -⟩ := hw
    exact hlist heq.symm
  · rcases bind_eq_error.1 h with h | ⟨u, -, h⟩
    · obtain ⟨fault, hf, rfl⟩ := mapError_eq_error.1 h
      refine ⟨fault, ?_, rfl⟩
      obtain rfl : v = .list items := by
        cases v <;> cases hitems
        rfl
      cases extent with
      | dynamic => cases hf
      | fixed count =>
        rw [Extent.checkItems, Writer.checkCount] at hf
        split at hf
        · cases hf
        · next hne =>
          cases hf
          exact .count hcount rfl hne
    · cases h

/-- A field refuses a value with a fault that is true of it, or for a length that is too long. -/
theorem blames_of_write (h : f.write e v = .error err) :
    (∃ fault, f.Blames v fault ∧ err = .field f.id fault) ∨
      ∃ n, LengthPrefix.maxLength < n ∧ err = .length (.tooLong n) := by
  unfold write at h
  split at h
  case h_1 width hcount hwidth =>
    obtain ⟨fault, hf, rfl⟩ := mapError_eq_error.1 h
    exact .inl ⟨fault, blames_of_refuses hwidth (.self hcount) (ScalarType.refuses_of_write hf), rfl⟩
  case h_2 hcount hwidth =>
    rcases bind_eq_error.1 h with h | ⟨s, -, h⟩
    · obtain ⟨fault, hf, rfl⟩ := mapError_eq_error.1 h
      exact .inl ⟨fault, blames_of_bytesOf hwidth (.self hcount) hf, rfl⟩
    · obtain ⟨cause, hc, rfl⟩ := mapError_eq_error.1 h
      obtain ⟨hlt, rfl⟩ := writeOne_eq_error hc
      exact .inr ⟨s.length, hlt, rfl⟩
  case h_3 extent width hcount hwidth =>
    rcases bind_eq_error.1 h with h | ⟨items, hitems, h⟩
    · exact .inl (blames_of_itemsOf hcount h)
    rcases bind_eq_error.1 h with h | ⟨count, -, h⟩
    · exact .inr (countBytes_eq_error h)
    rcases bind_eq_error.1 h with h | ⟨places, -, h⟩
    · obtain ⟨fault, hf, rfl⟩ := mapError_eq_error.1 h
      obtain ⟨item, hitem, hf⟩ := exists_of_mapM_eq_error hf
      have hplace : f.InPlace v item := .item hcount (itemsOf_eq_ok.1 hitems).1 hitem
      exact .inl ⟨fault, blames_of_refuses hwidth hplace (ScalarType.refuses_of_write hf), rfl⟩
    · cases h
  case h_4 extent hcount hwidth =>
    rcases bind_eq_error.1 h with h | ⟨items, hitems, h⟩
    · exact .inl (blames_of_itemsOf hcount h)
    rcases bind_eq_error.1 h with h | ⟨strings, -, h⟩
    · obtain ⟨fault, hf, rfl⟩ := mapError_eq_error.1 h
      obtain ⟨item, hitem, hf⟩ := exists_of_mapM_eq_error hf
      exact .inl ⟨fault, blames_of_bytesOf hwidth (.item hcount (itemsOf_eq_ok.1 hitems).1 hitem) hf, rfl⟩
    rcases bind_eq_error.1 h with h | ⟨pieces, -, h⟩
    · obtain ⟨cause, hc, rfl⟩ := mapError_eq_error.1 h
      obtain ⟨s, -, hs⟩ := exists_of_mapM_eq_error hc
      obtain ⟨hlt, rfl⟩ := writeOne_eq_error hs
      exact .inr ⟨s.length, hlt, rfl⟩
    rcases bind_eq_error.1 h with h | ⟨size, -, h⟩
    · exact .inr ⟨_, lengthBytes_eq_error h⟩
    rcases bind_eq_error.1 h with h | ⟨count, -, h⟩
    · exact .inr (countBytes_eq_error h)
    · cases h

/-! ## Where the writer stops -/

/-- At a position in the buffer, the error is true of a value of the field: there is a fault, a length has no prefix, or
the block of a list, behind the count of its items, does not fit the buffer. -/
inductive Refuses (position : Nat) (f : Field) (v : Value) : CodecError → Prop
  | fault {fault : Fault} : f.Blames v fault → Refuses position f v (.field f.id fault)
  | length {n : Nat} : LengthPrefix.maxLength < n → Refuses position f v (.length (.tooLong n))
  | block {width : Nat} {items : List Value} {head : Bytes} : f.count = some .dynamic → f.width = .fixed width →
      v = .list items → Writer.lengthBytes items.length = .ok head →
      LengthPrefix.maxLength < position + head.length + items.length * width →
      Refuses position f v (.length (.tooLong (items.length * width)))

theorem refuses_of_write (h : f.write e v = .error err) : f.Refuses position v err := by
  rcases blames_of_write h with ⟨fault, hblames, rfl⟩ | ⟨n, hn, rfl⟩
  · exact .fault hblames
  · exact .length hn

theorem count_of_shape_list {type : ScalarType} {width : Nat} (h : Shape.ofField f = .list type width) :
    f.count = some .dynamic ∧ f.width = .fixed width := by
  obtain ⟨id, ftype, fwidth, count, note⟩ := f
  rcases fwidth with w | _ <;> rcases count with _ | n | _ <;> cases h
  exact ⟨rfl, rfl⟩

theorem refuses_of_dynamicSlot {slot : Slot} (hof : slot.IsOf f) (hdyn : f.fixedWidth? = none)
    (h : Writer.dynamicSlot e position slot v = .error err) : f.Refuses position v err := by
  by_cases hroom : Writer.SlotHasRoom position slot v
  · rw [Writer.dynamicSlot_eq hof hdyn hroom] at h
    exact refuses_of_write h
  · -- only the block of a list can be without room
    simp only [Writer.SlotHasRoom, not_forall] at hroom
    obtain ⟨type, width, items, hshape, rfl, hlt⟩ := hroom
    obtain ⟨hcount, hwidth⟩ := count_of_shape_list (hof.2.symm.trans hshape)
    simp only [Writer.dynamicSlot, hshape, Writer.itemsOf, mapError_ok, ok_bind] at h
    split at h
    · cases h
      exact .length (by decide)
    · rcases bind_eq_error.1 h with h | ⟨head, hhead, h⟩
      · obtain ⟨hn, rfl⟩ := lengthBytes_eq_error h
        exact .length hn
      · rw [Writer.length_lengthBytes hhead] at hlt
        have hres : Writer.reserve (position + head.length) (items.length * width) =
            .error (.length (.tooLong (items.length * width))) := if_neg hlt
        simp only [hres] at h
        cases h
        exact .block hcount hwidth rfl hhead (Nat.lt_of_not_le hlt)

/-- The writer of fields at a position stops at one of them, for its value or for the block of a run of fields that does
not fit the buffer. What stands before is written. -/
inductive RefusedAmong (e : Endian) : (position : Nat) → List Field → Row → CodecError → Prop
  | field {position : Nat} {f : Field} {v : Value} {err : CodecError} (fs : List Field) (vs : Row) :
      f.Refuses position v err → RefusedAmong e position (f :: fs) (v :: vs) err
  | run {position : Nat} {run : List Field} (after : List Field) (row : Row) : (∀ f ∈ run, f.fixedWidth?.isSome) →
      LengthPrefix.maxLength < position + totalWidth run →
      RefusedAmong e position (run ++ after) row (.length (.tooLong (totalWidth run)))
  | behind {position : Nat} {f : Field} {v : Value} {b : Bytes} {fs : List Field} {vs : Row} {err : CodecError} :
      f.write e v = .ok b → RefusedAmong e (position + b.length) fs vs err →
      RefusedAmong e position (f :: fs) (v :: vs) err

/-- Further fields do not matter. -/
theorem RefusedAmong.append {fields : List Field} {row : Row} (h : RefusedAmong e position fields row err)
    (after : List Field) (rowAfter : Row) : RefusedAmong e position (fields ++ after) (row ++ rowAfter) err := by
  induction h with
  | field fs vs h => exact .field _ _ h
  | run after' row hfixed hlt =>
    rw [List.append_assoc]
    exact .run _ _ hfixed hlt
  | behind hb _ ih => exact .behind hb ih

/-- Behind fields that are written, the writer stops where it stops without them. -/
theorem RefusedAmong.of_writeAll {fields : List Field} {row : Row} {fs : List Field} : ∀ {position : Nat} {vs : Row}
    {b : Bytes}, vs.length = fs.length → writeAll e fs vs = .ok b →
    RefusedAmong e (position + b.length) fields row err → RefusedAmong e position (fs ++ fields) (vs ++ row) err := by
  induction fs with
  | nil =>
    intro position vs b hlen hb h
    obtain rfl := List.eq_nil_of_length_eq_zero hlen
    cases hb
    exact h
  | cons f fs ih =>
    intro position vs b hlen hb h
    obtain ⟨v, vs, rfl⟩ := List.exists_cons_of_length_eq_add_one hlen
    simp only [writeAll_cons, bind_eq_ok, pure_eq_ok] at hb
    obtain ⟨b₁, h₁, b₂, h₂, rfl⟩ := hb
    rw [List.length_append, ← Nat.add_assoc] at h
    exact .behind h₁ (ih (Nat.succ.inj hlen) h₂ h)

theorem refusedAmong_of_writeAll {fs : List Field} : ∀ {position : Nat} {row : Row},
    writeAll e fs row = .error err → RefusedAmong e position fs row err := by
  induction fs with
  | nil => nofun
  | cons f fs ih =>
    intro position row h
    cases row with
    | nil => cases h
    | cons v vs =>
      rw [writeAll_cons] at h
      rcases bind_eq_error.1 h with h | ⟨b, hb, h⟩
      · exact .field fs vs (refuses_of_write h)
      · rcases bind_eq_error.1 h with h | ⟨bs, -, h⟩
        · exact .behind hb (ih h)
        · cases h

theorem refusedAmong_of_dynamicSlots {slots : List Slot} {fs : List Field} (hof : List.Forall₂ Slot.IsOf slots fs)
    (hdyn : ∀ f ∈ fs, f.fixedWidth? = none) : ∀ {position : Nat} {row : Row},
    Writer.dynamicSlots e position slots row = .error err → RefusedAmong e position fs row err := by
  induction hof with
  | nil => nofun
  | @cons slot f slots fs hslot _ ih =>
    intro position row h
    have hf := hdyn f List.mem_cons_self
    cases row with
    | nil => cases h
    | cons v vs =>
      rw [Writer.dynamicSlots] at h
      rcases bind_eq_error.1 h with h | ⟨b, hb, h⟩
      · exact .field fs vs (refuses_of_dynamicSlot hslot hf h)
      · -- what is written had room, so it is what the field writes
        rw [Writer.dynamicSlot_eq hslot hf (Writer.slotHasRoom_of_eq_ok hb)] at hb
        rcases bind_eq_error.1 h with h | ⟨bs, -, h⟩
        · exact .behind hb (ih (fun g hg => hdyn g (List.mem_cons_of_mem _ hg)) h)
        · cases h

theorem refusedAmong_of_segment {order : ByteOrder} {seg : Segment} {fs : List Field} {row : Row}
    (hof : seg.IsOf order fs) (h : Writer.segment e position seg row = .error err) :
    RefusedAmong e position fs row err := by
  cases hof with
  | @fixed slots fs hof hfixed =>
    by_cases hroom : position + (FixedRun.ofSlots order slots).width ≤ LengthPrefix.maxLength
    · have hres : Writer.reserve position (FixedRun.ofSlots order slots).width = .ok () := if_pos hroom
      simp only [Writer.segment, hres, ok_bind] at h
      exact refusedAmong_of_writeAll ((Writer.fixedSlots_eq hof hfixed row).symm.trans h)
    · have hres : Writer.reserve position (FixedRun.ofSlots order slots).width =
          .error (.length (.tooLong (FixedRun.ofSlots order slots).width)) := if_neg hroom
      have hwidth : (FixedRun.ofSlots order slots).width = totalWidth fs := Slot.totalWidth_eq_of_forall₂ hof
      simp only [Writer.segment, hres] at h
      cases h
      rw [hwidth] at hroom ⊢
      have hrun := RefusedAmong.run (e := e) [] row hfixed (Nat.lt_of_not_le hroom)
      rwa [List.append_nil] at hrun
  | dynamic hof hdyn => exact refusedAmong_of_dynamicSlots hof hdyn h

/-- Where the writer of segments stops, the writer of fields has a reason to. -/
theorem refusedAmong_of_segments {order : ByteOrder} {segs : List Segment} {fields : List Field}
    (hcovers : Covers order segs fields) : ∀ {position : Nat} {row : Row}, row.length = fields.length →
    Writer.segments e position segs row = .error err → RefusedAmong e position fields row err := by
  induction hcovers with
  | nil => nofun
  | @cons seg fs fields segs hof _ ih =>
    intro position row hlen h
    rw [Writer.segments] at h
    rw [← List.take_append_drop seg.slots.length row]
    rw [List.length_append, ← hof.length_eq] at hlen
    rcases bind_eq_error.1 h with h | ⟨b, hb, h⟩
    · exact (refusedAmong_of_segment hof h).append _ _
    · rw [Writer.segment_eq hof (Writer.segmentHasRoom_of_eq_ok hb)] at hb
      rcases bind_eq_error.1 h with h | ⟨bs, -, h⟩
      · refine .of_writeAll ?_ hb (ih ?_ h)
        · rw [List.length_take, ← hof.length_eq]
          omega
        · rw [List.length_drop]
          omega
      · cases h

/-! ## What is true of a row -/

/-- The writer of fields at a position sets `n` bytes aside at `offset`: for a run of fields of fixed width, or for the
items of a list, behind their count. What stands before is written. -/
inductive SetsAside (e : Endian) : (position : Nat) → List Field → Row → (offset n : Nat) → Prop
  | run {position : Nat} {run : List Field} (after : List Field) (row : Row) : (∀ f ∈ run, f.fixedWidth?.isSome) →
      SetsAside e position (run ++ after) row position (totalWidth run)
  | list {position width : Nat} {f : Field} {items : List Value} {head : Bytes} (fs : List Field) (vs : Row) :
      f.count = some .dynamic → f.width = .fixed width → Writer.lengthBytes items.length = .ok head →
      SetsAside e position (f :: fs) (.list items :: vs) (position + head.length) (items.length * width)
  | behind {position offset n : Nat} {f : Field} {v : Value} {b : Bytes} {fs : List Field} {vs : Row} :
      f.write e v = .ok b → SetsAside e (position + b.length) fs vs offset n →
      SetsAside e position (f :: fs) (v :: vs) offset n

/-- The writer stops for a fault that is true of the value of a field, or for a length that is too long by itself or
with what stands before it. -/
theorem RefusedAmong.exists_reason {fields : List Field} {row : Row} (h : RefusedAmong e position fields row err) :
    (∃ (i : Nat) (f : Field) (v : Value) (fault : Fault), fields[i]? = some f ∧ row[i]? = some v ∧
      f.Blames v fault ∧ err = .field f.id fault) ∨
    ∃ n, err = .length (.tooLong n) ∧ (LengthPrefix.maxLength < n ∨
      ∃ offset, SetsAside e position fields row offset n ∧ LengthPrefix.maxLength < offset + n) := by
  induction h with
  | @field position f v err fs vs h =>
    cases h with
    | fault hblames => exact .inl ⟨0, f, v, _, rfl, rfl, hblames, rfl⟩
    | length hn => exact .inr ⟨_, rfl, .inl hn⟩
    | block hcount hwidth hv hhead hlt =>
      subst hv
      exact .inr ⟨_, rfl, .inr ⟨_, .list fs vs hcount hwidth hhead, hlt⟩⟩
  | run after row hfixed hlt => exact .inr ⟨_, rfl, .inr ⟨_, .run after row hfixed, hlt⟩⟩
  | behind hb _ ih =>
    rcases ih with ⟨i, f, v, fault, hf, hv, hblames⟩ | ⟨n, herr, hn | ⟨offset, hset, hlt⟩⟩
    · exact .inl ⟨i + 1, f, v, fault, hf, hv, hblames⟩
    · exact .inr ⟨n, herr, .inl hn⟩
    · exact .inr ⟨n, herr, .inr ⟨offset, .behind hb hset, hlt⟩⟩

end Field

namespace Codec

variable {c : Codec}

/-- The error is true of a row that is to be appended to a buffer with `start` bytes. -/
def Justifies (c : Codec) (start : Nat) (row : Row) : CodecError → Prop
  | .fieldNumber expected actual => expected = c.schema.arity ∧ actual = row.length ∧ actual ≠ expected
  | .field id fault => ∃ (i : Nat) (f : Field) (v : Value), c.schema.fields[i]? = some f ∧ row[i]? = some v ∧
      f.id = id ∧ f.Blames v fault
  | .length (.tooLong n) => LengthPrefix.maxLength < n ∨ ∃ offset,
      Field.SetsAside c.endian (start + 4) c.schema.fields row offset n ∧ LengthPrefix.maxLength < offset + n
  | _ => False

theorem justifies_of_record {start : Nat} {row : Row} {err : CodecError} (h : c.record start row = .error err) :
    c.Justifies start row err := by
  unfold record at h
  split at h
  · next hlen =>
    cases h
    exact ⟨rfl, rfl, hlen⟩
  · next hlen =>
    rcases bind_eq_error.1 h with h | ⟨body, -, h⟩
    · have hrefused := Field.refusedAmong_of_segments c.covers (not_not.1 hlen) h
      rcases hrefused.exists_reason with ⟨i, f, v, fault, hf, hv, hblames, rfl⟩ | ⟨n, rfl, hn⟩
      · exact ⟨i, f, v, hf, hv, rfl, hblames⟩
      · exact hn
    · rcases bind_eq_error.1 h with h | ⟨head, -, h⟩
      · obtain ⟨hn, rfl⟩ := Field.lengthBytes_eq_error h
        exact .inl hn
      · cases h

/-- A row is refused only with an error that is true of it: it has another number of values than there are fields, the
fault is that of a value in the field that is named, or the length is greater than the greatest there is, by itself or,
if it is that of a block, with what stands before the block. The buffer then stays as it is. -/
theorem justifies_of_appendTo {data out : Bytes} {row : Row} {err : CodecError}
    (h : (c.appendTo data row).value = (.error err, out)) : c.Justifies data.length row err ∧ out = data := by
  rw [value_appendTo] at h
  cases hrecord : c.record data.length row with
  | ok r =>
    rw [hrecord] at h
    cases h
  | error err' =>
    rw [hrecord] at h
    cases h
    exact ⟨justifies_of_record hrecord, rfl⟩

theorem justifies_of_appendTo_sample :
    (sample.appendTo [7] (sampleRow (.uint 40000))).value =
      (.error (.field "n" (.outOfRange .int16 (.uint 40000))), [7]) ∧
    ∃ (i : Nat) (f : Field) (v : Value), sample.schema.fields[i]? = some f ∧
      (sampleRow (.uint 40000))[i]? = some v ∧ f.id = "n" ∧ f.Blames v (.outOfRange .int16 (.uint 40000)) := by
  have h : (sample.appendTo [7] (sampleRow (.uint 40000))).value =
      (.error (.field "n" (.outOfRange .int16 (.uint 40000))), [7]) := by rfl
  exact ⟨h, (justifies_of_appendTo h).1⟩

/-- A schema of one field that is as wide as a buffer can be. -/
def widest : Schema :=
  ⟨.network, [{ id := "f1", type := .bytes, width := .fixed 9223372036854775807 }], "9223372036854775807s"⟩

theorem ofText_widest : (Codec.ofText {} widest.text).run.value = .ok (Codec.ofSchema widest).value :=
  ofText_eq_ok.2 ⟨widest, by decide +kernel, rfl⟩

/-- The length that is called too long may be one that is not: a block that does not fit behind the length of its record
is named by its own. -/
theorem exists_length_not_too_long :
    ¬ ∀ (options : ParseOptions) (text : String) (c : Codec) (data out : Bytes) (row : Row) (n : Nat),
      (Codec.ofText options text).run.value = .ok c →
      (c.appendTo data row).value = (.error (.length (.tooLong n)), out) → LengthPrefix.maxLength < n := by
  intro h
  have hrefused : ((Codec.ofSchema widest).value.appendTo [] [.bytes [97]]).value =
      (.error (.length (.tooLong 9223372036854775807)), []) := by rfl
  exact absurd (h {} widest.text _ _ _ _ _ ofText_widest hrefused) (by decide)

end Codec

end RecordPack

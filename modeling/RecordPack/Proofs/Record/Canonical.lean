import RecordPack.Proofs.Record.Part
import RecordPack.Proofs.Record.Settled

/-!
# Canonical forms

Of all forms of a value one is canonical: every prefix as short as it can be, every truth value zero or one,
every filler zero. A value that was read can be written again, and what is written `Condenses` the form that
was read: it is no longer, and the same bytes exactly if the form was canonical.
-/

namespace RecordPack

open LengthPrefix (Measures)

namespace Part

/-- A prefix is in its shortest form, and a place holds what is written for its value. -/
def IsCanonical : Part → Prop
  | measure bs => LengthPrefix.IsShortest bs
  | place type bs => type.IsPlain bs
  | text _ => True

/-- The bytes are no longer than the parts, and are their bytes exactly if all parts are canonical. -/
structure Condenses (bs : Bytes) (ps : List Part) : Prop where
  length_le : bs.length ≤ (allBytes ps).length
  eq_iff : bs = allBytes ps ↔ ∀ p ∈ ps, p.IsCanonical

/-- Where no piece is longer than its counterpart, equal sums have equal pieces. -/
theorem append_eq_append_iff_of_le {as bs cs ds : Bytes} (h : as.length ≤ cs.length) (h' : bs.length ≤ ds.length) :
    as ++ bs = cs ++ ds ↔ as = cs ∧ bs = ds := by
  constructor
  · intro heq
    have hlen := congrArg List.length heq
    rw [List.length_append, List.length_append] at hlen
    exact List.append_inj heq (by omega)
  · rintro ⟨rfl, rfl⟩
    rfl

theorem Condenses.nil : Condenses [] [] := ⟨Nat.le_refl _, by simp⟩

theorem Condenses.append {as bs : Bytes} {ps qs : List Part} (h : Condenses as ps) (h' : Condenses bs qs) :
    Condenses (as ++ bs) (ps ++ qs) := by
  have hle := h.length_le
  have hle' := h'.length_le
  -- neither piece is longer than its counterpart, so equal sums have equal pieces
  refine ⟨?_, ?_⟩
  · rw [allBytes_append, List.length_append, List.length_append]
    omega
  · rw [allBytes_append, append_eq_append_iff_of_le hle hle', h.eq_iff, h'.eq_iff]
    exact List.forall_mem_append.symm

theorem condenses_text (s : Bytes) : Condenses s [.text s] := by
  refine ⟨by simp, ?_⟩
  simp [IsCanonical]

theorem condenses_measure {p q : Bytes} {n : Nat} (h : Measures p n) (hq : LengthPrefix.encode n = .ok q) :
    Condenses q [.measure p] := by
  refine ⟨by simpa using LengthPrefix.length_encode_le hq h, ?_⟩
  have hiff : q = p ↔ LengthPrefix.IsShortest p := by
    rw [LengthPrefix.isShortest_iff h, hq, Except.ok.injEq]
  simpa [IsCanonical] using hiff

theorem condenses_place {e : Endian} {type : ScalarType} {bs : Bytes} (hfit : type.Fits bs.length)
    (hx : ∀ x, type.read e bs = .f32 x → x.IsSettled) :
    ∃ b, type.write e bs.length (type.read e bs) = .ok b ∧ Condenses b [.place type bs] := by
  obtain ⟨b, hb, hiff⟩ := ScalarType.write_read hfit hx
  refine ⟨b, hb, ?_, ?_⟩
  · simp [ScalarType.length_of_write hb]
  · simpa [IsCanonical] using hiff

/-- A length in front of parts shrinks with them. If all bytes are the same then so is the number. -/
theorem condenses_sized {size pb cb : Bytes} {count payload : List Part}
    (hm : Measures size (allBytes payload).length) (hc : Condenses cb count) (hp : Condenses pb payload) :
    ∃ q, LengthPrefix.encode pb.length = .ok q ∧ Condenses (q ++ cb ++ pb) (.measure size :: (count ++ payload)) := by
  obtain ⟨q, hq⟩ := LengthPrefix.exists_encode (Nat.le_trans hp.length_le hm.le_maxLength)
  obtain ⟨q', hq'⟩ := LengthPrefix.exists_encode hm.le_maxLength
  have hle : q.length ≤ size.length :=
    Nat.le_trans (LengthPrefix.length_encode_mono hp.length_le hq hq') (LengthPrefix.length_encode_le hq' hm)
  have hle' := (hc.append hp).length_le
  refine ⟨q, hq, ?_, ?_⟩
  · simp only [allBytes_cons, bytes, List.length_append] at hle' ⊢
    omega
  · rw [allBytes_cons, bytes, List.append_assoc, append_eq_append_iff_of_le hle hle', (hc.append hp).eq_iff,
      List.forall_mem_cons]
    -- the new size measures the new payload, so it is compared once the payloads are equal
    refine and_congr_left fun hall => ?_
    have heq : pb = allBytes payload := hp.eq_iff.2 fun p h => hall p (List.mem_append_right _ h)
    have hiff : q = size ↔ LengthPrefix.IsShortest size := by
      rw [LengthPrefix.isShortest_iff hm, ← heq, hq, Except.ok.injEq]
    exact hiff

end Part

/-- The values that stand in places of their own: the items of a list, or the value itself. -/
def Value.scalars : Value → List Value
  | .list items => items
  | v => [v]

/-- No single-precision number in the value is a pattern of no number, except the quiet positive one. -/
def Value.HasSettledFloats (v : Value) : Prop := ∀ x, .f32 x ∈ v.scalars → x.IsSettled

/-! ## Writing what was read -/

theorem Extent.checkItems_of_counts {extent : Extent} {count : List Part} {items : List Value}
    (h : extent.Counts items.length count) : extent.checkItems items = .ok () := by
  generalize hn : items.length = n at h
  cases h with
  | fixed _ => simp [checkItems, Writer.checkCount, hn]
  | dynamic _ => rfl

theorem Extent.exists_countBytes {extent : Extent} {n : Nat} {count : List Part} (h : extent.Counts n count) :
    ∃ b, extent.countBytes n = .ok b ∧ Part.Condenses b count := by
  cases h with
  | fixed _ => exact ⟨[], rfl, .nil⟩
  | dynamic hm =>
    obtain ⟨q, hq⟩ := LengthPrefix.exists_encode hm.le_maxLength
    exact ⟨q, mapError_eq_ok.2 hq, Part.condenses_measure hm hq⟩

theorem exists_mapM_places {e : Endian} {type : ScalarType} {width : Nat} (hfit : type.Fits width)
    {places : List Bytes} (hall : ∀ bs ∈ places, bs.length = width)
    (hx : ∀ x, .f32 x ∈ places.map (type.read e) → x.IsSettled) :
    ∃ blocks, (places.map (type.read e)).mapM (type.write e width) = .ok blocks ∧
      Part.Condenses blocks.flatten (places.map (.place type)) := by
  induction places with
  | nil => exact ⟨[], rfl, .nil⟩
  | cons bs places ih =>
    obtain rfl := hall bs List.mem_cons_self
    obtain ⟨b, hb, hcon⟩ := Part.condenses_place (e := e) hfit fun x hread => hx x (by simp [hread])
    obtain ⟨blocks, hblocks, hcons⟩ := ih (fun b' hb' => hall b' (List.mem_cons_of_mem _ hb'))
      fun x hmem => hx x (List.mem_cons_of_mem _ hmem)
    refine ⟨b :: blocks, ?_, hcon.append hcons⟩
    rw [mapM_eq_ok] at hblocks ⊢
    exact .cons hb hblocks

theorem exists_mapM_strings {strings : List (Bytes × Bytes)} (hall : ∀ x ∈ strings, Measures x.1 x.2.length) :
    ∃ pieces, (strings.map Prod.snd).mapM Strings.writeOne = .ok pieces ∧
      Part.Condenses pieces.flatten (strings.flatMap Part.ofString) := by
  induction strings with
  | nil => exact ⟨[], rfl, .nil⟩
  | cons x strings ih =>
    have hm := hall x List.mem_cons_self
    obtain ⟨q, hq⟩ := LengthPrefix.exists_encode hm.le_maxLength
    obtain ⟨pieces, hpieces, hcons⟩ := ih fun y hy => hall y (List.mem_cons_of_mem _ hy)
    have hone : Strings.writeOne x.2 = .ok (q ++ x.2) := map_eq_ok.2 ⟨q, hq, rfl⟩
    refine ⟨(q ++ x.2) :: pieces, ?_, ?_⟩
    · rw [mapM_eq_ok] at hpieces ⊢
      exact .cons hone hpieces
    · exact ((Part.condenses_measure hm hq).append (Part.condenses_text x.2)).append hcons

/-- A value that has a form can be written, and its form is condensed. -/
theorem Field.exists_write {e : Endian} {f : Field} (hf : f.WellFormed) {ps : List Part} {v : Value}
    (h : f.Carries e ps v) (hx : v.HasSettledFloats) :
    ∃ b, f.write e v = .ok b ∧ Part.Condenses b ps := by
  cases h with
  | @scalar bs hcount hwidth =>
    have hx' : ∀ x, f.type.read e bs = .f32 x → x.IsSettled := by
      intro x hread
      exact hx x (by rw [hread]; exact List.mem_cons_self)
    obtain ⟨b, hb, hcon⟩ := Part.condenses_place (hf.fits hwidth) hx'
    refine ⟨b, ?_, hcon⟩
    simp only [write, hcount, hwidth, hb, mapError_ok]
  | @string p s hcount hwidth hm =>
    obtain ⟨q, hq⟩ := LengthPrefix.exists_encode hm.le_maxLength
    refine ⟨q ++ s, ?_, (Part.condenses_measure hm hq).append (Part.condenses_text s)⟩
    simp only [write, hcount, hwidth, Writer.bytesOf, mapError_ok, ok_bind, Strings.writeOne, hq, map_ok]
  | @list extent width count places hcount hwidth hc hall =>
    obtain ⟨cb, hcb, hcon⟩ := Extent.exists_countBytes hc
    obtain ⟨blocks, hblocks, hcons⟩ := exists_mapM_places (hf.fits hwidth) hall hx
    have hitems : f.itemsOf extent (.list (places.map (f.type.read e))) = .ok (places.map (f.type.read e)) :=
      itemsOf_eq_ok.2 ⟨rfl, Extent.checkItems_of_counts (by rwa [List.length_map])⟩
    refine ⟨cb ++ blocks.flatten, ?_, hcon.append hcons⟩
    simp only [write, hcount, hwidth, hitems, ok_bind, List.length_map, hcb, hblocks, mapError_ok]
    rfl
  | @strings extent size count strings hcount hwidth hsize hc hall =>
    obtain ⟨cb, hcb, hcon⟩ := Extent.exists_countBytes hc
    obtain ⟨pieces, hpieces, hcons⟩ := exists_mapM_strings hall
    obtain ⟨q, hq, hcon'⟩ := Part.condenses_sized hsize hcon hcons
    have hitems : f.itemsOf extent (.list (strings.map (.bytes ·.2))) = .ok (strings.map (.bytes ·.2)) :=
      itemsOf_eq_ok.2 ⟨rfl, Extent.checkItems_of_counts (by rwa [List.length_map])⟩
    have hbytes : (strings.map (Value.bytes ·.2)).mapM Writer.bytesOf = .ok (strings.map Prod.snd) :=
      mapM_bytesOf_eq_ok.2 (by rw [List.map_map]; rfl)
    refine ⟨q ++ cb ++ pieces.flatten, ?_, hcon'⟩
    simp only [write, hcount, hwidth, hitems, ok_bind, hbytes, mapError_ok, hpieces, Writer.lengthBytes, hq,
      List.length_map, hcb]
    rfl

/-- A row that has a form can be written, and its form is condensed. -/
theorem Field.exists_writeAll {e : Endian} {fs : List Field} {ps : List Part} {row : Row}
    (h : CarriesAll e fs ps row) (hwf : ∀ f ∈ fs, f.WellFormed) (hx : ∀ v ∈ row, v.HasSettledFloats) :
    ∃ b, writeAll e fs row = .ok b ∧ Part.Condenses b ps := by
  induction h with
  | nil => exact ⟨[], rfl, .nil⟩
  | @cons f fs ps qs v vs hcar _ ih =>
    obtain ⟨b, hb, hcon⟩ := exists_write (hwf f List.mem_cons_self) hcar (hx v List.mem_cons_self)
    obtain ⟨bs, hbs, hcons⟩ := ih (fun g hg => hwf g (List.mem_cons_of_mem _ hg))
      fun w hw => hx w (List.mem_cons_of_mem _ hw)
    refine ⟨b ++ bs, ?_, hcon.append hcons⟩
    rw [writeAll_cons, hb, hbs]
    rfl

/-! ## What was read is settled -/

theorem ScalarType.isSettled_read {e : Endian} {type : ScalarType} {bs : Bytes}
    (hx : ∀ x, type.read e bs = .f32 x → x.IsSettled) : type.IsSettled bs.length (type.read e bs) := by
  cases type
  case pad => rfl
  case float32 => exact ⟨_, rfl, hx _ rfl⟩
  case bytes => exact ⟨bs, rfl, rfl⟩
  all_goals exact ⟨_, rfl⟩

theorem Field.isSettled_of_carries {e : Endian} {f : Field} {ps : List Part} {v : Value} (h : f.Carries e ps v)
    (hx : v.HasSettledFloats) : f.IsSettled v := by
  cases h with
  | @scalar bs hcount hwidth =>
    simp only [IsSettled, hcount, hwidth]
    refine ScalarType.isSettled_read fun x hread => hx x ?_
    rw [hread]
    exact List.mem_cons_self
  | @string p s hcount hwidth _ =>
    simp only [IsSettled, hcount, hwidth]
    exact ⟨s, rfl⟩
  | @list extent width count places hcount hwidth _ hall =>
    simp only [IsSettled, hcount, hwidth]
    refine ⟨_, rfl, ?_⟩
    intro item hitem
    obtain ⟨bs, hbs, rfl⟩ := List.mem_map.1 hitem
    rw [← hall bs hbs]
    refine ScalarType.isSettled_read fun x hread => hx x ?_
    rwa [hread] at hitem
  | @strings extent size count strings hcount hwidth _ _ _ =>
    simp only [IsSettled, hcount, hwidth]
    exact ⟨strings.map Prod.snd, by rw [List.map_map]; rfl⟩

theorem Field.forall₂_isSettled_of_carriesAll {e : Endian} {fs : List Field} {ps : List Part} {row : Row}
    (h : CarriesAll e fs ps row) (hx : ∀ v ∈ row, v.HasSettledFloats) : List.Forall₂ Field.IsSettled fs row := by
  induction h with
  | nil => exact .nil
  | @cons f fs ps qs v vs hcar _ ih =>
    refine .cons (isSettled_of_carries hcar (hx v List.mem_cons_self)) ?_
    exact ih fun w hw => hx w (List.mem_cons_of_mem _ hw)

end RecordPack

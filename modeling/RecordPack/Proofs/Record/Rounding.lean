import RecordPack.Proofs.Codec
import RecordPack.Proofs.Ieee.Twice

/-!
# Integers in single-precision fields

A field of single precision takes every integer, and so does a list of such numbers, whatever else is in the list. What
stands in a record for each of them is what it becomes by way of double precision (`Codec.record_rounds_twice`), which
is the nearest number except for an integer that comes to lie midway between two.
-/

namespace RecordPack

open Ieee (Binary64 RoundedTwice binary32)

namespace ScalarType

variable {v : Value} {n : Int}

theorem toFloat?_of_toInt? (h : v.toInt? = some n) : v.toFloat? = some (Binary64.ofInt n) := by
  cases v <;> cases h
  · rfl
  · next k =>
    have hneg : ¬ ((k.toNat : Int) < 0) := by omega
    simp only [Value.toFloat?, Binary64.ofNat, Binary64.ofInt, Int.natAbs_natCast, decide_eq_false hneg]

theorem natAbs_le_of_toInt? (h : v.toInt? = some n) : n.natAbs ≤ 2 ^ 64 := by
  cases v <;> cases h
  · next k =>
    have hlo := k.le_toInt
    have hhi := k.toInt_lt
    omega
  · next k =>
    have hlt := k.toNat_lt
    omega

/-- An integer is never too great for single precision. -/
theorem exists_singlePattern (h : v.toInt? = some n) : ∃ d p, RoundedTwice n d p ∧ singlePattern v = .ok p := by
  have hrounded := Ieee.roundedTwice_ofInt (natAbs_le_of_toInt? h)
  refine ⟨_, _, hrounded, ?_⟩
  have hfinite : (Binary64.ofInt n).toBinary32.isInfinite = false := by
    rw [Ieee.Binary32.isInfinite, beq_eq_false_iff_ne]
    exact hrounded.second.finite.2.ne
  exact singlePattern_eq_ok.2 ⟨_, toFloat?_of_toInt? h, rfl, by rw [hfinite]; simp⟩

theorem write_single (e : Endian) (v : Value) : float32.write e 4 v = (singlePattern v).map (e.toBytes 4) := by
  rw [write_of_ne_bytes (by decide)]
  rfl

theorem exists_write_single (h : v.toInt? = some n) (e : Endian) :
    ∃ d p, RoundedTwice n d p ∧ float32.write e 4 v = .ok (e.toBytes 4 p) := by
  obtain ⟨d, p, hp, hpattern⟩ := exists_singlePattern h
  exact ⟨d, p, hp, by rw [write_single, hpattern, map_ok]⟩

/-- The pattern is that of the value in single precision. For an integer it has been rounded twice. -/
def HasSinglePattern (v : Value) (p : Nat) : Prop :=
  singlePattern v = .ok p ∧ ∀ n, v.toInt? = some n → ∃ d, RoundedTwice n d p

theorem hasSinglePattern_of_eq {p : Nat} (h : singlePattern v = .ok p) : HasSinglePattern v p := by
  refine ⟨h, ?_⟩
  intro n hn
  obtain ⟨d, q, hq, hpattern⟩ := exists_singlePattern hn
  obtain rfl := Except.ok.inj (hpattern.symm.trans h)
  exact ⟨d, hq⟩

theorem exists_of_write_single {e : Endian} {b : Bytes} (h : float32.write e 4 v = .ok b) :
    ∃ p, HasSinglePattern v p ∧ b = e.toBytes 4 p := by
  rw [write_single, map_eq_ok] at h
  obtain ⟨p, hp, rfl⟩ := h
  exact ⟨p, hasSinglePattern_of_eq hp, rfl⟩

/-- The items of a list are written one by one. -/
theorem exists_of_mapM_write_single {e : Endian} {items : List Value} {places : List Bytes}
    (h : items.mapM (float32.write e 4) = .ok places) :
    ∃ ps, List.Forall₂ HasSinglePattern items ps ∧ places = ps.map (e.toBytes 4) := by
  rw [mapM_eq_ok] at h
  induction h with
  | nil => exact ⟨[], .nil, rfl⟩
  | cons hwrite _ ih =>
    obtain ⟨p, hp, rfl⟩ := exists_of_write_single hwrite
    obtain ⟨ps, hps, rfl⟩ := ih
    exact ⟨p :: ps, .cons hp hps, rfl⟩

end ScalarType

namespace Field

variable {e : Endian} {f : Field} {v : Value} {b : Bytes}

/-- What a single-precision field writes: the patterns of its items, behind their count if it has one of its own. -/
theorem exists_patterns (hf : f.WellFormed) (htype : f.type = .float32) (h : f.write e v = .ok b) :
    ∃ head ps, b = head ++ ps.flatMap (e.toBytes 4) ∧ List.Forall₂ ScalarType.HasSinglePattern v.scalars ps ∧
      if f.count = some .dynamic then LengthPrefix.encode v.scalars.length = .ok head else head = [] := by
  have hwidth : f.width = .fixed 4 := by
    rw [hf.width_eq (by rw [htype]; rfl), htype]
    rfl
  cases hcount : f.count with
  | none =>
    simp only [write, hcount, hwidth, htype, mapError_eq_ok] at h
    obtain ⟨p, hp, rfl⟩ := ScalarType.exists_of_write_single h
    have hone : v.scalars = [v] := by
      -- a list has no place in a field without a count
      cases v with
      | list items => cases h
      | _ => rfl
    rw [hone]
    exact ⟨[], [p], by simp, .cons hp .nil, by simp⟩
  | some extent =>
    simp only [write, hcount, hwidth, htype, bind_eq_ok, mapError_eq_ok, pure_eq_ok, itemsOf_eq_ok] at h
    obtain ⟨items, ⟨rfl, -⟩, head, hhead, places, hplaces, rfl⟩ := h
    obtain ⟨ps, hps, rfl⟩ := ScalarType.exists_of_mapM_write_single hplaces
    refine ⟨head, ps, by rw [List.flatMap_def], hps, ?_⟩
    cases extent with
    | fixed n =>
      cases hhead
      simp
    | dynamic =>
      rw [if_pos rfl]
      exact mapError_eq_ok.1 hhead

end Field

/-- The bytes of a field stand between those of the fields before it and those of the fields after it. -/
theorem Field.exists_of_writeAll {e : Endian} {fs : List Field} {row : Row} {f : Field} {v : Value} {i : Nat} {b : Bytes}
    (h : writeAll e fs row = .ok b) (hf : fs[i]? = some f) (hv : row[i]? = some v) :
    ∃ before own after, writeAll e (fs.take i) (row.take i) = .ok before ∧ f.write e v = .ok own ∧
      writeAll e (fs.drop (i + 1)) (row.drop (i + 1)) = .ok after ∧ b = before ++ own ++ after := by
  obtain ⟨hi, hfi⟩ := List.getElem?_eq_some_iff.1 hf
  obtain ⟨hi', hvi⟩ := List.getElem?_eq_some_iff.1 hv
  have hfs : fs = fs.take i ++ f :: fs.drop (i + 1) := by
    rw [← hfi, ← List.drop_eq_getElem_cons hi, List.take_append_drop]
  have hrow : row.drop i = v :: row.drop (i + 1) := by rw [← hvi, ← List.drop_eq_getElem_cons hi']
  rw [hfs, writeAll_append, List.length_take_of_le hi.le, hrow] at h
  simp only [writeAll_cons, bind_eq_ok, pure_eq_ok] at h
  obtain ⟨before, hbefore, _, ⟨own, hown, after, hafter, rfl⟩, rfl⟩ := h
  exact ⟨before, own, after, hbefore, hown, hafter, (List.append_assoc _ _ _).symm⟩

/-- Every integer can be written in single precision. In the record of a row, where a field of single precision has its
place, there stands a number for each item of it. For an integer that is what it becomes by way of double precision,
whatever the other items are. It is the nearest number unless the integer came to lie midway between two of them and was
nearer to the one with the odd significand. -/
theorem Codec.record_rounds_twice :
    (∀ (e : Endian) (v : Value) (n : Int), v.toInt? = some n →
      ∃ d p, RoundedTwice n d p ∧ ScalarType.float32.write e 4 v = .ok (e.toBytes 4 p)) ∧
    ∀ (c : Codec) (start : Nat) (row : Row) (r : Record), c.schema.WellFormed → c.record start row = .ok r →
      ∀ (i : Nat) (f : Field) (v : Value), c.schema.fields[i]? = some f → row[i]? = some v → f.type = .float32 →
        ∃ before head ps after, r.body = before ++ (head ++ ps.flatMap (c.endian.toBytes 4)) ++ after ∧
          Field.writeAll c.endian (c.schema.fields.take i) (row.take i) = .ok before ∧
          (if f.count = some .dynamic then LengthPrefix.encode v.scalars.length = .ok head else head = []) ∧
          List.Forall₂ (fun item p => ScalarType.singlePattern item = .ok p ∧
            ∀ n, item.toInt? = some n → ∃ d, RoundedTwice n d p) v.scalars ps := by
  refine ⟨fun e v n h => ScalarType.exists_write_single h e, ?_⟩
  intro c start row r hc h i f v hf hv htype
  obtain ⟨-, -, hbody, -⟩ := record_eq_ok.1 h
  obtain ⟨before, own, after, hbefore, hown, -, hr⟩ := Field.exists_of_writeAll hbody hf hv
  obtain ⟨head, ps, rfl, hps, hhead⟩ := Field.exists_patterns (hc.fields f (List.mem_of_getElem? hf)) htype hown
  exact ⟨before, head, ps, after, hr, hbefore, hhead, hps⟩

/-- Behind minus one, a list of numbers may hold a number of single precision. Minus one needs no rounding, and neither
does three. -/
theorem Codec.record_rounds_twice_sample :
    let row : Row := [.uint 258, .bool true, .pad, .list [.int (-1), .f32 ⟨0x40490fdb⟩], .list [.bytes [], .bytes [65]]]
    sample.schema.WellFormed ∧ ∃ r, sample.record 0 row = .ok r ∧
      (∃ before p after, r.body = before ++ ([0, 0, 0, 2] ++ (Endian.little.toBytes 4 p ++ [219, 15, 73, 64])) ++ after ∧
        binary32.IsNearest (-1) p) ∧
      ∃ p, ScalarType.float32.write .big 4 (.uint 3) = .ok (Endian.big.toBytes 4 p) ∧ binary32.IsNearest 3 p := by
  intro row
  obtain ⟨r, hr⟩ : ∃ r, sample.record 0 row = .ok r :=
    ⟨⟨[0, 0, 0, 29], [2, 1, 1, 0, 0, 0, 0, 2, 0, 0, 128, 191, 219, 15, 73, 64, 0, 0, 0, 9, 0, 0, 0, 0, 0, 0, 0, 1, 65]⟩,
      by decide +kernel⟩
  have hwf : sample.schema.WellFormed := wellFormed_of_ofText ofText_sample
  obtain ⟨before, head, ps, after, hbody, -, hhead, hps⟩ :=
    record_rounds_twice.2 sample 0 row r hwf hr 3 _ (.list [.int (-1), .f32 ⟨0x40490fdb⟩]) rfl rfl rfl
  obtain rfl := Except.ok.inj (hhead.symm.trans (by decide : LengthPrefix.encode 2 = .ok [0, 0, 0, 2]))
  cases hps with
  | @cons _ q _ _ hq hrest =>
    obtain ⟨d, hrounded⟩ := hq.2 (-1) rfl
    cases hrest with
    | @cons _ q' _ _ hq' hrest =>
      cases hrest
      have hpattern : ScalarType.singlePattern (.f32 ⟨0x40490fdb⟩) = .ok 0x40490fdb := by decide +kernel
      obtain rfl := Except.ok.inj (hpattern.symm.trans hq'.1)
      have hbytes : Endian.little.toBytes 4 0x40490fdb = [219, 15, 73, 64] := by decide
      rw [List.flatMap_cons, List.flatMap_singleton] at hbody
      obtain ⟨d', p, hrounded', hwrite⟩ := record_rounds_twice.1 .big (.uint 3) 3 rfl
      refine ⟨hwf, r, hr, ⟨before, q, after, ?_, ?_⟩, p, hwrite, ?_⟩
      · rw [← hbytes]
        exact hbody
      · exact_mod_cast hrounded.exact (by decide)
      · exact_mod_cast hrounded'.exact (by decide)

/-- The integer 2 ^ 54 + 2 ^ 30 + 1 is nearer to 2 ^ 54 + 2 ^ 31 than to 2 ^ 54. In double precision it is midway between
them, and so 2 ^ 54 is written. -/
theorem Codec.not_rounded_once : ¬ ∃ p, ScalarType.float32.write .little 4 (.uint 18014399583223809) =
    .ok (Endian.little.toBytes 4 p) ∧ binary32.IsNearest 18014399583223809 p := by
  rintro ⟨p, hwrite, hnearest⟩
  have hstored : ScalarType.float32.write .little 4 (.uint 18014399583223809) =
      .ok (Endian.little.toBytes 4 0x5a800000) := by decide +kernel
  have hp : p = 0x5a800000 := by
    have hlt : p < 256 ^ 4 := hnearest.finite.1
    have hbytes := Except.ok.inj (hwrite.symm.trans hstored)
    rw [← Endian.little.ofBytes_toBytes_of_lt hlt, hbytes]
    decide
  have hone : (binary32.quantaPerOne : ℚ) ≠ 0 := by exact_mod_cast binary32.quantaPerOne_pos.ne'
  have hvalue : binary32.value 0x5a800000 = 2 ^ 54 := by
    have hquanta : binary32.quanta 0x5a800000 = 2 ^ 54 * binary32.quantaPerOne := by decide +kernel
    rw [Ieee.Format.value_of_lt (by decide), Ieee.Format.absolute, hquanta, Nat.cast_mul, mul_div_cancel_right₀ _ hone]
    norm_num
  have hvalue' : binary32.value 0x5a800001 = 2 ^ 54 + 2 ^ 31 := by
    have hquanta : binary32.quanta 0x5a800001 = (2 ^ 54 + 2 ^ 31) * binary32.quantaPerOne := by decide +kernel
    rw [Ieee.Format.value_of_lt (by decide), Ieee.Format.absolute, hquanta, Nat.cast_mul, mul_div_cancel_right₀ _ hone]
    norm_num
  have hless := (hp ▸ hnearest).least 0x5a800001 ⟨by decide, by decide⟩
  rw [hvalue, hvalue'] at hless
  norm_num [abs_of_nonneg, abs_of_neg] at hless

end RecordPack

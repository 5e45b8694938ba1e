import RecordPack.Proofs.Record.Refinement

/-!
# Which rows are written

`Field.Conforms f v` says which values a field takes, in terms of the schema alone: a number has to lie in the range of
its type, a byte string has to fit its place, and a list has to have as many items as the schema says, each of which
conforms. What is written conforms, and what conforms is written where there is room for it
(`Codec.appendTo_eq_ok_iff_conforms`). Whether an integer is given as signed or unsigned plays no part in this
(`Value.Alike`), nor in the bytes.
-/

namespace RecordPack

open Ieee (Binary64)

/-! ## What a field takes -/

namespace Value

/-- The value is this integer, given as signed or unsigned. -/
inductive IsInteger : Value → Int → Prop
  | int (n : Int64) : IsInteger (.int n) n.toInt
  | uint (n : UInt64) : IsInteger (.uint n) n.toNat

/-- The value is a number: in single or double precision, or an integer. -/
def IsNumber (v : Value) : Prop := (∃ x, v = .f32 x) ∨ (∃ x, v = .f64 x) ∨ ∃ n, v.IsInteger n

mutual

/-- The bytes that a value takes up in a memory, at the least: so many for itself, and those of what it holds. -/
def footprint : Value → Nat
  | bytes bs => 16 + bs.length
  | list items => 16 + footprintAll items
  | _ => 16

def footprintAll : List Value → Nat
  | [] => 0
  | v :: vs => footprint v + footprintAll vs

end

end Value

namespace ScalarType

/-- The number of bits of a number of the type. -/
def bits (type : ScalarType) : Nat := 8 * type.width

/-- Whether a place of `width` bytes takes the value. -/
def Conforms (type : ScalarType) (width : Nat) (v : Value) : Prop :=
  match type with
  | pad => v = .pad
  | bool => ∃ b, v = .bool b
  | int8 | int16 | int32 | int64 => ∃ n, v.IsInteger n ∧ -2 ^ (type.bits - 1) ≤ n ∧ n < 2 ^ (type.bits - 1)
  | uint8 | uint16 | uint32 | uint64 => ∃ n, v.IsInteger n ∧ 0 ≤ n ∧ n < 2 ^ type.bits
  | float32 => v.IsNumber ∧ ∀ x, v.toFloat? = some x → x.isFinite = true → x.toBinary32.isInfinite = false
  | float64 => v.IsNumber
  | bytes => ∃ bs, v = .bytes bs ∧ bs.length ≤ width

end ScalarType

namespace Field

/-- Whether the field takes the value by itself, or as an item if it is a list. -/
def ItemConforms (f : Field) (v : Value) : Prop :=
  match f.width with
  | .fixed width => f.type.Conforms width v
  | .dynamic => ∃ bs, v = .bytes bs

/-- Whether the field takes the value. -/
def Conforms (f : Field) (v : Value) : Prop :=
  match f.count with
  | none => f.ItemConforms v
  | some extent => ∃ items, v = .list items ∧ (∀ n, extent = .fixed n → items.length = n) ∧
      ∀ item ∈ items, f.ItemConforms item

end Field

/-! ## Values and their patterns -/

namespace Value

variable {v : Value} {n : Int}

theorem isInteger_iff : v.IsInteger n ↔ v.toInt? = some n := by
  constructor
  · rintro ⟨⟩ <;> rfl
  · intro h
    cases v <;> simp only [toInt?, Option.some.injEq, reduceCtorEq] at h <;> subst h
    · exact .int _
    · exact .uint _

theorem IsInteger.int_or_uint (h : v.IsInteger n) : (∃ k, v = .int k) ∨ ∃ k, v = .uint k := by
  cases h with
  | int k => exact .inl ⟨k, rfl⟩
  | uint k => exact .inr ⟨k, rfl⟩

/-- An integer is rounded in the same way, however it is given. -/
theorem IsInteger.toFloat?_eq (h : v.IsInteger n) : v.toFloat? = some (Binary64.ofInt n) := by
  cases h with
  | int n => rfl
  | uint n =>
    have hpos : ¬ ((n.toNat : Int) < 0) := by omega
    simp [toFloat?, Binary64.ofInt, Binary64.ofNat, hpos]

theorem isNumber_iff : v.IsNumber ↔ ∃ x, v.toFloat? = some x := by
  constructor
  · rintro (⟨x, rfl⟩ | ⟨x, rfl⟩ | ⟨n, hn⟩)
    · exact ⟨_, rfl⟩
    · exact ⟨_, rfl⟩
    · exact ⟨_, hn.toFloat?_eq⟩
  · rintro ⟨x, hx⟩
    cases v <;> simp only [toFloat?, toBinary64?, reduceCtorEq] at hx
    · exact .inr (.inr ⟨_, .int _⟩)
    · exact .inr (.inr ⟨_, .uint _⟩)
    · exact .inl ⟨_, rfl⟩
    · exact .inr (.inl ⟨_, rfl⟩)

end Value

namespace ScalarType

variable {type : ScalarType} {v : Value}

theorem half_patterns_of_int (h : type.expectation = .int) : (↑(type.patterns / 2) : Int) = 2 ^ (type.bits - 1) := by
  cases type <;> simp only [expectation, reduceCtorEq] at h <;> decide

theorem patterns_of_uint (h : type.expectation = .uint) : (type.patterns : Int) = 2 ^ type.bits := by
  cases type <;> simp only [expectation, reduceCtorEq] at h <;> decide

theorem conforms_of_int (h : type.expectation = .int) (width : Nat) : type.Conforms width v ↔
    ∃ n, v.IsInteger n ∧ -2 ^ (type.bits - 1) ≤ n ∧ n < 2 ^ (type.bits - 1) := by
  cases type <;> simp only [expectation, reduceCtorEq] at h <;> rfl

theorem conforms_of_uint (h : type.expectation = .uint) (width : Nat) : type.Conforms width v ↔
    ∃ n, v.IsInteger n ∧ 0 ≤ n ∧ n < 2 ^ type.bits := by
  cases type <;> simp only [expectation, reduceCtorEq] at h <;> rfl

theorem exists_integerPattern_iff :
    (∃ k, type.integerPattern v = .ok k) ↔ ∃ n, v.IsInteger n ∧ type.holds n = true := by
  simp only [integerPattern_eq_ok, Value.isInteger_iff]
  constructor
  · rintro ⟨k, n, hv, hn, -⟩
    exact ⟨n, hv, hn⟩
  · rintro ⟨n, hv, hn⟩
    exact ⟨_, n, hv, hn, rfl⟩

/-- A value has a pattern exactly if the type takes it. -/
theorem exists_pattern_iff (htype : type ≠ bytes) (width : Nat) :
    (∃ k, type.pattern v = .ok k) ↔ type.Conforms width v := by
  cases htyp : type.expectation with
  | int =>
    simp only [pattern_of_int htyp, exists_integerPattern_iff, conforms_of_int htyp, holds_int_iff htyp,
      half_patterns_of_int htyp]
  | uint =>
    simp only [pattern_of_uint htyp, exists_integerPattern_iff, conforms_of_uint htyp, holds_uint_iff htyp,
      patterns_of_uint htyp]
  | pad =>
    cases type <;> simp only [expectation, reduceCtorEq] at htyp
    cases v <;> simp [pattern, Conforms]
  | bool =>
    cases type <;> simp only [expectation, reduceCtorEq] at htyp
    cases v <;> simp [pattern, Conforms]
  | float =>
    cases type <;> simp only [expectation, reduceCtorEq] at htyp
    case float32 =>
      simp only [pattern, singlePattern_eq_ok, Conforms, Value.isNumber_iff]
      constructor
      · rintro ⟨k, x, hx, -, hfin⟩
        refine ⟨⟨x, hx⟩, ?_⟩
        intro y hy hy'
        obtain rfl : x = y := Option.some.inj (hx.symm.trans hy)
        exact Bool.eq_false_iff.2 fun hinf => hfin ⟨hy', hinf⟩
      · rintro ⟨⟨x, hx⟩, hfin⟩
        refine ⟨_, x, hx, rfl, ?_⟩
        rintro ⟨hx', hinf⟩
        exact Bool.eq_false_iff.1 (hfin x hx hx') hinf
    case float64 =>
      simp only [pattern, doublePattern_eq_ok, Conforms, Value.isNumber_iff]
      constructor
      · rintro ⟨k, x, hx, -⟩
        exact ⟨x, hx⟩
      · rintro ⟨x, hx⟩
        exact ⟨_, x, hx, rfl⟩
  | bytes => cases type <;> first | exact absurd rfl htype | cases htyp
  | list => cases type <;> cases htyp

/-- A place takes a value exactly if something is written there. -/
theorem exists_write_iff {e : Endian} {width : Nat} :
    (∃ b, type.write e width v = .ok b) ↔ type.Conforms width v := by
  by_cases htype : type = bytes
  · subst htype
    simp only [write_bytes_eq_ok, Conforms]
    constructor
    · rintro ⟨b, bs, hv, hle, -⟩
      exact ⟨bs, hv, hle⟩
    · rintro ⟨bs, hv, hle⟩
      exact ⟨_, bs, hv, hle, rfl⟩
  · rw [← exists_pattern_iff htype width, write_of_ne_bytes htype]
    simp only [map_eq_ok]
    constructor
    · rintro ⟨b, k, hk, -⟩
      exact ⟨k, hk⟩
    · rintro ⟨k, hk⟩
      exact ⟨_, k, hk, rfl⟩

end ScalarType

/-! ## Lengths and counts -/

namespace Value

theorem footprint_le_footprintAll {v : Value} {vs : List Value} (h : v ∈ vs) : footprint v ≤ footprintAll vs := by
  induction vs with
  | nil => cases h
  | cons w vs ih =>
    rw [footprintAll]
    rcases List.mem_cons.1 h with rfl | h
    · exact Nat.le_add_right _ _
    · exact Nat.le_trans (ih h) (Nat.le_add_left _ _)

theorem length_le_footprintAll (vs : List Value) : vs.length ≤ footprintAll vs := by
  induction vs with
  | nil => exact Nat.le_refl 0
  | cons v vs ih =>
    have hpos : 1 ≤ footprint v := by cases v <;> simp only [footprint] <;> omega
    rw [List.length_cons, footprintAll]
    omega

end Value

/-- Strings take up no more bytes in a record than in a memory. -/
theorem Strings.length_pieces_le {ss pieces : List Bytes} (h : ss.mapM writeOne = .ok pieces) :
    pieces.flatten.length ≤ Value.footprintAll (ss.map .bytes) := by
  have hall := mapM_eq_ok.1 h
  clear h
  induction hall with
  | nil => exact Nat.le_refl 0
  | @cons s b ss bs hb _ ih =>
    obtain ⟨p, hp, rfl⟩ := map_eq_ok.1 hb
    have hlen : p.length ≤ 8 := by
      rw [LengthPrefix.length_encode hp]
      split <;> omega
    rw [List.flatten_cons, List.map_cons, Value.footprintAll, Value.footprint, List.length_append, List.length_append]
    omega

theorem Strings.exists_writeOne {s : Bytes} (h : s.length ≤ LengthPrefix.maxLength) : ∃ b, writeOne s = .ok b := by
  obtain ⟨p, hp⟩ := LengthPrefix.exists_encode h
  exact ⟨_, map_eq_ok.2 ⟨p, hp, rfl⟩⟩

theorem Writer.exists_lengthBytes {n : Nat} (h : n ≤ LengthPrefix.maxLength) : ∃ b, lengthBytes n = .ok b := by
  obtain ⟨b, hb⟩ := LengthPrefix.exists_encode h
  exact ⟨b, mapError_eq_ok.2 hb⟩

namespace Extent

theorem checkItems_eq_ok {extent : Extent} {items : List Value} :
    extent.checkItems items = .ok () ↔ ∀ n, extent = .fixed n → items.length = n := by
  cases extent with
  | fixed m =>
    simp only [checkItems, Writer.checkCount, fixed.injEq, forall_eq']
    split <;> simp [*]
  | dynamic => simp [checkItems]

theorem exists_countBytes_of_le (extent : Extent) {n : Nat} (h : n ≤ LengthPrefix.maxLength) :
    ∃ b, extent.countBytes n = .ok b := by
  cases extent with
  | fixed m => exact ⟨[], rfl⟩
  | dynamic => exact Writer.exists_lengthBytes h

end Extent

/-! ## Fields -/

namespace Field

variable {e : Endian} {f : Field} {v : Value}

theorem conforms_of_accepts (h : f.Accepts e v) : f.Conforms v := by
  obtain ⟨b, h⟩ := h
  unfold write at h
  unfold Conforms ItemConforms
  split at h
  case h_1 width hcount hwidth =>
    rw [hcount, hwidth]
    exact ScalarType.exists_write_iff.1 ⟨b, mapError_eq_ok.1 h⟩
  case h_2 hcount hwidth =>
    rw [hcount, hwidth]
    simp only [bind_eq_ok, mapError_eq_ok, Writer.bytesOf_eq_ok] at h
    obtain ⟨s, rfl, -⟩ := h
    exact ⟨s, rfl⟩
  case h_3 extent width hcount hwidth =>
    rw [hcount, hwidth]
    simp only [bind_eq_ok, mapError_eq_ok, itemsOf_eq_ok] at h
    obtain ⟨items, ⟨rfl, hitems⟩, -, -, places, hplaces, -⟩ := h
    refine ⟨items, rfl, Extent.checkItems_eq_ok.1 hitems, ?_⟩
    intro item hitem
    exact ScalarType.exists_write_iff.1 (exists_of_mapM_eq_ok hplaces item hitem)
  case h_4 extent hcount hwidth =>
    rw [hcount, hwidth]
    simp only [bind_eq_ok, mapError_eq_ok, itemsOf_eq_ok, mapM_bytesOf_eq_ok] at h
    obtain ⟨items, ⟨rfl, hitems⟩, strings, rfl, -⟩ := h
    refine ⟨_, rfl, Extent.checkItems_eq_ok.1 hitems, ?_⟩
    intro item hitem
    obtain ⟨s, -, rfl⟩ := List.mem_map.1 hitem
    exact ⟨s, rfl⟩

/-- A field takes every value that conforms to it and that a memory holds. -/
theorem accepts_of_conforms (h : f.Conforms v) (hmem : v.footprint ≤ LengthPrefix.maxLength) : f.Accepts e v := by
  unfold Conforms ItemConforms at h
  unfold Accepts write
  cases hcount : f.count with
  | none =>
    cases hwidth : f.width with
    | fixed width =>
      rw [hcount, hwidth] at h
      obtain ⟨b, hb⟩ := ScalarType.exists_write_iff.2 h
      exact ⟨b, mapError_eq_ok.2 hb⟩
    | dynamic =>
      rw [hcount, hwidth] at h
      obtain ⟨s, rfl⟩ := h
      rw [Value.footprint] at hmem
      obtain ⟨b, hb⟩ := Strings.exists_writeOne (s := s) (by omega)
      exact ⟨b, mapError_eq_ok.2 hb⟩
  | some extent =>
    rw [hcount] at h
    obtain ⟨items, rfl, hlen, hitems⟩ := h
    rw [Value.footprint] at hmem
    have hlist : f.itemsOf extent (.list items) = .ok items :=
      itemsOf_eq_ok.2 ⟨rfl, Extent.checkItems_eq_ok.2 hlen⟩
    -- a list has no more items than a memory has bytes
    have hle := Value.length_le_footprintAll items
    obtain ⟨cb, hcb⟩ := extent.exists_countBytes_of_le (n := items.length) (by omega)
    cases hwidth : f.width with
    | fixed width =>
      simp only [hwidth] at hitems
      obtain ⟨places, hplaces⟩ := exists_mapM_eq_ok fun item hitem =>
        ScalarType.exists_write_iff (e := e).2 (hitems item hitem)
      refine ⟨cb ++ places.flatten, ?_⟩
      simp only [hlist, ok_bind, hcb, hplaces, mapError_ok]
      rfl
    | dynamic =>
      simp only [hwidth] at hitems
      have hbytes : ∀ item ∈ items, ∃ s, Writer.bytesOf item = .ok s := by
        intro item hitem
        obtain ⟨s, rfl⟩ := hitems item hitem
        exact ⟨s, rfl⟩
      obtain ⟨strings, hstrings⟩ := exists_mapM_eq_ok hbytes
      obtain rfl := mapM_bytesOf_eq_ok.1 hstrings
      have hshort : ∀ s ∈ strings, ∃ b, Strings.writeOne s = .ok b := by
        intro s hs
        have hle' := Value.footprint_le_footprintAll (List.mem_map_of_mem (f := Value.bytes) hs)
        rw [Value.footprint] at hle'
        exact Strings.exists_writeOne (by omega)
      obtain ⟨pieces, hpieces⟩ := exists_mapM_eq_ok hshort
      have hpayload := Strings.length_pieces_le hpieces
      obtain ⟨size, hsize⟩ := Writer.exists_lengthBytes (n := pieces.flatten.length) (by omega)
      refine ⟨size ++ cb ++ pieces.flatten, ?_⟩
      simp only [hlist, ok_bind, hstrings, mapError_ok, hpieces, hsize, hcb]
      rfl

theorem forall₂_accepts_of_conforms {fs : List Field} {row : Row} (h : List.Forall₂ Conforms fs row)
    (hmem : ∀ v ∈ row, v.footprint ≤ LengthPrefix.maxLength) : List.Forall₂ (Accepts e) fs row := by
  induction h with
  | nil => exact .nil
  | cons hconf _ ih =>
    exact .cons (accepts_of_conforms hconf (hmem _ List.mem_cons_self))
      (ih fun v hv => hmem v (List.mem_cons_of_mem _ hv))

end Field

/-! ## Integers given otherwise -/

/-- The values are the same but for integers that one gives as signed and the other as unsigned, at any depth. -/
inductive Value.Alike : Value → Value → Prop
  | refl (v : Value) : Alike v v
  | integer {v w : Value} {n : Int} : v.IsInteger n → w.IsInteger n → Alike v w
  | list {vs ws : List Value} : List.Forall₂ Alike vs ws → Alike (.list vs) (.list ws)

/-- Both computations succeed, and their results are related, or both fail. -/
inductive Parallel {ε ε' α β : Type} (R : α → β → Prop) : Except ε α → Except ε' β → Prop
  | ok {a : α} {b : β} : R a b → Parallel R (.ok a) (.ok b)
  | error {d : ε} {d' : ε'} : Parallel R (.error d) (.error d')

namespace Parallel

variable {ε ε' δ δ' α α' β β' : Type} {R : α → β → Prop} {S : α' → β' → Prop} {x : Except ε α} {y : Except ε' β}

theorem refl (x : Except ε α) : Parallel Eq x x := by
  cases x with
  | error d => exact .error
  | ok a => exact .ok rfl

theorem mapError (h : Parallel R x y) (f : ε → δ) (g : ε' → δ') : Parallel R (x.mapError f) (y.mapError g) := by
  cases h with
  | ok h => exact .ok h
  | error => exact .error

theorem map {f : α → α'} {g : β → β'} (h : Parallel R x y) (hf : ∀ a b, R a b → S (f a) (g b)) :
    Parallel S (x.map f) (y.map g) := by
  cases h with
  | ok h => exact .ok (hf _ _ h)
  | error => exact .error

/-- Steps in parallel, one after the other, are together in parallel. -/
theorem bind {f : α → Except ε α'} {g : β → Except ε' β'} (h : Parallel R x y)
    (hf : ∀ a b, R a b → Parallel S (f a) (g b)) : Parallel S (x >>= f) (y >>= g) := by
  cases h with
  | ok h => exact hf _ _ h
  | error => exact .error

/-- What comes after one step is the same on both sides. -/
theorem bind_same {f g : α → Except ε α'} {y : Except ε α} (h : Parallel Eq x y)
    (hf : ∀ a, Parallel Eq (f a) (g a)) : Parallel Eq (x >>= f) (y >>= g) :=
  h.bind fun a _ hab => hab ▸ hf a

theorem eq_ok_iff {y : Except ε' α} (h : Parallel Eq x y) (a : α) : x = .ok a ↔ y = .ok a := by
  cases h with
  | ok h => simp [h]
  | error => simp

end Parallel

namespace ScalarType

variable {e : Endian} {type : ScalarType} {width : Nat} {v w : Value}

/-- All that is written for an integer is its number. -/
theorem pattern_of_isInteger {n : Int} (hv : v.IsInteger n) (hw : w.IsInteger n) :
    Parallel Eq (type.pattern v) (type.pattern w) := by
  have hinteger : Parallel Eq (type.integerPattern v) (type.integerPattern w) := by
    simp only [integerPattern, Value.isInteger_iff.1 hv, Value.isInteger_iff.1 hw]
    split
    · exact .ok rfl
    · exact .error
  have hsingle : Parallel Eq (singlePattern v) (singlePattern w) := by
    simp only [singlePattern, hv.toFloat?_eq, hw.toFloat?_eq]
    split
    · exact .error
    · exact .ok rfl
  have hdouble : Parallel Eq (doublePattern v) (doublePattern w) := by
    simp only [doublePattern, hv.toFloat?_eq, hw.toFloat?_eq]
    exact .ok rfl
  cases type
  case pad | bool | bytes =>
    rcases hv.int_or_uint with ⟨k, rfl⟩ | ⟨k, rfl⟩ <;> rcases hw.int_or_uint with ⟨k', rfl⟩ | ⟨k', rfl⟩ <;>
      exact .error
  case float32 => exact hsingle
  case float64 => exact hdouble
  all_goals exact hinteger

theorem write_of_alike (h : v.Alike w) : Parallel Eq (type.write e width v) (type.write e width w) := by
  cases h with
  | refl => exact .refl _
  | list _ => cases type <;> exact .error
  | @integer _ _ n hv hw =>
    have hwrite : ∀ {v : Value}, v.IsInteger n → type.write e width v = (type.pattern v).map (e.toBytes width) := by
      intro v hv
      rcases hv.int_or_uint with ⟨k, rfl⟩ | ⟨k, rfl⟩ <;> cases type <;> rfl
    rw [hwrite hv, hwrite hw]
    exact (pattern_of_isInteger hv hw).map fun k k' hk => by rw [hk]

theorem writeAll_of_alike {vs ws : List Value} (h : List.Forall₂ Value.Alike vs ws) :
    Parallel Eq (type.writeAll e width vs) (type.writeAll e width ws) := by
  induction h with
  | nil => exact .refl _
  | cons hvw _ ih => exact (write_of_alike hvw).bind_same fun b => ih.bind_same fun bs => .refl _

end ScalarType

namespace Writer

variable {e : Endian} {v w : Value}

theorem bytesOf_of_alike (h : v.Alike w) : Parallel Eq (bytesOf v) (bytesOf w) := by
  cases h with
  | refl => exact .refl _
  | list _ => exact .error
  | @integer _ _ n hv hw =>
    rcases hv.int_or_uint with ⟨k, rfl⟩ | ⟨k, rfl⟩ <;> rcases hw.int_or_uint with ⟨k', rfl⟩ | ⟨k', rfl⟩ <;>
      exact .error

theorem mapM_bytesOf_of_alike {vs ws : List Value} (h : List.Forall₂ Value.Alike vs ws) :
    Parallel Eq (vs.mapM bytesOf) (ws.mapM bytesOf) := by
  induction h with
  | nil => exact .refl _
  | cons hvw _ ih =>
    rw [List.mapM_cons, List.mapM_cons]
    exact (bytesOf_of_alike hvw).bind_same fun b => ih.bind_same fun bs => .refl _

theorem itemsOf_of_alike (h : v.Alike w) : Parallel (List.Forall₂ Value.Alike) (itemsOf v) (itemsOf w) := by
  cases h with
  | list hvw => exact .ok hvw
  | refl =>
    cases v
    case list items => exact .ok (List.forall₂_same.2 fun item _ => .refl item)
    all_goals exact .error
  | @integer _ _ n hv hw =>
    rcases hv.int_or_uint with ⟨k, rfl⟩ | ⟨k, rfl⟩ <;> rcases hw.int_or_uint with ⟨k', rfl⟩ | ⟨k', rfl⟩ <;>
      exact .error

theorem checkCount_of_alike {vs ws : List Value} (h : List.Forall₂ Value.Alike vs ws) (count : Nat) :
    checkCount count vs = checkCount count ws := by
  rw [checkCount, checkCount, h.length_eq]

theorem fixedSlot_of_alike (shape : Shape) (h : v.Alike w) :
    Parallel Eq (fixedSlot e shape v) (fixedSlot e shape w) := by
  unfold fixedSlot
  split
  case h_1 => exact ScalarType.write_of_alike h
  case h_2 count =>
    refine (itemsOf_of_alike h).bind fun vs ws hvw => ?_
    rw [checkCount_of_alike hvw]
    exact (Parallel.refl _).bind_same fun _ => ScalarType.writeAll_of_alike hvw
  case h_3 => exact .refl _

theorem dynamicSlot_of_alike (position : Nat) (slot : Slot) (h : v.Alike w) :
    Parallel Eq (dynamicSlot e position slot v) (dynamicSlot e position slot w) := by
  unfold dynamicSlot
  split
  case h_1 => exact ((bytesOf_of_alike h).mapError _ _).bind_same fun s => .refl _
  case h_2 =>
    refine ((itemsOf_of_alike h).mapError _ _).bind fun vs ws hvw => ?_
    rw [checkCount_of_alike hvw]
    refine (Parallel.refl _).bind_same fun _ => ?_
    exact ((mapM_bytesOf_of_alike hvw).mapError _ _).bind_same fun strings => .refl _
  case h_3 =>
    refine ((itemsOf_of_alike h).mapError _ _).bind fun vs ws hvw => ?_
    simp only [hvw.length_eq]
    split
    · exact .error
    · refine (Parallel.refl _).bind_same fun head => (Parallel.refl _).bind_same fun _ => ?_
      exact ((ScalarType.writeAll_of_alike hvw).mapError _ _).bind_same fun block => .refl _
  case h_4 =>
    refine Parallel.bind_same ?_ fun strings => .refl _
    apply Parallel.mapError
    exact (itemsOf_of_alike h).bind fun vs ws hvw => mapM_bytesOf_of_alike hvw
  case h_5 => exact .refl _

theorem fixedSlots_of_alike (slots : List Slot) {vs ws : Row} (h : List.Forall₂ Value.Alike vs ws) :
    Parallel Eq (fixedSlots e slots vs) (fixedSlots e slots ws) := by
  induction h generalizing slots with
  | nil => exact .refl _
  | cons hvw _ ih =>
    cases slots with
    | nil => exact .refl _
    | cons slot slots =>
      rw [fixedSlots, fixedSlots]
      exact ((fixedSlot_of_alike _ hvw).mapError _ _).bind_same fun b => (ih slots).bind_same fun bs => .refl _

theorem dynamicSlots_of_alike (slots : List Slot) {vs ws : Row} (h : List.Forall₂ Value.Alike vs ws)
    (position : Nat) : Parallel Eq (dynamicSlots e position slots vs) (dynamicSlots e position slots ws) := by
  induction h generalizing slots position with
  | nil => exact .refl _
  | cons hvw _ ih =>
    cases slots with
    | nil => exact .refl _
    | cons slot slots =>
      rw [dynamicSlots, dynamicSlots]
      exact (dynamicSlot_of_alike position slot hvw).bind_same fun b => (ih slots _).bind_same fun bs => .refl _

theorem segment_of_alike (position : Nat) (seg : Segment) {vs ws : Row} (h : List.Forall₂ Value.Alike vs ws) :
    Parallel Eq (segment e position seg vs) (segment e position seg ws) := by
  cases seg with
  | fixed run => exact (Parallel.refl _).bind_same fun _ => fixedSlots_of_alike run.slots h
  | dynamic slots => exact dynamicSlots_of_alike slots h position

theorem segments_of_alike (segs : List Segment) : ∀ (position : Nat) {vs ws : Row},
    List.Forall₂ Value.Alike vs ws → Parallel Eq (segments e position segs vs) (segments e position segs ws) := by
  induction segs with
  | nil => exact fun position vs ws h => .refl _
  | cons seg segs ih =>
    intro position vs ws h
    rw [segments, segments]
    refine (segment_of_alike position seg (List.forall₂_take _ h)).bind_same fun b => ?_
    exact (ih _ (List.forall₂_drop _ h)).bind_same fun bs => .refl _

end Writer

namespace Codec

variable {c : Codec}

/-- Rows that are alike have the same record, or none. -/
theorem record_of_alike (c : Codec) (start : Nat) {row row' : Row} (h : List.Forall₂ Value.Alike row row') :
    Parallel Eq (c.record start row) (c.record start row') := by
  unfold record
  simp only [← h.length_eq]
  split
  · exact .error
  · exact (Writer.segments_of_alike c.segments (start + 4) h).bind_same fun body => .refl _

/-- Where there is room, a row that a memory holds is written exactly if its values conform to their fields. A row that
differs only in which integers are given as signed is written, as the same bytes, exactly if this one is. -/
theorem appendTo_eq_ok_iff_conforms (c : Codec) (data : Bytes) (row : Row) :
    ((∀ v ∈ row, v.footprint ≤ LengthPrefix.maxLength) →
      ((∃ n out, (c.appendTo data row).value = (.ok n, out)) ↔
        List.Forall₂ Field.Conforms c.schema.fields row ∧ c.HasRoom data.length row)) ∧
    ∀ row', List.Forall₂ Value.Alike row row' → ∀ n out,
      (c.appendTo data row).value = (.ok n, out) ↔ (c.appendTo data row').value = (.ok n, out) := by
  refine ⟨fun hmem => ⟨?_, ?_⟩, ?_⟩
  · rintro ⟨n, out, h⟩
    obtain ⟨r, hr, -, -⟩ := appendTo_eq_ok.1 h
    obtain ⟨hlen, hroom, hbody, hhead⟩ := record_eq_ok.1 hr
    obtain ⟨pieces, hpieces, -⟩ := Field.writeAll_eq_ok.1 hbody
    refine ⟨(Field.forall₂_accepts hlen hpieces).imp fun f v => Field.conforms_of_accepts, hroom, ?_⟩
    intro b hb
    obtain rfl : b = r.body := Except.ok.inj (hb.symm.trans hbody)
    exact (LengthPrefix.measures_of_encode hhead).le_maxLength
  · rintro ⟨hconf, hroom⟩
    have hacc : List.Forall₂ (Field.Accepts c.endian) c.schema.fields row :=
      Field.forall₂_accepts_of_conforms hconf hmem
    obtain ⟨pieces, hpieces⟩ := Field.exists_pieces hacc
    obtain ⟨head, -, hr⟩ := record_of_pieces hacc.length_eq.symm hroom hpieces
    exact ⟨_, _, appendTo_eq_ok.2 ⟨_, hr, rfl, rfl⟩⟩
  · intro row' halike n out
    simp only [appendTo_eq_ok, (record_of_alike c data.length halike).eq_ok_iff]

theorem appendTo_eq_ok_iff_conforms_sample :
    (∃ n out, (sample.appendTo [7] (sampleRow (.uint 258))).value = (.ok n, out)) ∧
      (sample.appendTo [7] (sampleRow (.int 258))).value = (sample.appendTo [7] (sampleRow (.uint 258))).value := by
  obtain ⟨hiff, hsame⟩ := appendTo_eq_ok_iff_conforms sample [7] (sampleRow (.uint 258))
  have hroom : sample.HasRoom 1 (sampleRow (.uint 258)) := by
    refine ⟨Writer.hasRoom_of_le sample.covers rfl writeAll_sampleRow (by decide), ?_⟩
    intro b hb
    obtain rfl := Except.ok.inj (writeAll_sampleRow.symm.trans hb)
    decide
  obtain ⟨pieces, hpieces, -⟩ := Field.writeAll_eq_ok.1 writeAll_sampleRow
  have hconf := (Field.forall₂_accepts rfl hpieces).imp fun f v => Field.conforms_of_accepts
  obtain ⟨n, out, hok⟩ := (hiff (by decide)).2 ⟨hconf, hroom⟩
  have halike : List.Forall₂ Value.Alike (sampleRow (.uint 258)) (sampleRow (.int 258)) :=
    .cons (.integer (.uint 258) (.int 258)) (List.forall₂_same.2 fun v _ => .refl v)
  exact ⟨⟨n, out, hok⟩, ((hsame _ halike n out).1 hok).trans hok.symm⟩

end Codec

end RecordPack

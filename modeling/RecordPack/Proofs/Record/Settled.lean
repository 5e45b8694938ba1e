import RecordPack.Proofs.Ieee.Narrowing
import RecordPack.Record.Scalar
import RecordPack.Schema.Basic

/-!
# Settled values

A row may give an integer as signed or unsigned, a short string for a long place, or an integer for a
floating-point number. `settle` is the row that a record of it holds: each value in the form that its
field has. A row that has this form already is left as it is (`settle_eq_self`).
-/

namespace RecordPack

namespace ScalarType

/-- The value that a place of `width` bytes holds for a value that it takes. -/
def settle (type : ScalarType) (width : Nat) (v : Value) : Value :=
  match type with
  | pad | bool => v
  | int8 | int16 | int32 | int64 => (v.toInt64?.map .int).getD v
  | uint8 | uint16 | uint32 | uint64 => (v.toUInt64?.map .uint).getD v
  | float32 => (v.toFloat?.map fun x => .f32 x.toBinary32).getD v
  | float64 => (v.toFloat?.map .f64).getD v
  | bytes =>
    match v with
    | .bytes bs => .bytes (bs ++ List.replicate (width - bs.length) 0)
    | v => v

/-- Whether a value has the form of a place of `width` bytes. Of the patterns of no number in single
precision, only the quiet positive one does. -/
def IsSettled (type : ScalarType) (width : Nat) (v : Value) : Prop :=
  match type with
  | pad => v = .pad
  | bool => ∃ b, v = .bool b
  | int8 | int16 | int32 | int64 => ∃ n, v = .int n
  | uint8 | uint16 | uint32 | uint64 => ∃ n, v = .uint n
  | float32 => ∃ x, v = .f32 x ∧ x.IsSettled
  | float64 => ∃ x, v = .f64 x
  | bytes => ∃ bs, v = .bytes bs ∧ bs.length = width

end ScalarType

namespace Field

/-- The value that a field holds for a value that it takes. -/
def settle (f : Field) (v : Value) : Value :=
  match f.count, f.width with
  | none, .fixed width => f.type.settle width v
  | some _, .fixed width =>
    match v with
    | .list items => .list (items.map (f.type.settle width))
    | v => v
  | _, .dynamic => v

/-- Whether a value has the form of a field. -/
def IsSettled (f : Field) (v : Value) : Prop :=
  match f.count, f.width with
  | none, .fixed width => f.type.IsSettled width v
  | some _, .fixed width => ∃ items, v = .list items ∧ ∀ item ∈ items, f.type.IsSettled width item
  | none, .dynamic => ∃ bs, v = .bytes bs
  | some _, .dynamic => ∃ strings : List Bytes, v = .list (strings.map .bytes)

end Field

namespace Schema

/-- The row that a record holds for a row. -/
def settle (s : Schema) (row : Row) : Row := s.fields.zipWith Field.settle row

/-- Whether every value of a row has the form of its field. -/
def IsSettled (s : Schema) (row : Row) : Prop := List.Forall₂ Field.IsSettled s.fields row

end Schema

/-! ## What is settled stays -/

namespace Value

theorem toInt64?_int (n : Int64) : (int n).toInt64? = some n := by
  simp only [toInt64?, toInt?]
  rw [if_pos ⟨n.minValue_le_toInt, n.toInt_le⟩, Int64.ofInt_toInt]

theorem toUInt64?_uint (n : UInt64) : (uint n).toUInt64? = some n := by
  simp [toUInt64?, toInt?]

end Value

theorem ScalarType.settle_eq_self {type : ScalarType} {width : Nat} {v : Value}
    (h : type.IsSettled width v) : type.settle width v = v := by
  cases type <;> simp only [ScalarType.IsSettled] at h
  case pad | bool => rfl
  case int8 | int16 | int32 | int64 =>
    obtain ⟨n, rfl⟩ := h
    simp [ScalarType.settle, Value.toInt64?_int]
  case uint8 | uint16 | uint32 | uint64 =>
    obtain ⟨n, rfl⟩ := h
    simp [ScalarType.settle, Value.toUInt64?_uint]
  case float32 =>
    obtain ⟨x, rfl, hx⟩ := h
    simp [ScalarType.settle, Value.toFloat?, Value.toBinary64?, Ieee.Binary32.toBinary32_toBinary64 hx]
  case float64 =>
    obtain ⟨x, rfl⟩ := h
    rfl
  case bytes =>
    obtain ⟨bs, rfl, rfl⟩ := h
    simp [ScalarType.settle]

theorem ScalarType.map_settle_eq_self {type : ScalarType} {width : Nat} {items : List Value}
    (h : ∀ item ∈ items, type.IsSettled width item) : items.map (type.settle width) = items := by
  rw [List.map_congr_left fun item hi => settle_eq_self (h item hi), List.map_id']

theorem Field.settle_eq_self {f : Field} {v : Value} (h : f.IsSettled v) : f.settle v = v := by
  obtain ⟨id, type, width, count, note⟩ := f
  cases width with
  | dynamic => cases count <;> rfl
  | fixed width =>
    cases count with
    | none => exact ScalarType.settle_eq_self h
    | some count =>
      obtain ⟨items, rfl, hitems⟩ := h
      simp only [Field.settle, ScalarType.map_settle_eq_self hitems]

/-- A row that has the form of its fields is what its record holds. -/
theorem Schema.settle_eq_self {s : Schema} {row : Row} (h : s.IsSettled row) : s.settle row = row := by
  obtain ⟨order, fields, text⟩ := s
  simp only [Schema.IsSettled, Schema.settle] at h ⊢
  induction h with
  | nil => rfl
  | cons hv _ ih => rw [List.zipWith_cons_cons, Field.settle_eq_self hv, ih]

end RecordPack

import RecordPack.Proofs.Record.Cursor
import RecordPack.Proofs.Record.Leaves
import RecordPack.Record.Writer

/-!
# Records field by field

What a field takes and gives on its own: `Field.write` and `Field.read` look at one field only, and
`Field.writeAll` and `Field.readAll` put fields one after the other. There are no runs, no blocks and no
positions here; lists whose count the schema says and lists with a count of their own differ by an
`Extent` only.

The leaves are shared with the writer and the reader of segments: a value in its place goes through
`ScalarType.write` and `ScalarType.read` here, too, and a string through `Strings.writeOne` and
`Reader.string`. So a comparison of the two ways says nothing of these. What a field that is a leaf writes and
reads is said without them in `Field.write_scalar_eq_ok`, `Field.write_string_eq_ok`,
`Field.read_scalar_eq_ok` and `Field.read_string_eq_ok`.
-/

namespace RecordPack

namespace Extent

/-- Makes sure that a list has as many items as the schema says. -/
def checkItems (extent : Extent) (items : List Value) : Except Fault Unit :=
  match extent with
  | fixed n => Writer.checkCount n items
  | dynamic => .ok ()

/-- The count in front of items, unless the schema says it. -/
def countBytes (extent : Extent) (n : Nat) : Except CodecError Bytes :=
  match extent with
  | fixed _ => .ok []
  | dynamic => Writer.lengthBytes n

/-- The number of items that come next, and the cursor after their count. -/
def readCount (extent : Extent) (c : Cursor) : Except CodecError (Nat × Cursor) :=
  match extent with
  | fixed n => .ok (n, c)
  | dynamic => c.length

end Extent

namespace Field

/-- The items of a list that a field takes. -/
def itemsOf (f : Field) (extent : Extent) (v : Value) : Except CodecError (List Value) := do
  let items ← (Writer.itemsOf v).mapError (.field f.id)
  (extent.checkItems items).mapError (.field f.id)
  return items

/-- The bytes of a value in a field. -/
def write (e : Endian) (f : Field) (v : Value) : Except CodecError Bytes :=
  match f.count, f.width with
  | none, .fixed width => (f.type.write e width v).mapError (.field f.id)
  | none, .dynamic => do
    let s ← (Writer.bytesOf v).mapError (.field f.id)
    (Strings.writeOne s).mapError .length
  | some extent, .fixed width => do
    let items ← f.itemsOf extent v
    let count ← extent.countBytes items.length
    let places ← (items.mapM (f.type.write e width)).mapError (.field f.id)
    return count ++ places.flatten
  | some extent, .dynamic => do
    let items ← f.itemsOf extent v
    let strings ← (items.mapM Writer.bytesOf).mapError (.field f.id)
    let pieces ← (strings.mapM Strings.writeOne).mapError .length
    let size ← Writer.lengthBytes pieces.flatten.length
    let count ← extent.countBytes items.length
    return size ++ count ++ pieces.flatten

/-- The bytes of values in their fields, back to back. -/
def writeAll (e : Endian) : List Field → Row → Except CodecError Bytes
  | f :: fs, v :: vs => do
    let b ← f.write e v
    let bs ← writeAll e fs vs
    return b ++ bs
  | _, _ => .ok []

/-- The value of a field. -/
def read (e : Endian) (f : Field) (c : Cursor) : Except CodecError (Value × Cursor) :=
  match f.count, f.width with
  | none, .fixed width => do
    let (block, c) ← c.take width
    return (f.type.read e block, c)
  | none, .dynamic => do
    let (s, c) ← Reader.string c
    return (.bytes s, c)
  | some extent, .fixed width => do
    let (n, c) ← extent.readCount c
    let (block, c) ← c.take (n * width)
    return (.list (f.type.readAll e width n block), c)
  | some extent, .dynamic => do
    let (size, c) ← c.length
    let (n, c) ← extent.readCount c
    let (piece, c) ← c.split size
    return (← Reader.payload f.id n piece, c)

/-- The values of fields, one after the other, where `read` reads a single one. -/
def readEach (read : Field → Cursor → Except CodecError (Value × Cursor)) :
    List Field → Cursor → Except CodecError (Row × Cursor)
  | [], c => .ok ([], c)
  | f :: fs, c => do
    let (v, c) ← read f c
    let (vs, c) ← readEach read fs c
    return (v :: vs, c)

/-- The values of fields, one after the other. -/
def readAll (e : Endian) : List Field → Cursor → Except CodecError (Row × Cursor)
  | [], c => .ok ([], c)
  | f :: fs, c => do
    let (v, c) ← f.read e c
    let (vs, c) ← readAll e fs c
    return (v :: vs, c)

variable {e : Endian}

theorem writeAll_cons (f : Field) (fs : List Field) (v : Value) (vs : Row) :
    writeAll e (f :: fs) (v :: vs) = do
      let b ← f.write e v
      let bs ← writeAll e fs vs
      return b ++ bs := rfl

/-- What a field writes that holds a single value in a place. -/
theorem write_scalar_eq_ok {f : Field} {width : Nat} {v : Value} {b : Bytes} (hcount : f.count = none)
    (hwidth : f.width = .fixed width) : f.write e v = .ok b ↔ f.type.Spells e width v b := by
  simp only [write, hcount, hwidth, mapError_eq_ok, ScalarType.write_eq_ok]

/-- What a field writes that holds a single string. -/
theorem write_string_eq_ok {f : Field} {v : Value} {b : Bytes} (hcount : f.count = none) (hwidth : f.width = .dynamic) :
    f.write e v = .ok b ↔ ∃ s head, v = .bytes s ∧ LengthPrefix.encode s.length = .ok head ∧ b = head ++ s := by
  simp only [write, hcount, hwidth, bind_eq_ok, mapError_eq_ok, Strings.writeOne, map_eq_ok]
  constructor
  · rintro ⟨s, hs, head, hhead, rfl⟩
    cases v <;> cases hs
    exact ⟨s, head, rfl, hhead, rfl⟩
  · rintro ⟨s, head, rfl, hhead, rfl⟩
    exact ⟨s, rfl, head, hhead, rfl⟩

/-- What a field reads that holds a single value in a place. -/
theorem read_scalar_eq_ok {f : Field} {width : Nat} {v : Value} {c c' : Cursor} (hcount : f.count = none)
    (hwidth : f.width = .fixed width) (hfit : f.type.Fits width) :
    f.read e c = .ok (v, c') ↔ ∃ bs, bs.length = width ∧ c.Passes bs c' ∧ f.type.Means e bs v := by
  simp only [read, hcount, hwidth, bind_eq_ok, Prod.exists, Cursor.take_eq_ok, pure_eq_ok, Prod.mk.injEq]
  constructor
  · rintro ⟨bs, c₁, ⟨rfl, hpass⟩, rfl, rfl⟩
    exact ⟨bs, rfl, hpass, ScalarType.means_read hfit⟩
  · rintro ⟨bs, rfl, hpass, hmeans⟩
    exact ⟨bs, c', ⟨rfl, hpass⟩, (ScalarType.read_eq_iff hfit).2 hmeans, rfl⟩

/-- What a field reads that holds a single string. -/
theorem read_string_eq_ok {f : Field} {v : Value} {c c' : Cursor} (hcount : f.count = none)
    (hwidth : f.width = .dynamic) :
    f.read e c = .ok (v, c') ↔ ∃ p s, v = .bytes s ∧ LengthPrefix.Measures p s.length ∧ c.Passes (p ++ s) c' := by
  simp only [read, hcount, hwidth, bind_eq_ok, Prod.exists, Reader.string_eq_ok, pure_eq_ok, Prod.mk.injEq]
  constructor
  · rintro ⟨s, c₁, ⟨p, hp, hpass⟩, rfl, rfl⟩
    exact ⟨p, s, rfl, hp, hpass⟩
  · rintro ⟨p, s, rfl, hp, hpass⟩
    exact ⟨s, c', ⟨p, hp, hpass⟩, rfl, rfl⟩

/-- Fields in two groups are written group by group, each with its part of the row. -/
theorem writeAll_append (fs gs : List Field) : ∀ row : Row,
    writeAll e (fs ++ gs) row = do
      let b ← writeAll e fs (row.take fs.length)
      let bs ← writeAll e gs (row.drop fs.length)
      return b ++ bs := by
  induction fs with
  | nil =>
    intro row
    simp only [List.nil_append, List.length_nil, List.drop_zero, writeAll, ok_bind]
    cases writeAll e gs row <;> rfl
  | cons f fs ih =>
    intro row
    cases row with
    | nil => cases gs <;> rfl
    | cons v vs =>
      simp only [List.cons_append, writeAll_cons, List.length_cons, List.take_succ_cons, List.drop_succ_cons, ih,
        bind_assoc, pure_bind, List.append_assoc]

/-- Fields in two groups are read group by group. -/
theorem readEach_append (read : Field → Cursor → Except CodecError (Value × Cursor)) (fs gs : List Field) :
    ∀ c : Cursor, readEach read (fs ++ gs) c = do
      let (vs, c) ← readEach read fs c
      let (ws, c) ← readEach read gs c
      return (vs ++ ws, c) := by
  induction fs with
  | nil =>
    intro c
    simp only [List.nil_append, readEach, ok_bind]
    cases readEach read gs c <;> rfl
  | cons f fs ih =>
    intro c
    simp only [List.cons_append, readEach, ih, bind_assoc, pure_bind]

theorem readAll_eq (fs : List Field) : ∀ c : Cursor, readAll e fs c = readEach (Field.read e) fs c := by
  induction fs with
  | nil => intro c; rfl
  | cons f fs ih =>
    intro c
    simp only [readAll, readEach, ih]

theorem readAll_append (fs gs : List Field) (c : Cursor) :
    readAll e (fs ++ gs) c = do
      let (vs, c) ← readAll e fs c
      let (ws, c) ← readAll e gs c
      return (vs ++ ws, c) := by
  simp only [readAll_eq, readEach_append]

end Field

end RecordPack

import RecordPack.Proofs.Schema.Canonical
import RecordPack.Proofs.Text.Lines

/-!
# The table of a schema

The table of a schema has a row for each field, under the row of the byte order (`toList_describe`). The columns of a
row are words, since ids and tokens have no blanks, so they can be told apart and break no line
(`Field.isRow_columns`). A remark is any text, and a row has a line more for each line break in it: each field has one
line, at its place, exactly if no remark has a line break (`describe_lines`).
-/

namespace RecordPack

open Text (isBlank words lines)

/-! ## Words of a row -/

/-- A text that is a single word. -/
structure Text.IsWord (w : List Char) : Prop where
  ne_nil : w ≠ []
  not_blank : ∀ c ∈ w, isBlank c = false

namespace Text.IsWord

variable {w w' : List Char}

/-- A word is checked character by character. -/
instance (w : List Char) : Decidable (IsWord w) :=
  decidable_of_iff (w ≠ [] ∧ w.all (fun c => !isBlank c) = true)
    ⟨fun h => ⟨h.1, by simpa using h.2⟩, fun h => ⟨h.ne_nil, by simpa using h.not_blank⟩⟩

theorem words_eq (h : IsWord w) : words w = [w] := words_of_forall_not_blank h.ne_nil h.not_blank

theorem newline_notMem (h : IsWord w) : '\n' ∉ w := by
  intro hmem
  have hblank : isBlank '\n' = false := h.not_blank _ hmem
  exact absurd hblank (by decide)

theorem singleton {c : Char} (h : isBlank c = false) : IsWord [c] :=
  ⟨List.cons_ne_nil _ _, by simpa using h⟩

theorem append (h : IsWord w) (h' : IsWord w') : IsWord (w ++ w') := by
  refine ⟨List.append_ne_nil_of_left_ne_nil h.ne_nil _, ?_⟩
  intro c hc
  rcases List.mem_append.1 hc with hc | hc
  · exact h.not_blank c hc
  · exact h'.not_blank c hc

theorem of_number (n : Nat) : IsWord (Nat.toDigits 10 n) where
  ne_nil := Nat.toDigits_ne_nil
  not_blank _ hc := isBlank_of_start
    (isStart_of_digit (isDecimalDigit_of_isDigit (Nat.isDigit_of_mem_toDigits (by decide) (by decide) hc)))

theorem of_extent (extent : Extent) : IsWord (Qualifier.ofExtent extent).spell := by
  cases extent with
  | fixed n => exact .of_number n
  | dynamic => exact .singleton (by decide)

end Text.IsWord

theorem Label.not_isBlank_of_isIdPart {c : Char} (h : isIdPart c = true) : isBlank c = false := by
  simp only [isIdPart, Char.isAlphanum, Bool.or_eq_true, beq_iff_eq] at h
  rcases h with (halpha | hdigit) | rfl
  · exact Text.isBlank_of_start (Text.isStart_of_type (by simp [Token.isTypeChar, halpha]))
  · exact Text.isBlank_of_start (Text.isStart_of_digit (Text.isDecimalDigit_of_isDigit hdigit))
  · decide

theorem Label.IsLexical.isWord_id {l : Label} (h : l.IsLexical) : Text.IsWord l.id := by
  obtain ⟨c, cs, hid, hstart, hparts⟩ := h.id
  have hpart : isIdPart c = true := by
    simp only [isIdStart, Bool.or_eq_true] at hstart
    simp only [isIdPart, Char.isAlphanum, Bool.or_eq_true]
    exact hstart.imp_left .inl
  rw [hid]
  refine ⟨List.cons_ne_nil _ _, List.forall_mem_cons.2 ⟨not_isBlank_of_isIdPart hpart, ?_⟩⟩
  exact fun d hd => not_isBlank_of_isIdPart (hparts d hd)

namespace Field

variable (f : Field)

theorem isWord_itemToken : Text.IsWord f.itemToken.toList := by
  have hchar : Text.IsWord [f.type.char] :=
    .singleton (Text.isBlank_of_start (Text.isStart_of_type (Token.isTypeChar_char f.type)))
  rw [toList_itemToken]
  cases hwidth : Token.widthQualifier f.type f.width with
  | none => exact hchar
  | some q =>
    obtain ⟨extent, rfl⟩ := Token.exists_of_mem_widthQualifier hwidth
    exact (Text.IsWord.of_extent extent).append hchar

theorem isWord_token : Text.IsWord f.token.toList := by
  have hitem := f.isWord_itemToken
  unfold token
  cases f.count with
  | none => exact hitem
  | some extent =>
    have hcolon : Text.IsWord [':'] := .singleton (by decide)
    have hall := (Text.IsWord.of_extent extent).append (hcolon.append hitem)
    cases extent <;> simpa [toString, Qualifier.ofExtent, Qualifier.spell] using hall

theorem isWord_kindName : Text.IsWord f.kindName.toList := by
  unfold kindName
  split <;> cases f.type <;> decide

/-! ## Rows -/

/-- What a row says after its columns. -/
def remark : List Char :=
  match f.note with
  | some note => "  # ".toList ++ note.toList
  | none => []

/-- The number of line breaks in the remark. -/
def breaks : Nat :=
  match f.note with
  | some note => note.toList.count '\n'
  | none => 0

/-- A row of the table: the columns are words that say what the field is, and the remark is at the end. -/
structure IsRow (number : Nat) (row : List Char) : Prop where
  columns : ∃ columns, row = columns ++ f.remark ∧ '\n' ∉ columns ∧
    words columns = [toString number, f.id, f.token, f.kindName].map String.toList

/-- The columns that a field has in a table of some widths. -/
def columns (idWidth tokenWidth number : Nat) : List Char :=
  (Schema.padLeft 3 (toString number) ++ "  " ++ Schema.padRight idWidth f.id ++ "  " ++
    Schema.padRight tokenWidth f.token ++ "  " ++ f.kindName).toList

theorem toList_describeField (idWidth tokenWidth number : Nat) :
    (Schema.describeField idWidth tokenWidth number f).toList =
      f.columns idWidth tokenWidth number ++ f.remark ++ ['\n'] := by
  unfold Schema.describeField columns remark
  cases f.note with
  | none => simp [toString]
  | some note => simp [toString]

/-- The columns with the blanks between them. -/
theorem exists_columns_eq (idWidth tokenWidth number : Nat) : ∃ j k l : Nat,
    f.columns idWidth tokenWidth number = List.replicate j ' ' ++ (Nat.toDigits 10 number ++
      (List.replicate 2 ' ' ++ (f.id.toList ++ (List.replicate (k + 2) ' ' ++
        (f.token.toList ++ (List.replicate (l + 2) ' ' ++ f.kindName.toList)))))) := by
  refine ⟨3 - (toString number).length, idWidth - f.id.length, tokenWidth - f.token.length, ?_⟩
  unfold columns Schema.padLeft Schema.padRight
  simp [toString, List.replicate_add, List.append_assoc]

theorem isRow_columns (hid : Text.IsWord f.id.toList) (idWidth tokenWidth number : Nat) :
    f.IsRow number (f.columns idWidth tokenWidth number ++ f.remark) := by
  obtain ⟨j, k, l, hcolumns⟩ := f.exists_columns_eq idWidth tokenWidth number
  have hnumber := Text.IsWord.of_number number
  refine ⟨_, rfl, ?_, ?_⟩
  · rw [hcolumns]
    simp [List.mem_append, List.mem_replicate, hnumber.newline_notMem, hid.newline_notMem,
      f.isWord_token.newline_notMem, f.isWord_kindName.newline_notMem]
  · rw [hcolumns, Text.words_blanks_append, Text.words_append_blanks _ (by omega),
      Text.words_append_blanks _ (by omega), Text.words_append_blanks _ (by omega), hnumber.words_eq, hid.words_eq,
      f.isWord_token.words_eq, f.isWord_kindName.words_eq]
    simp [toString]

variable {f} {number : Nat} {row : List Char}

/-- Only the remark of a row can break a line. -/
theorem IsRow.count_newline (h : f.IsRow number row) : row.count '\n' = f.breaks := by
  obtain ⟨columns, rfl, hcolumns, -⟩ := h
  rw [List.count_append, List.count_eq_zero.2 hcolumns, Nat.zero_add]
  unfold remark breaks
  cases f.note with
  | none => rfl
  | some note => simp

theorem breaks_eq_zero_iff : f.breaks = 0 ↔ ∀ note ∈ f.note, '\n' ∉ note.toList := by
  unfold breaks
  cases f.note with
  | none => simp
  | some note => simp [List.count_eq_zero]

theorem IsRow.length_splitOn (h : f.IsRow number row) : (row.splitOn '\n').length = f.breaks + 1 := by
  rw [Text.length_splitOn_newline, h.count_newline]

theorem IsRow.splitOn_eq (h : f.IsRow number row) (hnote : ∀ note ∈ f.note, '\n' ∉ note.toList) :
    row.splitOn '\n' = [row] := by
  apply Text.splitOn_newline_of_notMem
  rw [← List.count_eq_zero, h.count_newline, breaks_eq_zero_iff.2 hnote]

end Field

/-! ## The table -/

namespace Schema

variable (s : Schema)

/-- The row over all others. -/
def headline : List Char := s!"byte order: {s.order.name} ({s.order.marker})".toList

theorem newline_notMem_headline : '\n' ∉ s.headline := by
  unfold headline
  cases s.order <;> decide

/-- The rows of the fields. -/
def rows : List (List Char) :=
  s.fields.mapIdx fun i f =>
    f.columns (columnWidth 2 s.ids) (columnWidth 4 (s.fields.map Field.token)) (i + 1) ++ f.remark

theorem toList_describe : s.describe.toList = (s.headline :: s.rows).flatMap (· ++ ['\n']) := by
  have hheadline : (s!"byte order: {s.order.name} ({s.order.marker})\n").toList = s.headline ++ ['\n'] := by
    simp [headline, toString]
  unfold describe rows
  rw [String.toList_join, List.flatMap_cons, List.flatMap_cons, hheadline]
  simp only [List.flatMap_def, List.mapIdx_eq_zipIdx_map, List.map_map, Function.comp_def, Field.toList_describeField]

variable {s} {options : ParseOptions} {text : String}

/-- The ids of a schema that was parsed are words. -/
theorem isWord_id_of_parse (h : (parse options text).value = .ok s) : ∀ f ∈ s.fields, Text.IsWord f.id.toList := by
  obtain ⟨body, markerWidth, -, -, hfields, -⟩ := exists_body_of_parse h
  obtain ⟨-, hdenotes, -⟩ := (fieldsOf_eq_ok (Nat.zero_le _)).1 hfields
  have hscan : ∀ t ∈ (Scan.ofText body).pieces.map (·.token), t.IsLexical := by
    intro t ht
    obtain ⟨p, hp, rfl⟩ := List.mem_map.1 ht
    exact (Scan.ofText_sound body).2 p hp
  obtain ⟨-, hlexical⟩ := hdenotes.ofFields hscan
  intro f hf
  exact ((hlexical _ (List.mem_map_of_mem hf)).label _ rfl).isWord_id

theorem isRow_of_parse (h : (parse options text).value = .ok s) {i : Nat} {f : Field} (hf : s.fields[i]? = some f) :
    ∃ row, s.rows[i]? = some row ∧ f.IsRow (i + 1) row := by
  refine ⟨_, by rw [rows, List.getElem?_mapIdx, hf]; rfl, ?_⟩
  exact f.isRow_columns (isWord_id_of_parse h f (List.mem_of_getElem? hf)) _ _ _

/-- The rows of some fields have a line each, and one more for each line break in a remark. -/
theorem length_flatMap_splitOn {fs : List Field} {rows : List (List Char)}
    (h : List.Forall₂ (fun f row => ∃ number, f.IsRow number row) fs rows) :
    (rows.flatMap (·.splitOn '\n')).length = fs.length + (fs.map Field.breaks).sum := by
  induction h with
  | nil => rfl
  | @cons f row fs rows hrow _ ih =>
    obtain ⟨number, hrow⟩ := hrow
    rw [List.flatMap_cons, List.length_append, hrow.length_splitOn, ih, List.length_cons, List.map_cons, List.sum_cons]
    omega

/-- Rows without line breaks are their own lines. -/
theorem flatMap_splitOn_rows {fs : List Field} {rows : List (List Char)}
    (h : List.Forall₂ (fun f row => ∃ number, f.IsRow number row) fs rows)
    (hnotes : ∀ f ∈ fs, ∀ note ∈ f.note, '\n' ∉ note.toList) : rows.flatMap (·.splitOn '\n') = rows := by
  induction h with
  | nil => rfl
  | @cons f row fs rows hrow _ ih =>
    obtain ⟨number, hrow⟩ := hrow
    rw [List.flatMap_cons, hrow.splitOn_eq (hnotes f List.mem_cons_self),
      ih fun g hg => hnotes g (List.mem_cons_of_mem _ hg), List.singleton_append]

theorem forall₂_rows (h : (parse options text).value = .ok s) :
    List.Forall₂ (fun f row => ∃ number, f.IsRow number row) s.fields s.rows := by
  have hlen : s.fields.length = s.rows.length := by simp [rows]
  refine List.forall₂_iff_get.2 ⟨hlen, fun i hi hi' => ?_⟩
  obtain ⟨row, hrow, his⟩ := isRow_of_parse h (List.getElem?_eq_getElem hi)
  rw [List.getElem?_eq_getElem hi', Option.some.injEq] at hrow
  subst hrow
  exact ⟨i + 1, his⟩

theorem lines_describe (s : Schema) :
    lines s.describe.toList = s.headline :: s.rows.flatMap (·.splitOn '\n') := by
  rw [toList_describe, Text.lines_flatMap, List.flatMap_cons,
    Text.splitOn_newline_of_notMem s.newline_notMem_headline]
  rfl

/-- The table of a schema that was parsed is a headline and the rows of its fields in their order, each ended by a line
break. A row comes after one line for each field before it and for each line break in their remarks. So there is one
line for each field exactly if no remark breaks a line, and then the line at the place of a field is its row. -/
theorem describe_lines (h : (parse options text).value = .ok s) :
    (∃ rows, s.describe.toList = (s.headline :: rows).flatMap (· ++ ['\n']) ∧
      lines s.describe.toList = s.headline :: rows.flatMap (·.splitOn '\n') ∧ rows.length = s.arity ∧
      ∀ i f, s.fields[i]? = some f → ∃ row, rows[i]? = some row ∧ f.IsRow (i + 1) row ∧
        ((rows.take i).flatMap (·.splitOn '\n')).length = i + ((s.fields.take i).map Field.breaks).sum) ∧
    ((lines s.describe.toList).length = s.arity + 1 ↔ ∀ f ∈ s.fields, ∀ note ∈ f.note, '\n' ∉ note.toList) ∧
    ((∀ f ∈ s.fields, ∀ note ∈ f.note, '\n' ∉ note.toList) →
      ∀ i f, s.fields[i]? = some f → ∃ row, (lines s.describe.toList)[i + 1]? = some row ∧ f.IsRow (i + 1) row) := by
  have hall := forall₂_rows h
  have hlines := lines_describe s
  refine ⟨⟨s.rows, s.toList_describe, hlines, by simp [rows, arity], ?_⟩, ?_, ?_⟩
  · intro i f hf
    obtain ⟨row, hrow, his⟩ := isRow_of_parse h hf
    have hi : i < s.fields.length := (List.getElem?_eq_some_iff.1 hf).1
    refine ⟨row, hrow, his, ?_⟩
    rw [length_flatMap_splitOn (List.forall₂_take i hall), List.length_take_of_le hi.le]
  · rw [hlines, List.length_cons, length_flatMap_splitOn hall]
    have hzero : (s.fields.map Field.breaks).sum = 0 ↔ ∀ f ∈ s.fields, ∀ note ∈ f.note, '\n' ∉ note.toList := by
      simp [List.sum_eq_zero_iff, Field.breaks_eq_zero_iff]
    rw [← hzero, arity]
    omega
  · intro hnotes i f hf
    obtain ⟨row, hrow, his⟩ := isRow_of_parse h hf
    refine ⟨row, ?_, his⟩
    rw [hlines, flatMap_splitOn_rows hall hnotes, List.getElem?_cons_succ, hrow]

/-- A schema with a remark. -/
def paged : Schema where
  order := .little
  fields := [
    { id := "day", type := .uint16, width := .fixed 2 },
    { id := "name", type := .bytes, width := .dynamic },
    { id := "pages", type := .uint32, width := .fixed 4, count := some (.fixed 2), note := some "first two" }]
  text := "<H(day) ~s(name) 2:I(pages first two)"

theorem describe_lines_paged : (parse {} paged.text).value = .ok paged ∧
    (lines paged.describe.toList).length = 4 ∧ ∃ row, (lines paged.describe.toList)[3]? = some row ∧
      ∃ columns, row = columns ++ "  # first two".toList ∧
        words columns = ["3", "pages", "2:I", "list<uint32>"].map String.toList := by
  have hparse : (parse {} paged.text).value = .ok paged := by decide +kernel
  have hnotes : ∀ f ∈ paged.fields, ∀ note ∈ f.note, '\n' ∉ note.toList := by decide +kernel
  obtain ⟨-, hcount, hrows⟩ := describe_lines hparse
  obtain ⟨row, hrow, columns, hsplit, -, hwords⟩ := hrows hnotes 2 _ rfl
  exact ⟨hparse, hcount.2 hnotes, row, hrow, columns, hsplit, hwords⟩

/-- A schema with a remark of two lines. -/
def broken : Schema where
  order := .network
  fields := [
    { id := "a", type := .uint16, width := .fixed 2, note := some "x\ny" },
    { id := "b", type := .uint16, width := .fixed 2 }]
  text := "H(a x\ny)H(b)"

/-- A remark may have a line of its own, at the place of the field that follows. -/
theorem exists_remark_breaks :
    ¬ ∀ (options : ParseOptions) (text : String) (s : Schema), (parse options text).value = .ok s →
      (lines s.describe.toList).length = s.arity + 1 ∧
      ∀ i f, s.fields[i]? = some f → ∃ row, (lines s.describe.toList)[i + 1]? = some row ∧ f.IsRow (i + 1) row := by
  intro h
  have hparse : (parse {} broken.text).value = .ok broken := by decide +kernel
  have hlines : (lines broken.describe.toList).length = 4 := by decide +kernel
  have hcount := (h {} broken.text broken hparse).1
  rw [hlines] at hcount
  exact absurd hcount (by decide)

end Schema

end RecordPack

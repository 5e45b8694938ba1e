import RecordPack.Proofs.Layout.WellFormed
import RecordPack.Proofs.Record.Room
import RecordPack.Proofs.Schema.Canonical

/-!
# Format strings describe their block

A format string is the character of a byte order and then items, each a number that may be missing and the character of
a type. It can be cut into items in one way only, since a number ends where a type stands
(`FormatItem.eq_of_flatMap_spell_eq`). The items of a block are those of its slots, and each has the size of the place
that its slot takes, in the block that is written as in the block that is read (`Segment.format_describes`).
-/

namespace RecordPack

/-- An item of a format string: a number in decimal digits, perhaps none, and the character of a type. -/
structure FormatItem where
  digits : List Char
  type : Char

namespace FormatItem

def spell (t : FormatItem) : List Char := t.digits ++ [t.type]

/-- The number is in digits, and they end at the type. -/
structure IsLexical (t : FormatItem) : Prop where
  digits : ∀ c ∈ t.digits, c.isDigit = true
  type : t.type.isDigit = false

/-- The number of an item, one if it is missing. -/
def number (t : FormatItem) : Nat := if t.digits = [] then 1 else decimalValue t.digits

/-- The bytes that an item stands for: as many values of its type as its number says, or as many bytes if the type is
the byte string. -/
def size? (t : FormatItem) : Option Nat :=
  (ScalarType.ofChar? t.type).map fun type => if type.isString then t.number else t.number * type.width

/-- The format is the byte order and then the items. -/
def Splits (order : ByteOrder) (format : String) (items : List FormatItem) : Prop :=
  format.toList = order.marker :: items.flatMap spell ∧ ∀ t ∈ items, t.IsLexical

/-! ## One way to split -/

theorem takeWhile_spell {t : FormatItem} (ht : t.IsLexical) (rest : List Char) :
    (t.spell ++ rest).takeWhile Char.isDigit = t.digits := by
  rw [spell, List.append_assoc, List.takeWhile_append_of_pos ht.digits, List.singleton_append,
    List.takeWhile_cons_of_neg (by rw [ht.type]; decide), List.append_nil]

theorem eq_of_append_eq {t t' : FormatItem} (ht : t.IsLexical) (ht' : t'.IsLexical) {rest rest' : List Char}
    (h : t.spell ++ rest = t'.spell ++ rest') : t = t' ∧ rest = rest' := by
  have hdigits : t.digits = t'.digits := by rw [← takeWhile_spell ht rest, h, takeWhile_spell ht' rest']
  obtain ⟨digits, type⟩ := t
  obtain ⟨digits', type'⟩ := t'
  obtain rfl : digits = digits' := hdigits
  simp only [spell, List.append_assoc, List.singleton_append, List.append_cancel_left_eq, List.cons.injEq] at h
  obtain ⟨rfl, rfl⟩ := h
  exact ⟨rfl, rfl⟩

/-- Items that are spelled alike are the same. -/
theorem eq_of_flatMap_spell_eq {ts : List FormatItem} (hts : ∀ t ∈ ts, t.IsLexical) :
    ∀ {ts' : List FormatItem}, (∀ t ∈ ts', t.IsLexical) → ts.flatMap spell = ts'.flatMap spell → ts = ts' := by
  induction ts with
  | nil =>
    intro ts' _ h
    cases ts' with
    | nil => rfl
    | cons t' ts' => simp [spell] at h
  | cons t ts ih =>
    intro ts' hts' h
    cases ts' with
    | nil => simp [spell] at h
    | cons t' ts' =>
      rw [List.flatMap_cons, List.flatMap_cons] at h
      obtain ⟨rfl, hrest⟩ := eq_of_append_eq (hts t List.mem_cons_self) (hts' t' List.mem_cons_self) h
      rw [ih (fun u hu => hts u (List.mem_cons_of_mem _ hu)) (fun u hu => hts' u (List.mem_cons_of_mem _ hu)) hrest]

/-! ## The item of a slot -/

theorem isDigit_char (type : ScalarType) : type.char.isDigit = false := by cases type <;> decide

theorem ofChar?_char (type : ScalarType) : ScalarType.ofChar? type.char = some type := by cases type <;> rfl

theorem isLexical_type (type : ScalarType) : IsLexical ⟨[], type.char⟩ := ⟨by simp, isDigit_char type⟩

theorem isLexical_toDigits (n : Nat) (type : ScalarType) : IsLexical ⟨Nat.toDigits 10 n, type.char⟩ :=
  ⟨fun _ hc => Nat.isDigit_of_mem_toDigits (by decide) (by decide) hc, isDigit_char type⟩

theorem size?_type (type : ScalarType) : size? ⟨[], type.char⟩ = some type.width := by
  simp only [size?, ofChar?_char, number, if_true, Option.map_some, Nat.one_mul]
  cases type <;> rfl

theorem size?_toDigits (n : Nat) (type : ScalarType) :
    size? ⟨Nat.toDigits 10 n, type.char⟩ = some (if type.isString then n else n * type.width) := by
  simp only [size?, ofChar?_char, number, if_neg Nat.toDigits_ne_nil, decimalValue_toDigits, Option.map_some]

/-- What a format says of a slot: its token, and the size of its place. -/
structure Describes (t : FormatItem) (slot : Slot) (width : Nat) : Prop where
  lexical : t.IsLexical
  token : slot.shape.formatToken? = some (String.ofList t.spell)
  size : t.size? = some width
  fixedWidth : slot.shape.fixedWidth? = some width

theorem exists_describes {slot : Slot} (hfix : slot.shape.isFixed = true) (hwf : slot.shape.WellFormed) :
    ∃ t width, Describes t slot width := by
  obtain ⟨index, id, shape⟩ := slot
  cases shape with
  | scalar type width =>
    obtain ⟨-, hfits⟩ := hwf
    cases hs : type.isString with
    | true =>
      refine ⟨⟨Nat.toDigits 10 width, type.char⟩, width, isLexical_toDigits _ _, ?_, ?_, rfl⟩
      · simp [Shape.formatToken?, hs, spell, toString, String.ext_iff]
      · rw [size?_toDigits, hs, if_pos rfl]
    | false =>
      -- the type alone says how wide its place is
      obtain rfl : width = type.width := by
        rcases hfits with rfl | hwidth
        · cases hs
        · exact hwidth
      refine ⟨⟨[], type.char⟩, type.width, isLexical_type type, ?_, size?_type type, rfl⟩
      simp [Shape.formatToken?, hs, spell, toString]
  | fixedList type itemWidth count =>
    obtain ⟨-, hfits, -⟩ := hwf
    cases hs : type.isString with
    | true =>
      refine ⟨⟨Nat.toDigits 10 (itemWidth * count), type.char⟩, itemWidth * count, isLexical_toDigits _ _, ?_, ?_, rfl⟩
      · simp [Shape.formatToken?, hs, spell, toString, String.ext_iff]
      · rw [size?_toDigits, hs, if_pos rfl]
    | false =>
      obtain rfl : itemWidth = type.width := by
        rcases hfits with rfl | hwidth
        · cases hs
        · exact hwidth
      refine ⟨⟨Nat.toDigits 10 count, type.char⟩, type.width * count, isLexical_toDigits _ _, ?_, ?_, rfl⟩
      · simp [Shape.formatToken?, hs, spell, toString, String.ext_iff]
      · rw [size?_toDigits, hs, if_neg (by decide), Nat.mul_comm]
  | _ => cases hfix

end FormatItem

/-! ## Blocks in pieces -/

/-- The block of a run is written place by place. -/
theorem Writer.fixedSlots_eq_ok {e : Endian} {slots : List Slot} : ∀ {row : Row} {block : Bytes},
    fixedSlots e slots row = .ok block ↔ ∃ pieces,
      List.Forall₂ (fun (p : Slot × Value) b => fixedSlot e p.1.shape p.2 = .ok b) (slots.zip row) pieces ∧
        block = pieces.flatten := by
  induction slots with
  | nil =>
    intro row block
    simp [fixedSlots, eq_comm]
  | cons slot slots ih =>
    intro row block
    cases row with
    | nil => simp [fixedSlots, eq_comm]
    | cons v vs =>
      simp only [fixedSlots, bind_eq_ok, pure_eq_ok, mapError_eq_ok, ih, List.zip_cons_cons,
        List.forall₂_cons_left_iff]
      constructor
      · rintro ⟨b, hb, _, ⟨pieces, hpieces, rfl⟩, rfl⟩
        exact ⟨b :: pieces, ⟨b, pieces, hb, hpieces, rfl⟩, rfl⟩
      · rintro ⟨_, ⟨b, pieces, hb, hpieces, rfl⟩, rfl⟩
        exact ⟨b, hb, pieces.flatten, ⟨pieces, hpieces, rfl⟩, rfl⟩

/-- The pieces that are written are as long as the places are wide. -/
theorem Writer.length_pieces {e : Endian} {slots : List Slot} {sizes : List Nat}
    (hsizes : List.Forall₂ (fun slot size => slot.shape.fixedWidth? = some size) slots sizes) :
    ∀ {row : Row} {pieces : List Bytes}, row.length = slots.length →
      List.Forall₂ (fun (p : Slot × Value) b => fixedSlot e p.1.shape p.2 = .ok b) (slots.zip row) pieces →
      pieces.map List.length = sizes := by
  induction hsizes with
  | nil =>
    intro row pieces _ h
    cases h
    rfl
  | @cons slot size slots sizes hsize _ ih =>
    intro row pieces hlen h
    obtain ⟨v, vs, rfl⟩ := List.exists_cons_of_length_eq_add_one hlen
    rw [List.zip_cons_cons] at h
    cases h with
    | cons hb hpieces =>
      have hlength := length_of_fixedSlot (by rw [Shape.isFixed, hsize]; rfl) hb
      rw [hsize, Option.getD_some] at hlength
      rw [List.map_cons, hlength, ih (Nat.succ.inj hlen) hpieces]

/-- A block that is read is cut into pieces as long as the places are wide. -/
theorem Reader.fixedSlots_flatten {e : Endian} {slots : List Slot} {sizes : List Nat}
    (hsizes : List.Forall₂ (fun slot size => slot.shape.fixedWidth? = some size) slots sizes) :
    ∀ {pieces : List Bytes}, pieces.map List.length = sizes → fixedSlots e slots pieces.flatten =
      List.zipWith (fun slot b => fixedSlot e slot.shape b) slots pieces := by
  induction hsizes with
  | nil =>
    intro pieces h
    rw [List.map_eq_nil_iff.1 h]
    rfl
  | @cons slot size slots sizes hsize _ ih =>
    intro pieces h
    obtain ⟨b, pieces, rfl, rfl, hpieces⟩ := List.map_eq_cons_iff.1 h
    rw [fixedSlots, hsize, Option.getD_some, List.flatten_cons, List.take_left, List.drop_left, ih hpieces]
    rfl

/-! ## Formats -/

namespace Segment

theorem exists_items {slots : List Slot} (hfix : ∀ slot ∈ slots, slot.shape.isFixed = true)
    (hwf : ∀ slot ∈ slots, slot.shape.WellFormed) : ∃ items : List FormatItem, ∃ sizes : List Nat,
      (∀ t ∈ items, t.IsLexical) ∧
      slots.map (·.shape.formatToken?) = items.map (fun t => some (String.ofList t.spell)) ∧
      items.map FormatItem.size? = sizes.map some ∧
      List.Forall₂ (fun slot size => slot.shape.fixedWidth? = some size) slots sizes := by
  induction slots with
  | nil => exact ⟨[], [], by simp, rfl, rfl, .nil⟩
  | cons slot slots ih =>
    obtain ⟨t, size, hlexical, htoken, hsize, hwidth⟩ :=
      FormatItem.exists_describes (hfix slot List.mem_cons_self) (hwf slot List.mem_cons_self)
    obtain ⟨items, sizes, hall, htokens, hsizes, hwidths⟩ :=
      ih (fun s hs => hfix s (List.mem_cons_of_mem _ hs)) (fun s hs => hwf s (List.mem_cons_of_mem _ hs))
    refine ⟨t :: items, size :: sizes, List.forall_mem_cons.2 ⟨hlexical, hall⟩, ?_, ?_, .cons hwidth hwidths⟩
    · rw [List.map_cons, List.map_cons, htoken, htokens]
    · rw [List.map_cons, List.map_cons, hsize, hsizes]

/-- The format of a block splits into items in exactly one way, and they are the tokens of its slots. An item has the
size of the place of its slot, and together they are as large as the block. A block that is written consists of
pieces of these sizes, one for each slot, and a block that is read is cut into such pieces. -/
theorem format_describes {options : ParseOptions} {text : String} {s : Schema}
    (h : (Schema.parse options text).value = .ok s) {run : FixedRun} (hrun : .fixed run ∈ ofSchema s) :
    ∃ items : List FormatItem, ∃ sizes : List Nat,
      (∀ items', FormatItem.Splits s.order run.format items' ↔ items' = items) ∧
      run.slots.map (·.shape.formatToken?) = items.map (fun t => some (String.ofList t.spell)) ∧
      items.map FormatItem.size? = sizes.map some ∧
      run.slots.map (·.shape.fixedWidth?) = sizes.map some ∧ sizes.sum = run.width ∧
      (∀ e row block, row.length = run.slots.length → Writer.fixedSlots e run.slots row = .ok block →
        ∃ pieces, block = pieces.flatten ∧ pieces.map List.length = sizes ∧
          List.Forall₂ (fun (p : Slot × Value) b => Writer.fixedSlot e p.1.shape p.2 = .ok b)
            (run.slots.zip row) pieces) ∧
      ∀ e pieces, pieces.map List.length = sizes → Reader.fixedSlots e run.slots pieces.flatten =
        List.zipWith (fun slot b => Reader.fixedSlot e slot.shape b) run.slots pieces := by
  have hseg := wellFormed_of_mem (Schema.wellFormed_of_parse h) hrun
  have hfix : ∀ slot ∈ run.slots, slot.shape.isFixed = true := hseg.uniform
  obtain ⟨items, sizes, hlexical, htokens, hsizes, hwidths⟩ := exists_items hfix hseg.shapes
  have hmap : run.slots.map (·.shape.fixedWidth?) = sizes.map some := by
    rw [← List.forall₂_eq_eq_eq, List.forall₂_map_left_iff, List.forall₂_map_right_iff]
    exact hwidths
  have hsum : run.slots.filterMap (·.shape.fixedWidth?) = sizes := by
    have := congrArg (List.filterMap id) hmap
    simpa [List.filterMap_map] using this
  have hspelled : run.slots.filterMap (·.shape.formatToken?) = items.map fun t => String.ofList t.spell := by
    have := congrArg (List.filterMap id) htokens
    simpa [List.filterMap_map] using this
  have hsplits : FormatItem.Splits s.order run.format items := by
    refine ⟨?_, hlexical⟩
    rw [hseg.format run rfl, hspelled, List.flatMap_map]
    simp only [String.toList_ofList]
  refine ⟨items, sizes, ?_, htokens, hsizes, hmap, ?_, ?_, ?_⟩
  · intro items'
    constructor
    · rintro ⟨hformat, hlexical'⟩
      have hsame := List.tail_eq_of_cons_eq (hformat.symm.trans hsplits.1)
      exact FormatItem.eq_of_flatMap_spell_eq hlexical' hlexical hsame
    · rintro rfl
      exact hsplits
  · rw [hseg.width run rfl, hsum]
  · intro e row block hlen hblock
    obtain ⟨pieces, hpieces, hflat⟩ := Writer.fixedSlots_eq_ok.1 hblock
    exact ⟨pieces, hflat, Writer.length_pieces hwidths hlen hpieces, hpieces⟩
  · exact fun e pieces hpieces => Reader.fixedSlots_flatten hwidths hpieces

end Segment

/-- A schema of one block: a number, a string, a list of numbers and a list of strings. -/
def Schema.oneBlock : Schema where
  order := .little
  fields := [
    { id := "a", type := .uint16, width := .fixed 2 },
    { id := "b", type := .bytes, width := .fixed 3 },
    { id := "c", type := .uint32, width := .fixed 4, count := some (.fixed 2) },
    { id := "d", type := .bytes, width := .fixed 3, count := some (.fixed 2) }]
  text := "<H(a)3s(b)2:I(c)2:3s(d)"

theorem Segment.format_describes_oneBlock : (Schema.parse {} Schema.oneBlock.text).value = .ok Schema.oneBlock ∧
    .fixed (.ofSlots .little (Slot.ofFields Schema.oneBlock.fields)) ∈ Segment.ofSchema Schema.oneBlock ∧
    ∃ items : List FormatItem, ∃ sizes : List Nat,
      (∀ items', FormatItem.Splits .little "<H3s2I6s" items' ↔ items' = items) ∧
      items.map FormatItem.size? = sizes.map some ∧ sizes.sum = 19 := by
  have hparse : (Schema.parse {} Schema.oneBlock.text).value = .ok Schema.oneBlock := by decide +kernel
  have hrun : .fixed (.ofSlots .little (Slot.ofFields Schema.oneBlock.fields)) ∈ Segment.ofSchema Schema.oneBlock := by
    decide +kernel
  have hformat : (FixedRun.ofSlots .little (Slot.ofFields Schema.oneBlock.fields)).format = "<H3s2I6s" := by
    decide +kernel
  obtain ⟨items, sizes, hsplits, -, hsizes, -, hsum, -⟩ := format_describes hparse hrun
  rw [hformat] at hsplits
  exact ⟨hparse, hrun, items, sizes, hsplits, hsizes, hsum⟩

end RecordPack

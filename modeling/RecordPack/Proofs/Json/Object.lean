import Mathlib.Data.List.Nodup
import RecordPack.Json.Record
import RecordPack.Json.Writer
import RecordPack.Proofs.Json.Number

/-!
# Objects read back

An object is read member by member: its key as it stands, its value up to the comma or the bracket behind it
(`readObject_member`). So the record that is found in the text of an object holds what its members are read as, whatever
kinds they are of (`readRecord_object`).
-/

namespace RecordPack.Json

/-! ## Keys -/

/-- A key whose characters stand for themselves. -/
def IsPlain (key : String) : Prop := ∀ c ∈ key.toList, c ≠ '"' ∧ c ≠ '\\' ∧ 0x20 ≤ c.toNat

instance (key : String) : Decidable (IsPlain key) := List.decidableBAll _ key.toList

theorem readString_plain (checked : Bool) (rest : List Char) (cs : List Char) :
    (∀ c ∈ cs, c ≠ '"' ∧ c ≠ '\\' ∧ 0x20 ≤ c.toNat) → readString checked (cs ++ '"' :: rest) = .ok (cs, rest) := by
  induction cs with
  | nil =>
    intro _
    rw [List.nil_append, readString]
  | cons c cs ih =>
    intro h
    obtain ⟨hquote, hback, hctrl⟩ := h c List.mem_cons_self
    have hcs := ih fun d hd => h d (List.mem_cons_of_mem c hd)
    rw [List.cons_append, readString, if_neg (Nat.not_lt.2 hctrl), hcs]
    · rfl
    all_goals simp [hquote, hback]

/-! ## Values -/

theorem skipBlank_cons {c : Char} (h : isBlank c = false) (cs : List Char) : skipBlank (c :: cs) = c :: cs :=
  List.dropWhile_cons_of_neg (ne_true_of_eq_false h)

theorem isBlank_of_isDigit {c : Char} (h : c.isDigit = true) : isBlank c = false := by
  have hne : ∀ d : Char, d.isDigit = false → c ≠ d := by
    rintro d hd rfl
    exact absurd h (ne_true_of_eq_false hd)
  simp [isBlank, hne ' ' rfl, hne '\n' rfl, hne '\t' rfl, hne '\r' rfl]

variable {cs rest : List Char}

/-- A number begins with a digit. -/
theorem head_spell {t : NumberText} (h : t.IsForm) (rest : List Char) : ∃ c ∈ (t.spell ++ rest).head?, c.isDigit = true := by
  obtain ⟨c, cs, hwhole⟩ := List.exists_cons_of_ne_nil h.whole.ne_nil
  refine ⟨c, ?_, h.whole.all c (hwhole ▸ List.mem_cons_self)⟩
  rw [NumberText.spell, hwhole]
  rfl

/-- A number is taken for what the column asks for. -/
theorem readItem_natural {n : Nat} (hhead : ∃ c ∈ cs.head?, c.isDigit = true)
    (h : readNumber cs = .ok (.natural n, rest)) : readItem .natural cs = .ok (.natural n, rest) := by
  obtain ⟨c, hc, hdigit⟩ := hhead
  obtain ⟨cs, rfl⟩ := List.head?_eq_some_iff.1 hc
  have hstart : startsNumber c = true := by simp [startsNumber, hdigit]
  simp only [readItem, skipBlank_cons (isBlank_of_isDigit hdigit), readNumeric, hstart, if_true, h, ok_bind]
  rfl

theorem readItem_number {x : Number} (hhead : ∃ c ∈ cs.head?, c.isDigit = true)
    (h : readNumber cs = .ok (x, rest)) : readItem .number cs = .ok (.number x.toBinary64, rest) := by
  obtain ⟨c, hc, hdigit⟩ := hhead
  obtain ⟨cs, rfl⟩ := List.head?_eq_some_iff.1 hc
  have hstart : startsNumber c = true := by simp [startsNumber, hdigit]
  simp only [readItem, skipBlank_cons (isBlank_of_isDigit hdigit), readNumeric, hstart, if_true, h, ok_bind]
  rfl

/-! ## Members -/

/-- A member of an object: its column, the text of its value and what that is read as. -/
structure Member where
  column : Column
  text : String
  item : Item

namespace Member

/-- The member in the text of the object. -/
def spell (m : Member) : List Char := '"' :: (m.column.key.toList ++ '"' :: ':' :: m.text.toList)

/-- The member as it is found. -/
def found (m : Member) : String × Item := (m.column.key, m.item)

/-- What comes behind a value: the comma of the next member or the bracket that closes the object. -/
def Ends (rest : List Char) : Prop := ∃ c ∈ rest.head?, c = ',' ∨ c = Bracket.object.close

/-- The key is read as it stands, and so is the value. -/
structure Reads (m : Member) : Prop where
  plain : IsPlain m.column.key
  value : ∀ rest, Ends rest → readItem m.column.kind (m.text.toList ++ rest) = .ok (m.item, rest)

end Member

theorem endsNumber_of_ends (h : Member.Ends rest) : EndsNumber rest := by
  obtain ⟨c, hc, hends⟩ := h
  intro d hd
  obtain rfl : c = d := Option.some.inj (hc.symm.trans hd)
  rcases hends with rfl | rfl <;> decide

/-- A natural number of 64 bits is read as it is. -/
theorem reads_natural {key : String} {n : Nat} (hkey : IsPlain key) (hn : n < UInt64.size) :
    Member.Reads ⟨⟨key, .natural⟩, toString n, .natural n⟩ := by
  refine ⟨hkey, ?_⟩
  intro rest hrest
  have hform : NumberText.IsForm ⟨false, Nat.toDigits 10 n, none, none⟩ := ⟨rfl, isWhole_toDigits n, nofun, nofun⟩
  have hread := NumberText.read_spell hform .cutShort (endsNumber_of_ends hrest)
  have htext : (toString n).toList = NumberText.spell ⟨false, Nat.toDigits 10 n, none, none⟩ := by
    rw [Nat.toString_eq_ofList_toDigits, String.toList_ofList]
    exact (List.append_nil _).symm
  rw [htext]
  refine readItem_natural (head_spell hform rest) ?_
  rw [readNumber, hread]
  simp only [ok_bind, NumberText.value_natural hn]
  rfl

variable {columns : List Column} {found : Found} {m : Member} {ms : List Member} {budget : Nat}

/-- One member. -/
theorem readObject_member (hreads : m.Reads) (hcolumn : columns.find? (·.key == m.column.key) = some m.column)
    (hfresh : found.lookup m.column.key = none) (hrest : Member.Ends rest) (budget : Nat) (first : Bool) :
    readObject columns (budget + 1) found first ((if first then [] else [',']) ++ (m.spell ++ rest)) =
      readObject columns budget (m.found :: found) false rest := by
  have hkey := readString_plain true (':' :: (m.text.toList ++ rest)) m.column.key.toList hreads.plain
  have hspell : m.spell ++ rest = '"' :: (m.column.key.toList ++ '"' :: ':' :: (m.text.toList ++ rest)) := by
    simp only [Member.spell, List.cons_append, List.append_assoc]
  have hvalue := hreads.value rest hrest
  have hquote : ¬ '"' = Bracket.object.close := by decide
  have hcomma : ¬ ',' = Bracket.object.close := by decide
  rw [hspell]
  cases first
  all_goals
    simp only [if_true, if_false, Bool.false_eq_true, List.nil_append, List.singleton_append, readObject,
      skipBlank_cons (show isBlank '"' = false by decide), skipBlank_cons (show isBlank ',' = false by decide),
      skipBlank_cons (show isBlank ':' = false by decide), hquote, hcomma, skipObjectComma, ok_bind, hkey,
      String.ofList_toList, hcolumn, hfresh, Option.isSome_none, skipColon, hvalue]
    rfl

/-- The text of an object from its members. -/
def spellMembers : List Member → List Char
  | [] => []
  | m :: ms => m.spell ++ ms.flatMap fun m => ',' :: m.spell

theorem spellMembers_append (m : Member) (ms others : List Member) : spellMembers (m :: ms ++ others) =
    spellMembers (m :: ms) ++ others.flatMap fun m => ',' :: m.spell := by
  rw [List.cons_append, spellMembers, spellMembers, List.flatMap_append, List.append_assoc]

theorem ends_follow (ms : List Member) (rest : List Char) :
    Member.Ends (ms.flatMap (fun m => ',' :: m.spell) ++ Bracket.object.close :: rest) := by
  cases ms with
  | nil => exact ⟨_, rfl, .inr rfl⟩
  | cons m ms => exact ⟨_, rfl, .inl rfl⟩

theorem lookup_of_not_mem {key : String} (h : key ∉ found.map Prod.fst) : found.lookup key = none := by
  rw [List.lookup_eq_none_iff]
  intro p hp
  have hne : key ≠ p.1 := fun heq => h (heq ▸ List.mem_map_of_mem hp)
  simpa using hne

theorem readObject_close (budget : Nat) (found : Found) (first : Bool) (rest : List Char) :
    readObject columns (budget + 1) found first (Bracket.object.close :: rest) = .ok (found, rest) := by
  simp only [readObject, skipBlank_cons (show isBlank Bracket.object.close = false by decide), if_true]

/-- The members behind a first one are found one after the other, and each comes to the front. -/
theorem readObject_follow {rest : List Char} : ∀ {ms : List Member} {budget : Nat} {found : Found},
    (∀ m ∈ ms, m.Reads) → (∀ m ∈ ms, columns.find? (·.key == m.column.key) = some m.column) →
    (ms.map (·.column.key) ++ found.map Prod.fst).Nodup → ms.length < budget →
    readObject columns budget found false (ms.flatMap (fun m => ',' :: m.spell) ++ Bracket.object.close :: rest) =
      .ok ((ms.map Member.found).reverse ++ found, rest) := by
  intro ms
  induction ms with
  | nil =>
    intro budget found _ _ _ hbudget
    obtain ⟨budget, rfl⟩ := Nat.exists_eq_succ_of_ne_zero (Nat.ne_zero_of_lt hbudget)
    exact readObject_close budget found false rest
  | cons m ms ih =>
    intro budget found hreads hcolumns hnodup hbudget
    obtain ⟨budget, rfl⟩ := Nat.exists_eq_succ_of_ne_zero (Nat.ne_zero_of_lt hbudget)
    rw [List.map_cons, List.cons_append, List.nodup_cons] at hnodup
    have hfresh : m.column.key ∉ found.map Prod.fst := fun h => hnodup.1 (List.mem_append_right _ h)
    have hstep := readObject_member (hreads m List.mem_cons_self) (hcolumns m List.mem_cons_self)
      (lookup_of_not_mem hfresh) (ends_follow ms rest) budget false
    have hnext : (ms.map (·.column.key) ++ (m.found :: found).map Prod.fst).Nodup :=
      List.nodup_middle.2 (List.nodup_cons.2 hnodup)
    have hrun := ih (fun m hm => hreads m (List.mem_cons_of_mem _ hm)) (fun m hm => hcolumns m (List.mem_cons_of_mem _ hm))
      hnext (Nat.lt_of_succ_lt_succ hbudget)
    rw [hrun] at hstep
    simpa using hstep

theorem length_le_follow (ms : List Member) : ms.length ≤ (ms.flatMap fun m => ',' :: m.spell).length := by
  induction ms with
  | nil => exact Nat.le_refl 0
  | cons m ms ih =>
    rw [List.flatMap_cons, List.length_append, List.length_cons, List.length_cons]
    omega

theorem readObject_members (rest : List Char) (hreads : ∀ m ∈ ms, m.Reads)
    (hcolumns : ∀ m ∈ ms, columns.find? (·.key == m.column.key) = some m.column)
    (hnodup : (ms.map (·.column.key)).Nodup) (hbudget : (spellMembers ms).length < budget) :
    readObject columns budget [] true (spellMembers ms ++ Bracket.object.close :: rest) =
      .ok ((ms.map Member.found).reverse, rest) := by
  obtain ⟨budget, rfl⟩ := Nat.exists_eq_succ_of_ne_zero (Nat.ne_zero_of_lt hbudget)
  cases ms with
  | nil => exact readObject_close budget [] true rest
  | cons m ms =>
    have hlen := length_le_follow ms
    have hspell : 0 < m.spell.length := Nat.succ_pos _
    rw [spellMembers, List.length_append] at hbudget
    have hfresh : ([] : Found).lookup m.column.key = none := rfl
    have hstep := readObject_member (hreads m List.mem_cons_self) (hcolumns m List.mem_cons_self) hfresh
      (ends_follow ms rest) budget true
    have hnext : (ms.map (·.column.key) ++ [m.found].map Prod.fst).Nodup := by
      refine List.nodup_middle.2 ?_
      rw [List.map_nil, List.append_nil]
      exact hnodup
    rw [readObject_follow (fun m hm => hreads m (List.mem_cons_of_mem _ hm))
      (fun m hm => hcolumns m (List.mem_cons_of_mem _ hm)) hnext (by omega)] at hstep
    simpa [spellMembers] using hstep

/-! ## Objects -/

theorem intercalate_spell (ms : List Member) : [','].intercalate (ms.map Member.spell) = spellMembers ms := by
  match ms with
  | [] => rfl
  | [m] => simp [spellMembers]
  | m :: m' :: ms =>
    have hrest := intercalate_spell (m' :: ms)
    rw [List.map_cons] at hrest
    rw [List.map_cons, List.map_cons, List.intercalate_cons_cons, hrest]
    simp [spellMembers]

theorem toList_object (ms : List Member) : (object (ms.map fun m => (m.column.key, m.text))).toList =
    Char.ofNat 0x7B :: (spellMembers ms ++ [Bracket.object.close]) := by
  have hspell : ∀ m : Member, ("\"" ++ m.column.key ++ "\":" ++ m.text).toList = m.spell := by
    intro m
    simp [Member.spell]
  have hmembers : ∀ write : String × String → String, (∀ m : Member, (write (m.column.key, m.text)).toList = m.spell) →
      ((ms.map fun m => (m.column.key, m.text)).map write).map String.toList = ms.map Member.spell := by
    intro write hwrite
    rw [List.map_map, List.map_map]
    exact List.map_congr_left fun m _ => hwrite m
  rw [object, String.toList_append, String.toList_append, String.toList_intercalate, hmembers _ hspell]
  show _ ++ [','].intercalate _ ++ _ = _
  rw [intercalate_spell]
  rfl

theorem find_column {col : Column} : ∀ {columns : List Column}, (columns.map (·.key)).Nodup → col ∈ columns →
    columns.find? (·.key == col.key) = some col := by
  intro columns
  induction columns with
  | nil => exact fun _ h => absurd h List.not_mem_nil
  | cons first columns ih =>
    intro hnodup hmem
    rw [List.map_cons, List.nodup_cons] at hnodup
    rcases List.mem_cons.1 hmem with rfl | htail
    · exact List.find?_cons_of_pos (beq_self_eq_true _)
    · have hne : first.key ≠ col.key := fun heq => hnodup.1 (heq ▸ List.mem_map_of_mem htail)
      rw [List.find?_cons_of_neg (by simpa using hne)]
      exact ih hnodup.2 htail

/-- What is found under the key of a member. -/
theorem lookup_found (hnodup : (ms.map (·.column.key)).Nodup) (hm : m ∈ ms) :
    List.lookup m.column.key (ms.map Member.found).reverse = some m.item := by
  obtain ⟨before, behind, rfl⟩ := List.mem_iff_append.1 hm
  rw [List.map_append, List.map_cons, List.nodup_middle, List.nodup_cons] at hnodup
  rw [List.lookup_eq_some_iff]
  refine ⟨(behind.map Member.found).reverse, (before.map Member.found).reverse, by simp [Member.found], ?_⟩
  intro p hp
  obtain ⟨other, hother, rfl⟩ := List.mem_map.1 (List.mem_reverse.1 hp)
  have hne : m.column.key ≠ other.column.key :=
    fun heq => hnodup.1 (List.mem_append_right _ (heq ▸ List.mem_map_of_mem hother))
  exact bne_iff_ne.2 hne

theorem checkComplete_found (partly : Bool) (hnodup : (ms.map (·.column.key)).Nodup) :
    checkComplete partly (ms.map (·.column)) (ms.map Member.found).reverse = .ok () := by
  have hall : (ms.map (·.column)).all (fun col => (List.lookup col.key (ms.map Member.found).reverse).isSome) = true := by
    rw [List.all_eq_true]
    intro col hcol
    obtain ⟨m, hm, rfl⟩ := List.mem_map.1 hcol
    rw [lookup_found hnodup hm, Option.isSome_some]
  rw [checkComplete, if_pos (by rw [hall, Bool.or_true])]

/-- An object is read as its members say. -/
theorem readRecord_object (partly : Bool) (hreads : ∀ m ∈ ms, m.Reads) (hnodup : (ms.map (·.column.key)).Nodup) :
    readRecord partly (ms.map (·.column)) (object (ms.map fun m => (m.column.key, m.text))) =
      .ok (ms.map Member.found).reverse := by
  have hcolumns : ∀ m ∈ ms, (ms.map (·.column)).find? (·.key == m.column.key) = some m.column := by
    intro m hm
    exact find_column (by rwa [List.map_map]) (List.mem_map_of_mem hm)
  have hbudget : (spellMembers ms).length < (spellMembers ms ++ [Bracket.object.close]).length + 1 := by
    rw [List.length_append]
    omega
  have hread := readObject_members [] hreads hcolumns hnodup hbudget
  have hopen : Bracket.ofOpen? (Char.ofNat 0x7B) = some .object := by decide
  rw [readRecord, toList_object, skipBlank_cons (by decide), readFound]
  simp only [hopen, hread, checkComplete_found partly hnodup, ok_bind]
  rfl

end RecordPack.Json

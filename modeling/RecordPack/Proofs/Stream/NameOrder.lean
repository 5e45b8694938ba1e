import RecordPack.Proofs.Record.Names
import RecordPack.Proofs.Stream.Packing

/-!
# The order of named values

Named values that give no id two values (`Consistent`) are a table: what a field gets does not depend on the order of
the pairs (`Field.given_iff_of_consistent`), and every pair ends up in the place of its field. An id with two values has
one place for both, so one of them is lost, and the order says which. Whether there is a row at all depends on the names
alone (`Codec.rowOfNamed_in_any_order`).
-/

namespace RecordPack

/-- No id is given two different values. -/
def Consistent (pairs : List (String × Value)) : Prop := ∀ p ∈ pairs, ∀ q ∈ pairs, p.1 = q.1 → p.2 = q.2

instance (pairs : List (String × Value)) : Decidable (Consistent pairs) :=
  inferInstanceAs (Decidable (∀ p ∈ pairs, ∀ q ∈ pairs, p.1 = q.1 → p.2 = q.2))

variable {pairs pairs' : List (String × Value)} {f : Field} {v : Value}

theorem Consistent.perm (hcons : Consistent pairs) (h : pairs.Perm pairs') : Consistent pairs' :=
  fun p hp q hq => hcons p (h.mem_iff.2 hp) q (h.mem_iff.2 hq)

/-! ## Single fields -/

namespace Field

theorem isMissing_perm (h : pairs.Perm pairs') : f.IsMissing pairs ↔ f.IsMissing pairs' := by
  rw [IsMissing, IsMissing, (h.map Prod.fst).mem_iff]

/-- The value of a field is that of any pair with its id. -/
theorem given_iff_of_consistent (hcons : Consistent pairs) : f.Given pairs v ↔
    (f.id, v) ∈ pairs ∨ f.id ∉ pairs.map Prod.fst ∧ (f.type = .pad ∧ f.count = none) ∧ v = .pad := by
  constructor
  · intro h
    cases h with
    | pair hpairs _ =>
      left
      rw [hpairs]
      exact List.mem_append_right _ List.mem_cons_self
    | filler hnone htype hcount => exact .inr ⟨hnone, ⟨htype, hcount⟩, rfl⟩
  · rintro (hmem | ⟨hnone, ⟨htype, hcount⟩, rfl⟩)
    · -- the first pair with this id need not be the given one, but it has the same value
      have hid : f.id ∈ pairs.map Prod.fst := List.mem_map_of_mem hmem
      obtain ⟨w, hw⟩ := Codec.exists_valueOf (f := f) fun hmissing => hmissing.1 hid
      have hgiven := Codec.valueOf_eq_ok.1 hw
      cases hgiven with
      | pair hpairs _ =>
        have hfirst : (f.id, w) ∈ pairs := by
          rw [hpairs]
          exact List.mem_append_right _ List.mem_cons_self
        obtain rfl : w = v := hcons _ hfirst _ hmem rfl
        exact Codec.valueOf_eq_ok.1 hw
      | filler hnone => exact absurd hid hnone
    · exact .filler hnone htype hcount

theorem given_perm (hcons : Consistent pairs) (h : pairs.Perm pairs') : f.Given pairs v ↔ f.Given pairs' v := by
  rw [given_iff_of_consistent hcons, given_iff_of_consistent (hcons.perm h), h.mem_iff, (h.map Prod.fst).mem_iff]

end Field

/-! ## Whole rows -/

namespace Codec

variable {c : Codec} {row : Row}

/-- There is a row exactly if every name is an id and no field is left out. -/
theorem exists_rowOfNamed_iff : (∃ row, c.rowOfNamed pairs = .ok row) ↔
    (∀ p ∈ pairs, p.1 ∈ c.schema.ids) ∧ ∀ f ∈ c.schema.fields, ¬ f.IsMissing pairs := by
  constructor
  · rintro ⟨row, hrow⟩
    have hknown : ∀ p ∈ pairs, p.1 ∈ c.schema.ids := by
      intro p hp
      by_contra hid
      unfold rowOfNamed at hrow
      split at hrow
      · cases hrow
      · next hnone =>
        exact List.find?_eq_none.1 hnone p hp (Schema.position?_isNone_iff.2 hid)
    refine ⟨hknown, fun f hf hmissing => ?_⟩
    rw [rowOfNamed_of_known hknown] at hrow
    obtain ⟨v, hv⟩ := exists_of_mapM_eq_ok hrow f hf
    rw [valueOf_of_isMissing hmissing] at hv
    cases hv
  · rintro ⟨hknown, hgiven⟩
    rw [rowOfNamed_of_known hknown]
    exact exists_mapM_eq_ok fun f hf => exists_valueOf (hgiven f hf)

theorem exists_rowOfNamed_perm (h : pairs.Perm pairs') :
    (∃ row, c.rowOfNamed pairs = .ok row) ↔ ∃ row, c.rowOfNamed pairs' = .ok row := by
  simp only [exists_rowOfNamed_iff, h.mem_iff, Field.isMissing_perm h]

/-- The order of the pairs makes no difference if they are a table. -/
theorem rowOfNamed_perm (hcons : Consistent pairs) (h : pairs.Perm pairs') :
    c.rowOfNamed pairs = .ok row ↔ c.rowOfNamed pairs' = .ok row := by
  by_cases hknown : ∀ p ∈ pairs, p.1 ∈ c.schema.ids
  · have hknown' : ∀ p ∈ pairs', p.1 ∈ c.schema.ids := fun p hp => hknown p (h.mem_iff.2 hp)
    rw [rowOfNamed_eq_ok hknown, rowOfNamed_eq_ok hknown']
    exact ⟨fun hall => hall.imp fun f v => (Field.given_perm hcons h).1,
      fun hall => hall.imp fun f v => (Field.given_perm hcons h).2⟩
  · -- a name that is no id makes both fail
    have hnone : ¬ ∃ row, c.rowOfNamed pairs = .ok row := fun hrow => hknown (exists_rowOfNamed_iff.1 hrow).1
    have hnone' := mt (exists_rowOfNamed_perm h).2 hnone
    exact iff_of_false (fun hrow => hnone ⟨row, hrow⟩) fun hrow => hnone' ⟨row, hrow⟩

/-- Every name has a place in the row, which holds what its field is given. -/
theorem exists_position?_of_rowOfNamed (hnodup : c.schema.ids.Nodup) (hrow : c.rowOfNamed pairs = .ok row)
    {p : String × Value} (hp : p ∈ pairs) : ∃ (i : Nat) (f : Field) (v : Value), c.schema.position? p.1 = some i ∧
      row[i]? = some v ∧ f.id = p.1 ∧ f.Given pairs v := by
  obtain ⟨hknown, -⟩ := exists_rowOfNamed_iff.1 ⟨row, hrow⟩
  have hall := (rowOfNamed_eq_ok hknown).1 hrow
  obtain ⟨f, hf, hid⟩ := List.mem_map.1 (hknown p hp)
  obtain ⟨i, hi, rfl⟩ := List.getElem_of_mem hf
  have hi' : i < row.length := hall.length_eq ▸ hi
  exact ⟨i, _, row[i], (Schema.position?_eq_some_iff hnodup).2 ⟨_, List.getElem?_eq_getElem hi, hid⟩,
    List.getElem?_eq_getElem hi', hid, hall.get hi hi'⟩

/-- No value is lost exactly if no id is given two. -/
theorem all_placed_iff (hnodup : c.schema.ids.Nodup) (hrow : c.rowOfNamed pairs = .ok row) :
    (∀ p ∈ pairs, ∃ i, c.schema.position? p.1 = some i ∧ row[i]? = some p.2) ↔ Consistent pairs := by
  constructor
  · intro hall p hp q hq hid
    obtain ⟨i, hi, hv⟩ := hall p hp
    obtain ⟨j, hj, hw⟩ := hall q hq
    rw [← hid, hi] at hj
    obtain rfl := Option.some.inj hj
    exact Option.some.inj (hv.symm.trans hw)
  · intro hcons p hp
    obtain ⟨i, f, v, hi, hv, hid, hgiven⟩ := exists_position?_of_rowOfNamed hnodup hrow hp
    rcases (Field.given_iff_of_consistent hcons).1 hgiven with hmem | ⟨hnone, -⟩
    · obtain rfl : v = p.2 := hcons _ hmem p hp hid
      exact ⟨i, hi, hv⟩
    · exact absurd (List.mem_map_of_mem hp) (hid ▸ hnone)

/-- The pair that comes first is never lost. -/
theorem placed_of_head (hnodup : c.schema.ids.Nodup) {p : String × Value} (hrow : c.rowOfNamed (p :: pairs) = .ok row) :
    ∃ i, c.schema.position? p.1 = some i ∧ row[i]? = some p.2 := by
  obtain ⟨i, f, v, hi, hv, hid, hgiven⟩ := exists_position?_of_rowOfNamed hnodup hrow List.mem_cons_self
  have hvalue := valueOf_eq_ok.2 hgiven
  rw [valueOf, List.find?_cons_of_pos (by simpa using hid.symm)] at hvalue
  cases hvalue
  exact ⟨i, hi, hv⟩

/-- Every order gives the same row exactly if no id is given two values. -/
theorem forall_perm_iff (hnodup : c.schema.ids.Nodup) (hrow : c.rowOfNamed pairs = .ok row) :
    (∀ pairs', pairs.Perm pairs' → c.rowOfNamed pairs' = .ok row) ↔ Consistent pairs := by
  constructor
  · intro hall
    refine (all_placed_iff hnodup hrow).1 fun p hp => ?_
    obtain ⟨before, after, rfl⟩ := List.append_of_mem hp
    exact placed_of_head hnodup (hall _ List.perm_middle)
  · exact fun hcons pairs' h => (rowOfNamed_perm hcons h).1 hrow

end Codec

/-- A packer does the same with a table in any order. -/
theorem Packer.step_addNamed_perm (p : Packer) (hcons : Consistent pairs) (h : pairs.Perm pairs') :
    (p.step (.addNamed pairs')).value.2 = (p.step (.addNamed pairs)).value.2 ∧
      ∀ n, (p.step (.addNamed pairs')).value.1 = .ok n ↔ (p.step (.addNamed pairs)).value.1 = .ok n := by
  rw [value_step p (nofun : Op.addNamed pairs ≠ .clear), value_step p (nofun : Op.addNamed pairs' ≠ .clear)]
  simp only [Op.records]
  cases hrow : p.codec.rowOfNamed pairs with
  | ok row =>
    rw [(Codec.rowOfNamed_perm hcons h).1 hrow]
    exact ⟨rfl, fun n => Iff.rfl⟩
  | error e =>
    cases hrow' : p.codec.rowOfNamed pairs' with
    | ok row =>
      rw [(Codec.rowOfNamed_perm hcons h).2 hrow'] at hrow
      cases hrow
    | error e' => exact ⟨rfl, fun n => by simp [bind, Except.bind]⟩

namespace Codec

variable {c : Codec} {options : ParseOptions} {text : String}

/-- In every order named values make a row or in none. Each of them stands in the place of its field exactly if no id is
given two different values, and exactly then every order makes the same row. So a packer appends the same bytes for
every order of such values, or is left as it is. -/
theorem rowOfNamed_in_any_order (hc : (Codec.ofText options text).run.value = .ok c) (pairs : List (String × Value)) :
    (∀ pairs', pairs.Perm pairs' →
      ((∃ row, c.rowOfNamed pairs = .ok row) ↔ ∃ row, c.rowOfNamed pairs' = .ok row)) ∧
    (∀ row, c.rowOfNamed pairs = .ok row →
      ((∀ p ∈ pairs, ∃ i, c.schema.position? p.1 = some i ∧ row[i]? = some p.2) ↔ Consistent pairs) ∧
      ((∀ pairs', pairs.Perm pairs' → c.rowOfNamed pairs' = .ok row) ↔ Consistent pairs)) ∧
    (Consistent pairs → ∀ (p : Packer) (pairs' : List (String × Value)), pairs.Perm pairs' →
      (p.step (.addNamed pairs')).value.2 = (p.step (.addNamed pairs)).value.2 ∧
      ∀ n, (p.step (.addNamed pairs')).value.1 = .ok n ↔ (p.step (.addNamed pairs)).value.1 = .ok n) := by
  have hnodup := (wellFormed_of_ofText hc).nodup
  refine ⟨fun pairs' h => exists_rowOfNamed_perm h, ?_, fun hcons p pairs' h => p.step_addNamed_perm hcons h⟩
  intro row hrow
  exact ⟨all_placed_iff hnodup hrow, forall_perm_iff hnodup hrow⟩

/-- Named values for the sample schema, in another order than its fields and with an id that is given twice. -/
def sampleNames : List (String × Value) :=
  [("tags", .list [.bytes [66], .bytes []]), ("n", .uint 4), ("ok", .bool true), ("xs", .list [.int 1]), ("n", .uint 4)]

theorem rowOfNamed_in_any_order_sample :
    let row : Row := [.uint 4, .bool true, .pad, .list [.int 1], .list [.bytes [66], .bytes []]]
    sample.rowOfNamed sampleNames.reverse = .ok row ∧
      ∀ p ∈ sampleNames, ∃ i, sample.schema.position? p.1 = some i ∧ row[i]? = some p.2 := by
  intro row
  have hrow : sample.rowOfNamed sampleNames = .ok row := by decide +kernel
  have hcons : Consistent sampleNames := by decide +kernel
  obtain ⟨-, hall, -⟩ := rowOfNamed_in_any_order ofText_sample sampleNames
  exact ⟨(hall row hrow).2.2 hcons _ sampleNames.reverse_perm.symm, (hall row hrow).1.2 hcons⟩

/-- A schema of one field. -/
def daily : Schema := ⟨.network, [{ id := "day", type := .uint16, width := .fixed 2 }], "H(day)"⟩

theorem ofText_daily : (Codec.ofText {} daily.text).run.value = .ok (Codec.ofSchema daily).value :=
  ofText_eq_ok.2 ⟨daily, by decide +kernel, rfl⟩

/-- An id that is given two values loses one of them, and which one depends on the order. -/
theorem exists_value_lost :
    (¬ ∀ (options : ParseOptions) (text : String) (c : Codec) (pairs : List (String × Value)) (row : Row),
      (Codec.ofText options text).run.value = .ok c → c.rowOfNamed pairs = .ok row →
      ∀ p ∈ pairs, ∀ i, c.schema.position? p.1 = some i → row[i]? = some p.2) ∧
    ¬ ∀ (options : ParseOptions) (text : String) (c : Codec) (pairs pairs' : List (String × Value)) (row : Row),
      (Codec.ofText options text).run.value = .ok c → pairs.Perm pairs' → c.rowOfNamed pairs = .ok row →
      c.rowOfNamed pairs' = .ok row := by
  have hrow : (Codec.ofSchema daily).value.rowOfNamed [("day", .uint 1), ("day", .uint 2)] = .ok [.uint 1] := by
    decide +kernel
  refine ⟨fun h => ?_, fun h => ?_⟩
  · have hlost := h {} daily.text _ _ _ ofText_daily hrow ("day", .uint 2) (by simp) 0 (by decide +kernel)
    exact absurd hlost (by decide +kernel)
  · have hsame := h {} daily.text _ _ _ _ ofText_daily (.swap _ _ _) hrow
    exact absurd hsame (by decide +kernel)

end Codec

end RecordPack

import RecordPack.Proofs.Codec

/-!
# Rows by name

No two fields of a parsed schema have one id, so an id stands for one position (`Schema.position?_eq_some_iff`). A row
that is given as named values is put in order field by field: `Field.Given` says what a field gets of them, and
`Field.IsMissing` that they leave it out. A name that is no id is found before anything that is left out, and of either
the first is reported (`Codec.rowOfNamed_resolves`).
-/

namespace RecordPack

/-! ## Positions -/

namespace Schema

variable {s : Schema} {id : String}

theorem position?_isNone_iff : (s.position? id).isNone = true ↔ id ∉ s.ids := by
  simp [position?, ids, List.findIdx?_isNone]

/-- The ids being different, the position of an id is that of the field which has it. -/
theorem position?_eq_some_iff (hnodup : s.ids.Nodup) {i : Nat} :
    s.position? id = some i ↔ ∃ f, s.fields[i]? = some f ∧ f.id = id := by
  rw [position?, List.findIdx?_eq_some_iff_getElem]
  constructor
  · rintro ⟨hi, hid, -⟩
    exact ⟨s.fields[i], List.getElem?_eq_getElem hi, by simpa using hid⟩
  · rintro ⟨f, hf, rfl⟩
    obtain ⟨hi, rfl⟩ := List.getElem?_eq_some_iff.1 hf
    refine ⟨hi, by simp, ?_⟩
    intro j hj heq
    -- an earlier field has another id
    have hdiffer := List.nodup_iff_getElem?_ne_getElem?.1 hnodup j i hj (by simpa [ids] using hi)
    exact hdiffer (by simpa [ids, hi, hj.trans hi] using heq)

end Schema

/-! ## What a field gets -/

namespace Field

/-- The named values leave the field out, and it is not a single filler. -/
def IsMissing (f : Field) (pairs : List (String × Value)) : Prop :=
  f.id ∉ pairs.map Prod.fst ∧ ¬ (f.type = .pad ∧ f.count = none)

instance (f : Field) (pairs : List (String × Value)) : Decidable (f.IsMissing pairs) :=
  inferInstanceAs (Decidable (_ ∧ _))

/-- What a field gets of named values: the value of the first pair with its id. A single filler without a pair gets the
value of fillers. -/
inductive Given (f : Field) (pairs : List (String × Value)) : Value → Prop
  | pair {before after : List (String × Value)} {v : Value} :
      pairs = before ++ (f.id, v) :: after → f.id ∉ before.map Prod.fst → Given f pairs v
  | filler : f.id ∉ pairs.map Prod.fst → f.type = .pad → f.count = none → Given f pairs .pad

end Field

section Pairs

variable {pairs : List (String × Value)} {f : Field} {v : Value}

theorem find?_id_eq_none {id : String} : pairs.find? (·.1 == id) = none ↔ id ∉ pairs.map Prod.fst := by
  simp only [List.find?_eq_none, beq_iff_eq, List.mem_map, not_exists, not_and]

theorem find?_id_eq_some {id : String} {p : String × Value} : pairs.find? (·.1 == id) = some p ↔
    p.1 = id ∧ ∃ before after, pairs = before ++ p :: after ∧ id ∉ before.map Prod.fst := by
  simp only [List.find?_eq_some_iff_append, beq_iff_eq, Bool.not_eq_eq_eq_not, Bool.not_true, beq_eq_false_iff_ne,
    List.mem_map, not_exists, not_and, ne_eq]

theorem Codec.valueOf_eq_ok : valueOf pairs f = .ok v ↔ f.Given pairs v := by
  unfold valueOf
  constructor
  · intro h
    split at h
    · next id w hfind =>
      cases h
      obtain ⟨rfl, before, after, hpairs, hbefore⟩ := find?_id_eq_some.1 hfind
      exact .pair hpairs hbefore
    · next hnone =>
      split at h
      · next hfiller =>
        cases h
        exact .filler (find?_id_eq_none.1 hnone) hfiller.1 hfiller.2
      · cases h
  · intro h
    cases h with
    | pair hpairs hbefore => rw [find?_id_eq_some.2 ⟨rfl, _, _, hpairs, hbefore⟩]
    | filler hnone htype hcount => rw [find?_id_eq_none.2 hnone, htype, hcount]; rfl

theorem Codec.valueOf_of_isMissing (h : f.IsMissing pairs) : valueOf pairs f = .error (.missingField f.id) := by
  rw [valueOf, find?_id_eq_none.2 h.1]
  exact if_neg h.2

theorem Codec.exists_valueOf (h : ¬ f.IsMissing pairs) : ∃ v, valueOf pairs f = .ok v := by
  unfold valueOf
  split
  · exact ⟨_, rfl⟩
  · next hnone =>
    have hfiller : f.type = .pad ∧ f.count = none := by
      by_contra hneg
      exact h ⟨find?_id_eq_none.1 hnone, hneg⟩
    rw [if_pos hfiller]
    exact ⟨_, rfl⟩

end Pairs

/-- Of the values of a row, each under the id of its field, every field gets its own. -/
theorem Field.forall₂_given_zip {fs : List Field} : ∀ {before : List (String × Value)} {row : Row},
    (fs.map Field.id).Nodup → (∀ f ∈ fs, f.id ∉ before.map Prod.fst) → row.length = fs.length →
      List.Forall₂ (fun f v => f.Given (before ++ (fs.map Field.id).zip row) v) fs row := by
  -- induction on the fields, with the pairs of those before them in front
  induction fs with
  | nil =>
    intro before row _ _ hlen
    obtain rfl := List.eq_nil_of_length_eq_zero hlen
    exact .nil
  | cons f fs ih =>
    intro before row hnodup hbefore hlen
    obtain ⟨v, row, rfl⟩ := List.exists_cons_of_length_eq_add_one hlen
    rw [List.map_cons, List.nodup_cons] at hnodup
    have hrest : ∀ g ∈ fs, g.id ∉ (before ++ [(f.id, v)]).map Prod.fst := by
      intro g hg hmem
      rw [List.map_append, List.mem_append] at hmem
      rcases hmem with hmem | hmem
      · exact hbefore g (List.mem_cons_of_mem _ hg) hmem
      · have heq : g.id = f.id := by simpa using hmem
        exact hnodup.1 (heq ▸ List.mem_map_of_mem hg)
    have htail := ih hnodup.2 hrest (Nat.succ.inj hlen)
    rw [List.append_assoc, List.singleton_append] at htail
    exact .cons (.pair rfl (hbefore f List.mem_cons_self)) htail

/-! ## Whole rows -/

namespace Codec

variable {c : Codec} {pairs : List (String × Value)}

theorem rowOfNamed_of_unknown {before after : List (String × Value)} {id : String} {v : Value}
    (hbefore : ∀ p ∈ before, p.1 ∈ c.schema.ids) (hid : id ∉ c.schema.ids) :
    c.rowOfNamed (before ++ (id, v) :: after) = .error (.unknownField id) := by
  have hfind : (before ++ (id, v) :: after).find? (fun p => (c.schema.position? p.1).isNone) = some (id, v) := by
    refine List.find?_eq_some_iff_append.2 ⟨Schema.position?_isNone_iff.2 hid, before, after, rfl, ?_⟩
    intro p hp
    rw [Bool.not_eq_true', Bool.eq_false_iff, Ne, Schema.position?_isNone_iff]
    exact not_not_intro (hbefore p hp)
  rw [rowOfNamed, hfind]

/-- Where every name is an id, the fields get their values in the order of the schema. -/
theorem rowOfNamed_of_known (h : ∀ p ∈ pairs, p.1 ∈ c.schema.ids) :
    c.rowOfNamed pairs = c.schema.fields.mapM (valueOf pairs) := by
  have hfind : pairs.find? (fun p => (c.schema.position? p.1).isNone) = none := by
    refine List.find?_eq_none.2 fun p hp => ?_
    rw [Schema.position?_isNone_iff]
    exact not_not_intro (h p hp)
  rw [rowOfNamed, hfind]

theorem rowOfNamed_eq_ok (h : ∀ p ∈ pairs, p.1 ∈ c.schema.ids) {row : Row} :
    c.rowOfNamed pairs = .ok row ↔ List.Forall₂ (Field.Given · pairs) c.schema.fields row := by
  simp only [rowOfNamed_of_known h, mapM_eq_ok, valueOf_eq_ok]

/-- With the ids of an accepted schema, which are all different, a row that is named comes back as it was, whatever its
values. Named values are refused for the first name that is no id. If there is none they are refused for the first
field that they leave out, unless it is a single filler. If none is left out either, they make a row with a value for
each field: that of the first pair with its id, or that of fillers. -/
theorem rowOfNamed_resolves {options : ParseOptions} {text : String}
    (hc : (Codec.ofText options text).run.value = .ok c) :
    c.schema.ids.Nodup ∧
    (∀ id i, c.schema.position? id = some i ↔ ∃ f, c.schema.fields[i]? = some f ∧ f.id = id) ∧
    (∀ row : Row, row.length = c.schema.arity → c.rowOfNamed (c.named row) = .ok row) ∧
    (∀ before id v after, (∀ p ∈ before, p.1 ∈ c.schema.ids) → id ∉ c.schema.ids →
      c.rowOfNamed (before ++ (id, v) :: after) = .error (.unknownField id)) ∧
    ∀ pairs, (∀ p ∈ pairs, p.1 ∈ c.schema.ids) →
      (∀ before f after, c.schema.fields = before ++ f :: after → (∀ g ∈ before, ¬ g.IsMissing pairs) →
        f.IsMissing pairs → c.rowOfNamed pairs = .error (.missingField f.id)) ∧
      ((∀ f ∈ c.schema.fields, ¬ f.IsMissing pairs) →
        ∃ row, c.rowOfNamed pairs = .ok row ∧ List.Forall₂ (Field.Given · pairs) c.schema.fields row) := by
  have hnodup := (wellFormed_of_ofText hc).nodup
  refine ⟨hnodup, fun id i => Schema.position?_eq_some_iff hnodup, ?_, ?_, ?_⟩
  · intro row hrow
    have hknown : ∀ p ∈ c.named row, p.1 ∈ c.schema.ids := fun p hp => (List.of_mem_zip hp).1
    have hgiven : List.Forall₂ (Field.Given · ([] ++ c.named row)) c.schema.fields row :=
      Field.forall₂_given_zip hnodup (by simp) hrow
    exact (rowOfNamed_eq_ok hknown).2 hgiven
  · intro before id v after hbefore hid
    exact rowOfNamed_of_unknown hbefore hid
  · intro pairs hknown
    refine ⟨?_, ?_⟩
    · intro before f after hfields hbefore hmissing
      rw [rowOfNamed_of_known hknown, hfields]
      exact mapM_eq_error.2 ⟨before, f, after, rfl, fun g hg => exists_valueOf (hbefore g hg),
        valueOf_of_isMissing hmissing⟩
    · intro hall
      obtain ⟨row, hrow⟩ := exists_mapM_eq_ok fun f hf => exists_valueOf (hall f hf)
      rw [← rowOfNamed_of_known hknown] at hrow
      exact ⟨row, hrow, (rowOfNamed_eq_ok hknown).1 hrow⟩

theorem rowOfNamed_resolves_sample :
    sample.rowOfNamed [("ok", .bool true), ("tags", .pad), ("nn", .pad), ("mm", .pad)] = .error (.unknownField "nn") ∧
    sample.rowOfNamed [("tags", .pad), ("ok", .bool true), ("n", .int 1)] = .error (.missingField "xs") ∧
    sample.rowOfNamed (sample.named (sampleRow (.uint 7))) = .ok (sampleRow (.uint 7)) ∧
    ∃ row, sample.rowOfNamed [("tags", .pad), ("xs", .int 3), ("ok", .bool true), ("n", .int 1)] = .ok row ∧
      List.Forall₂ (Field.Given · [("tags", .pad), ("xs", .int 3), ("ok", .bool true), ("n", .int 1)])
        sample.schema.fields row := by
  obtain ⟨-, -, hback, hunknown, hknown⟩ := rowOfNamed_resolves ofText_sample
  refine ⟨?_, ?_, hback _ rfl, ?_⟩
  · exact hunknown [("ok", .bool true), ("tags", .pad)] "nn" .pad [("mm", .pad)] (by decide) (by decide)
  · refine (hknown _ (by decide)).1 (Schema.sample.fields.take 3) _ (Schema.sample.fields.drop 4) rfl ?_ ?_
    · decide
    · exact ⟨by decide, by decide⟩
  · exact (hknown _ (by decide)).2 (by decide)

end Codec

end RecordPack

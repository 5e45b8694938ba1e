import RecordPack.Proofs.Schema.Overflow
import RecordPack.Proofs.Schema.Permissive

/-!
# What is checked of a token

A token is checked in one order: its type, its length, its count, its id and its width (`Token.Check`). `Token.Fails`
says of each check on its own when it fails, and with which error. The parser refuses a token with the error of the
first check that fails (`Token.toNext_eq_error_iff`), and it refuses the first thing there is to refuse
(`fieldsOf_eq_error_iff`).
-/

namespace RecordPack

open Text (isBlank byteLength)

/-! ## The checks -/

/-- Whether digits are a number that can be read: ASCII digits that fit 64 bits. -/
def IsNumber (cs : List Char) : Prop := (∀ c ∈ cs, c.isDigit = true) ∧ decimalValue cs ≤ 2 ^ 64 - 1

namespace Token

/-- What is checked of a token. -/
inductive Check where
  /-- The type is known. -/
  | type
  /-- A length stands before a type that takes one, if there is a length. -/
  | length
  | lengthNumber
  | lengthPositive
  | countNumber
  | countPositive
  /-- No field before has the id. -/
  | id
  /-- The fixed fields are together no longer than a record can be. -/
  | width
deriving DecidableEq

/-- The number of checks that come before. -/
def Check.rank : Check → Nat
  | type => 0
  | length => 1
  | lengthNumber => 2
  | lengthPositive => 3
  | countNumber => 4
  | countPositive => 5
  | id => 6
  | width => 7

/-- The check fails for a token after the fields `before`, with this error. Fields are counted from one. -/
inductive Fails (t : Token) (before : List Field) : Check → SchemaError → Prop
  | type : ScalarType.ofChar? t.type = none → Fails t before .type (.unknownType (before.length + 1) t.type)
  | length {type : ScalarType} {q : Qualifier} : ScalarType.ofChar? t.type = some type → type.isString = false →
      t.width = some q → Fails t before .length (.unexpectedLength (before.length + 1) t.type)
  | lengthNumber {cs : List Char} : t.width = some (.digits cs) → ¬ IsNumber cs →
      Fails t before .lengthNumber (.numberTooLarge (before.length + 1) (String.ofList cs))
  | lengthPositive {cs : List Char} : t.width = some (.digits cs) → decimalValue cs = 0 →
      Fails t before .lengthPositive (.zeroLength (before.length + 1) t.type)
  | countNumber {cs : List Char} : t.list = some (some (.digits cs)) → ¬ IsNumber cs →
      Fails t before .countNumber (.numberTooLarge (before.length + 1) (String.ofList cs))
  | countPositive {cs : List Char} : t.list = some (some (.digits cs)) → decimalValue cs = 0 →
      Fails t before .countPositive (.zeroCount (before.length + 1) t.type)
  | id : t.idOf (before.length + 1) ∈ before.map Field.id →
      Fails t before .id (.duplicateId (before.length + 1) (t.idOf (before.length + 1)))
  | width {f : Field} : t.Denotes (before.length + 1) f → LengthPrefix.maxLength < Field.totalWidth (before ++ [f]) →
      Fails t before .width (.widthOverflow (before.length + 1))

/-- The token is refused with the error of the first check that fails. -/
def Refused (t : Token) (before : List Field) (e : SchemaError) : Prop :=
  ∃ check, t.Fails before check e ∧ ∀ check' e', t.Fails before check' e' → check.rank ≤ check'.rank

variable {t : Token} {before : List Field} {check : Check} {e e' : SchemaError}

theorem Check.rank_inj {check check' : Check} (h : check.rank = check'.rank) : check = check' := by
  cases check <;> cases check' <;> first | rfl | cases h

/-- A check fails with one error. -/
theorem Fails.eq (h : t.Fails before check e) (h' : t.Fails before check e') : e = e' := by
  cases h with
  | lengthNumber hw _ =>
    cases h' with
    | lengthNumber hw' _ =>
      cases hw.symm.trans hw'
      rfl
  | countNumber hl _ =>
    cases h' with
    | countNumber hl' _ =>
      cases hl.symm.trans hl'
      rfl
  | _ => cases h'; rfl

/-- A token is refused with one error. -/
theorem Refused.eq (h : t.Refused before e) (h' : t.Refused before e') : e = e' := by
  obtain ⟨check, hfails, hfirst⟩ := h
  obtain ⟨check', hfails', hfirst'⟩ := h'
  obtain rfl := Check.rank_inj (Nat.le_antisymm (hfirst _ _ hfails') (hfirst' _ _ hfails))
  exact hfails.eq hfails'

/-! ## Checks that do not fail -/

section Ladder

variable {type : ScalarType} {cs : List Char}

theorem Fails.one_le_rank (h : t.Fails before check e) (htype : ScalarType.ofChar? t.type = some type) :
    1 ≤ check.rank := by
  cases h with
  | type htype' => cases htype.symm.trans htype'
  | _ => simp [Check.rank]

theorem Fails.two_le_rank (h : t.Fails before check e) (htype : ScalarType.ofChar? t.type = some type)
    (hlength : t.width = none ∨ type.isString = true) : 2 ≤ check.rank := by
  have hone := h.one_le_rank htype
  cases h with
  | type => simp [Check.rank] at hone
  | length htype' hs hw =>
    cases htype.symm.trans htype'
    rcases hlength with hnone | hstring
    · cases hnone.symm.trans hw
    · cases hs.symm.trans hstring
  | _ => simp [Check.rank]

theorem Fails.three_le_rank (h : t.Fails before check e) (htype : ScalarType.ofChar? t.type = some type)
    (hlength : t.width = none ∨ type.isString = true) (hnumber : ∀ cs, t.width = some (.digits cs) → IsNumber cs) :
    3 ≤ check.rank := by
  have htwo := h.two_le_rank htype hlength
  cases h with
  | lengthNumber hw hnot => exact absurd (hnumber _ hw) hnot
  | type | length => simp [Check.rank] at htwo
  | _ => simp [Check.rank]

theorem DenotesWidth.isNumber {width : Extent} (h : DenotesWidth t.width type width) :
    (t.width = none ∨ type.isString = true) ∧
      ∀ cs, t.width = some (.digits cs) → IsNumber cs ∧ decimalValue cs ≠ 0 := by
  generalize t.width = o at h
  cases h with
  | absent => exact ⟨.inl rfl, by simp⟩
  | given hq =>
    refine ⟨.inr rfl, ?_⟩
    rintro cs ⟨⟩
    cases hq with
    | digits hall hpos hle => exact ⟨⟨hall, hle⟩, by omega⟩

theorem Fails.four_le_rank {width : Extent} (h : t.Fails before check e) (htype : ScalarType.ofChar? t.type = some type)
    (hwidth : DenotesWidth t.width type width) : 4 ≤ check.rank := by
  obtain ⟨hlength, hnumber⟩ := hwidth.isNumber
  have hthree := h.three_le_rank htype hlength fun cs hcs => (hnumber cs hcs).1
  cases h with
  | lengthPositive hw hzero => exact absurd hzero (hnumber _ hw).2
  | type | length | lengthNumber => simp [Check.rank] at hthree
  | _ => simp [Check.rank]

theorem Fails.five_le_rank (h : t.Fails before check e) (hfour : 4 ≤ check.rank)
    (hnumber : ∀ cs, t.list = some (some (.digits cs)) → IsNumber cs) : 5 ≤ check.rank := by
  cases h with
  | countNumber hl hnot => exact absurd (hnumber _ hl) hnot
  | type | length | lengthNumber | lengthPositive => simp [Check.rank] at hfour
  | _ => simp [Check.rank]

theorem Fails.six_le_rank {count : Option Extent} (h : t.Fails before check e) (hfour : 4 ≤ check.rank)
    (hcount : DenotesCount t.list count) : 6 ≤ check.rank := by
  have hnumber : ∀ cs, t.list = some (some (.digits cs)) → IsNumber cs ∧ decimalValue cs ≠ 0 := by
    intro cs hcs
    rw [hcs] at hcount
    cases hcount with
    | given hq =>
      cases hq with
      | digits hall hpos hle => exact ⟨⟨hall, hle⟩, by omega⟩
  have hfive := h.five_le_rank hfour fun cs hcs => (hnumber cs hcs).1
  cases h with
  | countPositive hl hzero => exact absurd hzero (hnumber _ hl).2
  | type | length | lengthNumber | lengthPositive | countNumber => simp [Check.rank] at hfive
  | _ => simp [Check.rank]

theorem Fails.six_le_rank_of_denotes {f : Field} (h : t.Fails before check e) (hf : t.Denotes (before.length + 1) f) :
    6 ≤ check.rank := h.six_le_rank (h.four_le_rank hf.type hf.width) hf.count

theorem Fails.seven_le_rank {f : Field} (h : t.Fails before check e) (hf : t.Denotes (before.length + 1) f)
    (hid : f.id ∉ before.map Field.id) : 7 ≤ check.rank := by
  have hsix := h.six_le_rank_of_denotes hf
  cases h with
  | id hmem => exact absurd ((denotesLabel_iff.1 hf.label).1 ▸ hmem) hid
  | width => simp [Check.rank]
  | _ => simp [Check.rank] at hsix

end Ladder

end Token

/-! ## What the parser checks -/

theorem Qualifier.toExtent_eq_error_iff {q : Qualifier} {position : Nat} {zero e : SchemaError} :
    q.toExtent position zero = .error e ↔ ∃ cs, q = .digits cs ∧
      (¬ IsNumber cs ∧ e = .numberTooLarge position (String.ofList cs) ∨
        IsNumber cs ∧ decimalValue cs = 0 ∧ e = zero) := by
  have hsize : UInt64.size = 2 ^ 64 := rfl
  cases q with
  | tilde => simp [toExtent]
  | digits cs =>
    simp only [toExtent, digits.injEq, exists_eq_left']
    cases hnumber : numberOfDigits? cs with
    | none =>
      have hnot : ¬ IsNumber cs := by
        rintro ⟨hall, hle⟩
        rw [numberOfDigits?_eq_some.2 ⟨hall, by omega, rfl⟩] at hnumber
        cases hnumber
      simp [hnot, eq_comm]
    | some n =>
      obtain ⟨hall, hlt, rfl⟩ := numberOfDigits?_eq_some.1 hnumber
      have hnumber : IsNumber cs := ⟨hall, by omega⟩
      cases decimalValue cs <;> simp [hnumber, eq_comm]

namespace Token

/-- What becomes of a token after fields with the ids `seen` and the fixed widths `total`: its field, and the widths
with it. -/
def toNext (t : Token) (seen : List String) (total : Nat) : Except SchemaError (Field × Nat) := do
  let f ← t.toField (seen.length + 1)
  if f.id ∈ seen then throw (.duplicateId (seen.length + 1) f.id)
  let total ← addFixedWidth total f (seen.length + 1)
  return (f, total)

variable {t : Token} {before : List Field} {e : SchemaError}

theorem toNext_eq_error {seen : List String} {total : Nat} : t.toNext seen total = .error e ↔
    t.toField (seen.length + 1) = .error e ∨ ∃ f, t.toField (seen.length + 1) = .ok f ∧
      (f.id ∈ seen ∧ e = .duplicateId (seen.length + 1) f.id ∨
        f.id ∉ seen ∧ addFixedWidth total f (seen.length + 1) = .error e) := by
  rw [toNext, bind_eq_error]
  refine or_congr_right (exists_congr fun f => and_congr_right fun _ => ?_)
  by_cases hseen : f.id ∈ seen
  · simp only [hseen, if_true, not_true_eq_false, false_and, or_false, true_and]
    exact ⟨fun h => (Except.error.inj h).symm, fun h => h ▸ rfl⟩
  · simp only [hseen, if_false, not_false_eq_true, false_and, false_or, true_and]
    simp only [bind_eq_error, pure_eq_error, and_false, exists_false, or_false]

theorem toNext_eq_ok {seen : List String} {total total' : Nat} {f : Field} : t.toNext seen total = .ok (f, total') ↔
    t.toField (seen.length + 1) = .ok f ∧ f.id ∉ seen ∧ addFixedWidth total f (seen.length + 1) = .ok total' := by
  simp only [toNext, bind_eq_ok]
  constructor
  · rintro ⟨f', hf, h⟩
    by_cases hseen : f'.id ∈ seen
    · simp [hseen] at h
    · simp only [if_neg hseen, bind_eq_ok, pure_eq_ok] at h
      obtain ⟨total'', hadd, heq⟩ := h
      cases heq
      exact ⟨hf, hseen, hadd⟩
  · rintro ⟨hf, hseen, hadd⟩
    refine ⟨f, hf, ?_⟩
    simp [hseen, hadd]

theorem refused_of_widthOf {type : ScalarType} (htype : ScalarType.ofChar? t.type = some type)
    (h : t.widthOf (before.length + 1) type = .error e) : t.Refused before e := by
  unfold widthOf at h
  cases hw : t.width with
  | none =>
    rw [hw] at h
    cases h
  | some q =>
    rw [hw] at h
    by_cases hs : type.isString = true
    · simp only [hs, if_true, Qualifier.toExtent_eq_error_iff] at h
      obtain ⟨cs, rfl, ⟨hnot, rfl⟩ | ⟨hnumber, hzero, rfl⟩⟩ := h
      · exact ⟨.lengthNumber, .lengthNumber hw hnot, fun _ _ h' => h'.two_le_rank htype (.inr hs)⟩
      · refine ⟨.lengthPositive, .lengthPositive hw hzero, fun _ _ h' => h'.three_le_rank htype (.inr hs) ?_⟩
        rintro cs' hcs'
        cases hw.symm.trans hcs'
        exact hnumber
    · rw [Bool.not_eq_true] at hs
      simp only [hs, Bool.false_eq_true, if_false, Except.error.injEq] at h
      subst h
      exact ⟨.length, .length htype hs hw, fun _ _ h' => h'.one_le_rank htype⟩

theorem refused_of_countOf {type : ScalarType} {width : Extent} (htype : ScalarType.ofChar? t.type = some type)
    (hwidth : DenotesWidth t.width type width) (h : t.countOf (before.length + 1) = .error e) :
    t.Refused before e := by
  unfold countOf at h
  rcases hl : t.list with _ | _ | q
  · rw [hl] at h
    cases h
  · rw [hl] at h
    cases h
  · rw [hl] at h
    cases hq : q.toExtent (before.length + 1) (.zeroCount (before.length + 1) t.type) with
    | ok extent =>
      simp only [hq] at h
      cases h
    | error e' =>
      simp only [hq] at h
      cases h
      obtain ⟨cs, rfl, ⟨hnot, rfl⟩ | ⟨hnumber, hzero, rfl⟩⟩ := Qualifier.toExtent_eq_error_iff.1 hq
      · exact ⟨.countNumber, .countNumber hl hnot, fun _ _ h' => h'.four_le_rank htype hwidth⟩
      · refine ⟨.countPositive, .countPositive hl hzero, fun _ _ h' =>
          h'.five_le_rank (h'.four_le_rank htype hwidth) ?_⟩
        rintro cs' hcs'
        cases hl.symm.trans hcs'
        exact hnumber

theorem refused_of_toField (h : t.toField (before.length + 1) = .error e) : t.Refused before e := by
  unfold toField at h
  cases htype : ScalarType.ofChar? t.type with
  | none =>
    rw [htype] at h
    cases h
    exact ⟨.type, .type htype, fun _ _ _ => Nat.zero_le _⟩
  | some type =>
    simp only [htype] at h
    rcases bind_eq_error.1 h with h | ⟨width, hwidth, h⟩
    · exact refused_of_widthOf htype h
    · rcases bind_eq_error.1 h with h | ⟨count, -, h⟩
      · exact refused_of_countOf htype (widthOf_eq_ok.1 hwidth) h
      · cases h

section Next

variable (htotal : Field.totalWidth before ≤ LengthPrefix.maxLength)
include htotal

/-- The parser refuses a token with the error of the first check that fails. -/
theorem refused_of_toNext (h : t.toNext (before.map Field.id).reverse (Field.totalWidth before) = .error e) :
    t.Refused before e := by
  have hposition : (before.map Field.id).reverse.length + 1 = before.length + 1 := by simp
  rw [toNext_eq_error, hposition] at h
  rcases h with h | ⟨f, hf, ⟨hseen, rfl⟩ | ⟨hseen, h⟩⟩
  · exact refused_of_toField h
  · rw [toField_eq_ok_iff] at hf
    rw [List.mem_reverse] at hseen
    have hid : f.id = t.idOf (before.length + 1) := (denotesLabel_iff.1 hf.label).1
    rw [hid] at hseen ⊢
    exact ⟨.id, .id hseen, fun _ _ h' => h'.six_le_rank_of_denotes hf⟩
  · rw [toField_eq_ok_iff] at hf
    rw [List.mem_reverse] at hseen
    obtain ⟨rfl, hlt⟩ := (addFixedWidth_eq_error htotal).1 h
    refine ⟨.width, .width hf ?_, fun _ _ h' => h'.seven_le_rank hf hseen⟩
    simpa [Field.totalWidth_append] using hlt

/-- With the field of a token the widths are as long as a record can be. -/
theorem totalWidth_of_toNext {f : Field} {total : Nat}
    (h : t.toNext (before.map Field.id).reverse (Field.totalWidth before) = .ok (f, total)) :
    total = Field.totalWidth (before ++ [f]) ∧ total ≤ LengthPrefix.maxLength := by
  obtain ⟨-, -, hadd⟩ := toNext_eq_ok.1 h
  obtain ⟨rfl, hfits⟩ := addFixedWidth_eq_ok.1 hadd
  refine ⟨by simp [Field.totalWidth_append], ?_⟩
  rcases hfits with hnone | hle
  · simpa [hnone] using htotal
  · exact hle

/-- No check of a token fails that the parser turns into a field. -/
theorem not_fails_of_toNext {f : Field} {total : Nat} {check : Check}
    (h : t.toNext (before.map Field.id).reverse (Field.totalWidth before) = .ok (f, total)) :
    ¬ t.Fails before check e := by
  intro hfails
  obtain ⟨hf, hseen, -⟩ := toNext_eq_ok.1 h
  obtain ⟨hsum, hle⟩ := totalWidth_of_toNext htotal h
  rw [List.length_reverse, List.length_map] at hf
  rw [List.mem_reverse] at hseen
  have hseven := hfails.seven_le_rank (toField_eq_ok_iff.1 hf) hseen
  cases hfails with
  | width hf' hlt =>
    obtain rfl : f = _ := Except.ok.inj (hf.symm.trans (toField_eq_ok_iff.2 hf'))
    omega
  | _ => simp [Check.rank] at hseven

theorem toNext_eq_error_iff :
    t.toNext (before.map Field.id).reverse (Field.totalWidth before) = .error e ↔ t.Refused before e := by
  refine ⟨refused_of_toNext htotal, ?_⟩
  intro h
  cases hnext : t.toNext (before.map Field.id).reverse (Field.totalWidth before) with
  | error e' => rw [(refused_of_toNext htotal hnext).eq h]
  | ok r =>
    obtain ⟨check, hfails, -⟩ := h
    exact absurd hfails (not_fails_of_toNext htotal hnext)

end Next

end Token

/-! ## The first piece that is refused -/

/-- A piece that stands at an offset after the fields `before` is refused for what stands in front of its token, or
for the token. -/
inductive Piece.Refused (p : Piece) (offset : Nat) (before : List Field) : SchemaError → Prop
  | gap {d : Stretch} : Stretch.ofGap offset p.gap = [d] → Refused p offset before d.refusal
  | token {e : SchemaError} : (∀ c ∈ p.gap, isBlank c = true) → p.token.Refused before e → Refused p offset before e

theorem checkGap_eq_error {offset : Nat} {gap : List Char} {e : SchemaError} :
    (checkGap {} offset gap).run.value = .error e ↔ ∃ d, Stretch.ofGap offset gap = [d] ∧ e = d.refusal := by
  rw [value_checkGap]
  rcases Stretch.ofGap_cases offset gap with ⟨hnil, -⟩ | ⟨d, -, -, hone, -⟩
  · simp [hnil, Stretch.refuse]
  · simp [hone, Stretch.refuse, eq_comm]

theorem value_fieldsOf_cons (offset total : Nat) (seen : List String) (p : Piece) (ps : List Piece) :
    (fieldsOf {} offset seen total (p :: ps)).run.value =
      (checkGap {} offset p.gap).run.value >>= fun _ => p.token.toNext seen total >>= fun r =>
        (fieldsOf {} (offset + byteLength p.spell) (r.1.id :: seen) r.2 ps).run.value.map (r.1 :: ·) := by
  simp only [fieldsOf, Token.toNext, Attempt.value_bind, Attempt.value_lift, bind_assoc]
  refine bind_congr fun _ => bind_congr fun f => ?_
  by_cases hseen : f.id ∈ seen
  · simp only [hseen, if_true]
    rfl
  · simp only [hseen, if_false, Attempt.value_bind, Attempt.value_lift, Attempt.value_pure, bind_assoc, pure_bind]
    refine bind_congr fun total' => ?_
    cases (fieldsOf {} (offset + byteLength p.spell) (f.id :: seen) total' ps).run.value <;> rfl

/-- Pieces behind the fields `before` are refused for the first of them that is, after those before it became fields. -/
theorem fieldsOf_eq_error_after {ps : List Piece} {e : SchemaError} : ∀ {offset : Nat} {before : List Field},
    Field.totalWidth before ≤ LengthPrefix.maxLength →
    ((fieldsOf {} offset (before.map Field.id).reverse (Field.totalWidth before) ps).run.value = .error e ↔
      ∃ done p todo fs, ps = done ++ p :: todo ∧
        (fieldsOf {} offset (before.map Field.id).reverse (Field.totalWidth before) done).run.value = .ok fs ∧
        p.Refused (offset + byteLength (done.flatMap Piece.spell)) (before ++ fs) e) := by
  induction ps with
  | nil => simp [fieldsOf_nil]
  | cons q ps ih =>
    intro offset before htotal
    -- the field of the piece comes to those before it
    have hids : ∀ f : Field, f.id :: (before.map Field.id).reverse = ((before ++ [f]).map Field.id).reverse := by simp
    have hoffset : ∀ done : List Piece, offset + byteLength (List.flatMap Piece.spell (q :: done)) =
        offset + byteLength q.spell + byteLength (done.flatMap Piece.spell) := by
      intro done
      rw [List.flatMap_cons, Text.byteLength_append, Nat.add_assoc]
    rw [value_fieldsOf_cons, bind_eq_error]
    constructor
    · rintro (hgap | ⟨⟨⟩, hgap, h⟩)
      · obtain ⟨d, hd, rfl⟩ := checkGap_eq_error.1 hgap
        exact ⟨[], q, ps, [], rfl, rfl, .gap hd⟩
      · rcases bind_eq_error.1 h with h | ⟨⟨f, total⟩, hnext, h⟩
        · refine ⟨[], q, ps, [], rfl, rfl, .token ?_ ?_⟩
          · simpa using checkGap_eq_ok.1 hgap
          · rw [List.append_nil]
            exact (Token.toNext_eq_error_iff htotal).1 h
        · obtain ⟨rfl, hle⟩ := Token.totalWidth_of_toNext htotal hnext
          rw [map_eq_error, hids] at h
          obtain ⟨done, p, todo, fs, rfl, hfs, hp⟩ := (ih hle).1 h
          refine ⟨q :: done, p, todo, f :: fs, rfl, ?_, ?_⟩
          · rw [value_fieldsOf_cons, hgap, ok_bind, hnext, ok_bind, hids, hfs, map_ok]
          · rw [hoffset]
            simpa using hp
    · rintro ⟨_ | ⟨r, done⟩, p, todo, fs, heq, hfs, hp⟩
      · obtain ⟨rfl, rfl⟩ := List.cons.inj heq
        cases hfs
        rw [List.append_nil] at hp
        cases hp with
        | gap hd => exact .inl (checkGap_eq_error.2 ⟨_, hd, rfl⟩)
        | token hgap ht =>
          refine .inr ⟨(), checkGap_eq_ok.2 (.inr hgap), bind_eq_error.2 (.inl ?_)⟩
          exact (Token.toNext_eq_error_iff htotal).2 ht
      · obtain ⟨rfl, rfl⟩ := List.cons.inj heq
        simp only [value_fieldsOf_cons, bind_eq_ok, map_eq_ok] at hfs
        obtain ⟨⟨⟩, hgap, ⟨f, total⟩, hnext, fs, hfs, rfl⟩ := hfs
        obtain ⟨rfl, hle⟩ := Token.totalWidth_of_toNext htotal hnext
        rw [hids] at hfs
        rw [hoffset] at hp
        refine .inr ⟨(), hgap, bind_eq_error.2 (.inr ⟨(f, _), hnext, ?_⟩)⟩
        rw [map_eq_error, hids]
        exact (ih hle).2 ⟨done, p, todo, fs, rfl, hfs, by simpa using hp⟩

/-- Pieces are refused for the first of them that is, after those before it became fields. -/
theorem fieldsOf_eq_error_iff {ps : List Piece} {e : SchemaError} {offset : Nat} :
    (fieldsOf {} offset [] 0 ps).run.value = .error e ↔ ∃ done p todo fs, ps = done ++ p :: todo ∧
      (fieldsOf {} offset [] 0 done).run.value = .ok fs ∧
      p.Refused (offset + byteLength (done.flatMap Piece.spell)) fs e :=
  @fieldsOf_eq_error_after ps e offset [] (Nat.zero_le _)

end RecordPack

import RecordPack.Proofs.Schema.Meaning

/-!
# The strict parser and the permissive one

The two parsers go through a text in step, until the strict one meets text that belongs to no field. So they
agree, or the strict one refuses such text (`Schema.stricter_parse`); the permissive one never does
(`Schema.lenient_parse`).
-/

namespace RecordPack

/-- The options under which text that belongs to no field is dropped. -/
def ParseOptions.permissive : ParseOptions := { allowTrailing := true }

/-! ## Two runs in step -/

/-- The results agree, unless the first is that there was unexpected text. -/
def Stricter {α : Type} (x y : Except SchemaError α) : Prop :=
  x = y ∨ ∃ offset fragment, x = .error (.unexpectedInput offset fragment)

/-- The result is not that there was unexpected text. -/
def Lenient {α : Type} (y : Except SchemaError α) : Prop :=
  ∀ offset fragment, y ≠ .error (.unexpectedInput offset fragment)

section Steps

variable {α β : Type}

theorem Stricter.refl (x : Except SchemaError α) : Stricter x x := .inl rfl

theorem Stricter.bind {x y : Except SchemaError α} {f g : α → Except SchemaError β} (h : Stricter x y)
    (hfg : ∀ a, Stricter (f a) (g a)) : Stricter (x >>= f) (y >>= g) := by
  rcases h with rfl | ⟨offset, fragment, rfl⟩
  · cases x with
    | error e => exact .refl _
    | ok a => exact hfg a
  · exact .inr ⟨offset, fragment, rfl⟩

theorem Lenient.bind {y : Except SchemaError α} {g : α → Except SchemaError β} (h : Lenient y)
    (hg : ∀ a, Lenient (g a)) : Lenient (y >>= g) := by
  cases y with
  | error e =>
    intro offset fragment he
    have := Except.error.inj he
    exact h offset fragment (by rw [this])
  | ok a => exact hg a

theorem Lenient.map {y : Except SchemaError α} (h : Lenient y) (f : α → β) : Lenient (y.map f) := by
  cases y with
  | error e =>
    intro offset fragment he
    cases he
    exact h offset fragment rfl
  | ok a => nofun

theorem lenient_ok (a : α) : Lenient (.ok a : Except SchemaError α) := nofun

end Steps

/-! ## The parts of the parser -/

theorem stricter_checkGap (offset : Nat) (gap : List Char) :
    Stricter (checkGap {} offset gap).run.value (checkGap .permissive offset gap).run.value := by
  unfold checkGap
  cases Text.trim gap with
  | nil => exact .refl _
  | cons c fragment => exact .inr ⟨_, _, rfl⟩

theorem value_checkGap_permissive (offset : Nat) (gap : List Char) :
    (checkGap .permissive offset gap).run.value = .ok () := by
  apply checkGap_eq_ok.2
  exact .inl rfl

theorem lenient_toExtent {q : Qualifier} {position : Nat} {zero : SchemaError}
    (hzero : ∀ offset fragment, zero ≠ .unexpectedInput offset fragment) : Lenient (q.toExtent position zero) := by
  unfold Qualifier.toExtent
  cases q with
  | tilde => exact lenient_ok _
  | digits cs =>
    simp only
    split
    · nofun
    · intro offset fragment he
      exact hzero offset fragment (Except.error.inj he)
    · exact lenient_ok _

theorem lenient_widthOf (t : Token) (position : Nat) (type : ScalarType) : Lenient (t.widthOf position type) := by
  unfold Token.widthOf
  cases t.width with
  | none => exact lenient_ok _
  | some q =>
    simp only
    split
    · exact lenient_toExtent nofun
    · nofun

theorem lenient_countOf (t : Token) (position : Nat) : Lenient (t.countOf position) := by
  unfold Token.countOf
  rcases t.list with _ | _ | q
  · exact lenient_ok _
  · exact lenient_ok _
  · apply Lenient.map
    apply lenient_toExtent
    nofun

theorem lenient_toField (t : Token) (position : Nat) : Lenient (t.toField position) := by
  unfold Token.toField
  cases ScalarType.ofChar? t.type with
  | none => nofun
  | some type =>
    apply (lenient_widthOf t position type).bind
    intro width
    apply (lenient_countOf t position).bind
    intro count
    exact lenient_ok _

theorem lenient_addFixedWidth (total : Nat) (f : Field) (position : Nat) :
    Lenient (addFixedWidth total f position) := by
  unfold addFixedWidth
  cases f.fixedWidth? with
  | none => exact lenient_ok _
  | some w =>
    simp only
    split
    · exact lenient_ok _
    · nofun

/-! ## Whole texts -/

theorem stricter_fieldsOf (ps : List Piece) : ∀ (offset total : Nat) (seen : List String),
    Stricter (fieldsOf {} offset seen total ps).run.value (fieldsOf .permissive offset seen total ps).run.value := by
  induction ps with
  | nil => intro offset total seen; exact .refl _
  | cons p ps ih =>
    intro offset total seen
    simp only [fieldsOf, Attempt.value_bind, Attempt.value_lift]
    apply (stricter_checkGap offset p.gap).bind
    intro u
    apply (Stricter.refl _).bind
    intro f
    by_cases hseen : f.id ∈ seen
    · simp only [if_pos hseen]
      exact .refl _
    · simp only [if_neg hseen, Attempt.value_bind, Attempt.value_lift]
      apply (Stricter.refl _).bind
      intro total'
      apply (ih _ _ _).bind
      intro fs
      exact .refl _

theorem lenient_fieldsOf (ps : List Piece) : ∀ (offset total : Nat) (seen : List String),
    Lenient (fieldsOf .permissive offset seen total ps).run.value := by
  induction ps with
  | nil => intro offset total seen; exact lenient_ok _
  | cons p ps ih =>
    intro offset total seen
    simp only [fieldsOf, Attempt.value_bind, Attempt.value_lift, value_checkGap_permissive, ok_bind]
    apply (lenient_toField _ _).bind
    intro f
    by_cases hseen : f.id ∈ seen
    · simp only [if_pos hseen]
      intro offset' fragment he
      cases he
    · simp only [if_neg hseen, Attempt.value_bind, Attempt.value_lift]
      apply (lenient_addFixedWidth _ _ _).bind
      intro total'
      apply (ih _ _ _).bind
      intro fs
      exact lenient_ok _

namespace Schema

/-- The parsers agree, or the strict one refuses unexpected text. -/
theorem stricter_parse (text : String) : Stricter (parse {} text).value (parse .permissive text).value := by
  rcases hsplit : splitMarker (Text.trimStart text.toList) with ⟨order, body, markerWidth⟩
  simp only [parse, hsplit, Attempt.value_bind, Attempt.value_emit, Attempt.value_pure]
  apply (stricter_fieldsOf _ _ _ _).bind
  intro fields
  apply (stricter_checkGap _ _).bind
  intro u
  exact .refl _

/-- The permissive parser refuses no text for what belongs to no field. -/
theorem lenient_parse (text : String) : Lenient (parse .permissive text).value := by
  rcases hsplit : splitMarker (Text.trimStart text.toList) with ⟨order, body, markerWidth⟩
  simp only [parse, hsplit, Attempt.value_bind, Attempt.value_emit, Attempt.value_pure, value_checkGap_permissive]
  apply (lenient_fieldsOf _ _ _ _).bind
  intro fields
  exact lenient_ok _

end Schema

end RecordPack

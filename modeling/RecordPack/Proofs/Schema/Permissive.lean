import RecordPack.Proofs.Schema.Dropped

/-!
# Permissive parsing is strict parsing of less text

A parser that drops what belongs to no field warns of each stretch that it drops and of nothing else
(`Schema.warnings_parse`). The strict parser refuses the first of them (`Schema.value_parse`), and with blanks in
place of all of them it returns the same byte order and fields (`Schema.parse_blankOut`).
-/

namespace RecordPack

open Text (isBlank byteLength)

/-! ## What is reported -/

theorem events_checkGap {options : ParseOptions} {offset : Nat} {gap : List Char}
    (h : (checkGap options offset gap).run.value = .ok ()) :
    (checkGap options offset gap).run.events = (Stretch.ofGap offset gap).map Stretch.event := by
  unfold checkGap Stretch.ofGap at *
  cases htrim : Text.trim gap with
  | nil => rfl
  | cons c fragment =>
    -- there is something between the blanks, so the options are to drop it
    cases hoptions : options.allowTrailing with
    | true => rfl
    | false => simp [htrim, hoptions] at h

theorem events_fieldsOf {options : ParseOptions} {ps : List Piece} : ∀ {offset total : Nat} {seen : List String}
    {fs : List Field}, (fieldsOf options offset seen total ps).run.value = .ok fs →
    (fieldsOf options offset seen total ps).run.events = (Stretch.ofPieces offset ps).map Stretch.event := by
  induction ps with
  | nil => intro offset total seen fs _; rfl
  | cons p ps ih =>
    intro offset total seen fs h
    obtain ⟨f, fs', hgap, hf, hseen, hadd, hfs, rfl⟩ := fieldsOf_cons_eq_ok.1 h
    rw [fieldsOf, Attempt.events_bind_of_ok hgap, Attempt.events_bind_of_ok ((Attempt.value_lift _).trans hf)]
    simp only [if_neg hseen]
    rw [Attempt.events_bind_of_ok ((Attempt.value_lift _).trans hadd), Attempt.events_bind_of_ok hfs, ih hfs,
      events_checkGap hgap]
    simp [Stretch.ofPieces]

namespace Schema

variable {options : ParseOptions} {text : String} {s : Schema}

/-- The parts of a text that is parsed: its byte order, and the body that becomes fields. -/
theorem exists_body_of_parse (h : (parse options text).value = .ok s) : ∃ body markerWidth,
    splitMarker (Text.trimStart text.toList) = (s.order, body, markerWidth) ∧ s.text = text ∧
      let base := byteLength (text.toList.takeWhile isBlank) + markerWidth
      let scan := Scan.ofText body
      (fieldsOf options base [] 0 scan.pieces).run.value = .ok s.fields ∧
        (checkGap options (base + byteLength (scan.pieces.flatMap Piece.spell)) scan.tail).run.value = .ok () := by
  have hparts := parse_eq_ok.1 h
  rcases hsplit : splitMarker (Text.trimStart text.toList) with ⟨order, body, markerWidth⟩
  simp only [hsplit] at hparts
  obtain ⟨hfields, htail, rfl, htext⟩ := hparts
  exact ⟨body, markerWidth, rfl, htext, hfields, htail⟩

/-- What is dropped is reported, and then how many fields there are. -/
theorem events_parse (h : (parse options text).value = .ok s) : (parse options text).events =
    (Stretch.ofText text.toList).map Stretch.event ++ [.schemaParsed s.fields.length s.order] := by
  obtain ⟨body, markerWidth, hsplit, -, hfields, htail⟩ := exists_body_of_parse h
  simp only [parse, hsplit]
  rw [Attempt.events_bind_of_ok hfields, Attempt.events_bind_of_ok htail, Attempt.events_bind_of_ok rfl,
    events_fieldsOf hfields, events_checkGap htail, Stretch.ofText, hsplit]
  simp [Stretch.ofScan]

/-- The warnings are of what is dropped. -/
theorem warnings_parse (h : (parse options text).value = .ok s) :
    (parse options text).events.filter (·.level = .warn) = (Stretch.ofText text.toList).map Stretch.event := by
  have hdrops : ∀ e ∈ (Stretch.ofText text.toList).map Stretch.event, e.level = .warn := by
    intro e he
    obtain ⟨d, -, rfl⟩ := List.mem_map.1 he
    rfl
  rw [events_parse h, List.filter_append, List.filter_eq_self.2 (by simpa using hdrops)]
  simp [Event.level]

end Schema

/-! ## What is refused -/

namespace Stretch

/-- The error of the strict parser at a stretch. -/
def refusal (d : Stretch) : SchemaError := .unexpectedInput d.offset (String.ofList d.chars)

/-- The first stretch is refused, if there is one. -/
def refuse : List Stretch → Except SchemaError Unit
  | [] => .ok ()
  | d :: _ => .error d.refusal

theorem refuse_append (ds es : List Stretch) : refuse (ds ++ es) = refuse ds >>= fun _ => refuse es := by
  cases ds <;> rfl

end Stretch

theorem value_checkGap (offset : Nat) (gap : List Char) :
    (checkGap {} offset gap).run.value = Stretch.refuse (Stretch.ofGap offset gap) := by
  unfold checkGap Stretch.ofGap
  cases Text.trim gap <;> rfl

/-- Of pieces that become fields the strict parser refuses what is dropped. -/
theorem value_fieldsOf {options : ParseOptions} {ps : List Piece} : ∀ {offset total : Nat} {seen : List String}
    {fs : List Field}, (fieldsOf options offset seen total ps).run.value = .ok fs →
    (fieldsOf {} offset seen total ps).run.value = (Stretch.refuse (Stretch.ofPieces offset ps)).map fun _ => fs := by
  induction ps with
  | nil =>
    rintro offset total seen fs ⟨⟩
    rfl
  | cons p ps ih =>
    intro offset total seen fs h
    obtain ⟨f, fs', -, hf, hseen, hadd, hfs, rfl⟩ := fieldsOf_cons_eq_ok.1 h
    -- but for the gaps every step succeeds, as it did before
    simp only [fieldsOf, Attempt.value_bind, Attempt.value_lift, Attempt.value_pure, value_checkGap, hf, hadd, ok_bind,
      if_neg hseen, ih hfs, Stretch.ofPieces, Stretch.refuse_append]
    cases Stretch.refuse (Stretch.ofGap offset p.gap) with
    | error e => rfl
    | ok u => cases Stretch.refuse (Stretch.ofPieces (offset + byteLength p.spell) ps) <;> rfl

namespace Schema

variable {options : ParseOptions} {text : String} {s : Schema}

/-- Of a text that is accepted with what is dropped of it, the strict parser refuses the first such stretch. -/
theorem value_parse (h : (parse options text).value = .ok s) :
    (parse {} text).value = (Stretch.refuse (Stretch.ofText text.toList)).map fun _ => s := by
  obtain ⟨body, markerWidth, hsplit, rfl, hfields, -⟩ := exists_body_of_parse h
  simp only [parse, hsplit, Attempt.value_bind, Attempt.value_emit, Attempt.value_pure, value_fieldsOf hfields,
    value_checkGap, Stretch.ofText, Stretch.ofScan, Stretch.refuse_append]
  cases Stretch.refuse (Stretch.ofPieces _ _) with
  | error e => rfl
  | ok u => cases Stretch.refuse (Stretch.ofGap _ _) <;> rfl

/-- The strict parser accepts only what nothing is dropped of. -/
theorem ofText_eq_nil_of_parse (h : (parse {} text).value = .ok s) : Stretch.ofText text.toList = [] := by
  have hrefuse := value_parse h
  rw [h] at hrefuse
  cases hdrops : Stretch.ofText text.toList with
  | nil => rfl
  | cons d ds =>
    rw [hdrops] at hrefuse
    cases hrefuse

/-! ## What is accepted -/

/-- A sentence is parsed if its tokens denote fields that go together. -/
theorem parse_of_sentence {order : ByteOrder} {ts : List PlacedToken} {fields : List Field}
    (hsentence : Sentence text.toList order ts) (hfields : Token.DenotesAll 1 (ts.map (·.token)) fields)
    (htogether : Field.GoTogether [] 0 fields) : (parse options text).value = .ok ⟨order, fields, text⟩ := by
  rw [sentence_iff] at hsentence
  rw [parse_eq_ok]
  rcases hsplit : splitMarker (Text.trimStart text.toList) with ⟨order', body, markerWidth⟩
  simp only [hsplit] at hsentence ⊢
  obtain ⟨rfl, hbody⟩ := hsentence
  obtain ⟨hclean, rfl⟩ := Derives.iff_scan.1 hbody
  rw [Scan.map_token_places] at hfields
  exact ⟨(fieldsOf_eq_ok (Nat.zero_le _)).2 ⟨.inr hclean.gaps, hfields, htogether⟩,
    checkGap_eq_ok.2 (.inr hclean.tail), rfl, trivial⟩

/-- With blanks for what is dropped of it, a text is parsed to the same byte order and fields. -/
theorem parse_blankOut (width : Nat → Nat) (h : (parse options text).value = .ok s) :
    (parse {} (String.ofList (blankOut width (Stretch.ofText text.toList) 0 text.toList))).value =
      .ok { s with text := String.ofList (blankOut width (Stretch.ofText text.toList) 0 text.toList) } := by
  obtain ⟨body, markerWidth, hsplit, -, hfields, -⟩ := exists_body_of_parse h
  obtain ⟨-, hdenotes, htogether⟩ := (fieldsOf_eq_ok (Nat.zero_le _)).1 hfields
  obtain ⟨ts, hsentence, htokens⟩ := exists_sentence_blankOut width hsplit
  rw [← htokens] at hdenotes
  exact parse_of_sentence (by rwa [String.toList_ofList]) hdenotes htogether

/-- The permissive parser is the strict one on less text. What the strict parser accepts it accepts as it is, without
a warning. It never refuses a text for what belongs to no field, so where it fails the strict parser fails with the
same error or with that one, and an error of the strict parser that is not that one is its error too. Where it
succeeds, its warnings are of stretches that stand in the text, one after the other. With any number of blanks in
place of each character of them the strict parser accepts the text, with the same byte order and fields. -/
theorem parse_permissive (text : String) :
    (∀ s, (parse {} text).value = .ok s → (parse .permissive text).value = .ok s ∧
      ∀ e ∈ (parse .permissive text).events, e.level ≠ .warn) ∧
    (∀ e, (parse .permissive text).value = .error e →
      (∀ offset fragment, e ≠ .unexpectedInput offset fragment) ∧
      ((parse {} text).value = .error e ∨
        ∃ offset fragment, (parse {} text).value = .error (.unexpectedInput offset fragment))) ∧
    (∀ e, (parse {} text).value = .error e → (∀ offset fragment, e ≠ .unexpectedInput offset fragment) →
      (parse .permissive text).value = .error e) ∧
    ∀ s, (parse .permissive text).value = .ok s → ∃ drops : List Stretch,
      (parse .permissive text).events.filter (·.level = .warn) = drops.map Stretch.event ∧
      (∀ d ∈ drops, d.Occurs 0 text.toList ∧ d.chars ≠ []) ∧ (drops.Pairwise fun a b => a.stop ≤ b.offset) ∧
      ∀ width : Nat → Nat, ∃ s', (parse {} (String.ofList (blankOut width drops 0 text.toList))).value = .ok s' ∧
        s'.order = s.order ∧ s'.fields = s.fields := by
  have hstep := stricter_parse text
  refine ⟨?_, ?_, ?_, ?_⟩
  · intro s hs
    have hs' : (parse .permissive text).value = .ok s := by
      rcases hstep with heq | ⟨offset, fragment, herror⟩
      · rw [← heq, hs]
      · rw [hs] at herror
        cases herror
    have hnone := warnings_parse hs'
    rw [ofText_eq_nil_of_parse hs, List.map_nil, List.filter_eq_nil_iff] at hnone
    exact ⟨hs', by simpa using hnone⟩
  · intro e he
    refine ⟨?_, ?_⟩
    · rintro offset fragment rfl
      exact lenient_parse text offset fragment he
    · rcases hstep with heq | herror
      · exact .inl (heq.trans he)
      · exact .inr herror
  · intro e he hother
    rcases hstep with heq | ⟨offset, fragment, herror⟩
    · rw [← heq, he]
    · rw [he] at herror
      cases herror
      exact absurd rfl (hother offset fragment)
  · intro s hs
    exact ⟨Stretch.ofText text.toList, warnings_parse hs, fun _ => Stretch.occurs_of_mem_ofText,
      Stretch.pairwise_ofText _, fun width => ⟨_, parse_blankOut width hs, rfl, rfl⟩⟩

end Schema

end RecordPack

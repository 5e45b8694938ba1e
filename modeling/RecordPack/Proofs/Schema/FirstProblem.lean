import RecordPack.Proofs.Schema.Checks
import RecordPack.Proofs.Schema.Matches

/-!
# The first problem of a text

`Schema.Refused` says which texts are refused and why: what stands before the problem is accepted, and then comes text
that belongs to no token, or a token that a check fails for. The strict parser fails with exactly these errors
(`Schema.parse_eq_error_iff`). So an error is about the first problem, whatever comes later
(`Schema.parse_first_problem`).
-/

namespace RecordPack

open Text (isBlank inRanges startRanges byteLength)

/-! ## Problems -/

/-- Text that belongs to no token, with blanks behind it: none starts in it, and `rest` is a token or nothing. -/
structure IsStray (stray gap rest : List Char) : Prop where
  ne_nil : stray ≠ []
  head : ∀ c ∈ stray.head?, isBlank c = false
  last : ∀ c ∈ stray.getLast?, isBlank c = false
  blank : ∀ c ∈ gap, isBlank c = true
  noToken : Token.NoneIn (stray ++ gap) rest
  next : rest = [] ∨ Token.StartsAt rest

/-- Nothing of `rest` belongs to what stands before it: a marker would if that is blank, and a label if it ends with a
type. -/
structure Separate (before rest : List Char) : Prop where
  marker : (∀ c ∈ before, isBlank c = true) → ∀ order : ByteOrder, rest.head? ≠ some order.marker
  label : ∀ c ∈ before.getLast?, Token.isTypeChar c = true → ¬ Label.StartsAt rest

/-- The field that an error is about, counted from one, if it is about a field. -/
def SchemaError.position? : SchemaError → Option Nat
  | unknownType p _ | unexpectedLength p _ | zeroLength p _ | zeroCount p _ | numberTooLarge p _ | widthOverflow p
  | duplicateId p _ => some p
  | unexpectedInput _ _ => none

theorem Token.Refused.position?_eq {t : Token} {before : List Field} {e : SchemaError} (h : t.Refused before e) :
    e.position? = some (before.length + 1) := by
  obtain ⟨check, hfails, -⟩ := h
  cases hfails <;> rfl

/-- The text is refused for its first problem: what stands before it is accepted, and then comes no token, or one that
is refused. -/
inductive Schema.Refused : List Char → SchemaError → Prop
  | input {before stray gap rest : List Char} {s : Schema} : (parse {} (String.ofList before)).value = .ok s →
      Separate before (stray ++ gap ++ rest) → IsStray stray gap rest →
      Refused (before ++ (stray ++ gap ++ rest)) (.unexpectedInput (byteLength before) (String.ofList stray))
  | token {before after : List Char} {t : Token} {s : Schema} {e : SchemaError} :
      (parse {} (String.ofList before)).value = .ok s → t.IsLexical → t.EndsBefore after → t.Refused s.fields e →
      Refused (before ++ (t.spell ++ after)) e

/-! ## Where a text goes on -/

/-- A token is separate from what stands before it. -/
theorem separate_spell {t : Token} (ht : t.IsLexical) (before after : List Char) :
    Separate before (t.spell ++ after) := by
  have hhead : ∀ c ∈ ([] ++ t.spell ++ after).head?, isBlank c = true ∨ inRanges startRanges c = true :=
    Token.head_spell (by simp) ht after
  refine ⟨?_, fun _ _ _ => Label.not_startsAt_of_head hhead⟩
  intro _ order hmarker
  rcases hhead _ hmarker with hb | hs
  · rw [Text.isBlank_marker] at hb
    cases hb
  · cases order <;> exact absurd hs (by decide)

theorem splitMarker_cons_append {c : Char} {cs body : List Char} {order : ByteOrder} {markerWidth : Nat}
    (h : splitMarker (c :: cs) = (order, body, markerWidth)) (rest : List Char) :
    splitMarker (c :: (cs ++ rest)) = (order, body ++ rest, markerWidth) := by
  rw [splitMarker] at h ⊢
  cases hmarker : ByteOrder.ofMarker? c with
  | some order' =>
    rw [hmarker] at h
    cases h
    rfl
  | none =>
    rw [hmarker] at h
    cases h
    rfl

/-- The marker of a text is the same whatever goes on behind it. -/
theorem splitMarker_append {before rest body : List Char} {order : ByteOrder} {markerWidth : Nat}
    (hsplit : splitMarker (Text.trimStart before) = (order, body, markerWidth))
    (hhead : ∀ c ∈ rest.head?, isBlank c = false) (hseparate : Separate before rest) :
    splitMarker (Text.trimStart (before ++ rest)) = (order, body ++ rest, markerWidth) ∧
      (before ++ rest).takeWhile isBlank = before.takeWhile isBlank := by
  cases htrim : Text.trimStart before with
  | nil =>
    have hblank := Text.trimStart_eq_nil_iff.1 htrim
    have htake : rest.takeWhile isBlank = [] := by
      cases rest with
      | nil => rfl
      | cons c rest => simp [hhead c rfl]
    rw [htrim] at hsplit
    cases hsplit
    refine ⟨?_, ?_⟩
    · rw [Text.trimStart_blank_append hblank, Text.trimStart_eq_self hhead]
      rcases splitMarker_cases rest with ⟨order, body, rfl⟩ | hnone
      · exact absurd rfl (hseparate.marker hblank order)
      · exact hnone
    · rw [List.takeWhile_append_of_pos hblank, htake, List.append_nil, List.takeWhile_eq_self_iff.2 hblank]
  | cons c cs =>
    have hlead : ∀ d ∈ before.takeWhile isBlank, isBlank d = true := fun d hd => List.mem_takeWhile_imp hd
    have hc : isBlank c = false := Text.head?_trimStart before c (by rw [htrim]; rfl)
    have hbefore : before ++ rest = before.takeWhile isBlank ++ c :: (cs ++ rest) := by
      rw [← List.cons_append, ← htrim, ← List.append_assoc]
      exact congrArg (· ++ rest) List.takeWhile_append_dropWhile.symm
    rw [htrim] at hsplit
    refine ⟨?_, ?_⟩
    · rw [hbefore, Text.trimStart_blank_append hlead, Text.trimStart_of_not_blank hc]
      exact splitMarker_cons_append hsplit rest
    · rw [hbefore, List.takeWhile_append_of_pos hlead]
      simp [hc]

/-! ## Where pieces end -/

/-- A token ends with its type or the parenthesis of its label. -/
theorem Token.getLast?_spell (t : Token) :
    t.spell.getLast? = some (match t.label with | none => t.type | some _ => ')') := by
  rw [spell_eq]
  cases t.label with
  | none => simp [Label.spell?]
  | some l =>
    rw [Label.spell?, Label.spell, List.getLast?_append, ← List.singleton_append, ← List.append_assoc,
      ← List.append_assoc, List.getLast?_concat]
    rfl

section Pieces

variable {head lead rest : List Char} {ps : List Piece}

theorem getLast?_pieces {p : Piece} (h : ps.getLast? = some p) (head : List Char) :
    (head ++ ps.flatMap Piece.spell).getLast? = p.token.spell.getLast? := by
  obtain ⟨ps, rfl⟩ := List.getLast?_eq_some_iff.1 h
  simp [Piece.spell, Token.getLast?_spell]

/-- What is separate from pieces belongs to none of their tokens. -/
theorem endsBefore_of_separate (hlexical : ∀ p ∈ ps, p.token.IsLexical) (hlead : ∀ c ∈ lead, isBlank c = true)
    (hseparate : Separate (head ++ (ps.flatMap Piece.spell ++ lead)) rest) :
    ∀ p ∈ ps.getLast?, p.token.EndsBefore (lead ++ rest) := by
  intro p hp hlabel
  cases lead with
  | nil =>
    refine hseparate.label p.token.type ?_ (hlexical p (List.mem_of_getLast? hp)).type
    rw [List.append_nil, getLast?_pieces hp, Token.getLast?_spell, hlabel]
    rfl
  | cons c lead =>
    apply Label.not_startsAt_of_head
    rintro d ⟨⟩
    exact .inl (hlead c List.mem_cons_self)

/-- What belongs to no token of the pieces that stand before it belongs to nothing there. -/
theorem not_startsAt_of_endsBefore {order : ByteOrder} (hhead : Head head order)
    (hlead : ∀ c ∈ lead, isBlank c = true) (hends : ∀ p ∈ ps.getLast?, p.token.EndsBefore (lead ++ rest)) :
    ∀ c ∈ (head ++ (ps.flatMap Piece.spell ++ lead)).getLast?, Token.isTypeChar c = true → ¬ Label.StartsAt rest := by
  intro c hc htype
  -- a type is no blank, so the text ends with the last token
  have hnot := Text.isBlank_of_start (Text.isStart_of_type htype)
  have hlast : ∀ cs : List Char, (∀ d ∈ cs, isBlank d = true) → cs.getLast? ≠ some c := by
    intro cs hcs h
    rw [hcs c (List.mem_of_getLast? h)] at hnot
    cases hnot
  rcases List.eq_nil_or_concat' lead with rfl | ⟨lead, d, rfl⟩
  · rw [List.append_nil] at hc
    cases hp : ps.getLast? with
    | none =>
      rw [List.getLast?_eq_none_iff] at hp
      subst hp
      rw [List.flatMap_nil, List.append_nil] at hc
      cases hhead with
      | @marked lead order _ =>
        rw [List.getLast?_append] at hc
        cases hc
        cases order <;> exact absurd htype (by decide)
      | unmarked hblank => exact absurd hc (hlast _ hblank)
    | some p =>
      rw [getLast?_pieces hp, Token.getLast?_spell] at hc
      refine hends p hp ?_
      cases hlabel : p.token.label with
      | none => rfl
      | some l =>
        rw [hlabel] at hc
        obtain rfl := Option.some.inj hc
        exact absurd htype (by simp only; decide)
  · rw [← List.append_assoc, ← List.append_assoc, List.getLast?_concat] at hc
    obtain rfl := Option.some.inj hc
    exact absurd List.getLast?_concat (hlast _ hlead)

/-- Pieces with blanks between them are derived. -/
theorem derives_pieces {tail : List Char} (hgaps : ∀ p ∈ ps, ∀ c ∈ p.gap, isBlank c = true)
    (hlexical : ∀ p ∈ ps, p.token.IsLexical) (htail : ∀ c ∈ tail, isBlank c = true) : ∀ offset,
    Derives offset (ps.flatMap Piece.spell ++ tail) (Scan.places offset ps) := by
  induction ps with
  | nil => exact fun _ => .nil htail
  | cons p ps ih =>
    intro offset
    obtain ⟨hgap, hgaps⟩ := List.forall_mem_cons.1 hgaps
    obtain ⟨ht, hlexical⟩ := List.forall_mem_cons.1 hlexical
    have hrest := ih hgaps hlexical (offset + byteLength p.spell)
    have := Derives.cons hgap ht hrest
    rwa [List.flatMap_cons, List.append_assoc]

end Pieces

namespace Schema

variable {text : String} {order : ByteOrder} {body : List Char} {markerWidth : Nat} {e : SchemaError}

/-- A parse fails with its pieces, or with what follows the last of them. -/
theorem parse_eq_error {base : Nat} (hsplit : splitMarker (Text.trimStart text.toList) = (order, body, markerWidth))
    (hbase : byteLength (text.toList.takeWhile isBlank) + markerWidth = base) :
    (parse {} text).value = .error e ↔
      (fieldsOf {} base [] 0 (Scan.ofText body).pieces).run.value = .error e ∨
        ∃ fs d, (fieldsOf {} base [] 0 (Scan.ofText body).pieces).run.value = .ok fs ∧
          Stretch.ofGap (base + byteLength ((Scan.ofText body).pieces.flatMap Piece.spell)) (Scan.ofText body).tail =
            [d] ∧ e = d.refusal := by
  simp only [parse, hsplit, hbase, Attempt.value_bind, Attempt.value_emit, Attempt.value_pure, bind_eq_error,
    checkGap_eq_error, reduceCtorEq, and_false, exists_false, or_false]
  simp only [exists_and_left]

/-- Behind a schema the scan goes on with what is separate from it. -/
theorem exists_scan_append {before rest : List Char} {s : Schema} (h : (parse {} (String.ofList before)).value = .ok s)
    (hhead : ∀ c ∈ rest.head?, isBlank c = false) (hseparate : Separate before rest) :
    ∃ order body markerWidth base ps tail,
      splitMarker (Text.trimStart (before ++ rest)) = (order, body, markerWidth) ∧
      byteLength ((before ++ rest).takeWhile isBlank) + markerWidth = base ∧
      (fieldsOf {} base [] 0 ps).run.value = .ok s.fields ∧ (∀ c ∈ tail, isBlank c = true) ∧
      base + byteLength (ps.flatMap Piece.spell) + byteLength tail = byteLength before ∧
      Scan.ofText body = ⟨ps ++ (Scan.ofText (tail ++ rest)).pieces, (Scan.ofText (tail ++ rest)).tail⟩ := by
  obtain ⟨body, markerWidth, hsplit, -, hfields, htail⟩ := exists_body_of_parse h
  rw [String.toList_ofList] at hsplit hfields htail
  obtain ⟨head, hbefore, -, hlength⟩ := exists_head hsplit
  obtain ⟨hbody, hlexical⟩ := Scan.ofText_sound body
  simp only [checkGap_eq_ok, Bool.false_eq_true, false_or] at htail
  obtain ⟨hgaps, -, -⟩ := (fieldsOf_eq_ok (Nat.zero_le _)).1 hfields
  simp only [Bool.false_eq_true, false_or] at hgaps
  obtain ⟨hsplit', htake⟩ := splitMarker_append hsplit hhead hseparate
  refine ⟨s.order, body ++ rest, markerWidth, _, (Scan.ofText body).pieces, (Scan.ofText body).tail, hsplit', rfl, ?_,
    htail, ?_, ?_⟩
  · rw [htake]
    exact hfields
  · rw [htake, hlength, Nat.add_assoc, ← Text.byteLength_append, ← hbody, ← Text.byteLength_append, ← hbefore]
  · have hspell : body ++ rest =
        (Scan.ofText body).pieces.flatMap Piece.spell ++ ((Scan.ofText body).tail ++ rest) := by
      rw [← List.append_assoc, ← hbody]
    rw [hspell]
    apply Scan.ofText_append hgaps hlexical
    rw [hbefore, hbody] at hseparate
    exact endsBefore_of_separate hlexical htail hseparate

/-- Pieces that become fields are a schema, with the head and with blanks behind them. -/
theorem parse_pieces {head tail : List Char} {ps : List Piece} {fs : List Field} (hhead : Head head order)
    (hlexical : ∀ p ∈ ps, p.token.IsLexical) (htail : ∀ c ∈ tail, isBlank c = true)
    (hfields : (fieldsOf {} (byteLength head) [] 0 ps).run.value = .ok fs) :
    ∃ s, (parse {} (String.ofList (head ++ (ps.flatMap Piece.spell ++ tail)))).value = .ok s ∧ s.fields = fs := by
  obtain ⟨hgaps, hdenotes, htogether⟩ := (fieldsOf_eq_ok (Nat.zero_le _)).1 hfields
  simp only [Bool.false_eq_true, false_or] at hgaps
  have hsentence := hhead.sentence (derives_pieces hgaps hlexical htail (byteLength head))
  rw [← Scan.map_token_places ps (byteLength head)] at hdenotes
  exact ⟨_, parse_of_sentence (by rwa [String.toList_ofList]) hdenotes htogether, rfl⟩

section Opening

variable {cs head : List Char} (hsplit : splitMarker (Text.trimStart cs) = (order, body, markerWidth))
  (hlength : byteLength (cs.takeWhile isBlank) + markerWidth = byteLength head)
include hsplit hlength

/-- If nothing but blanks stands before it, a marker belongs to the head. -/
theorem head?_ne_marker {blanks rest : List Char} (hcs : cs = head ++ blanks ++ rest)
    (hblank : ∀ c ∈ head ++ blanks, isBlank c = true) (order' : ByteOrder) : rest.head? ≠ some order'.marker := by
  intro hmarker
  obtain ⟨after, rfl⟩ := List.head?_eq_some_iff.1 hmarker
  have hnot := Text.isBlank_marker order'
  have htake : cs.takeWhile isBlank = head ++ blanks := by
    rw [hcs, List.takeWhile_append_of_pos hblank]
    simp [hnot]
  rw [hcs, Text.trimStart_blank_append hblank, Text.trimStart_of_not_blank hnot, splitMarker_marker] at hsplit
  cases hsplit
  rw [htake, Text.byteLength_append] at hlength
  omega

/-- A gap that is not blank is a problem, behind pieces that become fields. -/
theorem refused_of_gap {gap rest : List Char} {ps : List Piece} {fs : List Field} {d : Stretch}
    (hhead : Head head order) (hcs : cs = head ++ (ps.flatMap Piece.spell ++ (gap ++ rest)))
    (hlexical : ∀ p ∈ ps, p.token.IsLexical) (hfields : (fieldsOf {} (byteLength head) [] 0 ps).run.value = .ok fs)
    (hends : ∀ p ∈ ps.getLast?, p.token.EndsBefore (gap ++ rest)) (hnone : Token.NoneIn gap rest)
    (hnext : rest = [] ∨ Token.StartsAt rest)
    (hd : Stretch.ofGap (byteLength head + byteLength (ps.flatMap Piece.spell)) gap = [d]) :
    Refused cs d.refusal := by
  rcases Stretch.ofGap_cases (byteLength head + byteLength (ps.flatMap Piece.spell)) gap with
    ⟨hnil, -⟩ | ⟨d', lead, trail, hone, rfl, hoffset, hlead, htrail, hne, hfirst, hlast⟩
  · rw [hnil] at hd
    cases hd
  · rw [hone] at hd
    cases hd
    obtain ⟨s, hparse, -⟩ := parse_pieces hhead hlexical hlead hfields
    have hbefore : d.offset = byteLength (head ++ (ps.flatMap Piece.spell ++ lead)) := by
      rw [hoffset, Text.byteLength_append, Text.byteLength_append, Nat.add_assoc]
    have htext : cs = head ++ (ps.flatMap Piece.spell ++ lead) ++ (d.chars ++ trail ++ rest) := by
      rw [hcs]
      simp
    have hstray : IsStray d.chars trail rest :=
      ⟨hne, hfirst, hlast, htrail, fun pre post hpost => hnone (lead ++ pre) post (by simp [hpost]), hnext⟩
    have hseparate : Separate (head ++ (ps.flatMap Piece.spell ++ lead)) (d.chars ++ trail ++ rest) := by
      refine ⟨fun hblank => head?_ne_marker hsplit hlength htext hblank, ?_⟩
      exact not_startsAt_of_endsBefore hhead hlead (by simpa using hends)
    rw [htext, Stretch.refusal, hbefore]
    exact .input hparse hseparate hstray

end Opening

/-- What the strict parser refuses has a problem. -/
theorem refused_of_parse (h : (parse {} text).value = .error e) : Refused text.toList e := by
  rcases hsplit : splitMarker (Text.trimStart text.toList) with ⟨order, body, markerWidth⟩
  obtain ⟨head, htext, hhead, hlength⟩ := exists_head hsplit
  have hlexical := (Scan.ofText_sound body).2
  rcases hscan : Scan.ofText body with ⟨pieces, tail⟩
  rw [parse_eq_error hsplit hlength, hscan] at h
  rw [hscan] at hlexical
  rcases h with h | ⟨fs, d, hfields, hd, rfl⟩
  · obtain ⟨done, p, todo, fs, rfl, hfields, hp⟩ :=
      fieldsOf_eq_error_iff.1 h
    obtain ⟨rest, rfl, hrest, hends⟩ := Scan.exists_rest hscan
    obtain ⟨after, hfirst⟩ := Scan.exists_of_ofText_cons hrest
    obtain ⟨ht, hafter, rfl, hnone⟩ := Token.first?_eq_some_iff.1 hfirst
    have hlexical : ∀ q ∈ done, q.token.IsLexical := fun q hq => hlexical q (List.mem_append_left _ hq)
    cases hp with
    | gap hd =>
      exact refused_of_gap hsplit hlength hhead htext hlexical hfields hends hnone
        (.inr (Token.startsAt_spell ht after)) hd
    | token hgap hrefused =>
      obtain ⟨s, hparse, rfl⟩ := parse_pieces hhead hlexical hgap hfields
      have hcs : text.toList = head ++ (done.flatMap Piece.spell ++ p.gap) ++ (p.token.spell ++ after) := by
        rw [htext]
        simp
      rw [hcs]
      exact .token hparse ht hafter hrefused
  · have hall : Scan.ofText body = ⟨pieces ++ [], tail⟩ := by rw [hscan, List.append_nil]
    obtain ⟨rest, rfl, hrest, hends⟩ := Scan.exists_rest hall
    obtain ⟨hfirst, rfl⟩ := Scan.first?_of_ofText_nil hrest
    have htext' : text.toList = head ++ (pieces.flatMap Piece.spell ++ (rest ++ [])) := by rwa [List.append_nil]
    rw [← List.append_nil rest] at hends
    exact refused_of_gap hsplit hlength hhead htext' hlexical hfields hends (Token.first?_eq_none_iff.1 hfirst)
      (.inl rfl) hd

/-- What has a problem the strict parser refuses. -/
theorem parse_of_refused (h : Refused text.toList e) : (parse {} text).value = .error e := by
  generalize hcs : text.toList = cs at h
  cases h with
  | @input before stray gap rest s hparse hseparate hstray =>
    have hhead : ∀ c ∈ (stray ++ gap ++ rest).head?, isBlank c = false := by
      obtain ⟨c, stray, rfl⟩ := List.exists_cons_of_ne_nil hstray.ne_nil
      exact hstray.head
    obtain ⟨order, body, markerWidth, base, ps, tail, hsplit, hbase, hfields, htail, hoffset, hscan⟩ :=
      exists_scan_append hparse hhead hseparate
    have hgap : Stretch.ofGap (base + byteLength (ps.flatMap Piece.spell)) (tail ++ (stray ++ gap)) =
        [⟨byteLength before, stray⟩] := by
      rw [← List.append_assoc, Stretch.ofGap_of_core _ htail hstray.blank hstray.ne_nil hstray.head hstray.last,
        hoffset]
    have hnone : Token.NoneIn (tail ++ (stray ++ gap)) rest := Token.noneIn_blank_append htail hstray.noToken
    rw [← hcs] at hsplit hbase
    rw [parse_eq_error hsplit hbase, hscan, ← List.append_assoc tail]
    rcases hstray.next with rfl | hstarts
    · rw [List.append_nil, Scan.ofText_of_none (Token.first?_eq_none_iff.2 hnone), List.append_nil]
      exact .inr ⟨s.fields, _, hfields, hgap, rfl⟩
    · obtain ⟨t, after, hrest⟩ := Token.first?_of_startsAt hstarts
      have hfirst : Token.first? (tail ++ (stray ++ gap) ++ rest) = some (tail ++ (stray ++ gap), t, after) := by
        rw [Token.first?_append hnone, hrest]
        simp
      rw [Scan.ofText_of_some hfirst]
      left
      exact fieldsOf_eq_error_iff.2 ⟨ps, ⟨tail ++ (stray ++ gap), t⟩, _, s.fields, rfl, hfields,
        .gap (d := ⟨_, stray⟩) hgap⟩
  | @token before after t s e hparse ht hends hrefused =>
    have hhead : ∀ c ∈ (t.spell ++ after).head?, isBlank c = false := by
      obtain ⟨c, cs, hspell, hc⟩ := Token.exists_start ht after
      rw [hspell]
      rintro _ ⟨⟩
      exact Text.isBlank_of_start hc
    obtain ⟨order, body, markerWidth, base, ps, tail, hsplit, hbase, hfields, htail, hoffset, hscan⟩ :=
      exists_scan_append hparse hhead (separate_spell ht before after)
    have hfirst : Token.first? (tail ++ (t.spell ++ after)) = some (tail, t, after) := by
      rw [← List.append_assoc]
      exact Token.first?_spell htail ht fun hnone => Label.lex?_eq_none_iff.2 (hends hnone)
    rw [← hcs] at hsplit hbase
    rw [parse_eq_error hsplit hbase, hscan, Scan.ofText_of_some hfirst]
    left
    exact fieldsOf_eq_error_iff.2 ⟨ps, ⟨tail, t⟩, _, s.fields, rfl, hfields, .token htail hrefused⟩

/-- The strict parser refuses a text for its first problem, and for nothing else. -/
theorem parse_eq_error_iff : (parse {} text).value = .error e ↔ Refused text.toList e :=
  ⟨refused_of_parse, parse_of_refused⟩

theorem parse_ofList_of_refused {cs : List Char} (h : Refused cs e) : (parse {} (String.ofList cs)).value = .error e :=
  parse_of_refused (by rwa [String.toList_ofList])

/-- An error of the strict parser is about the first problem of the text. If it is that there was unexpected input, it
stands at its offset, counted in bytes of the whole text. It neither starts nor ends with a blank, it goes on up to the
blanks before the next token or the end, and what stands before it is a schema. Any other error is about a token: what
stands before it is a schema with one field less than the position of the error, and the error is that of the first
check of the token that fails. Such a text fails with the same error up to and including the token, and with anything
behind it that is not its label; and unexpected input is refused whatever comes behind it that leaves it what it is. -/
theorem parse_first_problem (h : (parse {} text).value = .error e) :
    (∀ offset fragment, e = .unexpectedInput offset fragment → ∃ before gap rest s,
      text.toList = before ++ (fragment.toList ++ gap ++ rest) ∧ offset = byteLength before ∧
      IsStray fragment.toList gap rest ∧ Separate before (fragment.toList ++ gap ++ rest) ∧
      (parse {} (String.ofList before)).value = .ok s ∧
      ∀ gap' rest', IsStray fragment.toList gap' rest' → Separate before (fragment.toList ++ gap' ++ rest') →
        (parse {} (String.ofList (before ++ (fragment.toList ++ gap' ++ rest')))).value = .error e) ∧
    ((∀ offset fragment, e ≠ .unexpectedInput offset fragment) →
      ∃ (before : List Char) (t : Token) (after : List Char) (s : Schema),
      text.toList = before ++ (t.spell ++ after) ∧ t.IsLexical ∧ t.EndsBefore after ∧
      (parse {} (String.ofList before)).value = .ok s ∧ e.position? = some (s.fields.length + 1) ∧
      t.Refused s.fields e ∧ (parse {} (String.ofList (before ++ t.spell))).value = .error e ∧
      ∀ after', t.EndsBefore after' → (parse {} (String.ofList (before ++ (t.spell ++ after')))).value = .error e) := by
  have hrefused := parse_eq_error_iff.1 h
  generalize text.toList = cs at hrefused
  cases hrefused with
  | @input before stray gap rest s hparse hseparate hstray =>
    refine ⟨?_, fun hother => absurd rfl (hother _ _)⟩
    rintro _ _ ⟨⟩
    rw [String.toList_ofList]
    refine ⟨before, gap, rest, s, rfl, rfl, hstray, hseparate, hparse, ?_⟩
    intro gap' rest' hstray' hseparate'
    exact parse_ofList_of_refused (.input hparse hseparate' hstray')
  | @token before after t s e hparse ht hends hrefused =>
    have hposition := hrefused.position?_eq
    refine ⟨?_, fun _ => ⟨before, t, after, s, rfl, ht, hends, hparse, hposition, hrefused, ?_, ?_⟩⟩
    · rintro offset fragment rfl
      cases hposition
    · have := parse_ofList_of_refused (.token hparse ht t.endsBefore_nil hrefused)
      rwa [List.append_nil] at this
    · intro after' hends'
      exact parse_ofList_of_refused (.token hparse ht hends' hrefused)

-- the id of the second field comes twice, and the count of the third is zero: the second is the first problem
theorem parse_first_problem_sample : (parse {} "H(a) %% B").value = .error (.unexpectedInput 5 "%%") ∧
    (∃ before gap rest, "H(a) %% B".toList = before ++ ("%%".toList ++ gap ++ rest) ∧ 5 = byteLength before ∧
      ∃ s, (parse {} (String.ofList before)).value = .ok s) ∧
    (parse {} "H(a) H(a) 0:B").value = .error (.duplicateId 2 "a") ∧
    ∃ (before : List Char) (t : Token) (after : List Char) (s : Schema),
      "H(a) H(a) 0:B".toList = before ++ (t.spell ++ after) ∧ (parse {} (String.ofList before)).value = .ok s ∧
      s.fields.length = 1 ∧ t.Refused s.fields (.duplicateId 2 "a") := by
  have hstray : (parse {} "H(a) %% B").value = .error (.unexpectedInput 5 "%%") := by decide +kernel
  have htwice : (parse {} "H(a) H(a) 0:B").value = .error (.duplicateId 2 "a") := by decide +kernel
  obtain ⟨before, gap, rest, s, htext, hoffset, -, -, hparse, -⟩ := (parse_first_problem hstray).1 _ _ rfl
  obtain ⟨before', t, after, s', htext', -, -, hparse', hposition, hrefused, -⟩ :=
    (parse_first_problem htwice).2 fun _ _ => by simp
  refine ⟨hstray, ⟨before, gap, rest, htext, hoffset, s, hparse⟩, htwice, before', t, after, s', htext', hparse', ?_,
    hrefused⟩
  have := Option.some.inj hposition
  omega

end Schema

end RecordPack

import RecordPack.Proofs.Schema.Lexing

/-!
# The grammar of schemas

A schema text is blanks, perhaps the marker of a byte order, and tokens with blanks between them:
`Sentence cs order ts` says that `cs` is such a text, and `ts` its tokens with the places where they start.
The grammar is unambiguous (`Sentence.unique`): it derives a text exactly if nothing but blanks is left when
the text is scanned for tokens, and the tokens are those that are found (`sentence_iff`).
-/

namespace RecordPack

open Text (isBlank inRanges startRanges byteLength trimStart)

/-- A token, and the offset where it starts, in bytes. -/
structure PlacedToken where
  offset : Nat
  token : Token

/-- The text from an offset on is tokens between blanks. -/
inductive Derives : (offset : Nat) → List Char → List PlacedToken → Prop
  | nil {offset : Nat} {gap : List Char} : (∀ c ∈ gap, isBlank c = true) → Derives offset gap []
  | cons {offset : Nat} {gap rest : List Char} {t : Token} {ts : List PlacedToken} :
      (∀ c ∈ gap, isBlank c = true) → t.IsLexical → Derives (offset + byteLength (gap ++ t.spell)) rest ts →
      Derives offset (gap ++ t.spell ++ rest) (⟨offset + byteLength gap, t⟩ :: ts)

/-- The whole text is tokens between blanks, after the marker of a byte order if there is one. -/
inductive Sentence : List Char → ByteOrder → List PlacedToken → Prop
  | marked {lead body : List Char} {order : ByteOrder} {ts : List PlacedToken} :
      (∀ c ∈ lead, isBlank c = true) → Derives (byteLength (lead ++ [order.marker])) body ts →
      Sentence (lead ++ order.marker :: body) order ts
  | unmarked {cs : List Char} {ts : List PlacedToken} : Derives 0 cs ts → Sentence cs .network ts

/-! ## Scanning -/

namespace Token

theorem first?_of_blank {cs : List Char} (h : ∀ c ∈ cs, isBlank c = true) : first? cs = none := by
  induction cs with
  | nil => rfl
  | cons c cs ih =>
    rw [first?, lex?_of_blank (h c List.mem_cons_self), ih fun d hd => h d (List.mem_cons_of_mem _ hd)]
    rfl

/-- Behind blanks a token is the first one. -/
theorem first?_spell {gap rest : List Char} {t : Token} (hgap : ∀ c ∈ gap, isBlank c = true) (ht : t.IsLexical)
    (hrest : t.label = none → Label.lex? rest = none) : first? (gap ++ t.spell ++ rest) = some (gap, t, rest) := by
  induction gap with
  | nil =>
    have hlex := lex_spell ht hrest
    obtain ⟨c, cs, hspell, -⟩ := exists_start ht rest
    rw [List.nil_append]
    rw [hspell] at hlex ⊢
    rw [first?, hlex]
  | cons c gap ih =>
    have hfirst := ih fun d hd => hgap d (List.mem_cons_of_mem _ hd)
    rw [List.append_assoc] at hfirst ⊢
    rw [List.cons_append, first?, lex?_of_blank (hgap c List.mem_cons_self), hfirst]
    rfl

/-- Blanks and a token start with a blank or with what tokens start with. -/
theorem head_spell {gap : List Char} {t : Token} (hgap : ∀ c ∈ gap, isBlank c = true) (ht : t.IsLexical)
    (rest : List Char) : ∀ c ∈ (gap ++ t.spell ++ rest).head?, isBlank c = true ∨ inRanges startRanges c = true := by
  intro c hc
  cases gap with
  | nil =>
    obtain ⟨d, ds, hspell, hd⟩ := exists_start ht rest
    rw [List.nil_append, hspell] at hc
    cases hc
    exact .inr hd
  | cons d gap =>
    cases hc
    exact .inl (hgap c List.mem_cons_self)

theorem first?_sound {cs : List Char} : ∀ {gap rest : List Char} {t : Token}, first? cs = some (gap, t, rest) →
    cs = gap ++ t.spell ++ rest ∧ t.IsLexical := by
  induction cs with
  | nil => simp [first?]
  | cons c cs ih =>
    intro gap rest t h
    rw [first?] at h
    split at h
    · next t' rest' hlex =>
      cases h
      exact lex_sound hlex
    · obtain ⟨⟨gap', t', rest'⟩, hfirst, heq⟩ := Option.map_eq_some_iff.1 h
      cases heq
      obtain ⟨hcs, ht⟩ := ih hfirst
      exact ⟨congrArg (c :: ·) hcs, ht⟩

end Token

namespace Scan

theorem ofText_of_none {cs : List Char} (h : Token.first? cs = none) : ofText cs = ⟨[], cs⟩ := by
  rw [ofText]
  split
  · rfl
  · next h' => cases h.symm.trans h'

theorem ofText_of_some {cs gap rest : List Char} {t : Token} (h : Token.first? cs = some (gap, t, rest)) :
    ofText cs = ⟨⟨gap, t⟩ :: (ofText rest).pieces, (ofText rest).tail⟩ := by
  rw [ofText]
  split
  · next h' => cases h.symm.trans h'
  · next h' =>
    cases h.symm.trans h'
    rfl

/-- Nothing but blanks is left between the tokens. -/
structure IsClean (s : Scan) : Prop where
  gaps : ∀ p ∈ s.pieces, ∀ c ∈ p.gap, isBlank c = true
  tail : ∀ c ∈ s.tail, isBlank c = true

/-- The tokens of pieces that stand one after the other from an offset on. -/
def places (offset : Nat) : List Piece → List PlacedToken
  | [] => []
  | p :: ps => ⟨offset + byteLength p.gap, p.token⟩ :: places (offset + byteLength p.spell) ps

theorem map_token_places (ps : List Piece) : ∀ offset, (places offset ps).map (·.token) = ps.map (·.token) := by
  induction ps with
  | nil => intro offset; rfl
  | cons p ps ih =>
    intro offset
    rw [places, List.map_cons, List.map_cons, ih]

end Scan

/-! ## Derivations -/

namespace Derives

variable {offset : Nat} {cs : List Char} {ts : List PlacedToken}

/-- A text with a derivation starts with a blank or a token. -/
theorem head (h : Derives offset cs ts) : ∀ c ∈ cs.head?, isBlank c = true ∨ inRanges startRanges c = true := by
  cases h with
  | nil hgap =>
    intro c hc
    exact .inl (hgap c (List.mem_of_mem_head? hc))
  | @cons _ _ rest _ _ hgap ht _ => exact Token.head_spell hgap ht rest

theorem head?_ne_paren (h : Derives offset cs ts) : cs.head? ≠ some '(' := by
  intro hc
  rcases h.head '(' hc with hb | hs
  · exact absurd hb (by decide)
  · exact absurd hs (by decide)

theorem head?_ne_marker (h : Derives offset cs ts) (order : ByteOrder) : cs.head? ≠ some order.marker := by
  intro hc
  rcases h.head order.marker hc with hb | hs
  · rw [Text.isBlank_marker] at hb
    cases hb
  · cases order <;> exact absurd hs (by decide)

/-- Derivations find the tokens that the scan finds. -/
theorem iff_scan : Derives offset cs ts ↔
    (Scan.ofText cs).IsClean ∧ ts = Scan.places offset (Scan.ofText cs).pieces := by
  constructor
  · intro h
    induction h with
    | nil hgap =>
      rw [Scan.ofText_of_none (Token.first?_of_blank hgap)]
      exact ⟨⟨by simp, hgap⟩, rfl⟩
    | cons hgap ht hrest ih =>
      obtain ⟨⟨hgaps, htail⟩, rfl⟩ := ih
      -- what follows a token starts with a blank or a token, so it opens no label
      rw [Scan.ofText_of_some (Token.first?_spell hgap ht fun _ => Label.lex?_eq_none hrest.head?_ne_paren)]
      refine ⟨⟨?_, htail⟩, rfl⟩
      intro p hp
      rcases List.mem_cons.1 hp with rfl | hp
      · exact hgap
      · exact hgaps p hp
  · rintro ⟨hclean, rfl⟩
    -- induction along the scan, which finds the next token and goes on behind it
    induction cs using Scan.ofText.induct generalizing offset with
    | case1 cs hnone =>
      rw [Scan.ofText_of_none hnone] at hclean ⊢
      exact .nil hclean.tail
    | case2 cs gap t rest hsome ih =>
      rw [Scan.ofText_of_some hsome] at hclean ⊢
      obtain ⟨rfl, ht⟩ := Token.first?_sound hsome
      refine .cons (hclean.gaps _ List.mem_cons_self) ht (ih ⟨?_, hclean.tail⟩)
      exact fun p hp => hclean.gaps p (List.mem_cons_of_mem _ hp)

/-- Blanks in front of the first token belong to the text between tokens. -/
theorem blank_append {lead : List Char} (hlead : ∀ c ∈ lead, isBlank c = true)
    (h : Derives (offset + byteLength lead) cs ts) : Derives offset (lead ++ cs) ts := by
  cases h with
  | nil hgap => exact .nil fun c hc => (List.mem_append.1 hc).elim (hlead c) (hgap c)
  | @cons _ gap rest t ts hgap ht hrest =>
    have hall : ∀ c ∈ lead ++ gap, isBlank c = true := fun c hc => (List.mem_append.1 hc).elim (hlead c) (hgap c)
    have hrest' : Derives (offset + byteLength (lead ++ gap ++ t.spell)) rest ts := by
      simpa [Nat.add_assoc] using hrest
    have := Derives.cons hall ht hrest'
    simpa [Nat.add_assoc] using this

theorem trimStart (h : Derives offset cs ts) :
    Derives (offset + byteLength (cs.takeWhile isBlank)) (Text.trimStart cs) ts := by
  cases h with
  | nil hgap =>
    rw [Text.trimStart_eq_nil_iff.2 hgap]
    exact .nil (by simp)
  | @cons _ gap rest t ts hgap ht hrest =>
    obtain ⟨c, cs, hspell, hc⟩ := Token.exists_start ht rest
    have hnot := Text.isBlank_of_start hc
    have htake : (gap ++ t.spell ++ rest).takeWhile isBlank = gap := by
      rw [List.append_assoc, hspell, List.takeWhile_append_of_pos hgap]
      simp [hnot]
    have htrim : Text.trimStart (gap ++ t.spell ++ rest) = [] ++ t.spell ++ rest := by
      rw [List.append_assoc, Text.trimStart_blank_append hgap, List.nil_append, hspell,
        Text.trimStart_of_not_blank hnot]
    have hrest' : Derives (offset + byteLength gap + byteLength ([] ++ t.spell)) rest ts := by
      simpa [Nat.add_assoc] using hrest
    rw [htake, htrim]
    simpa using Derives.cons (by simp) ht hrest'

end Derives

/-! ## Sentences -/

theorem ByteOrder.ofMarker?_eq_some {c : Char} {order : ByteOrder} : ofMarker? c = some order ↔ c = order.marker := by
  constructor
  · intro h
    unfold ofMarker? at h
    split at h <;> cases h <;> rfl
  · rintro rfl
    cases order <;> rfl

theorem ByteOrder.byteLength_marker (order : ByteOrder) : byteLength [order.marker] = 1 := by
  cases order <;> rfl

theorem splitMarker_marker (order : ByteOrder) (body : List Char) :
    splitMarker (order.marker :: body) = (order, body, 1) := by
  rw [splitMarker, ByteOrder.ofMarker?_eq_some.2 rfl]

/-- A text starts with a marker, or nothing is split off. -/
theorem splitMarker_cases (cs : List Char) :
    (∃ (order : ByteOrder) (body : List Char), cs = order.marker :: body) ∨ splitMarker cs = (.network, cs, 0) := by
  cases cs with
  | nil => exact .inr rfl
  | cons c cs =>
    cases h : ByteOrder.ofMarker? c with
    | some order =>
      obtain rfl := ByteOrder.ofMarker?_eq_some.1 h
      exact .inl ⟨order, cs, rfl⟩
    | none =>
      right
      rw [splitMarker, h]

theorem Sentence.split {cs : List Char} {order : ByteOrder} {ts : List PlacedToken} (h : Sentence cs order ts) :
    let (order', body, markerWidth) := splitMarker (Text.trimStart cs)
    order = order' ∧ Derives (byteLength (cs.takeWhile isBlank) + markerWidth) body ts := by
  cases h with
  | @marked lead body order ts hlead hbody =>
    have hnot := Text.isBlank_marker order
    have htake : (lead ++ order.marker :: body).takeWhile isBlank = lead := by
      rw [List.takeWhile_append_of_pos hlead]
      simp [hnot]
    rw [Text.byteLength_append, order.byteLength_marker] at hbody
    rw [Text.trimStart_blank_append hlead, Text.trimStart_of_not_blank hnot, htake, splitMarker_marker]
    exact ⟨rfl, hbody⟩
  | unmarked hcs =>
    have htrim := hcs.trimStart
    rw [Nat.zero_add] at htrim
    rcases splitMarker_cases (Text.trimStart cs) with ⟨order, body, heq⟩ | hsplit
    · -- a derivation does not start with a marker
      refine absurd ?_ (htrim.head?_ne_marker order)
      rw [heq]
      rfl
    · rw [hsplit]
      exact ⟨rfl, htrim⟩

theorem Sentence.of_split {cs : List Char} {order : ByteOrder} {ts : List PlacedToken}
    (h : let (order', body, markerWidth) := splitMarker (Text.trimStart cs)
      order = order' ∧ Derives (byteLength (cs.takeWhile isBlank) + markerWidth) body ts) :
    Sentence cs order ts := by
  have hlead : ∀ c ∈ cs.takeWhile isBlank, isBlank c = true := fun c hc => List.mem_takeWhile_imp hc
  have hcs : cs.takeWhile isBlank ++ Text.trimStart cs = cs := List.takeWhile_append_dropWhile
  rcases splitMarker_cases (Text.trimStart cs) with ⟨order', body, heq⟩ | hsplit
  · rw [heq, splitMarker_marker] at h
    obtain ⟨rfl, hbody⟩ := h
    rw [← hcs, heq]
    apply Sentence.marked hlead
    rwa [Text.byteLength_append, order.byteLength_marker]
  · rw [hsplit] at h
    obtain ⟨rfl, hbody⟩ := h
    rw [← hcs]
    apply Sentence.unmarked
    exact Derives.blank_append hlead (by simpa using hbody)

/-- The first character that is not blank decides whether there is a marker. -/
theorem sentence_iff {cs : List Char} {order : ByteOrder} {ts : List PlacedToken} :
    Sentence cs order ts ↔
      let (order', body, markerWidth) := splitMarker (Text.trimStart cs)
      order = order' ∧ Derives (byteLength (cs.takeWhile isBlank) + markerWidth) body ts :=
  ⟨Sentence.split, Sentence.of_split⟩

/-- A text is a sentence in one way only. -/
theorem Sentence.unique {cs : List Char} {order order' : ByteOrder} {ts ts' : List PlacedToken}
    (h : Sentence cs order ts) (h' : Sentence cs order' ts') : order = order' ∧ ts = ts' := by
  rw [sentence_iff] at h h'
  obtain ⟨rfl, hbody⟩ := h
  obtain ⟨rfl, hbody'⟩ := h'
  exact ⟨rfl, (Derives.iff_scan.1 hbody).2.trans (Derives.iff_scan.1 hbody').2.symm⟩

end RecordPack

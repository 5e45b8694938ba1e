import RecordPack.Proofs.Schema.Grammar
import RecordPack.Proofs.Schema.Modes

/-!
# What is dropped of a text

`Stretch.ofText` is what a text holds that belongs to no field. It stands in the text in order, and none of it
twice (`Stretch.occurs_of_mem_ofText`, `Stretch.pairwise_ofText`). With blanks in its place the text is a sentence
of the same tokens (`exists_sentence_blankOut`): a gap of blanks ends where the next token starts, as the gap did
before, and neither makes a token nor goes on with one.
-/

namespace RecordPack

open Text (isBlank byteLength)

/-! ## Stretches of text -/

/-- A stretch of a text: the offset where it starts, in bytes, and its characters. -/
structure Stretch where
  offset : Nat
  chars : List Char
deriving DecidableEq, Repr

namespace Stretch

/-- The offset where it ends. -/
def stop (d : Stretch) : Nat := d.offset + byteLength d.chars

/-- The stretch is in a text that starts at an offset. -/
def Occurs (d : Stretch) (offset : Nat) (cs : List Char) : Prop :=
  ∃ pre post, cs = pre ++ d.chars ++ post ∧ d.offset = offset + byteLength pre

/-- The report that the stretch was dropped. -/
def event (d : Stretch) : Event := .textDropped d.offset (String.ofList d.chars)

/-- What is dropped of a gap at an offset: all between the blanks at its ends, if there is anything. -/
def ofGap (offset : Nat) (gap : List Char) : List Stretch :=
  match Text.trim gap with
  | [] => []
  | fragment => [⟨offset + byteLength (gap.takeWhile isBlank), fragment⟩]

/-- What is dropped before the tokens of pieces that stand one after the other from an offset on. -/
def ofPieces (offset : Nat) : List Piece → List Stretch
  | [] => []
  | p :: ps => ofGap offset p.gap ++ ofPieces (offset + byteLength p.spell) ps

/-- What is dropped of a scanned text that starts at an offset. -/
def ofScan (offset : Nat) (s : Scan) : List Stretch :=
  ofPieces offset s.pieces ++ ofGap (offset + byteLength (s.pieces.flatMap Piece.spell)) s.tail

/-- What is dropped of a whole text. -/
def ofText (cs : List Char) : List Stretch :=
  let (_, body, markerWidth) := splitMarker (Text.trimStart cs)
  ofScan (byteLength (cs.takeWhile isBlank) + markerWidth) (Scan.ofText body)

/-! ## Where they stand -/

section Occurs

variable {d : Stretch} {offset : Nat} {cs : List Char}

theorem Occurs.le_offset (h : d.Occurs offset cs) : offset ≤ d.offset := by
  obtain ⟨pre, post, -, hpre⟩ := h
  omega

theorem Occurs.stop_le (h : d.Occurs offset cs) : d.stop ≤ offset + byteLength cs := by
  obtain ⟨pre, post, rfl, hpre⟩ := h
  rw [Text.byteLength_append, Text.byteLength_append, stop]
  omega

theorem Occurs.append_right (h : d.Occurs offset cs) (ds : List Char) : d.Occurs offset (cs ++ ds) := by
  obtain ⟨pre, post, rfl, hpre⟩ := h
  exact ⟨pre, post ++ ds, by simp, hpre⟩

theorem Occurs.append_left {before : List Char} (h : d.Occurs (offset + byteLength before) cs) :
    d.Occurs offset (before ++ cs) := by
  obtain ⟨pre, post, rfl, hpre⟩ := h
  exact ⟨before ++ pre, post, by simp, by rw [hpre, Text.byteLength_append, Nat.add_assoc]⟩

end Occurs

theorem ofGap_eq_nil_iff {offset : Nat} {gap : List Char} :
    ofGap offset gap = [] ↔ ∀ c ∈ gap, isBlank c = true := by
  rw [← Text.trim_eq_nil_iff, ofGap]
  cases Text.trim gap <;> simp

theorem ofGap_of_core {lead core trail : List Char} (offset : Nat) (hlead : ∀ c ∈ lead, isBlank c = true)
    (htrail : ∀ c ∈ trail, isBlank c = true) (hne : core ≠ []) (hhead : ∀ c ∈ core.head?, isBlank c = false)
    (hlast : ∀ c ∈ core.getLast?, isBlank c = false) :
    ofGap offset (lead ++ core ++ trail) = [⟨offset + byteLength lead, core⟩] := by
  have htrim := Text.trim_of_core hlead htrail hne hhead hlast
  obtain ⟨c, core, rfl⟩ := List.exists_cons_of_ne_nil hne
  have htake : (lead ++ c :: core ++ trail).takeWhile isBlank = lead := by
    rw [List.append_assoc, List.takeWhile_append_of_pos hlead]
    simp [hhead c rfl]
  rw [ofGap, htrim, htake]

/-- A gap is blank, or blanks with one dropped stretch between them. -/
theorem ofGap_cases (offset : Nat) (gap : List Char) :
    (ofGap offset gap = [] ∧ ∀ c ∈ gap, isBlank c = true) ∨
      ∃ d lead trail, ofGap offset gap = [d] ∧ gap = lead ++ d.chars ++ trail ∧ d.offset = offset + byteLength lead ∧
        (∀ c ∈ lead, isBlank c = true) ∧ (∀ c ∈ trail, isBlank c = true) ∧ d.chars ≠ [] ∧
        (∀ c ∈ d.chars.head?, isBlank c = false) ∧ ∀ c ∈ d.chars.getLast?, isBlank c = false := by
  obtain ⟨lead, trail, hgap, hlead, htrail, hhead, hlast⟩ := Text.exists_trim gap
  by_cases htrim : Text.trim gap = []
  · left
    have hblank := Text.trim_eq_nil_iff.1 htrim
    exact ⟨ofGap_eq_nil_iff.2 hblank, hblank⟩
  · right
    refine ⟨⟨offset + byteLength lead, Text.trim gap⟩, lead, trail, ?_, hgap, rfl, hlead, htrail, htrim, hhead, hlast⟩
    calc ofGap offset gap
        = ofGap offset (lead ++ Text.trim gap ++ trail) := congrArg _ hgap
      _ = [⟨offset + byteLength lead, Text.trim gap⟩] := ofGap_of_core offset hlead htrail htrim hhead hlast

variable {d : Stretch} {offset : Nat}

theorem occurs_of_mem_ofGap {gap : List Char} (h : d ∈ ofGap offset gap) : d.Occurs offset gap ∧ d.chars ≠ [] := by
  rcases ofGap_cases offset gap with ⟨hnil, -⟩ | ⟨d', lead, trail, hone, hgap, hoffset, -, -, hne, -⟩
  · rw [hnil] at h
    cases h
  · rw [hone, List.mem_singleton] at h
    subst h
    exact ⟨⟨lead, trail, hgap, hoffset⟩, hne⟩

theorem ofScan_cons (offset : Nat) (p : Piece) (ps : List Piece) (tail : List Char) :
    ofScan offset ⟨p :: ps, tail⟩ = ofGap offset p.gap ++ ofScan (offset + byteLength p.spell) ⟨ps, tail⟩ := by
  simp only [ofScan, ofPieces, List.flatMap_cons, Text.byteLength_append, List.append_assoc, Nat.add_assoc]

theorem occurs_of_mem_ofScan {ps : List Piece} {tail : List Char} : ∀ {offset : Nat},
    d ∈ ofScan offset ⟨ps, tail⟩ → d.Occurs offset (ps.flatMap Piece.spell ++ tail) ∧ d.chars ≠ [] := by
  induction ps with
  | nil =>
    intro offset h
    exact occurs_of_mem_ofGap h
  | cons p ps ih =>
    intro offset h
    rw [ofScan_cons, List.mem_append] at h
    rw [List.flatMap_cons, List.append_assoc]
    rcases h with h | h
    · obtain ⟨hoccurs, hne⟩ := occurs_of_mem_ofGap h
      rw [Piece.spell, List.append_assoc]
      exact ⟨hoccurs.append_right _, hne⟩
    · obtain ⟨hoccurs, hne⟩ := ih h
      exact ⟨hoccurs.append_left, hne⟩

/-- The stretches come in the order of the text, and none reaches into the next. -/
theorem pairwise_ofScan {ps : List Piece} {tail : List Char} : ∀ {offset : Nat},
    (ofScan offset ⟨ps, tail⟩).Pairwise fun a b => a.stop ≤ b.offset := by
  have hgap : ∀ (offset : Nat) (gap : List Char), (ofGap offset gap).Pairwise fun a b => a.stop ≤ b.offset := by
    intro offset gap
    rcases ofGap_cases offset gap with ⟨hnil, -⟩ | ⟨d, lead, trail, hone, -⟩
    · rw [hnil]
      exact .nil
    · rw [hone]
      exact List.pairwise_singleton _ d
  induction ps with
  | nil => intro offset; exact hgap offset tail
  | cons p ps ih =>
    intro offset
    rw [ofScan_cons, List.pairwise_append]
    refine ⟨hgap offset p.gap, ih, ?_⟩
    intro a ha b hb
    have hstop := (occurs_of_mem_ofGap ha).1.stop_le
    have hoffset := (occurs_of_mem_ofScan hb).1.le_offset
    rw [Piece.spell, Text.byteLength_append] at hoffset
    omega

end Stretch

/-- A text that starts at an offset, with blanks for the characters of the stretches: `width n` of them for the
character at the offset `n`. -/
def blankOut (width : Nat → Nat) (drops : List Stretch) : (offset : Nat) → List Char → List Char
  | _, [] => []
  | offset, c :: cs =>
    (if drops.any fun d => d.offset ≤ offset && offset < d.stop then List.replicate (width offset) ' ' else [c]) ++
      blankOut width drops (offset + c.utf8Size) cs

section BlankOut

variable {width : Nat → Nat} {drops : List Stretch} {offset : Nat}

theorem blankOut_append (width : Nat → Nat) (drops : List Stretch) (as bs : List Char) : ∀ offset,
    blankOut width drops offset (as ++ bs) =
      blankOut width drops offset as ++ blankOut width drops (offset + byteLength as) bs := by
  induction as with
  | nil => intro offset; rfl
  | cons a as ih =>
    intro offset
    rw [List.cons_append, blankOut, blankOut, ih, List.append_assoc, Text.byteLength_cons, Nat.add_assoc]

/-- Text that no stretch meets stays. -/
theorem blankOut_eq_self {cs : List Char} : ∀ {offset : Nat},
    (∀ d ∈ drops, d.stop ≤ offset ∨ offset + byteLength cs ≤ d.offset) → blankOut width drops offset cs = cs := by
  induction cs with
  | nil => intro offset _; rfl
  | cons c cs ih =>
    intro offset h
    have hsize := c.utf8Size_pos
    have hnone : (drops.any fun d => d.offset ≤ offset && offset < d.stop) = false := by
      rw [List.any_eq_false]
      intro d hd
      have := h d hd
      rw [Text.byteLength_cons] at this
      simp only [Bool.and_eq_true, decide_eq_true_eq]
      omega
    have hrest : blankOut width drops (offset + c.utf8Size) cs = cs := by
      apply ih
      intro d hd
      have := h d hd
      rw [Text.byteLength_cons] at this
      omega
    rw [blankOut, hnone, hrest]
    rfl

/-- Blanks stay blanks. -/
theorem blank_blankOut {cs : List Char} : ∀ {offset : Nat}, (∀ c ∈ cs, isBlank c = true) →
    ∀ c ∈ blankOut width drops offset cs, isBlank c = true := by
  induction cs with
  | nil => intro offset _ c hc; cases hc
  | cons b cs ih =>
    intro offset h c hc
    rw [blankOut, List.mem_append] at hc
    rcases hc with hc | hc
    · split at hc
      · rw [List.eq_of_mem_replicate hc]
        decide
      · rw [List.mem_singleton.1 hc]
        exact h b List.mem_cons_self
    · exact ih (fun d hd => h d (List.mem_cons_of_mem _ hd)) c hc

/-- Blanks stand for a stretch. -/
theorem blank_blankOut_of_mem {d : Stretch} (hd : d ∈ drops) {cs : List Char} : ∀ {offset : Nat},
    d.offset ≤ offset → offset + byteLength cs ≤ d.stop → ∀ c ∈ blankOut width drops offset cs, isBlank c = true := by
  induction cs with
  | nil => intro offset _ _ c hc; cases hc
  | cons b cs ih =>
    intro offset hlo hhi c hc
    have hsize := b.utf8Size_pos
    rw [Text.byteLength_cons] at hhi
    have hcovered : (drops.any fun d => d.offset ≤ offset && offset < d.stop) = true := by
      rw [List.any_eq_true]
      refine ⟨d, hd, ?_⟩
      simp only [Bool.and_eq_true, decide_eq_true_eq]
      omega
    rw [blankOut, hcovered, if_pos rfl, List.mem_append] at hc
    rcases hc with hc | hc
    · rw [List.eq_of_mem_replicate hc]
      decide
    · exact ih (by omega) (by omega) c hc

end BlankOut

/-! ## Blanked texts -/

/-- A scanned text is its pieces and its tail, and the tokens are lexical. -/
theorem Scan.ofText_sound (cs : List Char) :
    cs = (ofText cs).pieces.flatMap Piece.spell ++ (ofText cs).tail ∧
      ∀ p ∈ (ofText cs).pieces, p.token.IsLexical := by
  induction cs using Scan.ofText.induct with
  | case1 cs hnone =>
    rw [ofText_of_none hnone]
    exact ⟨rfl, by simp⟩
  | case2 cs gap t rest hsome ih =>
    obtain ⟨hrest, hlexical⟩ := ih
    obtain ⟨hcs, ht⟩ := Token.first?_sound hsome
    rw [ofText_of_some hsome]
    refine ⟨?_, List.forall_mem_cons.2 ⟨ht, hlexical⟩⟩
    rw [List.flatMap_cons, List.append_assoc, ← hrest]
    exact hcs

/-- A gap is blank once what is dropped of it is. -/
theorem blank_blankOut_gap {width : Nat → Nat} {drops : List Stretch} {offset : Nat} {gap : List Char}
    (h : ∀ d ∈ Stretch.ofGap offset gap, d ∈ drops) : ∀ c ∈ blankOut width drops offset gap, isBlank c = true := by
  rcases Stretch.ofGap_cases offset gap with ⟨-, hgap⟩ | ⟨d, lead, trail, hone, hgap, hoffset, hlead, htrail, -⟩
  · exact blank_blankOut hgap
  · have hd : d ∈ drops := h d (by rw [hone]; exact List.mem_singleton_self d)
    rw [hgap, blankOut_append, blankOut_append]
    intro c hc
    rcases List.mem_append.1 hc with hc | hc
    · rcases List.mem_append.1 hc with hc | hc
      · exact blank_blankOut hlead c hc
      · exact blank_blankOut_of_mem hd (Nat.le_of_eq hoffset) (by rw [Stretch.stop, hoffset]) c hc
    · exact blank_blankOut htrail c hc

/-- With blanks for what is dropped between them the tokens are derived, wherever the text starts. -/
theorem exists_derives_blankOut (width : Nat → Nat) {drops : List Stretch} {ps : List Piece} {tail : List Char} :
    ∀ {offset : Nat} (start : Nat), (∀ p ∈ ps, p.token.IsLexical) →
    (∀ d ∈ Stretch.ofScan offset ⟨ps, tail⟩, d ∈ drops) →
    (∀ d ∈ drops, d ∈ Stretch.ofScan offset ⟨ps, tail⟩ ∨ d.stop ≤ offset) →
    ∃ ts, Derives start (blankOut width drops offset (ps.flatMap Piece.spell ++ tail)) ts ∧
      ts.map (·.token) = ps.map (·.token) := by
  induction ps with
  | nil =>
    intro offset start _ hin _
    exact ⟨[], .nil (blank_blankOut_gap hin), rfl⟩
  | cons p ps ih =>
    intro offset start hlexical hin hout
    rw [Stretch.ofScan_cons] at hin hout
    have hspell : byteLength p.spell = byteLength p.gap + byteLength p.token.spell := Text.byteLength_append _ _
    -- no stretch meets the token: those of the gap end before it, and those of the rest start behind it
    have htoken : blankOut width drops (offset + byteLength p.gap) p.token.spell = p.token.spell := by
      apply blankOut_eq_self
      intro d hd
      rcases hout d hd with hmem | hstop
      · rcases List.mem_append.1 hmem with hmem | hmem
        · exact .inl (Stretch.occurs_of_mem_ofGap hmem).1.stop_le
        · right
          have := (Stretch.occurs_of_mem_ofScan hmem).1.le_offset
          omega
      · left
        omega
    have hrest : ∀ d ∈ drops, d ∈ Stretch.ofScan (offset + byteLength p.spell) ⟨ps, tail⟩ ∨
        d.stop ≤ offset + byteLength p.spell := by
      intro d hd
      rcases hout d hd with hmem | hstop
      · rcases List.mem_append.1 hmem with hmem | hmem
        · right
          have := (Stretch.occurs_of_mem_ofGap hmem).1.stop_le
          omega
        · exact .inl hmem
      · right
        omega
    have hgap : ∀ c ∈ blankOut width drops offset p.gap, isBlank c = true :=
      blank_blankOut_gap fun d hd => hin d (List.mem_append_left _ hd)
    obtain ⟨ts, hderives, htokens⟩ := ih (start + byteLength (blankOut width drops offset p.gap ++ p.token.spell))
      (fun q hq => hlexical q (List.mem_cons_of_mem _ hq)) (fun d hd => hin d (List.mem_append_right _ hd)) hrest
    refine ⟨⟨start + byteLength (blankOut width drops offset p.gap), p.token⟩ :: ts, ?_, ?_⟩
    · rw [List.flatMap_cons, List.append_assoc, blankOut_append, Piece.spell, blankOut_append, htoken]
      exact .cons hgap (hlexical p List.mem_cons_self) hderives
    · rw [List.map_cons, List.map_cons, htokens]

theorem eq_of_splitMarker {cs body : List Char} {order : ByteOrder} {markerWidth : Nat}
    (h : splitMarker cs = (order, body, markerWidth)) :
    (cs = order.marker :: body ∧ markerWidth = 1) ∨ (order = .network ∧ cs = body ∧ markerWidth = 0) := by
  rcases splitMarker_cases cs with ⟨order', body', rfl⟩ | hnone
  · rw [splitMarker_marker] at h
    cases h
    exact .inl ⟨rfl, rfl⟩
  · rw [hnone] at h
    cases h
    exact .inr ⟨rfl, rfl, rfl⟩

/-- What stands before the body of a text: blanks, and the marker of a byte order if there is one. -/
inductive Head : List Char → ByteOrder → Prop
  | marked {lead : List Char} {order : ByteOrder} : (∀ c ∈ lead, isBlank c = true) → Head (lead ++ [order.marker]) order
  | unmarked {lead : List Char} : (∀ c ∈ lead, isBlank c = true) → Head lead .network

/-- A text is its head and its body. -/
theorem exists_head {cs body : List Char} {order : ByteOrder} {markerWidth : Nat}
    (h : splitMarker (Text.trimStart cs) = (order, body, markerWidth)) :
    ∃ head, cs = head ++ body ∧ Head head order ∧
      byteLength (cs.takeWhile isBlank) + markerWidth = byteLength head := by
  have hlead : ∀ c ∈ cs.takeWhile isBlank, isBlank c = true := fun c hc => List.mem_takeWhile_imp hc
  have hcs : cs.takeWhile isBlank ++ Text.trimStart cs = cs := List.takeWhile_append_dropWhile
  rcases eq_of_splitMarker h with ⟨htrim, rfl⟩ | ⟨rfl, htrim, rfl⟩
  · refine ⟨cs.takeWhile isBlank ++ [order.marker], ?_, .marked hlead, ?_⟩
    · rw [List.append_assoc, List.singleton_append, ← htrim, hcs]
    · rw [Text.byteLength_append, order.byteLength_marker]
  · exact ⟨cs.takeWhile isBlank, by rw [← htrim, hcs], .unmarked hlead, rfl⟩

/-- A head and tokens make a sentence. -/
theorem Head.sentence {head body : List Char} {order : ByteOrder} {ts : List PlacedToken} (hhead : Head head order)
    (hbody : Derives (byteLength head) body ts) : Sentence (head ++ body) order ts := by
  cases hhead with
  | marked hlead =>
    rw [List.append_assoc]
    exact .marked hlead hbody
  | unmarked hlead => exact .unmarked (Derives.blank_append hlead (by rwa [Nat.zero_add]))

/-- What is dropped of a text is dropped of its body. -/
theorem Stretch.ofText_eq {cs head body : List Char} {order : ByteOrder} {markerWidth : Nat}
    (h : splitMarker (Text.trimStart cs) = (order, body, markerWidth))
    (hlength : byteLength (cs.takeWhile isBlank) + markerWidth = byteLength head) :
    ofText cs = ofScan (byteLength head) (Scan.ofText body) := by
  rw [ofText, h, ← hlength]

/-- What is dropped of a text stands in it. -/
theorem Stretch.occurs_of_mem_ofText {cs : List Char} {d : Stretch} (h : d ∈ ofText cs) :
    d.Occurs 0 cs ∧ d.chars ≠ [] := by
  rcases hsplit : splitMarker (Text.trimStart cs) with ⟨order, body, markerWidth⟩
  obtain ⟨head, hcs, -, hlength⟩ := exists_head hsplit
  rw [ofText_eq hsplit hlength] at h
  obtain ⟨hoccurs, hne⟩ := occurs_of_mem_ofScan h
  rw [← (Scan.ofText_sound body).1] at hoccurs
  rw [hcs]
  exact ⟨Occurs.append_left (by rwa [Nat.zero_add]), hne⟩

/-- What is dropped of a text is in order, and nothing is dropped twice. -/
theorem Stretch.pairwise_ofText (cs : List Char) : (ofText cs).Pairwise fun a b => a.stop ≤ b.offset := by
  rcases hsplit : splitMarker (Text.trimStart cs) with ⟨order, body, markerWidth⟩
  obtain ⟨head, -, -, hlength⟩ := exists_head hsplit
  rw [ofText_eq hsplit hlength]
  exact pairwise_ofScan

-- half a token is dropped, and the other half is a token
example : Stretch.ofText "12:4:s H -".toList = [⟨0, ['1', '2', ':']⟩, ⟨9, ['-']⟩] := by decide +kernel

/-- With blanks for what is dropped of it a text is a sentence, of the tokens that it had. -/
theorem exists_sentence_blankOut (width : Nat → Nat) {cs body : List Char} {order : ByteOrder} {markerWidth : Nat}
    (h : splitMarker (Text.trimStart cs) = (order, body, markerWidth)) :
    ∃ ts, Sentence (blankOut width (Stretch.ofText cs) 0 cs) order ts ∧
      ts.map (·.token) = (Scan.ofText body).pieces.map (·.token) := by
  obtain ⟨head, hcs, hhead, hlength⟩ := exists_head h
  have hdrops := Stretch.ofText_eq h hlength
  obtain ⟨hbody, hlexical⟩ := Scan.ofText_sound body
  -- nothing before the body is dropped
  have hkept : blankOut width (Stretch.ofText cs) 0 head = head := by
    apply blankOut_eq_self
    intro d hd
    rw [hdrops] at hd
    have := (Stretch.occurs_of_mem_ofScan hd).1.le_offset
    omega
  have hblanked : blankOut width (Stretch.ofText cs) 0 cs =
      head ++ blankOut width (Stretch.ofText cs) (byteLength head) body := by
    calc blankOut width (Stretch.ofText cs) 0 cs
        = blankOut width (Stretch.ofText cs) 0 (head ++ body) := congrArg _ hcs
      _ = head ++ blankOut width (Stretch.ofText cs) (byteLength head) body := by
        rw [blankOut_append, hkept, Nat.zero_add]
  obtain ⟨ts, hderives, htokens⟩ := exists_derives_blankOut width (byteLength head) hlexical
    (fun d hd => hdrops ▸ hd) (fun d hd => .inl (hdrops ▸ hd))
  rw [← hbody] at hderives
  rw [hblanked]
  exact ⟨ts, hhead.sentence hderives, htokens⟩

end RecordPack

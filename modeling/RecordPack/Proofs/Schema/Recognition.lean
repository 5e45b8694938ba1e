import RecordPack.Proofs.Schema.Grammar
import RecordPack.Proofs.Schema.Meaning

/-!
# What the strict parser accepts

The strict parser accepts the sentences of the grammar whose tokens denote fields with different ids that fit
a record together, and nothing else (`Schema.parse_eq_ok_iff`).
-/

namespace RecordPack

/-- The strict parser accepts a text exactly if it is a sentence whose tokens denote fields with different ids
that are together no longer than a record can be. It returns these fields, with the byte order of the
marker and the text as it was. The tokens and their places are those of the text alone. -/
theorem Schema.parse_eq_ok_iff (text : String) :
    (∀ s : Schema, (Schema.parse {} text).value = .ok s ↔ ∃ ts, Sentence text.toList s.order ts ∧
      Token.DenotesAll 1 (ts.map (·.token)) s.fields ∧ s.ids.Nodup ∧
      Field.totalWidth s.fields ≤ LengthPrefix.maxLength ∧ s.text = text) ∧
    ∀ order order' ts ts', Sentence text.toList order ts → Sentence text.toList order' ts' →
      order = order' ∧ ts = ts' := by
  refine ⟨?_, fun _ _ _ _ => Sentence.unique⟩
  intro s
  rw [parse_eq_ok]
  simp only [sentence_iff, Derives.iff_scan]
  obtain ⟨order, body, markerWidth⟩ := splitMarker (Text.trimStart text.toList)
  simp only [fieldsOf_eq_ok (Nat.zero_le _), checkGap_eq_ok, Bool.false_eq_true, false_or]
  constructor
  · rintro ⟨⟨hgaps, hall, hnodup, -, hsum⟩, htail, horder, htext⟩
    refine ⟨_, ⟨horder, ⟨hgaps, htail⟩, rfl⟩, ?_, hnodup, by simpa using hsum, htext⟩
    rw [Scan.map_token_places]
    exact hall
  · rintro ⟨_, ⟨horder, ⟨hgaps, htail⟩, rfl⟩, hall, hnodup, hsum, htext⟩
    rw [Scan.map_token_places] at hall
    exact ⟨⟨hgaps, hall, hnodup, by simp, by simpa using hsum⟩, htail, horder, htext⟩

end RecordPack

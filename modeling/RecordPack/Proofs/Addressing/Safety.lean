import RecordPack.Proofs.Addressing.Layout
import RecordPack.Proofs.Addressing.Reading
import RecordPack.Proofs.Addressing.Writing
import RecordPack.Proofs.Codec
import RecordPack.Proofs.Schema.Overflow

/-!
# Accepted schemas are safe to compute with

The parser accepts no schema whose fixed fields are together longer than a record can be, and refuses a text for this
reason only where the sum gets too large. What it accepts is laid out, written and read with words of 64 bits and by
offsets and indices, and nothing goes wrong on the way (`Schema.parse_safe`).
-/

namespace RecordPack

namespace Addressing

/-- Laying out the schema, writing the rows that fit it and reading from anywhere have no trap on their way, and give
what is given without words and offsets. -/
structure Safe (s : Schema) : Prop where
  layout : layout s = .ok (Segment.ofSchema s)
  put : ∀ (e : Endian) (position : Nat) (row : Row), row.length = s.arity →
    putSegments e position row (Segment.ofSchema s) = untrapped (Writer.segments e position (Segment.ofSchema s) row)
  get : ∀ (e : Endian) (c : Cursor),
    getSegments e (Segment.ofSchema s) c = untrapped (Reader.segments e (Segment.ofSchema s) c)

theorem safe_of_wellFormed {s : Schema} (h : s.WellFormed) : Safe s where
  layout := layout_eq_ok h.totalWidth_le
  put e position row hrow := by
    have hslots : (Segment.ofSchema s).flatMap Segment.slots = Slot.ofFields s.fields :=
      (Segment.eq_cut_iff.1 (rfl : Segment.ofSchema s = Segment.cut s.order (Slot.ofFields s.fields))).1
    exact putSegments_eq (fun seg hseg => Segment.wellFormed_of_mem h hseg) (hslots ▸ forall₂_isAt hrow)
  get e c := getSegments_eq fun seg hseg => Segment.wellFormed_of_mem h hseg

end Addressing

namespace Schema

/-- An accepted schema has no width and no count of zero, its blocks are together as wide as its fixed fields and no
longer than a record can be, and computing with it is safe. A text is refused for its widths where the sum of those so
far is longer than a record can be for the first time, everything before being fine, and nowhere else. -/
theorem parse_safe (options : ParseOptions) (text : String) :
    (∀ s, (parse options text).value = .ok s →
      (∀ f ∈ s.fields, (∀ w, f.width = .fixed w → 1 ≤ w) ∧ ∀ n, f.count = some (.fixed n) → 1 ≤ n) ∧
        Field.totalWidth s.fields = ((Segment.ofSchema s).map Segment.blockWidth).sum ∧
        Field.totalWidth s.fields ≤ 2 ^ 63 - 1 ∧ Addressing.Safe s) ∧
      ∀ position, (parse options text).value = .error (.widthOverflow position) ↔
        OverflowsAt options text position := by
  refine ⟨fun s hs => ?_, fun position => parse_eq_widthOverflow⟩
  have hwf := wellFormed_of_parse hs
  refine ⟨fun f hf => ⟨(hwf.fields f hf).width_pos, (hwf.fields f hf).count_pos⟩, ?_, ?_, ?_⟩
  · exact (Segment.sum_blockWidth s).symm
  · exact hwf.totalWidth_le
  · exact Addressing.safe_of_wellFormed hwf

/-- The sample is safe, and a text whose second field is one byte too much overflows there. -/
theorem parse_safe_sample :
    ((parse {} sample.text).value = .ok sample ∧ Field.totalWidth sample.fields = 4 ∧
        ((Segment.ofSchema sample).map Segment.blockWidth).sum = 4 ∧ Addressing.Safe sample) ∧
      (parse {} "9223372036854775807s(a) B(b)").value = .error (.widthOverflow 2) ∧
        OverflowsAt {} "9223372036854775807s(a) B(b)" 2 := by
  have hsample : (parse {} sample.text).value = .ok sample := by decide +kernel
  obtain ⟨-, hsum, -, hsafe⟩ := (parse_safe {} sample.text).1 sample hsample
  have hwidth : Field.totalWidth sample.fields = 4 := rfl
  have htoo : (parse {} "9223372036854775807s(a) B(b)").value = .error (.widthOverflow 2) := by decide +kernel
  exact ⟨⟨hsample, hwidth, hsum.symm.trans hwidth, hsafe⟩, htoo, ((parse_safe {} _).2 2).1 htoo⟩

end Schema

end RecordPack

import RecordPack.Json.Stats
import RecordPack.Proofs.Json.ReadBack
import RecordPack.Proofs.Stats.Counters

/-!
# Snapshots read back

A snapshot of 64-bit counters is read back from its text with the same counters and as sane as it was, but the ratios may
be other numbers next to the ones that were printed (`ofJson_toJson`, `not_unchanged`). Its text is the same again only
if they are not.
-/

namespace RecordPack

open Ieee (Binary64 Format binary64)

namespace Counters

/-- Counters of 64 bits, of which both kinds of rows together have no more. -/
structure Fits (c : Counters) : Prop where
  rows : c.rowsEncoded + c.rowsDecoded < UInt64.size
  bytesRecords : c.bytesRecords < UInt64.size
  bytesPrefix : c.bytesPrefix < UInt64.size
  bytesSchema : c.bytesSchema < UInt64.size

/-- The members of the text of counters, with what they are read as. -/
def readMembers (c : Counters) : List Json.Member :=
  [⟨⟨"rows_encoded", .natural⟩, toString c.rowsEncoded, .natural c.rowsEncoded⟩,
    ⟨⟨"rows_decoded", .natural⟩, toString c.rowsDecoded, .natural c.rowsDecoded⟩,
    ⟨⟨"bytes_records", .natural⟩, toString c.bytesRecords, .natural c.bytesRecords⟩,
    ⟨⟨"bytes_prefix", .natural⟩, toString c.bytesPrefix, .natural c.bytesPrefix⟩,
    ⟨⟨"bytes_schema", .natural⟩, toString c.bytesSchema, .natural c.bytesSchema⟩]

theorem Fits.reads {c : Counters} (h : c.Fits) : ∀ m ∈ c.readMembers, m.Reads := by
  have hencoded := Nat.lt_of_le_of_lt (Nat.le_add_right _ _) h.rows
  have hdecoded := Nat.lt_of_le_of_lt (Nat.le_add_left _ _) h.rows
  simp only [readMembers, List.forall_mem_cons]
  exact ⟨Json.reads_natural (by decide) hencoded, Json.reads_natural (by decide) hdecoded,
    Json.reads_natural (by decide) h.bytesRecords, Json.reads_natural (by decide) h.bytesPrefix,
    Json.reads_natural (by decide) h.bytesSchema, nofun⟩

end Counters

namespace Snapshot

/-! ## Members -/

/-- The members of the text of a snapshot, its ratios read as `x` and `y`. -/
def readMembers (s : Snapshot) (x y : Binary64) : List Json.Member :=
  s.counters.readMembers ++
    [⟨⟨"prefix_overhead_ratio", .number⟩, Json.numberText s.prefixRatio, .number x⟩,
      ⟨⟨"avg_record_bytes", .number⟩, Json.numberText s.averageRecord, .number y⟩]

theorem toJson_eq (s : Snapshot) (x y : Binary64) :
    s.toJson = Json.object ((s.readMembers x y).map fun m => (m.column.key, m.text)) := rfl

theorem ofJson_of_reads {s : Snapshot} {x y : Binary64} (h : ∀ m ∈ s.readMembers x y, m.Reads) :
    ofJson s.toJson = .ok ⟨s.counters, x, y⟩ := by
  have hnodup : ((s.readMembers x y).map (·.column.key)).Nodup := show (columns.map (·.key)).Nodup by decide
  have hread := Json.readRecord_object false h hnodup
  have hcolumns : (s.readMembers x y).map (·.column) = columns := rfl
  rw [hcolumns, ← toJson_eq] at hread
  rw [ofJson, hread]
  rfl

/-- The text of a snapshot ends in its ratios. -/
theorem toList_toJson (c : Counters) : ∃ head middle : List Char, ∀ x y : Binary64,
    (toJson ⟨c, x, y⟩).toList = head ++ ((Json.numberText x).toList ++
      (',' :: (middle ++ ((Json.numberText y).toList ++ [Json.Bracket.object.close])))) := by
  refine ⟨Char.ofNat 0x7B :: (Json.spellMembers c.readMembers ++ ',' :: '"' :: ("prefix_overhead_ratio".toList ++ ['"', ':'])),
    '"' :: ("avg_record_bytes".toList ++ ['"', ':']), ?_⟩
  intro x y
  rw [toJson_eq _ x y, Json.toList_object, readMembers, Counters.readMembers, Json.spellMembers_append]
  simp only [Json.Member.spell, List.flatMap_cons, List.flatMap_nil, List.append_nil, List.cons_append, List.append_assoc,
    List.nil_append]

/-- Snapshots with the same counters that have the same text are the same. -/
theorem toJson_inj {s s' : Snapshot} (hcounters : s'.counters = s.counters) (hx : Json.IsUnsigned s.prefixRatio)
    (hx' : Json.IsUnsigned s'.prefixRatio) (hy : Json.IsUnsigned s.averageRecord) (hy' : Json.IsUnsigned s'.averageRecord)
    (h : s'.toJson = s.toJson) : s' = s := by
  obtain ⟨counters, x, y⟩ := s
  obtain ⟨counters', x', y'⟩ := s'
  obtain rfl : counters' = counters := hcounters
  obtain ⟨head, middle, htext⟩ := toList_toJson counters'
  have heq := congrArg String.toList h
  rw [htext, htext] at heq
  have hcomma : ∀ cs, Json.EndsNumber (',' :: cs) := fun cs => Json.endsNumber_of_ends ⟨_, rfl, .inl rfl⟩
  have hclose : Json.EndsNumber [Json.Bracket.object.close] := Json.endsNumber_of_ends ⟨_, rfl, .inr rfl⟩
  obtain ⟨rfl, htail⟩ := hx'.append_inj hx (hcomma _) (hcomma _) (List.append_cancel_left heq)
  obtain ⟨rfl, -⟩ := hy'.append_inj hy hclose hclose (List.append_cancel_left (List.cons.inj htail).2)
  rfl

/-! ## The ratios -/

theorem exists_moderate {a b : Nat} (ha : a < UInt64.size) (hb : b < UInt64.size) :
    ∃ m, Json.Moderate m ∧ ratioOrZero a b = .ofMagnitude false m := by
  unfold ratioOrZero
  split
  · exact ⟨0, ⟨.inl rfl, by decide +kernel⟩, rfl⟩
  · next hpos => exact ⟨_, Json.moderate_quotient ha.le hb.le (Nat.pos_of_ne_zero hpos), rfl⟩

/-! ## Snapshots -/

/-- How a snapshot is read back: the counters as they are, and each ratio as the number that is made of its text. -/
structure ReadsBack (s s' : Snapshot) : Prop where
  counters : s'.counters = s.counters
  prefixRatio : ∃ t, Json.ReadsBack s.prefixRatio s'.prefixRatio t
  averageRecord : ∃ t, Json.ReadsBack s.averageRecord s'.averageRecord t
  isSane : s'.isSane = s.isSane
  toJson_iff : s'.toJson = s.toJson ↔ s' = s

/-- The text of a snapshot is read as a snapshot, and that is the same one but for the ratios. -/
theorem ofJson_toJson {c : Counters} (h : c.Fits) :
    ∃ s, ofJson (ofCounters c).toJson = .ok s ∧ (ofCounters c).ReadsBack s := by
  obtain ⟨m, hm, hx⟩ := exists_moderate h.bytesPrefix h.bytesRecords
  obtain ⟨m', hm', hy⟩ := exists_moderate h.bytesRecords h.rows
  obtain ⟨x, hback, hreads⟩ := hm.readsBack
  obtain ⟨y, hback', hreads'⟩ := hm'.readsBack
  rw [← hx] at hback hreads
  rw [← hy] at hback' hreads'
  have hmembers : ∀ m ∈ (ofCounters c).readMembers x y, m.Reads := by
    refine List.forall_mem_append.2 ⟨h.reads, ?_⟩
    simp only [List.forall_mem_cons]
    exact ⟨hreads _ (by decide), hreads' _ (by decide), nofun⟩
  refine ⟨_, ofJson_of_reads hmembers, rfl, ⟨_, hback⟩, ⟨_, hback'⟩, ?_, ?_⟩
  · rw [Bool.eq_iff_iff, isSane_ofCounters_iff, isSane, Bool.and_eq_true, decide_eq_true_eq]
    exact and_iff_left_of_imp fun hle => hback.atMostOne (atMostOne_ratioOrZero hle)
  · have hx' : Json.IsUnsigned (ratioOrZero c.bytesPrefix c.bytesRecords) := hx ▸ hm.isUnsigned
    have hy' : Json.IsUnsigned (ratioOrZero c.bytesRecords (c.rowsEncoded + c.rowsDecoded)) := hy ▸ hm'.isUnsigned
    exact ⟨toJson_inj rfl hx' hback.unsigned hy' hback'.unsigned, congrArg toJson⟩

theorem ofJson_toJson_sample : Counters.Fits ⟨2, 1, 33, 3, 15⟩ ∧
    ∃ s, ofJson (ofCounters ⟨2, 1, 33, 3, 15⟩).toJson = .ok s ∧ (ofCounters ⟨2, 1, 33, 3, 15⟩).ReadsBack s := by
  have h : Counters.Fits ⟨2, 1, 33, 3, 15⟩ := ⟨by decide, by decide, by decide, by decide⟩
  exact ⟨h, ofJson_toJson h⟩

/-- One byte in eleven is printed as 0.09090909090909091, and that is read as the next number. -/
theorem not_unchanged : Counters.Fits ⟨0, 0, 11, 1, 0⟩ ∧
    ∃ s, ofJson (ofCounters ⟨0, 0, 11, 1, 0⟩).toJson = .ok s ∧ s ≠ ofCounters ⟨0, 0, 11, 1, 0⟩ ∧
      s.toJson ≠ (ofCounters ⟨0, 0, 11, 1, 0⟩).toJson := by
  have hfits : Counters.Fits ⟨0, 0, 11, 1, 0⟩ := ⟨by decide, by decide, by decide, by decide⟩
  have hx : Json.IsUnsigned (ofCounters ⟨0, 0, 11, 1, 0⟩).prefixRatio := ⟨by decide +kernel, by decide +kernel⟩
  have hx' : Json.IsUnsigned ⟨0x3fb745d1745d1747⟩ := ⟨by decide +kernel, by decide +kernel⟩
  have hy : Json.IsUnsigned .zero := ⟨by decide +kernel, by decide +kernel⟩
  have hprinted : (Json.printedParts (ofCounters ⟨0, 0, 11, 1, 0⟩).prefixRatio.magnitude).decimal =
    ⟨9090909090909091, .negSucc 16⟩ := by decide +kernel
  have hread : Binary64.ofMagnitude false (binary64.quotient (binary64.nearest 9090909090909091 1) (Json.powerOfTen 17)) =
    ⟨0x3fb745d1745d1747⟩ := by decide +kernel
  have hvalue := Json.value_of_negSucc hprinted (by decide) (by decide)
  have hprinted' : (Json.printedParts Binary64.zero.magnitude).decimal = ⟨0, .negSucc 0⟩ := by decide +kernel
  have hread' : Binary64.ofMagnitude false (binary64.quotient (binary64.nearest 0 1) (Json.powerOfTen 1)) = .zero := by
    decide +kernel
  have hvalue' := Json.value_of_negSucc hprinted' (by decide) (by decide)
  rw [hread] at hvalue
  rw [hread'] at hvalue'
  have hmembers : ∀ m ∈ (ofCounters ⟨0, 0, 11, 1, 0⟩).readMembers ⟨0x3fb745d1745d1747⟩ .zero, m.Reads := by
    refine List.forall_mem_append.2 ⟨hfits.reads, ?_⟩
    simp only [List.forall_mem_cons]
    exact ⟨hx.reads hvalue (by decide), hy.reads hvalue' (by decide), nofun⟩
  have hne : (⟨⟨0, 0, 11, 1, 0⟩, ⟨0x3fb745d1745d1747⟩, .zero⟩ : Snapshot) ≠ ofCounters ⟨0, 0, 11, 1, 0⟩ := by
    decide +kernel
  exact ⟨hfits, _, ofJson_of_reads hmembers, hne, fun h => hne (toJson_inj rfl hx hx' hy hy h)⟩

end Snapshot

end RecordPack

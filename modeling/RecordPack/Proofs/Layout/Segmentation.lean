import Mathlib.Algebra.GroupWithZero.Nat
import RecordPack.Proofs.Layout.Covers

/-!
# Segments are runs of one class

`Segment.IsRun` says what a segment is, whatever stands beside it: slots of its class, at least one of them, and
if it is a block the width and the format of these. There is one way to cut slots into such segments so that no
two neighbours are of one class (`Segment.eq_cut_iff`), and that is how a schema is cut
(`Segment.eq_ofSchema_iff`).

`Segment.ofSchema` cuts the slots when all of them are there. One pass that starts a segment where a slot of the
other class comes, and adds up widths and format as it goes, gives the same segments: `Addressing.layout_eq_ok` says so
of every schema whose fixed slots are together no longer than a record can be, and a schema that is accepted is one.
-/

namespace RecordPack

/-! ## Blocks -/

theorem Slot.totalWidth_eq (slots : List Slot) :
    totalWidth slots = (slots.filterMap (·.shape.fixedWidth?)).sum := by
  induction slots with
  | nil => rfl
  | cons slot slots ih =>
    rw [totalWidth, ih]
    cases h : slot.shape.fixedWidth? <;> simp [h]

theorem FixedRun.toList_format_ofSlots (order : ByteOrder) (slots : List Slot) :
    (ofSlots order slots).format.toList =
      order.marker :: (slots.filterMap (·.shape.formatToken?)).flatMap String.toList := by
  have htokens : slots.flatMap (fun slot => (slot.shape.formatToken?.getD "").toList) =
      (slots.filterMap (·.shape.formatToken?)).flatMap String.toList := by
    induction slots with
    | nil => rfl
    | cons slot slots ih =>
      rw [List.flatMap_cons, ih]
      cases h : slot.shape.formatToken? <;> simp [h]
  unfold ofSlots
  rw [String.toList_join, List.flatMap_cons, List.flatMap_map, htokens]
  simp [toString]

namespace Segment

/-- A segment on its own: slots of its class, at least one. A block is as wide as its slots together, and its format
is the byte order and then what stands for each of them. -/
structure IsRun (order : ByteOrder) (seg : Segment) : Prop where
  ne_nil : seg.slots ≠ []
  uniform : ∀ slot ∈ seg.slots, slot.shape.isFixed = seg.isFixed
  width : ∀ run, seg = .fixed run → run.width = (run.slots.filterMap (·.shape.fixedWidth?)).sum
  format : ∀ run, seg = .fixed run → run.format.toList =
    order.marker :: (run.slots.filterMap (·.shape.formatToken?)).flatMap String.toList

variable {order : ByteOrder} {run slots : List Slot}

@[simp] theorem slots_ofRun (order : ByteOrder) (run : List Slot) : (ofRun order run).slots = run := by
  unfold ofRun
  split <;> rfl

/-- A run of one class is a segment. -/
theorem isRun_ofRun (hne : run ≠ [])
    (hclass : (∀ slot ∈ run, slot.shape.isFixed = true) ∨ (∀ slot ∈ run, slot.shape.isFixed = false)) :
    (ofRun order run).IsRun order := by
  rcases hclass with hfixed | hdynamic
  · rw [ofRun_of_fixed hfixed]
    refine ⟨hne, hfixed, ?_, ?_⟩
    · rintro _ ⟨⟩
      exact Slot.totalWidth_eq run
    · rintro _ ⟨⟩
      exact FixedRun.toList_format_ofSlots order run
  · rw [ofRun_of_dynamic hne hdynamic]
    exact ⟨hne, hdynamic, nofun, nofun⟩

/-- A block is as wide as its slots together. -/
theorem IsRun.totalWidth_slots {run : FixedRun} (h : (fixed run).IsRun order) :
    Slot.totalWidth run.slots = run.width := (Slot.totalWidth_eq run.slots).trans (h.width run rfl).symm

/-- A segment is what its slots make it. -/
theorem IsRun.eq_ofRun {seg : Segment} (h : seg.IsRun order) : ofRun order seg.slots = seg := by
  cases seg with
  | fixed run =>
    obtain ⟨slots, format, width⟩ := run
    have hwidth := h.totalWidth_slots.symm
    have hformat := String.toList_inj.1 ((h.format _ rfl).trans (FixedRun.toList_format_ofSlots order slots).symm)
    rw [ofRun_of_fixed h.uniform]
    simp only at hwidth hformat
    rw [hwidth, hformat]
    rfl
  | dynamic slots => exact ofRun_of_dynamic h.ne_nil h.uniform

/-- A segment is of the class of each of its slots. -/
theorem IsRun.isFixed_eq {seg : Segment} (h : seg.IsRun order) {slot : Slot} (hslot : slot ∈ seg.slots) :
    seg.isFixed = slot.shape.isFixed := (h.uniform slot hslot).symm

/-- All slots of a segment are of one class, so any two neighbours are. -/
theorem IsRun.isChain {seg : Segment} (h : seg.IsRun order) :
    seg.slots.IsChain fun a b => (a.shape.isFixed == b.shape.isFixed) = true := by
  apply List.Pairwise.isChain
  apply List.pairwise_of_forall_mem_list
  intro a ha b hb
  rw [h.uniform a ha, h.uniform b hb, beq_self_eq_true]

/-- The segments of slots that are cut where the class changes. -/
def cut (order : ByteOrder) (slots : List Slot) : List Segment :=
  (slots.splitBy fun a b => a.shape.isFixed == b.shape.isFixed).map (ofRun order)

theorem isRun_of_mem_cut {seg : Segment} (h : seg ∈ cut order slots) : seg.IsRun order := by
  obtain ⟨run, hrun, rfl⟩ := List.mem_map.1 h
  have hne := List.ne_nil_of_mem_splitBy hrun
  exact isRun_ofRun hne (Slot.uniform_of_isChain hne (List.isChain_of_mem_splitBy hrun))

/-- The cut is the only one into segments of which no two neighbours are of one class. -/
theorem eq_cut_iff {segs : List Segment} : segs = cut order slots ↔ segs.flatMap Segment.slots = slots ∧
    (∀ seg ∈ segs, seg.IsRun order) ∧ segs.IsChain fun a b => a.isFixed ≠ b.isFixed := by
  constructor
  · rintro rfl
    refine ⟨?_, fun seg => isRun_of_mem_cut, ?_⟩
    · simp only [cut, List.flatMap_map, slots_ofRun, List.flatMap_id']
      exact List.flatten_splitBy _ slots
    · refine (List.isChain_map _).2 ((List.isChain_getLast_head_splitBy _ slots).imp_of_mem_imp ?_)
      -- where two runs meet, the class of the last slot and that of the first one differ
      rintro as bs has hbs ⟨ha, hb, hdiffer⟩
      have hsegA : (ofRun order as).IsRun order := isRun_of_mem_cut (List.mem_map_of_mem has)
      have hsegB : (ofRun order bs).IsRun order := isRun_of_mem_cut (List.mem_map_of_mem hbs)
      rw [hsegA.isFixed_eq (by rw [slots_ofRun]; exact List.getLast_mem ha),
        hsegB.isFixed_eq (by rw [slots_ofRun]; exact List.head_mem hb)]
      exact beq_eq_false_iff_ne.1 hdiffer
  · rintro ⟨hslots, hruns, hchain⟩
    have hsplit : slots.splitBy (fun a b => a.shape.isFixed == b.shape.isFixed) = segs.map Segment.slots := by
      refine List.splitBy_eq_iff.2 ⟨hslots.symm, ?_, ?_, ?_⟩
      · intro hnil
        obtain ⟨seg, hseg, heq⟩ := List.mem_map.1 hnil
        exact (hruns seg hseg).ne_nil heq
      · intro run hrun
        obtain ⟨seg, hseg, rfl⟩ := List.mem_map.1 hrun
        exact (hruns seg hseg).isChain
      · refine (List.isChain_map _).2 (hchain.imp_of_mem_imp ?_)
        intro a b ha hb hdiffer
        refine ⟨(hruns a ha).ne_nil, (hruns b hb).ne_nil, beq_eq_false_iff_ne.2 ?_⟩
        rw [← (hruns a ha).isFixed_eq (List.getLast_mem _), ← (hruns b hb).isFixed_eq (List.head_mem _)]
        exact hdiffer
    have hmap : segs.map (ofRun order ∘ Segment.slots) = segs.map id :=
      List.map_congr_left fun seg hseg => (hruns seg hseg).eq_ofRun
    rw [cut, hsplit, List.map_map, hmap, List.map_id]

/-- The segments of a schema are its fields, each with its position, its id and its layout, in the only cut into
segments of which no two neighbours are of one class. -/
theorem eq_ofSchema_iff (s : Schema) (segs : List Segment) : segs = ofSchema s ↔
    segs.flatMap Segment.slots = s.fields.mapIdx (fun index f => ⟨index, f.id, .ofField f⟩) ∧
      (∀ seg ∈ segs, seg.IsRun s.order) ∧ segs.IsChain fun a b => a.isFixed ≠ b.isFixed :=
  eq_cut_iff

end Segment

end RecordPack

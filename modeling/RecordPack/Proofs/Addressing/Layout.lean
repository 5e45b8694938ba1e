import RecordPack.Proofs.Addressing.Steps
import RecordPack.Proofs.Layout.WellFormed

/-!
# Layouts slot by slot

A machine makes the segments of a schema in one pass: a slot goes into the last segment if it is of its class, and
starts another one if not. The width of a block is the sum so far and its format the text so far. If the fixed
slots are together no longer than a record can be, no sum and no product on the way is too large, and the segments
are those of the schema (`layout_eq_ok`).
-/

namespace RecordPack

/-! ## Cutting one slot more -/

theorem FixedRun.ofSlots_concat (order : ByteOrder) (slots : List Slot) (slot : Slot) :
    ofSlots order (slots ++ [slot]) = ⟨slots ++ [slot], (ofSlots order slots).format ++
      slot.shape.formatToken?.getD "", Slot.totalWidth slots + slot.shape.fixedWidth?.getD 0⟩ := by
  simp [ofSlots, Slot.totalWidth_append, Slot.totalWidth, String.join_cons, String.append_assoc]

theorem FixedRun.ofSlots_singleton (order : ByteOrder) (slot : Slot) : ofSlots order [slot] =
    ⟨[slot], toString order.marker ++ slot.shape.formatToken?.getD "", slot.shape.fixedWidth?.getD 0⟩ := by
  simp [ofSlots, Slot.totalWidth, String.join_cons]

namespace Segment

variable {order : ByteOrder} {slot : Slot} {slots : List Slot} {seg : Segment} {segs : List Segment}

/-- One segment more, of another class than the last one. -/
theorem concat_eq_cut (hslots : segs.flatMap Segment.slots ++ seg.slots = slots) (hruns : ∀ a ∈ segs, a.IsRun order)
    (hchain : segs.IsChain fun a b => a.isFixed ≠ b.isFixed) (hseg : seg.IsRun order)
    (hclass : ∀ a ∈ segs.getLast?, a.isFixed ≠ seg.isFixed) : segs ++ [seg] = cut order slots := by
  refine eq_cut_iff.2 ⟨?_, ?_, ?_⟩
  · rw [List.flatMap_append, List.flatMap_singleton, hslots]
  · intro a ha
    rcases List.mem_append.1 ha with ha | ha
    · exact hruns a ha
    · rwa [List.mem_singleton.1 ha]
  · refine List.isChain_append.2 ⟨hchain, List.isChain_singleton seg, ?_⟩
    rintro a ha _ ⟨⟩
    exact hclass a ha

/-- Slots of one class that go on with another of theirs. -/
theorem IsRun.concat (hseg : seg.IsRun order) (hclass : slot.shape.isFixed = seg.isFixed) :
    ∀ a ∈ seg.slots ++ [slot], a.shape.isFixed = seg.isFixed := by
  intro a ha
  rcases List.mem_append.1 ha with ha | ha
  · exact hseg.uniform a ha
  · rw [List.mem_singleton.1 ha, hclass]

/-- A slot of the class of the last segment goes into it. -/
theorem concat_eq_cut_of_eq (h : segs ++ [seg] = cut order slots) (hclass : slot.shape.isFixed = seg.isFixed) :
    segs ++ [ofRun order (seg.slots ++ [slot])] = cut order (slots ++ [slot]) := by
  obtain ⟨hslots, hruns, hchain⟩ := eq_cut_iff.1 h
  obtain ⟨hchain, -, hmeet⟩ := List.isChain_append.1 hchain
  have hall := (hruns seg (List.mem_append_right _ (List.mem_singleton_self seg))).concat hclass
  have hrun : (ofRun order (seg.slots ++ [slot])).IsRun order := by
    refine isRun_ofRun (by simp) ?_
    cases hfixed : seg.isFixed
    · exact .inr (hfixed ▸ hall)
    · exact .inl (hfixed ▸ hall)
  -- the segment stays of its class, so it still differs from the one before it
  have hsame : (ofRun order (seg.slots ++ [slot])).isFixed = seg.isFixed :=
    (hrun.isFixed_eq (by simp)).trans hclass
  refine concat_eq_cut ?_ (fun a ha => hruns a (List.mem_append_left _ ha)) hchain hrun fun a ha => ?_
  · rw [slots_ofRun, ← List.append_assoc, ← hslots, List.flatMap_append, List.flatMap_singleton]
  · rw [hsame]
    exact hmeet a ha seg rfl

/-- A slot of another class than the last segment starts one. -/
theorem concat_eq_cut_of_ne (h : segs = cut order slots)
    (hclass : ∀ seg ∈ segs.getLast?, seg.isFixed ≠ slot.shape.isFixed) :
    segs ++ [ofRun order [slot]] = cut order (slots ++ [slot]) := by
  obtain ⟨hslots, hruns, hchain⟩ := eq_cut_iff.1 h
  have hrun : (ofRun order [slot]).IsRun order := by
    refine isRun_ofRun (by simp) ?_
    cases hfixed : slot.shape.isFixed
    · exact .inr (by simpa using hfixed)
    · exact .inl (by simpa using hfixed)
  have hsame : (ofRun order [slot]).isFixed = slot.shape.isFixed := hrun.isFixed_eq (by simp)
  exact concat_eq_cut (by rw [hslots, slots_ofRun]) hruns hchain hrun fun a ha => hsame ▸ hclass a ha

theorem blockWidth_le_of_concat_eq_cut (h : segs ++ [seg] = cut order slots) :
    seg.blockWidth ≤ Slot.totalWidth slots := by
  obtain ⟨hslots, hruns, -⟩ := eq_cut_iff.1 h
  have hseg := hruns seg (List.mem_append_right _ (List.mem_singleton_self seg))
  rw [← hslots, List.flatMap_append, Slot.totalWidth_append, List.flatMap_singleton]
  refine Nat.le_trans ?_ (Nat.le_add_left _ _)
  cases seg with
  | fixed run => exact Nat.le_of_eq hseg.totalWidth_slots.symm
  | dynamic slots => exact Nat.zero_le _

end Segment

namespace Addressing

/-! ## One slot -/

/-- The number of bytes of a shape, if it is the same in every record. -/
def fixedWidth : Shape → Except Halt (Option Nat)
  | .scalar _ width => .ok (some width)
  | .fixedList _ itemWidth count => do
    let width ← mul itemWidth count
    return some width
  | _ => .ok none

/-- What stands for a shape in a format. -/
def formatToken (shape : Shape) : Except Halt String :=
  match shape with
  | .fixedList .bytes itemWidth count => do
    let width ← mul itemWidth count
    return s!"{width}{ScalarType.bytes.char}"
  | _ => .ok (shape.formatToken?.getD "")

/-- Puts a slot behind those of segments, of which the last one comes first. -/
def push (order : ByteOrder) (segs : List Segment) (slot : Slot) : Except Halt (List Segment) := do
  let width? ← fixedWidth slot.shape
  match segs, width? with
  | .fixed run :: segs, some width =>
    let total ← add run.width width
    let token ← formatToken slot.shape
    return .fixed ⟨run.slots ++ [slot], run.format ++ token, total⟩ :: segs
  | .dynamic slots :: segs, none => return .dynamic (slots ++ [slot]) :: segs
  | segs, some width =>
    let token ← formatToken slot.shape
    return .fixed ⟨[slot], toString order.marker ++ token, width⟩ :: segs
  | segs, none => return .dynamic [slot] :: segs

/-- The segments of a schema, in one pass. -/
def layout (s : Schema) : Except Halt (List Segment) :=
  ((Slot.ofFields s.fields).foldlM (push s.order) []).map List.reverse

theorem fixedWidth_eq_ok {shape : Shape} (h : shape.fixedWidth?.getD 0 ≤ LengthPrefix.maxLength) :
    fixedWidth shape = .ok shape.fixedWidth? := by
  cases shape with
  | fixedList type itemWidth count =>
    rw [fixedWidth, mul_eq_ok h]
    rfl
  | _ => rfl

theorem formatToken_eq_ok {shape : Shape} (h : shape.fixedWidth?.getD 0 ≤ LengthPrefix.maxLength) :
    formatToken shape = .ok (shape.formatToken?.getD "") := by
  cases shape with
  | fixedList type itemWidth count =>
    cases type with
    | bytes =>
      rw [formatToken, mul_eq_ok h]
      rfl
    | _ => rfl
  | _ => rfl


/-! ## All slots -/

section Push

variable {order : ByteOrder} {slot : Slot} {seg : Segment} {segs : List Segment}

theorem push_of_ne (hslot : slot.shape.fixedWidth?.getD 0 ≤ LengthPrefix.maxLength)
    (hclass : ∀ seg ∈ segs.head?, seg.isFixed ≠ slot.shape.isFixed) :
    push order segs slot = .ok (.ofRun order [slot] :: segs) := by
  rw [push, fixedWidth_eq_ok hslot, ok_bind, formatToken_eq_ok hslot]
  cases hwidth : slot.shape.fixedWidth? with
  | some width =>
    have hfixed : slot.shape.isFixed = true := by rw [Shape.isFixed, hwidth]; rfl
    rw [Segment.ofRun_of_fixed (by simpa using hfixed), FixedRun.ofSlots_singleton, hwidth]
    rcases segs with _ | ⟨_ | _, segs⟩
    case cons.fixed run => exact absurd hfixed.symm (hclass _ rfl)
    all_goals rfl
  | none =>
    have hdynamic : slot.shape.isFixed = false := by rw [Shape.isFixed, hwidth]; rfl
    rw [Segment.ofRun_of_dynamic (by simp) (by simpa using hdynamic)]
    rcases segs with _ | ⟨_ | _, segs⟩
    case cons.dynamic run => exact absurd hdynamic.symm (hclass _ rfl)
    all_goals rfl

theorem push_of_eq (hseg : seg.IsRun order) (hclass : slot.shape.isFixed = seg.isFixed)
    (hle : seg.blockWidth + slot.shape.fixedWidth?.getD 0 ≤ LengthPrefix.maxLength) :
    push order (seg :: segs) slot = .ok (.ofRun order (seg.slots ++ [slot]) :: segs) := by
  have hslot : slot.shape.fixedWidth?.getD 0 ≤ LengthPrefix.maxLength := Nat.le_trans (Nat.le_add_left _ _) hle
  have hall := hseg.concat hclass
  have hself := hseg.eq_ofRun
  rw [push, fixedWidth_eq_ok hslot, ok_bind, formatToken_eq_ok hslot]
  cases seg with
  | fixed run =>
    obtain ⟨width, hwidth⟩ := Option.isSome_iff_exists.1 hclass
    rw [hwidth] at hle
    -- the block is what its slots make it, so its format goes on from theirs
    rw [Segment.ofRun_of_fixed hseg.uniform] at hself
    have hrun : FixedRun.ofSlots order run.slots = run := Segment.fixed.inj hself
    have hadd : add run.width width = .ok (run.width + width) := add_eq_ok hle
    rw [hwidth, Segment.ofRun_of_fixed hall, Segment.slots, FixedRun.ofSlots_concat, hseg.totalWidth_slots, hrun, hwidth]
    simp only [hadd, ok_bind]
    rfl
  | dynamic run =>
    have hnone : slot.shape.fixedWidth? = none := Option.not_isSome_iff_eq_none.1 (Bool.eq_false_iff.1 hclass)
    rw [hnone, Segment.ofRun_of_dynamic (by simp) hall]
    rfl

/-- A slot more is a slot more of the cut. -/
theorem push_eq_ok {slots : List Slot} (hle : Slot.totalWidth (slots ++ [slot]) ≤ LengthPrefix.maxLength) :
    push order (Segment.cut order slots).reverse slot = .ok (Segment.cut order (slots ++ [slot])).reverse := by
  have htotal : Slot.totalWidth slots + slot.shape.fixedWidth?.getD 0 ≤ LengthPrefix.maxLength := by
    simpa [Slot.totalWidth_append, Slot.totalWidth] using hle
  have hslot : slot.shape.fixedWidth?.getD 0 ≤ LengthPrefix.maxLength := Nat.le_trans (Nat.le_add_left _ _) htotal
  generalize hsegs : (Segment.cut order slots).reverse = segs
  have hcut : segs.reverse = Segment.cut order slots := by rw [← hsegs, List.reverse_reverse]
  by_cases hclass : ∀ seg ∈ segs.head?, seg.isFixed ≠ slot.shape.isFixed
  · rw [push_of_ne hslot hclass, ← Segment.concat_eq_cut_of_ne hcut (by rwa [List.getLast?_reverse]),
      List.reverse_append, List.reverse_reverse]
    rfl
  · cases segs with
    | nil => exact absurd (by simp) hclass
    | cons seg segs =>
      have hclass : slot.shape.isFixed = seg.isFixed := by simpa [eq_comm] using hclass
      rw [List.reverse_cons] at hcut
      have hrun := Segment.isRun_of_mem_cut (hcut ▸ List.mem_append_right _ (List.mem_singleton_self seg))
      have hwidth := Segment.blockWidth_le_of_concat_eq_cut hcut
      rw [push_of_eq hrun hclass (Nat.le_trans (Nat.add_le_add_right hwidth _) htotal),
        ← Segment.concat_eq_cut_of_eq hcut hclass, List.reverse_append, List.reverse_reverse]
      rfl

end Push

theorem foldlM_push (order : ByteOrder) {slots : List Slot} : ∀ {done : List Slot},
    Slot.totalWidth (done ++ slots) ≤ LengthPrefix.maxLength →
    slots.foldlM (push order) (Segment.cut order done).reverse = .ok (Segment.cut order (done ++ slots)).reverse := by
  induction slots with
  | nil =>
    intro done _
    rw [List.append_nil]
    rfl
  | cons slot slots ih =>
    intro done hle
    rw [List.append_cons] at hle ⊢
    have hslot : Slot.totalWidth (done ++ [slot]) ≤ LengthPrefix.maxLength := by
      rw [Slot.totalWidth_append] at hle
      exact Nat.le_trans (Nat.le_add_right _ _) hle
    rw [List.foldlM_cons, push_eq_ok hslot, ok_bind, ih hle]

/-- The pass goes through, and gives the segments of the schema. -/
theorem layout_eq_ok {s : Schema} (h : Field.totalWidth s.fields ≤ LengthPrefix.maxLength) :
    layout s = .ok (Segment.ofSchema s) := by
  have hle : Slot.totalWidth ([] ++ Slot.ofFields s.fields) ≤ LengthPrefix.maxLength := by
    rwa [List.nil_append, Slot.totalWidth_eq_of_forall₂ (Slot.forall₂_ofFields s.fields)]
  have hpass := foldlM_push s.order hle
  rw [layout]
  change (List.foldlM (push s.order) (Segment.cut s.order []).reverse _).map List.reverse = _
  rw [hpass, map_ok, List.reverse_reverse]
  rfl

end Addressing

end RecordPack

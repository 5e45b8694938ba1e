import Mathlib.Data.List.SplitBy
import Mathlib.Data.List.Forall2
import RecordPack.Layout.Segment

/-!
# Segments cover their fields

`Covers order segs fields` says that the segments are those fields in order, each segment of one class
and each block as wide as its fields together. The segments of a schema cover its fields
(`covers_ofSchema`), so what reads or writes segments is compared with what reads or writes fields by
induction on `Covers`, without a look at how the runs were cut.
-/

namespace RecordPack

/-- The slot is that of the field. -/
def Slot.IsOf (slot : Slot) (f : Field) : Prop := slot.id = f.id ∧ slot.shape = .ofField f

theorem Shape.fixedWidth?_ofField (f : Field) : (Shape.ofField f).fixedWidth? = f.fixedWidth? := by
  obtain ⟨id, type, width, count, note⟩ := f
  rcases width with w | _ <;> rcases count with _ | n | _ <;> rfl

theorem Slot.IsOf.fixedWidth? {slot : Slot} {f : Field} (h : slot.IsOf f) :
    slot.shape.fixedWidth? = f.fixedWidth? := by
  rw [h.2, Shape.fixedWidth?_ofField]

/-- The segment is those fields: all of fixed width, or none. -/
inductive Segment.IsOf (order : ByteOrder) : Segment → List Field → Prop
  | fixed {slots : List Slot} {fs : List Field} : List.Forall₂ Slot.IsOf slots fs →
      (∀ f ∈ fs, f.fixedWidth?.isSome) → IsOf order (.fixed (.ofSlots order slots)) fs
  | dynamic {slots : List Slot} {fs : List Field} : List.Forall₂ Slot.IsOf slots fs →
      (∀ f ∈ fs, f.fixedWidth? = none) → IsOf order (.dynamic slots) fs

theorem Segment.IsOf.length_eq {order : ByteOrder} {seg : Segment} {fs : List Field} (h : seg.IsOf order fs) :
    seg.slots.length = fs.length := by
  cases h with
  | fixed hof _ => exact hof.length_eq
  | dynamic hof _ => exact hof.length_eq

/-- The segments are the fields, in order. -/
inductive Covers (order : ByteOrder) : List Segment → List Field → Prop
  | nil : Covers order [] []
  | cons {seg : Segment} {fs fields : List Field} {segs : List Segment} :
      seg.IsOf order fs → Covers order segs fields → Covers order (seg :: segs) (fs ++ fields)

theorem Slot.forall₂_ofFields (fields : List Field) : List.Forall₂ Slot.IsOf (Slot.ofFields fields) fields := by
  rw [List.forall₂_iff_get]
  refine ⟨by simp [Slot.ofFields], ?_⟩
  intro i h₁ h₂
  simp [Slot.ofFields, Slot.IsOf]

theorem exists_mem_of_forall₂ {α β : Type} {R : α → β → Prop} {as : List α} {bs : List β}
    (h : List.Forall₂ R as bs) : ∀ b ∈ bs, ∃ a ∈ as, R a b := by
  induction h with
  | nil => simp
  | @cons a b as bs hab _ ih =>
    intro b' hb'
    rcases List.mem_cons.1 hb' with rfl | hb'
    · exact ⟨a, List.mem_cons_self, hab⟩
    · obtain ⟨a', ha', hR⟩ := ih b' hb'
      exact ⟨a', List.mem_cons_of_mem _ ha', hR⟩

/-- Neighbours in a run are of one class, so all slots of it are of the class of the first. -/
theorem Slot.isFixed_eq_of_isChain {run : List Slot} : ∀ {a : Slot},
    (a :: run).IsChain (fun a b => (a.shape.isFixed == b.shape.isFixed) = true) →
      ∀ slot ∈ a :: run, slot.shape.isFixed = a.shape.isFixed := by
  induction run with
  | nil => simp
  | cons b run ih =>
    intro a h slot hslot
    obtain ⟨hab, hrest⟩ := List.isChain_cons_cons.1 h
    rcases List.mem_cons.1 hslot with rfl | hslot
    · rfl
    · rw [ih hrest slot hslot]
      exact (beq_iff_eq.1 hab).symm

theorem Slot.uniform_of_isChain {run : List Slot} (hne : run ≠ [])
    (h : run.IsChain fun a b => (a.shape.isFixed == b.shape.isFixed) = true) :
    (∀ slot ∈ run, slot.shape.isFixed = true) ∨ (∀ slot ∈ run, slot.shape.isFixed = false) := by
  obtain ⟨a, run, rfl⟩ := List.exists_cons_of_ne_nil hne
  have hall := Slot.isFixed_eq_of_isChain h
  cases ha : a.shape.isFixed with
  | true => exact .inl (by simpa only [ha] using hall)
  | false => exact .inr (by simpa only [ha] using hall)

/-- What is known of the widths of slots holds of the widths of their fields. -/
theorem Slot.forall_width (p : Option Nat → Prop) {run : List Slot} {fs : List Field}
    (h : List.Forall₂ Slot.IsOf run fs) (hrun : ∀ slot ∈ run, p slot.shape.fixedWidth?) :
    ∀ f ∈ fs, p f.fixedWidth? := by
  intro f hf
  obtain ⟨slot, hslot, hof⟩ := exists_mem_of_forall₂ h f hf
  rw [← hof.fixedWidth?]
  exact hrun slot hslot

theorem Segment.ofRun_of_fixed {order : ByteOrder} {run : List Slot} (h : ∀ slot ∈ run, slot.shape.isFixed = true) :
    ofRun order run = .fixed (.ofSlots order run) := if_pos (List.all_eq_true.2 h)

theorem Segment.ofRun_of_dynamic {order : ByteOrder} {run : List Slot} (hne : run ≠ [])
    (h : ∀ slot ∈ run, slot.shape.isFixed = false) : ofRun order run = .dynamic run := by
  apply if_neg
  intro hall
  -- a run is not empty, so its slots are not of both classes
  obtain ⟨slot, hslot⟩ := List.exists_mem_of_ne_nil run hne
  have hfixed := List.all_eq_true.1 hall slot hslot
  rw [h slot hslot] at hfixed
  cases hfixed

/-- A run of one class is a segment of its fields. -/
theorem Segment.isOf_ofRun (order : ByteOrder) {run : List Slot} {fs : List Field}
    (h : List.Forall₂ Slot.IsOf run fs) (hne : run ≠ [])
    (hclass : (∀ slot ∈ run, slot.shape.isFixed = true) ∨ (∀ slot ∈ run, slot.shape.isFixed = false)) :
    (Segment.ofRun order run).IsOf order fs := by
  rcases hclass with hfix | hdyn
  · rw [ofRun_of_fixed hfix]
    apply IsOf.fixed h
    exact Slot.forall_width (·.isSome = true) h hfix
  · rw [ofRun_of_dynamic hne hdyn]
    apply IsOf.dynamic h
    apply Slot.forall_width (· = none) h
    intro slot hslot
    exact Option.not_isSome_iff_eq_none.1 (by simpa [Shape.isFixed] using hdyn slot hslot)

/-- Runs of one class each, taken as segments, cover the fields of their slots. -/
theorem covers_of_runs (order : ByteOrder) {runs : List (List Slot)} :
    ∀ {fields : List Field}, List.Forall₂ Slot.IsOf runs.flatten fields → (∀ run ∈ runs, run ≠ [] ∧
      ((∀ slot ∈ run, slot.shape.isFixed = true) ∨ (∀ slot ∈ run, slot.shape.isFixed = false))) →
      Covers order (runs.map (Segment.ofRun order)) fields := by
  induction runs with
  | nil =>
    intro fields h _
    cases h
    exact .nil
  | cons run runs ih =>
    intro fields h hruns
    rw [List.flatten_cons] at h
    have hrun : List.Forall₂ Slot.IsOf run (fields.take run.length) := by
      have := List.forall₂_take run.length h
      rwa [List.take_left] at this
    have hrest : List.Forall₂ Slot.IsOf runs.flatten (fields.drop run.length) := by
      have := List.forall₂_drop run.length h
      rwa [List.drop_left] at this
    obtain ⟨hne, hclass⟩ := hruns run List.mem_cons_self
    rw [List.map_cons, ← List.take_append_drop run.length fields]
    apply Covers.cons
    · exact Segment.isOf_ofRun order hrun hne hclass
    · exact ih hrest fun r hr => hruns r (List.mem_cons_of_mem _ hr)

/-- The segments of a schema are its fields. -/
theorem covers_ofSchema (s : Schema) : Covers s.order (Segment.ofSchema s) s.fields := by
  apply covers_of_runs
  · rw [List.flatten_splitBy]
    exact Slot.forall₂_ofFields s.fields
  · intro run hrun
    have hne := List.ne_nil_of_mem_splitBy hrun
    exact ⟨hne, Slot.uniform_of_isChain hne (List.isChain_of_mem_splitBy hrun)⟩

end RecordPack

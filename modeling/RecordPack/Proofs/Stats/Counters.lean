import Mathlib.Algebra.BigOperators.Group.Multiset.Basic
import RecordPack.Proofs.Ieee.Monotone
import RecordPack.Stats.Snapshot

/-!
# Counters

The sum of two counters adds each count on its own. The counters of several workers are merged two at a time, in any
order and grouping (`Counters.Merged`). They form a commutative monoid, so the result is their sum
(`Counters.merged_iff`).

A snapshot is sane exactly if its counters are: the ratio that is drawn from them, rounded at every step, then exceeds
one no more than the exact one (`Snapshot.isSane_ofCounters_iff`).
-/

namespace RecordPack

namespace Counters

/-! ## Sums -/

@[simp] theorem rowsEncoded_add (a b : Counters) : (a + b).rowsEncoded = a.rowsEncoded + b.rowsEncoded := rfl

@[simp] theorem rowsDecoded_add (a b : Counters) : (a + b).rowsDecoded = a.rowsDecoded + b.rowsDecoded := rfl

@[simp] theorem bytesRecords_add (a b : Counters) : (a + b).bytesRecords = a.bytesRecords + b.bytesRecords := rfl

@[simp] theorem bytesPrefix_add (a b : Counters) : (a + b).bytesPrefix = a.bytesPrefix + b.bytesPrefix := rfl

@[simp] theorem bytesSchema_add (a b : Counters) : (a + b).bytesSchema = a.bytesSchema + b.bytesSchema := rfl

/-! ## Merging -/

instance : Zero Counters := ⟨{}⟩

theorem zero_def : (0 : Counters) = {} := rfl

instance : AddCommMonoid Counters where
  add_assoc a b c := by ext <;> simp [Nat.add_assoc]
  zero_add a := by ext <;> simp [zero_def]
  add_zero a := by ext <;> simp [zero_def]
  add_comm a b := by ext <;> simp [Nat.add_comm]
  nsmul := nsmulRec

/-- What comes of counters that are merged two at a time, perhaps starting from fresh ones. -/
inductive Merged : Multiset Counters → Counters → Prop
  | fresh : Merged 0 {}
  | single (a : Counters) : Merged {a} a
  | merge {s t : Multiset Counters} {a b : Counters} : Merged s a → Merged t b → Merged (s + t) (a + b)

/-- Neither the order nor the grouping makes a difference. -/
theorem merged_iff {s : Multiset Counters} {total : Counters} : Merged s total ↔ total = s.sum := by
  constructor
  · intro h
    induction h with
    | fresh => rfl
    | single a => rw [Multiset.sum_singleton]
    | merge _ _ ihs iht => rw [Multiset.sum_add, ihs, iht]
  · rintro rfl
    induction s using Multiset.induction_on with
    | empty => exact .fresh
    | cons a s ih =>
      rw [Multiset.sum_cons, ← Multiset.singleton_add]
      exact .merge (.single a) ih

end Counters

/-! ## Snapshots -/

namespace Snapshot

open Ieee (Binary64)

theorem atMostOne_ratioOrZero {a b : Nat} (h : a ≤ b) : (ratioOrZero a b).atMostOne = true := by
  unfold ratioOrZero
  split
  · decide +kernel
  · next hb => exact Binary64.atMostOne_ratio (Nat.pos_of_ne_zero hb) h

theorem isSane_ofCounters_iff (c : Counters) : (ofCounters c).isSane = true ↔ c.bytesPrefix ≤ c.bytesRecords := by
  rw [isSane, ofCounters, Bool.and_eq_true, decide_eq_true_eq]
  exact and_iff_left_of_imp atMostOne_ratioOrZero

end Snapshot

end RecordPack

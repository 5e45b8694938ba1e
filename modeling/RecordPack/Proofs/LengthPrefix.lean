import RecordPack.LengthPrefix
import RecordPack.Proofs.Endian
import RecordPack.Proofs.Fallible

/-!
# Length prefixes

`Measures bs n` says that `bs` is a prefix that reads as `n`, in either form. The writer's prefix is
the one for its length that is no longer than any other (`isShortest_iff`), and a prefix is read
whatever follows it (`read_of_measures`).
-/

namespace RecordPack.LengthPrefix

/-- The bytes are a prefix, short or long, for the number. -/
def Measures (bs : Bytes) (n : Nat) : Prop := read 0 bs = .ok (bs.length, n)

/-- No prefix for the same number is shorter. -/
def IsShortest (bs : Bytes) : Prop := ∀ n bs', Measures bs n → Measures bs' n → bs.length ≤ bs'.length

theorem head_gt_shortMax_iff {bs : Bytes} (h : bs.length = 8) :
    shortMax < Endian.big.ofBytes (bs.take 4) ↔ longBias ≤ Endian.big.ofBytes bs := by
  have hsplit := Endian.ofBytes_big_append (bs.take 4) (bs.drop 4)
  have hlow := Endian.big.ofBytes_lt (bs.drop 4)
  have hlen : (bs.drop 4).length = 4 := by simp [h]
  rw [List.take_append_drop, hlen] at hsplit
  rw [hlen] at hlow
  simp only [shortMax, longBias]
  omega

/-- A prefix is four bytes that spell a short number, or eight bytes with the leading bit set. -/
theorem measures_iff {bs : Bytes} {n : Nat} :
    Measures bs n ↔ (bs.length = 4 ∧ Endian.big.ofBytes bs = n ∧ n ≤ shortMax) ∨
      (bs.length = 8 ∧ Endian.big.ofBytes bs = n + longBias) := by
  simp only [Measures, read]
  constructor
  · intro h
    split at h
    · cases h
    · split at h
      · next hle =>
        simp only [Except.ok.injEq, Prod.mk.injEq] at h
        obtain ⟨hlen, rfl⟩ := h
        -- the four bytes that decide the form are all there are
        rw [List.take_of_length_le hlen.ge] at hle ⊢
        exact .inl ⟨hlen.symm, rfl, hle⟩
      · next hgt =>
        split at h
        · cases h
        · simp only [Except.ok.injEq, Prod.mk.injEq] at h
          obtain ⟨hlen, rfl⟩ := h
          have hge := (head_gt_shortMax_iff hlen.symm).1 (Nat.not_le.1 hgt)
          rw [List.take_of_length_le hlen.ge]
          exact .inr ⟨hlen.symm, (Nat.sub_add_cancel hge).symm⟩
  · rintro (⟨hlen, hval, hle⟩ | ⟨hlen, hval⟩)
    · have htake : bs.take 4 = bs := List.take_of_length_le hlen.le
      simp [htake, hlen, hval, hle]
    · have htake : bs.take 8 = bs := List.take_of_length_le hlen.le
      have hgt : ¬ Endian.big.ofBytes (bs.take 4) ≤ shortMax :=
        Nat.not_le.2 ((head_gt_shortMax_iff hlen).2 (by omega))
      simp [htake, hlen, hgt, hval]

theorem Measures.length_eq {bs : Bytes} {n : Nat} (h : Measures bs n) : bs.length = 4 ∨ bs.length = 8 := by
  rcases measures_iff.1 h with ⟨hlen, -⟩ | ⟨hlen, -⟩
  · exact .inl hlen
  · exact .inr hlen

theorem Measures.le_maxLength {bs : Bytes} {n : Nat} (h : Measures bs n) : n ≤ maxLength := by
  rcases measures_iff.1 h with ⟨-, -, hle⟩ | ⟨hlen, hval⟩
  · simp only [shortMax, maxLength] at hle ⊢
    omega
  · have hlt := Endian.big.ofBytes_lt bs
    rw [hlen] at hlt
    simp only [longBias, maxLength] at hval ⊢
    omega

theorem Measures.lt_size {bs : Bytes} {n : Nat} (h : Measures bs n) : n < UInt64.size := by
  have hle := h.le_maxLength
  simp only [maxLength, UInt64.size] at hle ⊢
  omega

/-- A prefix is read whatever follows it. -/
theorem read_of_measures {bs : Bytes} {n : Nat} (h : Measures bs n) (offset : Nat) (tail : Bytes) :
    read offset (bs ++ tail) = .ok (bs.length, n) := by
  rcases measures_iff.1 h with ⟨hlen, hval, hle⟩ | ⟨hlen, hval⟩
  · have htake : (bs ++ tail).take 4 = bs := List.take_left' hlen
    simp [read, htake, hlen, hval, hle]
  · have htake : (bs ++ tail).take 8 = bs := List.take_left' hlen
    have hhead : (bs ++ tail).take 4 = bs.take 4 := List.take_append_of_le_length (by omega)
    have hgt : ¬ Endian.big.ofBytes (bs.take 4) ≤ shortMax :=
      Nat.not_le.2 ((head_gt_shortMax_iff hlen).2 (by omega))
    simp [read, htake, hhead, hlen, hgt, hval]

/-- Of a prefix that is cut short, the first four bytes say how many there should be. -/
theorem read_take_of_measures {bs : Bytes} {n k : Nat} (h : Measures bs n) (hk : k < bs.length) (offset : Nat) :
    read offset (bs.take k) = .error (.malformed offset (if k < 4 then 4 else 8) k) := by
  have hlen : (bs.take k).length = k := List.length_take_of_le hk.le
  unfold read
  by_cases hfour : k < 4
  · have hhead : (bs.take k).take 4 = bs.take k := List.take_of_length_le (by omega)
    simp [hhead, hlen, hfour]
  · -- four bytes are there and some are missing, so this is the long form
    have height : bs.length = 8 := by rcases h.length_eq with h | h <;> omega
    have hhead : (bs.take k).take 4 = bs.take 4 := by rw [List.take_take, Nat.min_eq_left (by omega)]
    have hwhole : (bs.take k).take 8 = bs.take k := List.take_of_length_le (by omega)
    have hgt : ¬ Endian.big.ofBytes (bs.take 4) ≤ shortMax := by
      rcases measures_iff.1 h with ⟨hbs, -⟩ | ⟨-, hval⟩
      · omega
      · exact Nat.not_le.2 ((head_gt_shortMax_iff height).2 (by omega))
    have hlong : k < 8 := by omega
    simp [hhead, hwhole, hlen, hfour, hgt, height, hlong]

/-- What is read stands at the head of the rest. -/
theorem measures_of_read {offset : Nat} {rest : Bytes} {w n : Nat} (h : read offset rest = .ok (w, n)) :
    (rest.take w).length = w ∧ Measures (rest.take w) n := by
  simp only [read] at h
  split at h
  · cases h
  · next h4 =>
    have hlen4 : (rest.take 4).length = 4 := by simp at h4 ⊢; omega
    split at h
    · next hle =>
      cases h
      exact ⟨hlen4, measures_iff.2 (.inl ⟨hlen4, rfl, hle⟩)⟩
    · next hgt =>
      split at h
      · cases h
      · next h8 =>
        cases h
        have hlen8 : (rest.take 8).length = 8 := by simp at h8 ⊢; omega
        have hhead : (rest.take 8).take 4 = rest.take 4 := by rw [List.take_take]; rfl
        have hge := (head_gt_shortMax_iff hlen8).1 (by rw [hhead]; exact Nat.not_le.1 hgt)
        exact ⟨hlen8, measures_iff.2 (.inr ⟨hlen8, (Nat.sub_add_cancel hge).symm⟩)⟩

/-- Every length up to the greatest has a prefix. -/
theorem exists_encode {n : Nat} (h : n ≤ maxLength) : ∃ bs, encode n = .ok bs := by
  rw [encode, if_pos h]
  split <;> exact ⟨_, rfl⟩

theorem encode_eq_error_iff {n : Nat} {cause : LengthError} :
    encode n = .error cause ↔ maxLength < n ∧ cause = .tooLong n := by
  simp only [encode]
  split
  · simp only [reduceCtorEq, false_iff, not_and]
    intro hlt
    simp only [shortMax, maxLength] at *
    omega
  · split
    · simp only [reduceCtorEq, false_iff, not_and]
      omega
    · simp only [Except.error.injEq]
      constructor
      · rintro rfl
        exact ⟨by omega, rfl⟩
      · rintro ⟨-, rfl⟩
        rfl

theorem measures_of_encode {n : Nat} {bs : Bytes} (h : encode n = .ok bs) : Measures bs n := by
  unfold encode at h
  split at h
  · next hle =>
    cases h
    have hlt : n < 256 ^ 4 := by simp only [shortMax] at hle; omega
    exact measures_iff.2 (.inl ⟨Endian.length_toBytes _ _ _, Endian.ofBytes_toBytes_of_lt _ hlt, hle⟩)
  · split at h
    · next hle =>
      cases h
      have hlt : n + longBias < 256 ^ 8 := by simp only [maxLength, longBias] at hle ⊢; omega
      exact measures_iff.2 (.inr ⟨Endian.length_toBytes _ _ _, Endian.ofBytes_toBytes_of_lt _ hlt⟩)
    · cases h

theorem length_encode {n : Nat} {bs : Bytes} (h : encode n = .ok bs) :
    bs.length = if n ≤ shortMax then 4 else 8 := by
  unfold encode at h
  split at h
  · next hle =>
    cases h
    simp [hle]
  · next hgt =>
    split at h
    · cases h
      simp [hgt]
    · cases h

theorem width?_eq (n : Nat) :
    width? n = match encode n with
      | .ok bs => some bs.length
      | .error _ => none := by
  simp only [width?, encode]
  split
  · simp
  · split <;> simp

/-- Longer lengths have no shorter prefixes. -/
theorem length_encode_mono {m n : Nat} {as bs : Bytes} (hmn : m ≤ n) (hm : encode m = .ok as)
    (hn : encode n = .ok bs) : as.length ≤ bs.length := by
  rw [length_encode hm, length_encode hn]
  split <;> split <;> omega

/-- No prefix for a length is shorter than the one that is written. -/
theorem length_encode_le {n : Nat} {as bs : Bytes} (hn : encode n = .ok as) (h : Measures bs n) :
    as.length ≤ bs.length := by
  rw [length_encode hn]
  rcases measures_iff.1 h with ⟨hlen, -, hle⟩ | ⟨hlen, -⟩
  · simp [hlen, hle]
  · rw [hlen]
    split <;> omega

/-- Prefixes of one width for one number are equal. -/
theorem Measures.eq_of_length_eq {as bs : Bytes} {n : Nat} (ha : Measures as n) (hb : Measures bs n)
    (hlen : as.length = bs.length) : as = bs := by
  apply Endian.ofBytes_inj (e := .big) hlen
  rcases measures_iff.1 ha with ⟨h₁, h₂, -⟩ | ⟨h₁, h₂⟩ <;>
    rcases measures_iff.1 hb with ⟨h₃, h₄, -⟩ | ⟨h₃, h₄⟩ <;> omega

/-- The writer's prefix is the shortest one. -/
theorem isShortest_iff {bs : Bytes} {n : Nat} (h : Measures bs n) : IsShortest bs ↔ encode n = .ok bs := by
  obtain ⟨as, has⟩ := exists_encode h.le_maxLength
  have hle := length_encode_le has h
  have hmeas := measures_of_encode has
  constructor
  · intro hs
    rw [has, hmeas.eq_of_length_eq h (Nat.le_antisymm hle (hs n as h hmeas))]
  · intro hbs m bs' hm hm'
    -- a prefix says one number only
    obtain rfl : m = n := by
      have := hm.symm.trans h
      simpa using this
    exact length_encode_le hbs hm'

end RecordPack.LengthPrefix

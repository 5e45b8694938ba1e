import RecordPack.Proofs.LengthPrefix

/-!
# Prefixes as a code

The prefixes that are written are a code: each length up to the greatest has one, it reads back from between any other
bytes, and none is the beginning of another. The reader takes more than that code, namely the long form of a short
length as well, and what it takes is no longer the prefix that is written exactly there (`encode_eq_iff`). Still no
prefix of either form is the beginning of another one (`Measures.eq_of_isPrefix`).
-/

namespace RecordPack.LengthPrefix

variable {m n : Nat} {as bs : Bytes}

/-! ## The leading bit -/

/-- Four bytes spell a short length when their leading bit is clear. -/
theorem shiftRight_eq_zero_iff (head : Nat) : head >>> 31 = 0 ↔ head ≤ shortMax := by
  rw [Nat.shiftRight_eq_div_pow, Nat.div_eq_zero_iff]
  simp only [shortMax]
  omega

/-- The bias of a long form is its leading bit. -/
theorem or_longBias (h : n ≤ maxLength) : n ||| longBias = n + longBias := by
  have hlt : n < 2 ^ 63 := by simp only [maxLength] at h; omega
  have hbias : longBias = 2 ^ 63 * 1 := rfl
  rw [Nat.or_comm, hbias, ← Nat.two_pow_add_eq_or_of_lt hlt, Nat.add_comm]

/-- A prefix bit by bit: the form is told by what the length has above 31 bits, and the long one is the length with
the leading bit set. -/
theorem encode_eq_or (n : Nat) : encode n =
    if n >>> 31 = 0 then .ok (Endian.big.toBytes 4 n)
    else if n >>> 63 = 0 then .ok (Endian.big.toBytes 8 (n ||| longBias))
    else .error (.tooLong n) := by
  have hlong : n >>> 63 = 0 ↔ n ≤ maxLength := by
    rw [Nat.shiftRight_eq_div_pow, Nat.div_eq_zero_iff]
    simp only [maxLength]
    omega
  simp only [encode, shiftRight_eq_zero_iff, hlong]
  split
  · rfl
  · split
    · next hle => rw [or_longBias hle]
    · rfl

/-! ## Prefixes side by side -/

/-- No prefix, short or long, is the beginning of another one. -/
theorem Measures.eq_of_isPrefix (ha : Measures as m) (hb : Measures bs n) (h : as <+: bs) : as = bs ∧ m = n := by
  obtain ⟨tail, rfl⟩ := h
  -- the longer one reads as the shorter one, so nothing stands behind that
  have hread := (read_of_measures ha 0 tail).symm.trans hb
  simp only [Except.ok.injEq, Prod.mk.injEq, List.length_append] at hread
  obtain ⟨hlen, hmn⟩ := hread
  have htail : tail = [] := List.eq_nil_of_length_eq_zero (by omega)
  exact ⟨by rw [htail, List.append_nil], hmn⟩

/-- A prefix is the one that is written, unless it is the long form of a short length. -/
theorem encode_eq_iff (has : encode n = .ok as) (hbs : Measures bs n) : as = bs ↔ bs.length = 4 ∨ shortMax < n := by
  have hlen := length_encode has
  constructor
  · rintro rfl
    by_cases hle : n ≤ shortMax
    · exact .inl (by rw [hlen, if_pos hle])
    · exact .inr (Nat.lt_of_not_le hle)
  · intro h
    apply (measures_of_encode has).eq_of_length_eq hbs
    rcases measures_iff.1 hbs with ⟨hfour, -, hle⟩ | ⟨height, -⟩
    · rw [hlen, hfour, if_pos hle]
    · rw [hlen, height, if_neg (by omega)]

theorem width?_of_encode (h : encode n = .ok bs) : width? n = some bs.length := by
  rw [width?_eq, h]

/-! ## Prefixes in a buffer -/

/-- What is read in a buffer is there, and it is a prefix. -/
theorem measures_of_decode {data : Bytes} {offset w : Nat} (h : decode data offset = .ok (w, n)) :
    offset + w ≤ data.length ∧ ((data.drop offset).take w).length = w ∧ Measures ((data.drop offset).take w) n := by
  obtain ⟨hlen, hm⟩ := measures_of_read h
  refine ⟨?_, hlen, hm⟩
  have hpos := hm.length_eq
  rw [List.length_take, List.length_drop] at hlen hpos
  omega

/-- More bytes behind a prefix that is there change nothing. -/
theorem decode_append_right {data : Bytes} {offset w : Nat} (h : decode data offset = .ok (w, n)) (more : Bytes) :
    decode (data ++ more) offset = .ok (w, n) := by
  obtain ⟨hthere, hlen, hm⟩ := measures_of_decode h
  have hsplit : (data ++ more).drop offset =
      (data.drop offset).take w ++ ((data.drop offset).drop w ++ more) := by
    rw [List.drop_append_of_le_length (by omega), ← List.append_assoc, List.take_append_drop]
  rw [decode, hsplit, read_of_measures hm, hlen]

/-- A prefix is read from between any other bytes. -/
theorem decode_of_measures (h : Measures bs n) (a b : Bytes) : decode (a ++ bs ++ b) a.length = .ok (bs.length, n) := by
  rw [decode, List.append_assoc, List.drop_left]
  exact read_of_measures h _ b

/-- Puts the prefix for a length at the end of a buffer, and gives its width. The buffer is the state of the step, and
outlives an error. -/
def put (n : Nat) : ExceptT LengthError (StateM Bytes) Nat := do
  let bs ← ExceptT.mk (pure (encode n))
  modify (· ++ bs)
  return bs.length

theorem run_put_of_ok (h : encode n = .ok bs) (data : Bytes) :
    (put n).run.run data = (.ok bs.length, data ++ bs) := by
  simp only [put, h]
  rfl

theorem run_put_of_error {cause : LengthError} (h : encode n = .error cause) (data : Bytes) :
    (put n).run.run data = (.error cause, data) := by
  simp only [put, h]
  rfl

/-! ## The code -/

/-- Each length of 63 bits has a prefix, of four bytes if it has 31 bits and of eight if not, which is put behind a
buffer and reads back from between any other bytes; longer ones are refused, and the buffer stays as it is. What is
read at any place of any buffer is there, and it is no shorter than the prefix that is written for what it says; it is
the same one unless it is the long form of a short length. No prefix that is written is the beginning of another. -/
theorem encode_isPrefixCode :
    (∀ n ≤ 2 ^ 63 - 1, ∃ bs, encode n = .ok bs ∧ width? n = some bs.length ∧
      bs.length = (if n ≤ 0x7FFFFFFF then 4 else 8) ∧
      ∀ a b, (put n).run.run a = (.ok bs.length, a ++ bs) ∧ append a n = .ok (a ++ bs) ∧
        decode (a ++ bs ++ b) a.length = .ok (bs.length, n)) ∧
    (∀ n ≥ 2 ^ 63, encode n = .error (.tooLong n) ∧ width? n = none ∧
      ∀ a, (put n).run.run a = (.error (.tooLong n), a) ∧ append a n = .error (.tooLong n)) ∧
    (∀ data offset w n, decode data offset = .ok (w, n) →
      offset + w ≤ data.length ∧ (w = 4 ∨ w = 8) ∧ n ≤ 2 ^ 63 - 1 ∧
        ∃ bs, encode n = .ok bs ∧ bs.length ≤ w ∧ (bs = (data.drop offset).take w ↔ w = 4 ∨ 0x7FFFFFFF < n)) ∧
    ∀ m n as bs, encode m = .ok as → encode n = .ok bs → as <+: bs → as = bs ∧ m = n := by
  refine ⟨?_, ?_, ?_, ?_⟩
  · intro n hn
    obtain ⟨bs, hbs⟩ := exists_encode (n := n) (by simp only [maxLength]; omega)
    refine ⟨bs, hbs, width?_of_encode hbs, length_encode hbs, fun a b => ⟨run_put_of_ok hbs a, ?_, ?_⟩⟩
    · rw [append, hbs, map_ok]
    · exact decode_of_measures (measures_of_encode hbs) a b
  · intro n hn
    have herr : encode n = .error (.tooLong n) :=
      encode_eq_error_iff.2 ⟨by simp only [maxLength]; omega, rfl⟩
    refine ⟨herr, by rw [width?_eq, herr], fun a => ⟨run_put_of_error herr a, ?_⟩⟩
    rw [append, herr]
    rfl
  · intro data offset w n h
    obtain ⟨hthere, hlen, hm⟩ := measures_of_decode h
    obtain ⟨bs, hbs⟩ := exists_encode hm.le_maxLength
    have hle := length_encode_le hbs hm
    have hiff := encode_eq_iff hbs hm
    have hwidth := hm.length_eq
    rw [hlen] at hle hiff hwidth
    exact ⟨hthere, hwidth, hm.le_maxLength, bs, hbs, hle, hiff⟩
  · intro m n as bs has hbs h
    exact (measures_of_encode has).eq_of_isPrefix (measures_of_encode hbs) h

/-- The least length with a prefix of eight bytes, the least one without a prefix, and five in the long form. -/
theorem encode_isPrefixCode_sample :
    decode ([7] ++ [0x80, 0, 0, 0, 0x80, 0, 0, 0] ++ [9]) 1 = .ok (8, 0x80000000) ∧
    (put (2 ^ 63)).run.run [7] = (.error (.tooLong (2 ^ 63)), [7]) ∧
    (∃ bs, encode 5 = .ok bs ∧ bs ≠ [0x80, 0, 0, 0, 0, 0, 0, 5]) := by
  obtain ⟨hfits, hlong, hread, -⟩ := encode_isPrefixCode
  refine ⟨?_, ?_, ?_⟩
  · obtain ⟨bs, hbs, -, -, hback⟩ := hfits 0x80000000 (by decide)
    obtain rfl : bs = [0x80, 0, 0, 0, 0x80, 0, 0, 0] := by
      have henc : encode 0x80000000 = .ok [0x80, 0, 0, 0, 0x80, 0, 0, 0] := by decide
      exact Except.ok.inj (hbs.symm.trans henc)
    exact (hback [7] [9]).2.2
  · exact ((hlong (2 ^ 63) (Nat.le_refl _)).2.2 [7]).1
  · have hfive : decode [0x80, 0, 0, 0, 0, 0, 0, 5] 0 = .ok (8, 5) := by decide
    obtain ⟨-, -, -, bs, hbs, -, hiff⟩ := hread _ _ _ _ hfive
    exact ⟨bs, hbs, fun h => absurd (hiff.1 h) (by decide)⟩

end RecordPack.LengthPrefix

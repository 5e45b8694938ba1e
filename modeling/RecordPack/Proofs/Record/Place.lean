import RecordPack.Proofs.Endian
import RecordPack.Proofs.Fallible
import RecordPack.Proofs.Record.Settled

/-!
# Values in their places

Every type but the byte string has a number for each of its values, its pattern. A pattern that is
written is the pattern of the settled value (`valueOf_of_pattern`), and a settled value has the pattern
it was read from, up to the choice that truth values and fillers leave (`pattern_valueOf`). With the
layout of numbers in bytes this gives what a place that was written reads as (`read_of_write`), and
what is written for a place that was read (`write_read`).
-/

namespace RecordPack.ScalarType

variable {type : ScalarType} {v : Value} {k : Nat}

theorem patterns_eq (type : ScalarType) : type.patterns = 256 ^ type.width := rfl

theorem patterns_pos (type : ScalarType) : 0 < type.patterns := by cases type <;> decide

theorem patterns_le (type : ScalarType) : type.patterns ≤ 2 ^ 64 := by cases type <;> decide

theorem patterns_even (type : ScalarType) : type.patterns = 2 * (type.patterns / 2) := by
  cases type <;> decide

/-- The value of a pattern. -/
def valueOf (type : ScalarType) (n : Nat) : Value := type.read .big (Endian.big.toBytes type.width n)

theorem read_eq_valueOf (htype : type ≠ bytes) (e : Endian) {bs : Bytes} (hlen : bs.length = type.width) :
    type.read e bs = type.valueOf (e.ofBytes bs) := by
  have hlt := e.ofBytes_lt bs
  rw [hlen] at hlt
  have hback := Endian.big.ofBytes_toBytes_of_lt hlt
  cases type <;> simp only [valueOf, read, hback]
  case bytes => exact absurd rfl htype

/-! ## Integers -/

theorem pattern_of_int (h : type.expectation = .int) : type.pattern v = type.integerPattern v := by
  cases type <;> simp only [expectation, reduceCtorEq] at h <;> rfl

theorem pattern_of_uint (h : type.expectation = .uint) : type.pattern v = type.integerPattern v := by
  cases type <;> simp only [expectation, reduceCtorEq] at h <;> rfl

theorem settle_of_int (h : type.expectation = .int) (width : Nat) :
    type.settle width v = (v.toInt64?.map .int).getD v := by
  cases type <;> simp only [expectation, reduceCtorEq] at h <;> rfl

theorem settle_of_uint (h : type.expectation = .uint) (width : Nat) :
    type.settle width v = (v.toUInt64?.map .uint).getD v := by
  cases type <;> simp only [expectation, reduceCtorEq] at h <;> rfl

theorem valueOf_of_int (h : type.expectation = .int) (hk : k < type.patterns) :
    type.valueOf k = .int (Int64.ofInt (Int.bmod k type.patterns)) := by
  have hback := Endian.big.ofBytes_toBytes_of_lt (patterns_eq type ▸ hk)
  cases type <;> simp only [expectation, reduceCtorEq] at h <;> simp only [valueOf, read, hback]

theorem valueOf_of_uint (h : type.expectation = .uint) (hk : k < type.patterns) :
    type.valueOf k = .uint (UInt64.ofNat k) := by
  have hback := Endian.big.ofBytes_toBytes_of_lt (patterns_eq type ▸ hk)
  cases type <;> simp only [expectation, reduceCtorEq] at h <;> simp only [valueOf, read, hback]

theorem holds_int_iff (h : type.expectation = .int) {n : Int} :
    type.holds n = true ↔ -(type.patterns / 2 : Nat) ≤ n ∧ n < (type.patterns / 2 : Nat) := by
  simp [holds, h]

theorem holds_uint_iff (h : type.expectation = .uint) {n : Int} :
    type.holds n = true ↔ 0 ≤ n ∧ n < type.patterns := by
  simp [holds, h]

theorem integerPattern_eq_ok :
    type.integerPattern v = .ok k ↔
      ∃ n, v.toInt? = some n ∧ type.holds n = true ∧ (n % type.patterns).toNat = k := by
  unfold integerPattern
  cases hv : v.toInt? with
  | none => simp
  | some n => by_cases hn : type.holds n = true <;> simp [hn]

theorem toNat_emod_lt (type : ScalarType) (n : Int) : (n % type.patterns).toNat < type.patterns := by
  have hpos := type.patterns_pos
  have hlo := Int.emod_nonneg n (b := type.patterns) (by omega)
  have hhi := Int.emod_lt_of_pos n (b := type.patterns) (by omega)
  omega

/-- A signed number is the balanced remainder of its pattern. -/
theorem bmod_pattern (h : type.expectation = .int) {n : Int} (hn : type.holds n = true) :
    Int.bmod (n % type.patterns).toNat type.patterns = n := by
  obtain ⟨hlo, hhi⟩ := (holds_int_iff h).1 hn
  have hpos := type.patterns_pos
  have heven := type.patterns_even
  have hmod := Int.emod_nonneg n (b := type.patterns) (by omega)
  -- numbers in range are their own balanced remainders
  rw [Int.toNat_of_nonneg hmod, Int.emod_bmod]
  exact Int.bmod_eq_of_le_mul_two (by omega) (by omega)

theorem toInt64?_of_holds (h : type.expectation = .int) {n : Int} (hv : v.toInt? = some n)
    (hn : type.holds n = true) : v.toInt64? = some (Int64.ofInt n) := by
  obtain ⟨hlo, hhi⟩ := (holds_int_iff h).1 hn
  have hle := type.patterns_le
  simp only [Value.toInt64?, hv]
  rw [if_pos]
  rw [Int64.toInt_minValue, Int64.toInt_maxValue]
  omega

theorem valueOf_of_integerPattern_int (h : type.expectation = .int) (hk : type.integerPattern v = .ok k)
    (width : Nat) : k < type.patterns ∧ type.valueOf k = type.settle width v := by
  obtain ⟨n, hv, hn, rfl⟩ := integerPattern_eq_ok.1 hk
  have hlt := type.toNat_emod_lt n
  refine ⟨hlt, ?_⟩
  rw [valueOf_of_int h hlt, bmod_pattern h hn, settle_of_int h, toInt64?_of_holds h hv hn]
  rfl

theorem valueOf_of_integerPattern_uint (h : type.expectation = .uint) (hk : type.integerPattern v = .ok k)
    (width : Nat) : k < type.patterns ∧ type.valueOf k = type.settle width v := by
  obtain ⟨n, hv, hn, rfl⟩ := integerPattern_eq_ok.1 hk
  obtain ⟨hlo, hhi⟩ := (holds_uint_iff h).1 hn
  have hlt := type.toNat_emod_lt n
  have hmod : n % type.patterns = n := Int.emod_eq_of_lt hlo hhi
  have hu : v.toUInt64? = some (UInt64.ofNat n.toNat) := by simp [Value.toUInt64?, hv, hlo]
  refine ⟨hlt, ?_⟩
  rw [valueOf_of_uint h hlt, hmod, settle_of_uint h, hu]
  rfl

theorem integerPattern_int (h : type.expectation = .int) (hk : k < type.patterns) :
    type.integerPattern (.int (Int64.ofInt (Int.bmod k type.patterns))) = .ok k := by
  have hpos := type.patterns_pos
  have hle := type.patterns_le
  have heven := type.patterns_even
  have hlo : -((type.patterns : Int) / 2) ≤ Int.bmod k type.patterns := Int.le_bmod hpos
  have hhi : Int.bmod k type.patterns < ((type.patterns : Int) + 1) / 2 := Int.bmod_lt hpos
  have hint : (Int64.ofInt (Int.bmod k type.patterns)).toInt = Int.bmod k type.patterns :=
    Int64.toInt_ofInt_of_le (by omega) (by omega)
  refine integerPattern_eq_ok.2 ⟨Int.bmod k type.patterns, by simp [Value.toInt?, hint], ?_, ?_⟩
  · rw [holds_int_iff h]
    omega
  · rw [Int.bmod_emod, Int.emod_eq_of_lt (by omega) (by omega)]
    simp

theorem integerPattern_uint (h : type.expectation = .uint) (hk : k < type.patterns) :
    type.integerPattern (.uint (UInt64.ofNat k)) = .ok k := by
  have hle := type.patterns_le
  have hnat : (UInt64.ofNat k).toNat = k := by
    rw [UInt64.toNat_ofNat']
    exact Nat.mod_eq_of_lt (by omega)
  refine integerPattern_eq_ok.2 ⟨k, by simp [Value.toInt?, hnat], ?_, ?_⟩
  · rw [holds_uint_iff h]
    omega
  · rw [Int.emod_eq_of_lt (by omega) (by omega)]
    simp

/-! ## Patterns -/

theorem singlePattern_eq_ok :
    singlePattern v = .ok k ↔ ∃ x, v.toFloat? = some x ∧ x.toBinary32.bits.toNat = k ∧
      ¬ (x.isFinite = true ∧ x.toBinary32.isInfinite = true) := by
  unfold singlePattern
  cases hv : v.toFloat? with
  | none => simp
  | some x =>
    by_cases hx : x.isFinite = true ∧ x.toBinary32.isInfinite = true
    · simp [hx]
    · simp only [Bool.and_eq_true, if_neg hx, Except.ok.injEq, Option.some.injEq, exists_eq_left']
      exact (and_iff_left hx).symm

theorem doublePattern_eq_ok :
    doublePattern v = .ok k ↔ ∃ x, v.toFloat? = some x ∧ x.bits.toNat = k := by
  unfold doublePattern
  cases hv : v.toFloat? <;> simp

/-- A single-precision number is written as it is, although it goes through double precision. -/
theorem singlePattern_of_isSettled {x : Ieee.Binary32} (hx : x.IsSettled) :
    singlePattern (.f32 x) = .ok x.bits.toNat := by
  apply singlePattern_eq_ok.2
  refine ⟨x.toBinary64, rfl, ?_, ?_⟩
  · rw [Ieee.Binary32.toBinary32_toBinary64 hx]
  · rintro ⟨hfin, hinf⟩
    rw [Ieee.Binary32.toBinary32_toBinary64 hx, Ieee.Binary32.isInfinite_eq_false hfin] at hinf
    cases hinf

/-- A pattern that is written is that of the settled value. -/
theorem valueOf_of_pattern (htype : type ≠ bytes) (h : type.pattern v = .ok k) (width : Nat) :
    k < type.patterns ∧ type.valueOf k = type.settle width v := by
  -- the integer types go together; the others are looked at one by one
  cases htyp : type.expectation with
  | int => exact valueOf_of_integerPattern_int htyp (pattern_of_int htyp ▸ h) width
  | uint => exact valueOf_of_integerPattern_uint htyp (pattern_of_uint htyp ▸ h) width
  | pad =>
    cases type <;> simp only [expectation, reduceCtorEq] at htyp
    cases v <;> simp only [pattern, reduceCtorEq, Except.ok.injEq] at h
    subst h
    exact ⟨by decide, rfl⟩
  | bool =>
    cases type <;> simp only [expectation, reduceCtorEq] at htyp
    cases v <;> simp only [pattern, reduceCtorEq, Except.ok.injEq] at h
    subst h
    rename_i b
    cases b <;> exact ⟨by decide, rfl⟩
  | float =>
    cases type <;> simp only [expectation, reduceCtorEq] at htyp
    case float32 =>
      obtain ⟨x, hx, rfl, -⟩ := singlePattern_eq_ok.1 h
      have hlt : x.toBinary32.bits.toNat < float32.patterns := x.toBinary32.bits.toNat_lt
      have hback := Endian.big.ofBytes_toBytes_of_lt (patterns_eq float32 ▸ hlt)
      exact ⟨hlt, by simp [valueOf, read, hback, settle, hx]⟩
    case float64 =>
      obtain ⟨x, hx, rfl⟩ := doublePattern_eq_ok.1 h
      have hlt : x.bits.toNat < float64.patterns := x.bits.toNat_lt
      have hback := Endian.big.ofBytes_toBytes_of_lt (patterns_eq float64 ▸ hlt)
      exact ⟨hlt, by simp [valueOf, read, hback, settle, hx]⟩
  | bytes => cases type <;> first | exact absurd rfl htype | cases htyp
  | list => cases type <;> cases htyp

/-- The pattern that is written for a value with a given pattern: fillers are zero, and truth is one. -/
def settledPattern (type : ScalarType) (k : Nat) : Nat :=
  match type with
  | pad => 0
  | bool => if k = 0 then 0 else 1
  | _ => k

/-- Every value that is read can be written again. -/
theorem pattern_valueOf (htype : type ≠ bytes) (hk : k < type.patterns)
    (hx : ∀ x, type.valueOf k = .f32 x → x.IsSettled) :
    type.pattern (type.valueOf k) = .ok (type.settledPattern k) := by
  have hback := Endian.big.ofBytes_toBytes_of_lt (patterns_eq type ▸ hk)
  cases htyp : type.expectation with
  | int =>
    rw [valueOf_of_int htyp hk, pattern_of_int htyp, integerPattern_int htyp hk]
    cases type <;> simp only [expectation, reduceCtorEq] at htyp <;> rfl
  | uint =>
    rw [valueOf_of_uint htyp hk, pattern_of_uint htyp, integerPattern_uint htyp hk]
    cases type <;> simp only [expectation, reduceCtorEq] at htyp <;> rfl
  | pad =>
    cases type <;> simp only [expectation, reduceCtorEq] at htyp
    rfl
  | bool =>
    cases type <;> simp only [expectation, reduceCtorEq] at htyp
    simp only [valueOf, read, hback, pattern, settledPattern]
    by_cases h : k = 0 <;> simp [h]
  | float =>
    cases type <;> simp only [expectation, reduceCtorEq] at htyp
    case float32 =>
      have hval : float32.valueOf k = .f32 ⟨UInt32.ofNat k⟩ := by simp [valueOf, read, hback]
      have hset := hx _ hval
      have hbits : (UInt32.ofNat k).toNat = k := by
        rw [UInt32.toNat_ofNat']
        exact Nat.mod_eq_of_lt hk
      rw [hval]
      show singlePattern (.f32 ⟨UInt32.ofNat k⟩) = .ok k
      rw [singlePattern_of_isSettled hset, hbits]
    case float64 =>
      have hval : float64.valueOf k = .f64 ⟨UInt64.ofNat k⟩ := by simp [valueOf, read, hback]
      have hbits : (UInt64.ofNat k).toNat = k := by
        rw [UInt64.toNat_ofNat']
        exact Nat.mod_eq_of_lt hk
      rw [hval]
      show doublePattern (.f64 ⟨UInt64.ofNat k⟩) = .ok k
      exact doublePattern_eq_ok.2 ⟨⟨UInt64.ofNat k⟩, rfl, hbits⟩
  | bytes => cases type <;> first | exact absurd rfl htype | cases htyp
  | list => cases type <;> cases htyp

/-! ## Places -/

/-- Whether a place of `width` bytes suits the type: only byte strings choose their width. -/
def Fits (type : ScalarType) (width : Nat) : Prop := type = bytes ∨ width = type.width

theorem write_of_ne_bytes (htype : type ≠ bytes) (e : Endian) (width : Nat) :
    type.write e width v = (type.pattern v).map (e.toBytes width) := by
  cases type <;> first | rfl | exact absurd rfl htype

theorem write_bytes_eq_ok {e : Endian} {width : Nat} {b : Bytes} :
    bytes.write e width v = .ok b ↔
      ∃ bs, v = .bytes bs ∧ bs.length ≤ width ∧ b = bs ++ List.replicate (width - bs.length) 0 := by
  cases v <;> simp only [write, pattern, reduceCtorEq, Except.map, false_and, exists_false]
  rename_i bs
  by_cases h : bs.length ≤ width <;> simp [h, eq_comm]

theorem length_of_write {e : Endian} {width : Nat} {b : Bytes} (h : type.write e width v = .ok b) :
    b.length = width := by
  by_cases htype : type = bytes
  · subst htype
    obtain ⟨bs, -, hle, rfl⟩ := write_bytes_eq_ok.1 h
    simp
    omega
  · rw [write_of_ne_bytes htype] at h
    obtain ⟨k, -, rfl⟩ := map_eq_ok.1 h
    exact Endian.length_toBytes _ _ _

/-- A place that was written holds the settled value. -/
theorem read_of_write {e : Endian} {width : Nat} {b : Bytes} (hfit : type.Fits width)
    (h : type.write e width v = .ok b) : type.read e b = type.settle width v := by
  have hlen := length_of_write h
  by_cases htype : type = bytes
  · subst htype
    obtain ⟨bs, rfl, -, rfl⟩ := write_bytes_eq_ok.1 h
    rfl
  · obtain rfl := hfit.resolve_left htype
    rw [write_of_ne_bytes htype] at h
    obtain ⟨k, hk, rfl⟩ := map_eq_ok.1 h
    obtain ⟨hlt, hval⟩ := valueOf_of_pattern htype hk type.width
    rw [read_eq_valueOf htype e hlen, Endian.ofBytes_toBytes_of_lt _ (patterns_eq type ▸ hlt), hval]

/-- Whether a place holds the bytes that are written for its value: zero in a filler, zero or one for
a truth value. Other places have one form only. -/
def IsPlain (type : ScalarType) (bs : Bytes) : Prop :=
  match type with
  | pad => ∀ b ∈ bs, b = 0
  | bool => ∀ b ∈ bs, b = 0 ∨ b = 1
  | _ => True

theorem toBytes_settledPattern_eq_iff (htype : type ≠ bytes) (e : Endian) {bs : Bytes}
    (hlen : bs.length = type.width) :
    e.toBytes type.width (type.settledPattern (e.ofBytes bs)) = bs ↔ type.IsPlain bs := by
  have hback : e.toBytes type.width (e.ofBytes bs) = bs := hlen ▸ e.toBytes_ofBytes bs
  cases type
  case bytes => exact absurd rfl htype
  case pad =>
    obtain ⟨b, rfl⟩ := List.length_eq_one_iff.1 hlen
    simp [settledPattern, IsPlain, width, Endian.toBytes_one, eq_comm]
  case bool =>
    obtain ⟨b, rfl⟩ := List.length_eq_one_iff.1 hlen
    by_cases hb : b = 0
    · simp [settledPattern, IsPlain, width, Endian.toBytes_one, Endian.ofBytes_singleton, hb]
    · have hne : b.toNat ≠ 0 := fun h => hb (UInt8.toNat_inj.1 h)
      simp [settledPattern, IsPlain, width, Endian.toBytes_one, Endian.ofBytes_singleton, hb, hne, eq_comm]
  all_goals exact iff_of_true hback trivial

/-- What is written for the value of a place: as many bytes, and the same ones if they were plain. -/
theorem write_read {e : Endian} {bs : Bytes} (hfit : type.Fits bs.length)
    (hx : ∀ x, type.read e bs = .f32 x → x.IsSettled) :
    ∃ b, type.write e bs.length (type.read e bs) = .ok b ∧ (b = bs ↔ type.IsPlain bs) := by
  by_cases htype : type = bytes
  · subst htype
    exact ⟨bs, by simp [read, write], iff_of_true rfl trivial⟩
  · have hlen := hfit.resolve_left htype
    have hlt : e.ofBytes bs < type.patterns := by
      rw [patterns_eq, ← hlen]
      exact e.ofBytes_lt bs
    rw [read_eq_valueOf htype e hlen] at hx ⊢
    refine ⟨e.toBytes bs.length (type.settledPattern (e.ofBytes bs)), ?_, ?_⟩
    · rw [write_of_ne_bytes htype, pattern_valueOf htype hlt hx]
      rfl
    · rw [hlen]
      exact toBytes_settledPattern_eq_iff htype e hlen

/-! ## Places side by side -/

/-- What is written for items is one place for each, and the places hold the settled items. -/
theorem places_of_mapM {e : Endian} {width : Nat} {items : List Value} {places : List Bytes}
    (h : items.mapM (type.write e width) = .ok places) :
    places.length = items.length ∧ (∀ bs ∈ places, bs.length = width) ∧
      (type.Fits width → places.map (type.read e) = items.map (type.settle width)) := by
  have hall := mapM_eq_ok.1 h
  clear h
  induction hall with
  | nil => simp
  | @cons v b vs bs hv _ ih =>
    obtain ⟨hlen, hwidth, hmap⟩ := ih
    refine ⟨by rw [List.length_cons, List.length_cons, hlen], ?_, ?_⟩
    · exact List.forall_mem_cons.2 ⟨length_of_write hv, hwidth⟩
    · intro hfit
      rw [List.map_cons, List.map_cons, hmap hfit, read_of_write hfit hv]

theorem length_flatten_places {width : Nat} {places : List Bytes} (h : ∀ bs ∈ places, bs.length = width) :
    places.flatten.length = places.length * width := by
  rw [List.length_flatten, List.map_congr_left h]
  simp

end RecordPack.ScalarType

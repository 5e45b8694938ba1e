import RecordPack.Proofs.Record.Place

/-!
# What leaves write and read

A leaf of a record is a value in a place of its own. `type.Spells e width v b` says what the bytes of a value are
there, and `type.Means e b v` what value bytes are, each type by a rule of its own: integers in two's complement,
floating-point numbers by their bits, shorter strings with zeros behind them. The writer of a place does what the
first says, and nothing else (`ScalarType.write_eq_ok`), and its reader what the second says
(`ScalarType.read_eq_iff`).
-/

namespace RecordPack

namespace ScalarType

/-! ## Values and bytes -/

/-- The number `k` stands for `n` in `width` bytes: negative numbers come after all others. -/
def TwosComplement (width : Nat) (n : Int) (k : Nat) : Prop :=
  -(256 ^ width : Nat) ≤ 2 * n ∧ 2 * n < (256 ^ width : Nat) ∧ (k : Int) = if n < 0 then n + (256 ^ width : Nat) else n

theorem TwosComplement.unique {width k : Nat} {n m : Int} (hn : TwosComplement width n k) (hm : TwosComplement width m k) :
    n = m := by
  obtain ⟨hlo, hhi, hk⟩ := hn
  obtain ⟨hlo', hhi', hk'⟩ := hm
  split at hk <;> split at hk' <;> omega

/-- The bytes that a value has in a place of `width` bytes. -/
inductive Spells (e : Endian) (width : Nat) : ScalarType → Value → Bytes → Prop
  | pad : Spells e width .pad .pad (List.replicate width 0)
  | bool (b : Bool) : Spells e width .bool (.bool b) (e.toBytes width b.toNat)
  | int {type : ScalarType} {v : Value} {n : Int} {k : Nat} : type.expectation = .int → v.toInt? = some n →
      TwosComplement type.width n k → Spells e width type v (e.toBytes width k)
  | uint {type : ScalarType} {v : Value} {k : Nat} : type.expectation = .uint → v.toInt? = some (k : Int) →
      k < 256 ^ type.width → Spells e width type v (e.toBytes width k)
  | single {v : Value} {x : Ieee.Binary64} : v.toFloat? = some x →
      (x.isFinite = true → x.toBinary32.isInfinite = false) →
      Spells e width .float32 v (e.toBytes width x.toBinary32.bits.toNat)
  | double {v : Value} {x : Ieee.Binary64} : v.toFloat? = some x →
      Spells e width .float64 v (e.toBytes width x.bits.toNat)
  | bytes {s : Bytes} : s.length ≤ width →
      Spells e width .bytes (.bytes s) (s ++ List.replicate (width - s.length) 0)

/-- The value that the bytes of a place have. -/
inductive Means (e : Endian) : ScalarType → Bytes → Value → Prop
  | pad (b : UInt8) : Means e .pad [b] .pad
  | bool (b : UInt8) : Means e .bool [b] (.bool (b != 0))
  | int {type : ScalarType} {bs : Bytes} {n : Int64} : type.expectation = .int →
      TwosComplement type.width n.toInt (e.ofBytes bs) → Means e type bs (.int n)
  | uint {type : ScalarType} {bs : Bytes} {n : UInt64} : type.expectation = .uint →
      n.toNat = e.ofBytes bs → Means e type bs (.uint n)
  | single {bs : Bytes} {x : Ieee.Binary32} : x.bits.toNat = e.ofBytes bs → Means e .float32 bs (.f32 x)
  | double {bs : Bytes} {x : Ieee.Binary64} : x.bits.toNat = e.ofBytes bs → Means e .float64 bs (.f64 x)
  | bytes (s : Bytes) : Means e .bytes s (.bytes s)

variable {type : ScalarType} {v : Value} {e : Endian} {width : Nat} {b : Bytes}

/-! ## Writing -/

theorem pattern_int_eq_ok {k : Nat} (h : type.expectation = .int) :
    type.pattern v = .ok k ↔ ∃ n, v.toInt? = some n ∧ TwosComplement type.width n k := by
  have heven := type.patterns_even
  have hmod : ∀ n : Int, -(type.patterns : Int) ≤ n → n < type.patterns →
      n % type.patterns = if n < 0 then n + type.patterns else n := by
    intro n hlo hhi
    split
    · rw [← Int.add_emod_right, Int.emod_eq_of_lt (by omega) (by omega)]
    · exact Int.emod_eq_of_lt (by omega) hhi
  rw [pattern_of_int h, integerPattern_eq_ok]
  refine exists_congr fun n => and_congr_right fun _ => ?_
  rw [holds_int_iff h, TwosComplement, ← patterns_eq]
  constructor
  · rintro ⟨⟨hlo, hhi⟩, rfl⟩
    rw [hmod n (by omega) (by omega)]
    refine ⟨by omega, by omega, ?_⟩
    split <;> omega
  · rintro ⟨hlo, hhi, hk⟩
    rw [hmod n (by omega) (by omega), ← hk]
    exact ⟨by omega, rfl⟩

theorem pattern_uint_eq_ok {k : Nat} (h : type.expectation = .uint) :
    type.pattern v = .ok k ↔ v.toInt? = some (k : Int) ∧ k < 256 ^ type.width := by
  rw [pattern_of_uint h, integerPattern_eq_ok, ← patterns_eq]
  constructor
  · rintro ⟨n, hn, hholds, rfl⟩
    obtain ⟨hlo, hhi⟩ := (holds_uint_iff h).1 hholds
    rw [Int.emod_eq_of_lt hlo hhi]
    exact ⟨by rw [hn, Int.toNat_of_nonneg hlo], by omega⟩
  · rintro ⟨hv, hk⟩
    refine ⟨k, hv, (holds_uint_iff h).2 ⟨by omega, by omega⟩, ?_⟩
    rw [Int.emod_eq_of_lt (by omega) (by omega), Int.toNat_natCast]

/-- A pattern, laid out in the place, is what the value is there. -/
theorem spells_of_pattern {k : Nat} (htype : type ≠ .bytes) (h : type.pattern v = .ok k) :
    type.Spells e width v (e.toBytes width k) := by
  -- the integer types go together; the others are looked at one by one
  cases hexp : type.expectation with
  | int =>
    obtain ⟨n, hn, hk⟩ := (pattern_int_eq_ok hexp).1 h
    exact .int hexp hn hk
  | uint =>
    obtain ⟨hn, hk⟩ := (pattern_uint_eq_ok hexp).1 h
    exact .uint hexp hn hk
  | pad =>
    cases type <;> cases hexp
    cases v <;> cases h
    rw [Endian.toBytes_zero]
    exact .pad
  | bool =>
    cases type <;> cases hexp
    cases v <;> cases h
    exact .bool _
  | float =>
    cases type <;> cases hexp
    · obtain ⟨x, hx, rfl, hfinite⟩ := singlePattern_eq_ok.1 h
      exact .single hx (by simpa using hfinite)
    · obtain ⟨x, hx, rfl⟩ := doublePattern_eq_ok.1 h
      exact .double hx
  | bytes => cases type <;> first | exact absurd rfl htype | cases hexp
  | list => cases type <;> cases hexp

theorem write_of_spells (h : type.Spells e width v b) : type.write e width v = .ok b := by
  cases h with
  | pad => exact congrArg Except.ok (e.toBytes_zero width)
  | bool => rfl
  | int hexp hv hk =>
    rw [write_of_ne_bytes (by rintro rfl; cases hexp), (pattern_int_eq_ok hexp).2 ⟨_, hv, hk⟩, map_ok]
  | uint hexp hv hk =>
    rw [write_of_ne_bytes (by rintro rfl; cases hexp), (pattern_uint_eq_ok hexp).2 ⟨hv, hk⟩, map_ok]
  | single hx hfinite =>
    exact congrArg (Except.map _) (singlePattern_eq_ok.2 ⟨_, hx, rfl, by simpa using hfinite⟩)
  | double hx => exact congrArg (Except.map _) (doublePattern_eq_ok.2 ⟨_, hx, rfl⟩)
  | bytes hle => exact write_bytes_eq_ok.2 ⟨_, rfl, hle, rfl⟩

/-- A leaf is written as what its value is in a place, and not at all if it is nothing there. -/
theorem write_eq_ok : type.write e width v = .ok b ↔ type.Spells e width v b := by
  refine ⟨?_, write_of_spells⟩
  intro h
  by_cases htype : type = .bytes
  · subst htype
    obtain ⟨s, rfl, hle, rfl⟩ := write_bytes_eq_ok.1 h
    exact .bytes hle
  · rw [write_of_ne_bytes htype, map_eq_ok] at h
    obtain ⟨k, hk, rfl⟩ := h
    exact spells_of_pattern htype hk

/-! ## Reading -/

theorem read_int (h : type.expectation = .int) (hlen : b.length = type.width) :
    ∃ n : Int64, type.read e b = .int n ∧ TwosComplement type.width n.toInt (e.ofBytes b) := by
  have hle := type.patterns_le
  have heven := type.patterns_even
  have hlt := hlen ▸ e.ofBytes_lt b
  rw [← patterns_eq] at hlt
  have hcomplement : TwosComplement type.width (Int.bmod (e.ofBytes b) type.patterns) (e.ofBytes b) := by
    rw [TwosComplement, ← patterns_eq, Int.bmod, Int.emod_eq_of_lt (by omega) (by omega)]
    split <;> split <;> omega
  have hint : (Int64.ofInt (Int.bmod (e.ofBytes b) type.patterns)).toInt = Int.bmod (e.ofBytes b) type.patterns := by
    obtain ⟨hlo, hhi, -⟩ := hcomplement
    rw [← patterns_eq] at hlo hhi
    exact Int64.toInt_ofInt_of_le (by omega) (by omega)
  refine ⟨Int64.ofInt (Int.bmod (e.ofBytes b) type.patterns), ?_, hint.symm ▸ hcomplement⟩
  rw [read_eq_valueOf (by rintro rfl; cases h) e hlen, valueOf_of_int h hlt]

theorem read_uint (h : type.expectation = .uint) (hlen : b.length = type.width) :
    ∃ n : UInt64, type.read e b = .uint n ∧ n.toNat = e.ofBytes b := by
  have hle := type.patterns_le
  have hlt := hlen ▸ e.ofBytes_lt b
  rw [← patterns_eq] at hlt
  refine ⟨UInt64.ofNat (e.ofBytes b), ?_, ?_⟩
  · rw [read_eq_valueOf (by rintro rfl; cases h) e hlen, valueOf_of_uint h hlt]
  · rw [UInt64.toNat_ofNat']
    exact Nat.mod_eq_of_lt (by omega)

/-- What is read for bytes is what they are. -/
theorem means_read (hfit : type.Fits b.length) : type.Means e b (type.read e b) := by
  rcases hfit with rfl | hlen
  · exact .bytes b
  have hlt := hlen ▸ e.ofBytes_lt b
  cases hexp : type.expectation with
  | int =>
    obtain ⟨n, hread, hn⟩ := read_int hexp hlen
    exact hread ▸ .int hexp hn
  | uint =>
    obtain ⟨n, hread, hn⟩ := read_uint hexp hlen
    exact hread ▸ .uint hexp hn
  | pad =>
    cases type <;> cases hexp
    obtain ⟨b, rfl⟩ := List.length_eq_one_iff.1 hlen
    exact .pad b
  | bool =>
    cases type <;> cases hexp
    obtain ⟨b, rfl⟩ := List.length_eq_one_iff.1 hlen
    have hzero : (e.ofBytes [b] != 0) = (b != 0) := by
      rw [Endian.ofBytes_singleton, Bool.eq_iff_iff, bne_iff_ne, bne_iff_ne, ne_eq, ← UInt8.toNat_zero,
        UInt8.toNat_inj]
    have hread : bool.read e [b] = .bool (b != 0) := congrArg Value.bool hzero
    exact hread ▸ .bool b
  | float =>
    cases type <;> cases hexp
    · exact .single (UInt32.toNat_ofNat_of_lt' hlt)
    · exact .double (UInt64.toNat_ofNat_of_lt' hlt)
  | bytes =>
    cases type <;> cases hexp
    exact .bytes b
  | list => cases type <;> cases hexp

/-- Bytes are no two values. -/
theorem Means.unique {w : Value} (hv : type.Means e b v) (hw : type.Means e b w) : v = w := by
  cases hv with
  | int hexp hn =>
    cases hw with
    | int _ hm => rw [Int64.toInt_inj.1 (hn.unique hm)]
    | uint hexp' => cases hexp.symm.trans hexp'
    | _ => cases hexp
  | uint hexp hn =>
    cases hw with
    | uint _ hm => rw [UInt64.toNat_inj.1 (hn.trans hm.symm)]
    | int hexp' => cases hexp.symm.trans hexp'
    | _ => cases hexp
  | single hx =>
    cases hw with
    | single hy => exact congrArg (fun bits => Value.f32 ⟨bits⟩) (UInt32.toNat_inj.1 (hx.trans hy.symm))
    | int hexp | uint hexp => cases hexp
  | double hx =>
    cases hw with
    | double hy => exact congrArg (fun bits => Value.f64 ⟨bits⟩) (UInt64.toNat_inj.1 (hx.trans hy.symm))
    | int hexp | uint hexp => cases hexp
  | _ => cases hw <;> first | rfl | next hexp _ => cases hexp

/-- A leaf is read as what its bytes are as a value. -/
theorem read_eq_iff (hfit : type.Fits b.length) : type.read e b = v ↔ type.Means e b v := by
  constructor
  · rintro rfl
    exact means_read hfit
  · exact (means_read hfit).unique

end ScalarType

end RecordPack

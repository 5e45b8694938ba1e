import RecordPack.Ieee.Format

/-!
# Single and double precision

The two number types that records and statistics hold, each kept as its bit pattern, with the
conversions between them and from integers, and comparison by value.
-/

namespace RecordPack.Ieee

/-- A single-precision number, as its bits. -/
structure Binary32 where
  /-- The bits, sign first. -/
  bits : UInt32
deriving DecidableEq, Repr

/-- A double-precision number, as its bits. -/
structure Binary64 where
  /-- The bits, sign first. -/
  bits : UInt64
deriving DecidableEq, Repr

/-- Whether two patterns of a format stand for the same number. Zero has two patterns; a pattern
that is no number equals none, itself included. -/
def Format.sameNumber (f : Format) (a b : Nat) : Bool :=
  let m := f.magnitude a
  let n := f.magnitude b
  m ≤ f.infinity && n ≤ f.infinity && (a == b || (m == 0 && n == 0))

/-- The double-precision number nearest to a pattern of another format. -/
def Format.toBinary64 (f : Format) (bits : Nat) : Binary64 :=
  ⟨UInt64.ofNat (f.convert binary64 bits)⟩

namespace Binary32

/-- The same number in double precision. Nothing is lost. -/
def toBinary64 (x : Binary32) : Binary64 := binary32.toBinary64 x.bits.toNat

def isInfinite (x : Binary32) : Bool := binary32.magnitude x.bits.toNat == binary32.infinity

def same (x y : Binary32) : Bool := binary32.sameNumber x.bits.toNat y.bits.toNat

end Binary32

namespace Binary64

/-- The number with a given sign and magnitude. -/
def ofMagnitude (negative : Bool) (m : Nat) : Binary64 :=
  ⟨UInt64.ofNat (binary64.withSign negative m)⟩

def zero : Binary64 := ⟨0⟩

def magnitude (x : Binary64) : Nat := binary64.magnitude x.bits.toNat

def isNegative (x : Binary64) : Bool := binary64.isNegative x.bits.toNat

def ofNat (n : Nat) : Binary64 := ofMagnitude false (binary64.nearest n 1)

def ofInt (n : Int) : Binary64 := ofMagnitude (n < 0) (binary64.nearest n.natAbs 1)

/-- The quotient of two counts, each of them rounded first; the second is not zero. -/
def ratio (a b : Nat) : Binary64 :=
  ofMagnitude false (binary64.quotient (binary64.nearest a 1) (binary64.nearest b 1))

def toBinary32 (x : Binary64) : Binary32 :=
  ⟨UInt32.ofNat (binary64.convert binary32 x.bits.toNat)⟩

/-- Whether the number is neither infinite nor missing. -/
def isFinite (x : Binary64) : Bool := x.magnitude < binary64.infinity

def same (x y : Binary64) : Bool := binary64.sameNumber x.bits.toNat y.bits.toNat

def atMostOne (x : Binary64) : Bool :=
  x.magnitude ≤ binary64.infinity && (x.isNegative || x.magnitude ≤ binary64.nearest 1 1)

end Binary64

end RecordPack.Ieee

/-!
# Binary interchange formats

A floating-point number is a bit pattern. Below the sign bit the patterns are in the order of the
numbers they stand for, and every finite one is a whole number of *quanta*, a quantum being the
least positive number of the format. So magnitudes are natural numbers here, the value of a pattern
is exact, and each operation rounds one exact quotient once: to the nearest pattern, and a tie to
the even one.
-/

namespace RecordPack.Ieee

/-- The widths of the two fields below the sign bit. -/
structure Format where
  fractionBits : Nat
  exponentBits : Nat
deriving DecidableEq, Repr

def binary32 : Format := ⟨23, 8⟩

def binary64 : Format := ⟨52, 11⟩

/-- The whole number nearest to `a / b`; of two, the even one. -/
def nearestEven (a b : Nat) : Nat :=
  let q := a / b
  let twice := 2 * (a % b)
  if twice < b then q else if b < twice then q + 1 else q + q % 2

namespace Format

variable (f : Format)

/-- The number of patterns with one sign and one exponent. -/
def binade : Nat := Nat.pow 2 f.fractionBits

/-- The number of patterns without a sign. -/
def signWeight : Nat := Nat.pow 2 (f.fractionBits + f.exponentBits)

/-- The pattern of infinity. Greater magnitudes are no numbers. -/
def infinity : Nat := (Nat.pow 2 f.exponentBits - 1) * f.binade

/-- The quantum is two to the power of minus this. -/
def quantumShift : Nat := Nat.pow 2 (f.exponentBits - 1) - 2 + f.fractionBits

/-- The number of quanta that make one. -/
def quantaPerOne : Nat := Nat.pow 2 f.quantumShift

/-- The value of a magnitude in quanta. -/
def quanta (m : Nat) : Nat :=
  if m < f.binade then m else (f.binade + m % f.binade) * Nat.pow 2 (m / f.binade - 1)

/-- The magnitude nearest to `a / b`, a tie going to the even pattern. What exceeds the greatest
finite number by half a step or more is infinity.

The quotient is counted in quanta; `k` is the number of its bits beyond those that a pattern keeps,
and a carry out of the kept bits moves into the exponent by itself. -/
def nearest (a b : Nat) : Nat :=
  let scaled := a * f.quantaPerOne
  let k := (scaled / b).log2 - f.fractionBits
  min f.infinity (k * f.binade + nearestEven scaled (b * Nat.pow 2 k))

def magnitude (bits : Nat) : Nat := bits % f.signWeight

def isNegative (bits : Nat) : Bool := f.signWeight ≤ bits

/-- The pattern with a given sign and magnitude. -/
def withSign (negative : Bool) (m : Nat) : Nat := if negative then f.signWeight + m else m

/-- The quiet form of the pattern of no number, with the leading bits of its payload. -/
def quietFrom (g : Format) (m : Nat) : Nat :=
  let payload := (m - f.infinity) * g.binade / f.binade
  let quiet := g.binade / 2
  g.infinity + quiet + payload % quiet

/-- A number of format `f` in format `g`: rounded once, the sign kept. -/
def convert (g : Format) (bits : Nat) : Nat :=
  let m := f.magnitude bits
  g.withSign (f.isNegative bits) <|
    if m < f.infinity then g.nearest (f.quanta m) f.quantaPerOne
    else if m = f.infinity then g.infinity
    else f.quietFrom g m

/-- The product of two finite magnitudes. -/
def product (m n : Nat) : Nat :=
  f.nearest (f.quanta m * f.quanta n) (f.quantaPerOne * f.quantaPerOne)

/-- The quotient of two finite magnitudes, of which the second is not zero. -/
def quotient (m n : Nat) : Nat :=
  f.nearest (f.quanta m) (f.quanta n)

end Format

end RecordPack.Ieee

import RecordPack.Ieee.Format

/-!
# Shortest decimals

`Format.shortest` writes a magnitude with the fewest digits that still single it out: of the
decimals that lie nearer to it than to any other number of the format, one on the coarsest decimal
grid, and on that grid the nearest. A writer chooses what happens when two are equally near.
-/

namespace RecordPack.Ieee

/-- A decimal number: the digits as a whole number, times a power of ten. -/
structure Decimal where
  digits : Nat
  /-- The power of ten they are multiplied by. -/
  exponent : Int
deriving DecidableEq, Repr

/-- Which of two equally near decimals is taken. -/
inductive Tie where
  | up
  /-- The one with an even last digit. -/
  | even
deriving DecidableEq, Repr

namespace Format

variable (f : Format)

/-- The digits of the multiple of ten to the `exponent` that is nearest to magnitude `m` among
those that no other number is nearer to, if there is one.

All is counted in half quanta and cleared of the power of ten: `low` and `high` are the midpoints
with the neighbouring magnitudes, which belong to the even one of the two. -/
def onGrid? (tie : Tie) (m : Nat) (exponent : Int) : Option Nat :=
  let scale := Nat.pow 10 (-exponent).toNat
  let step := 2 * f.quantaPerOne * Nat.pow 10 exponent.toNat
  let low := (f.quanta (m - 1) + f.quanta m) * scale
  let value := 2 * f.quanta m * scale
  let high := (f.quanta m + f.quanta (m + 1)) * scale
  let inside (x : Nat) : Bool :=
    if m % 2 = 0 then low ≤ x && x ≤ high else low < x && x < high
  let q := value / step
  let below := q * step
  let above := (q + 1) * step
  match inside below, inside above with
  | true, true =>
    if value - below < above - value then some q
    else if above - value < value - below then some (q + 1)
    else match tie with
      | .up => some (q + 1)
      | .even => some (q + q % 2)
  | true, false => some q
  | false, true => some (q + 1)
  | false, false => none

/-- The first grid with a hit, from `exponent` down. On the grid of the quantum itself the
magnitude is its own hit, so `fuel` need not reach beyond that. -/
def searchGrid (tie : Tie) (m : Nat) : (fuel : Nat) → (exponent : Int) → Decimal
  | 0, exponent => ⟨f.quanta m * Nat.pow 5 f.quantumShift, exponent⟩
  | fuel + 1, exponent =>
    match f.onGrid? tie m exponent with
    | some digits => ⟨digits, exponent⟩
    | none => searchGrid tie m fuel (exponent - 1)

/-- The shortest decimal that reads back as the finite magnitude `m`. -/
def shortest (tie : Tie) (m : Nat) : Decimal :=
  if m = 0 then ⟨0, 0⟩
  else
    let top := (Nat.toDigits 10 (f.quanta (m + 1) / f.quantaPerOne)).length
    f.searchGrid tie m (top + f.quantumShift) top

end Format

namespace Decimal

/-- The decimal without an exponent: whole part, then, unless it is whole, the point and the
fraction. -/
def positional (d : Decimal) : List Char :=
  let ds := Nat.toDigits 10 d.digits
  match d.exponent with
  | .ofNat zeros => ds ++ List.replicate zeros '0'
  | .negSucc n =>
    let places := n + 1
    if places < ds.length then
      ds.take (ds.length - places) ++ '.' :: ds.drop (ds.length - places)
    else ['0', '.'] ++ List.replicate (places - ds.length) '0' ++ ds

/-- Whether the decimal is written without a fraction. -/
def isWhole (d : Decimal) : Bool := 0 ≤ d.exponent

/-- The power of ten of the first digit. -/
def leading (d : Decimal) : Int :=
  d.exponent + ((Nat.toDigits 10 d.digits).length - 1 : Nat)

/-- The decimal as one digit, the point, the other digits, and the power of ten with its sign. The
point is left out after a single digit. -/
def scientific (d : Decimal) : List Char :=
  let ds := Nat.toDigits 10 d.digits
  let mantissa :=
    match ds with
    | c :: rest@(_ :: _) => c :: '.' :: rest
    | _ => ds
  let e := d.leading
  mantissa ++ 'e' :: (if e < 0 then '-' else '+') :: Nat.toDigits 10 e.natAbs

end Decimal

end RecordPack.Ieee

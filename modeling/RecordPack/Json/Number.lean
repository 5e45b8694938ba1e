import RecordPack.Ieee.Binary
import RecordPack.Json.Text

/-!
# JSON numbers

A number is cut into its parts first. A natural number of 64 bits is exact. Any other number is a
significand of 64 bits, which further digits do not change, times a power of ten; it is computed in
double precision, the significand and the power each rounded before they are multiplied or
divided.
-/

namespace RecordPack.Json

open Ieee (Binary64 binary64)

/-- The parts of a number. -/
structure NumberText where
  negative : Bool
  whole : List Char
  /-- The digits after the point, if there is one. -/
  fraction : Option (List Char)
  /-- The digits of the exponent, if there is one, and whether it is negative. -/
  exponent : Option (Bool × List Char)
deriving DecidableEq, Repr

/-- Digits, of which there has to be one at least. What it means when the text ends there is up to
the caller. -/
def someDigits (atEnd : Fault) (cs : List Char) : Except Fault (List Char × List Char) :=
  match cs with
  | [] => .error atEnd
  | c :: _ =>
    if c.isDigit then .ok (cs.takeWhile Char.isDigit, cs.dropWhile Char.isDigit)
    else .error .malformed

/-- The digits before the point: no zero in front of others. -/
def wholeDigits (atEnd : Fault) (cs : List Char) : Except Fault (List Char × List Char) := do
  let (ds, rest) ← someDigits atEnd cs
  if ds.head? = some '0' ∧ ds.length ≠ 1 then throw .malformed
  return (ds, rest)

/-- The point and the digits after it, if they come next. -/
def fractionDigits (atEnd : Fault) :
    List Char → Except Fault (Option (List Char) × List Char)
  | '.' :: cs => (someDigits atEnd cs).map fun (ds, rest) => (some ds, rest)
  | cs => .ok (none, cs)

/-- The exponent, if it comes next. -/
def exponentDigits (atEnd : Fault) (cs : List Char) :
    Except Fault (Option (Bool × List Char) × List Char) :=
  match cs with
  | e :: cs =>
    if e == 'e' || e == 'E' then
      let (negative, cs) :=
        match cs with
        | '+' :: cs => (false, cs)
        | '-' :: cs => (true, cs)
        | cs => (false, cs)
      (someDigits atEnd cs).map fun (ds, rest) => (some (negative, ds), rest)
    else .ok (none, e :: cs)
  | [] => .ok (none, [])

/-- Cuts the number at the head of a text into its parts. -/
def NumberText.read (atEnd : Fault) (cs : List Char) : Except Fault (NumberText × List Char) := do
  let (negative, cs) :=
    match cs with
    | '-' :: cs => (true, cs)
    | cs => (false, cs)
  let (whole, cs) ← wholeDigits atEnd cs
  let (fraction, cs) ← fractionDigits atEnd cs
  let (exponent, cs) ← exponentDigits atEnd cs
  return ({ negative, whole, fraction, exponent }, cs)

/-! ## Values -/

/-- A number as it is taken. -/
inductive Number where
  /-- A natural number of 64 bits. -/
  | natural (n : Nat)
  | real (x : Binary64)
deriving DecidableEq, Repr

def Number.toBinary64 : Number → Binary64
  | natural n => .ofNat n
  | real x => x

/-- Goes on with a significand as long as it fits 64 bits: what it becomes, and how many digits that
took. -/
def takeDigits (significand used : Nat) : List Char → Nat × Nat
  | [] => (significand, used)
  | c :: cs =>
    let next := 10 * significand + (c.toNat - '0'.toNat)
    if next < UInt64.size then takeDigits next (used + 1) cs else (significand, used)

/-- A power of ten in double precision. -/
def powerOfTen (k : Nat) : Nat := binary64.nearest (Nat.pow 10 k) 1

/-- The greatest power of ten in double precision. -/
def maxPower : Nat := 308

/-- A magnitude divided by ten to the `k`, in steps when the power is too great. -/
def divideByPower (m k : Nat) : Nat :=
  if k ≤ maxPower then binary64.quotient m (powerOfTen k)
  else if m = 0 then 0
  else divideByPower (binary64.quotient m (powerOfTen maxPower)) (k - maxPower)
termination_by k
decreasing_by simp only [maxPower] at *; omega

/-- The magnitude of a significand times ten to the `exponent`. A number that is too great for the
format is no JSON. -/
def scaled (significand : Nat) (exponent : Int) : Except Fault Nat :=
  let m := binary64.nearest significand 1
  match exponent with
  | .negSucc k => .ok (divideByPower m (k + 1))
  | .ofNat k =>
    if m = 0 then .ok 0
    else if maxPower < k then .error .malformed
    else
      let p := binary64.product m (powerOfTen k)
      if p = binary64.infinity then .error .malformed else .ok p

def digitsValue (cs : List Char) : Nat :=
  cs.foldl (fun n c => 10 * n + (c.toNat - '0'.toNat)) 0

/-- The value of a number. Digits before the point that do not fit the significand count towards the
exponent, those after it do not count. -/
def NumberText.value (t : NumberText) : Except Fault Number := do
  let (significand, used) := takeDigits 0 0 t.whole
  let dropped := t.whole.length - used
  if t.fraction = none ∧ t.exponent = none ∧ dropped = 0 ∧ !t.negative then
    return .natural significand
  let (significand, places) := takeDigits significand 0 (t.fraction.getD [])
  let exponent : Int :=
    match t.exponent with
    | none => 0
    | some (negative, ds) => if negative then -digitsValue ds else digitsValue ds
  let m ← scaled significand (dropped - places + exponent)
  return .real (.ofMagnitude t.negative m)

def readNumber (cs : List Char) : Except Fault (Number × List Char) := do
  let (t, rest) ← NumberText.read .cutShort cs
  return (← t.value, rest)

end RecordPack.Json

import RecordPack.Json.Number

/-!
# Passing over JSON values

A value under a key that nobody asks for is read past, whatever it is and however deep. Only the
brackets that are still open have to be remembered.
-/

namespace RecordPack.Json

/-- An open bracket. -/
inductive Bracket where
  | list
  | object
deriving DecidableEq, Repr

def Bracket.close : Bracket → Char
  | list => ']'
  | object => Char.ofNat 0x7D

/-- The bracket that a character opens. -/
def Bracket.ofOpen? (c : Char) : Option Bracket :=
  if c = '[' then some list else if c = Char.ofNat 0x7B then some object else none

/-- Whether a number may start with the character. -/
def startsNumber (c : Char) : Bool := c == '-' || c.isDigit

/-- Reads past a value without brackets. -/
def skipScalar : List Char → Except Fault (List Char)
  | 'n' :: cs => expect ['u', 'l', 'l'] cs
  | 't' :: cs => expect ['r', 'u', 'e'] cs
  | 'f' :: cs => expect ['a', 'l', 's', 'e'] cs
  | '"' :: cs => (readString false cs).map (·.2)
  | c :: cs =>
    if startsNumber c then (NumberText.read .malformed (c :: cs)).map (·.2)
    else .error .malformed
  | [] => .error .cutShort

/-- Reads past a value without brackets, or past the bracket that a value opens with. -/
def skipHead (cs : List Char) : Except Fault (Option Bracket × List Char) :=
  match skipBlank cs with
  | [] => .error .cutShort
  | c :: rest =>
    match Bracket.ofOpen? c with
    | some b => .ok (some b, rest)
    | none => (skipScalar (c :: rest)).map fun rest => (none, rest)

/-- Reads past the colon after a key. -/
def skipColon (cs : List Char) : Except Fault (List Char) :=
  match skipBlank cs with
  | ':' :: rest => .ok rest
  | [] => .error .cutShort
  | _ => .error .malformed

/-- Reads past the key and the colon that a value in an object has in front. -/
def skipKey (b : Bracket) (cs : List Char) : Except Fault (List Char) :=
  match b with
  | .list => .ok cs
  | .object =>
    match skipBlank cs with
    | '"' :: rest => (readString false rest).bind fun (_, rest) => skipColon rest
    | [] => .error .cutShort
    | _ => .error .malformed

/-- Reads until all of `stack` is closed; `opened` says whether its top has only just been opened,
so that no comma is due. Every step takes a character at least, so `budget` need be no more than the
length of the text. -/
def skipRest : (budget : Nat) → (opened : Bool) → (stack : List Bracket) → List Char →
    Except Fault (List Char)
  | _, _, [], cs => .ok cs
  | 0, _, _ :: _, _ => .error .cutShort
  | budget + 1, opened, b :: stack, cs =>
    match skipBlank cs with
    | [] => .error .cutShort
    | c :: rest => do
      if c = b.close then skipRest budget false stack rest
      else if !opened && c != ',' then throw .malformed
      else
        let cs ← skipKey b (if opened then c :: rest else rest)
        let (inner, cs) ← skipHead cs
        match inner with
        | none => skipRest budget false (b :: stack) cs
        | some b' => skipRest budget true (b' :: b :: stack) cs

def skipValue (cs : List Char) : Except Fault (List Char) := do
  let (inner, cs) ← skipHead cs
  match inner with
  | none => return cs
  | some b => skipRest cs.length true [b] cs

end RecordPack.Json

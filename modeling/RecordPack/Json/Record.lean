import RecordPack.Json.Skip

/-!
# Records in JSON

A record is an object with known keys, each under a value of a known kind, or a list of the values
in the order of the keys. Unknown keys are passed over, and a known one comes only once. A caller
says whether every value has to be there.
-/

namespace RecordPack.Json

open Ieee (Binary64)

/-- What a value has to be. -/
inductive Kind where
  | bool
  /-- A natural number of 64 bits. -/
  | natural
  | number
deriving DecidableEq, Repr

/-- A value of one of the kinds. -/
inductive Item where
  | bool (b : Bool)
  | natural (n : Nat)
  | number (x : Binary64)
deriving DecidableEq, Repr

/-- A key and the kind of its value. -/
structure Column where
  key : String
  kind : Kind
deriving DecidableEq, Repr

/-- The values that were read, under their keys. -/
abbrev Found := List (String × Item)

namespace Found

def bool? (found : Found) (key : String) : Option Bool :=
  match found.lookup key with
  | some (.bool b) => some b
  | _ => none

def natural? (found : Found) (key : String) : Option Nat :=
  match found.lookup key with
  | some (.natural n) => some n
  | _ => none

def number? (found : Found) (key : String) : Option Binary64 :=
  match found.lookup key with
  | some (.number x) => some x
  | _ => none

end Found

/-- The fault of reading something and not wanting it. -/
def faultAfter {α : Type} : Except Fault α → Fault
  | .error fault => fault
  | .ok _ => .mismatched

/-- The fault of a value of another kind. The value is read first unless it has brackets, and its own
faults count. -/
def refuse : List Char → Fault
  | '"' :: cs => faultAfter (readString true cs)
  | 'n' :: cs => faultAfter (expect ['u', 'l', 'l'] cs)
  | 't' :: cs => faultAfter (expect ['r', 'u', 'e'] cs)
  | 'f' :: cs => faultAfter (expect ['a', 'l', 's', 'e'] cs)
  | c :: cs =>
    if startsNumber c then faultAfter (readNumber (c :: cs))
    else if (Bracket.ofOpen? c).isSome then .mismatched
    else .malformed
  | [] => .cutShort

def readBool : List Char → Except Fault (Item × List Char)
  | 't' :: cs => (expect ['r', 'u', 'e'] cs).map fun rest => (.bool true, rest)
  | 'f' :: cs => (expect ['a', 'l', 's', 'e'] cs).map fun rest => (.bool false, rest)
  | cs => .error (refuse cs)

/-- Reads a number of one of the two kinds. -/
def readNumeric (kind : Kind) (cs : List Char) : Except Fault (Item × List Char) :=
  match cs with
  | c :: _ =>
    if startsNumber c then do
      let (n, rest) ← readNumber cs
      match kind, n with
      | .natural, .natural n => return (.natural n, rest)
      | .number, n => return (.number n.toBinary64, rest)
      | _, _ => throw .mismatched
    else .error (refuse cs)
  | [] => .error .cutShort

def readItem (kind : Kind) (cs : List Char) : Except Fault (Item × List Char) :=
  let cs := skipBlank cs
  match kind with
  | .bool => readBool cs
  | kind => readNumeric kind cs

/-! ## Lists -/

/-- Reads past the end of a list that has all its values. -/
def closeList (cs : List Char) : Except Fault (List Char) :=
  match skipBlank cs with
  | ']' :: rest => .ok rest
  | [] => .error .cutShort
  | _ => .error .malformed

/-- Reads past the comma in front of the next value of a list. -/
def skipListComma (cs : List Char) : Except Fault (List Char) :=
  match cs with
  | ',' :: rest =>
    match skipBlank rest with
    | [] => .error .cutShort
    | ']' :: _ => .error .malformed
    | rest => .ok rest
  | _ => .error .malformed

/-- Reads the values of a list up to its end. -/
def readList (partly : Bool) : (first : Bool) → List Column → List Char →
    Except Fault (Found × List Char)
  | _, [], cs => (closeList cs).map fun rest => ([], rest)
  | first, col :: cols, cs =>
    match skipBlank cs with
    | [] => .error .cutShort
    | ']' :: rest => if partly then .ok ([], rest) else .error .mismatched
    | cs => do
      let cs ← if first then pure cs else skipListComma cs
      let (item, cs) ← readItem col.kind cs
      let (found, cs) ← readList partly false cols cs
      return ((col.key, item) :: found, cs)

/-! ## Objects -/

/-- Reads past the comma in front of the next key of an object, if it is not the first. -/
def skipObjectComma (first : Bool) (cs : List Char) : Except Fault (List Char) :=
  if first then .ok cs
  else
    match cs with
    | ',' :: rest =>
      match skipBlank rest with
      | [] => .error .cutShort
      | rest => .ok rest
    | _ => .error .malformed

/-- Reads the keys and values of an object up to its end, after those found before. Every key takes
a character at least, so `budget` need be no more than the length of the text. -/
def readObject (columns : List Column) : (budget : Nat) → (found : Found) → (first : Bool) →
    List Char → Except Fault (Found × List Char)
  | 0, _, _, _ => .error .cutShort
  | budget + 1, found, first, cs =>
    match skipBlank cs with
    | [] => .error .cutShort
    | c :: rest =>
      if c = Bracket.object.close then .ok (found, rest)
      else do
        match ← skipObjectComma first (c :: rest) with
        | '"' :: cs =>
          let (key, cs) ← readString true cs
          match columns.find? (·.key == String.ofList key) with
          | some col =>
            if (found.lookup col.key).isSome then throw .mismatched
            let cs ← skipColon cs
            let (item, cs) ← readItem col.kind cs
            readObject columns budget ((col.key, item) :: found) false cs
          | none =>
            let cs ← skipColon cs
            let cs ← skipValue cs
            readObject columns budget found false cs
        | _ => throw .malformed

/-! ## Whole texts -/

/-- Makes sure that nothing is missing, unless something may be. -/
def checkComplete (partly : Bool) (columns : List Column) (found : Found) :
    Except Fault Unit :=
  if partly || columns.all fun col => (found.lookup col.key).isSome then .ok ()
  else .error .mismatched

/-- Reads a record; `partly` says whether values may be missing. -/
def readFound (partly : Bool) (columns : List Column) (cs : List Char) :
    Except Fault (Found × List Char) :=
  match cs with
  | [] => .error .cutShort
  | c :: rest =>
    match Bracket.ofOpen? c with
    | some .list => readList partly true columns rest
    | some .object => do
      let (found, rest) ← readObject columns (rest.length + 1) [] true rest
      checkComplete partly columns found
      return (found, rest)
    | none => .error (refuse cs)

/-- Reads a record that is the whole text. -/
def readRecord (partly : Bool) (columns : List Column) (text : String) : Except Fault Found := do
  let (found, rest) ← readFound partly columns (skipBlank text.toList)
  if (skipBlank rest).isEmpty then return found else throw .malformed

end RecordPack.Json

import RecordPack.Bytes

/-!
# UTF-8

Text as bytes and back. Decoding goes one byte at a time: between characters, or inside one whose
lead byte has fixed how many continuation bytes are due and which range the first of them must lie
in. A failure names the first byte of the offending character.
-/

namespace RecordPack.Utf8

def encode (cs : List Char) : Bytes :=
  cs.flatMap String.utf8EncodeChar

/-- Why bytes are not text. -/
inductive Error where
  /-- At `index`, `length` bytes begin no character, whatever follows. -/
  | invalid (length index : Nat)
  /-- The bytes end inside the character that begins at `index`. -/
  | incomplete (index : Nat)
deriving DecidableEq, Repr

def Error.message : Error → String
  | .invalid length index => s!"invalid utf-8 sequence of {length} bytes from index {index}"
  | .incomplete index => s!"incomplete utf-8 byte sequence from index {index}"

/-- A character whose first bytes have been read. -/
structure Partial where
  /-- The index of its first byte. -/
  start : Nat
  /-- How many of its bytes have been read. -/
  seen : Nat
  /-- How many continuation bytes are due after the next one. -/
  due : Nat
  /-- The least value of the next byte. -/
  low : UInt8
  /-- The greatest value of the next byte. -/
  high : UInt8
  /-- The number spelled so far. -/
  code : Nat
deriving DecidableEq, Repr

/-- What a lead byte of a longer character opens. The bounds on the second byte leave out
overlong forms, surrogates and numbers beyond the last character. -/
def lead? (index : Nat) (b : UInt8) : Option Partial :=
  if 0xC2 ≤ b ∧ b ≤ 0xDF then some ⟨index, 1, 0, 0x80, 0xBF, b.toNat - 0xC0⟩
  else if b = 0xE0 then some ⟨index, 1, 1, 0xA0, 0xBF, 0⟩
  else if b = 0xED then some ⟨index, 1, 1, 0x80, 0x9F, 0xD⟩
  else if 0xE1 ≤ b ∧ b ≤ 0xEF then some ⟨index, 1, 1, 0x80, 0xBF, b.toNat - 0xE0⟩
  else if b = 0xF0 then some ⟨index, 1, 2, 0x90, 0xBF, 0⟩
  else if 0xF1 ≤ b ∧ b ≤ 0xF3 then some ⟨index, 1, 2, 0x80, 0xBF, b.toNat - 0xF0⟩
  else if b = 0xF4 then some ⟨index, 1, 2, 0x80, 0x8F, 4⟩
  else none

/-- The characters of `bs`, which starts at `index`, after the character read so far, if any. -/
def decodeFrom (index : Nat) : Option Partial → Bytes → Except Error (List Char)
  | none, [] => .ok []
  | some p, [] => .error (.incomplete p.start)
  | none, b :: rest =>
    if b ≤ 0x7F then
      (decodeFrom (index + 1) none rest).map (Char.ofNat b.toNat :: ·)
    else
      match lead? index b with
      | some p => decodeFrom (index + 1) (some p) rest
      | none => .error (.invalid 1 index)
  | some p, b :: rest =>
    if p.low ≤ b ∧ b ≤ p.high then
      let code := p.code * 64 + (b.toNat - 0x80)
      match p.due with
      | 0 => (decodeFrom (index + 1) none rest).map (Char.ofNat code :: ·)
      | due + 1 => decodeFrom (index + 1) (some ⟨p.start, p.seen + 1, due, 0x80, 0xBF, code⟩) rest
    else .error (.invalid p.seen p.start)

def decode (bs : Bytes) : Except Error (List Char) :=
  decodeFrom 0 none bs

end RecordPack.Utf8

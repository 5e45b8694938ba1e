import RecordPack.Text.Blank

/-!
# JSON strings

The parts of JSON text below numbers and brackets: blanks, words, and strings with their escapes.
A reader takes the text from where it stands and yields what it read together with the rest.
-/

namespace RecordPack.Json

/-- Why a text cannot be read. -/
inductive Fault where
  /-- The text is not JSON. -/
  | malformed
  /-- The text is JSON and says something else than what is asked for. -/
  | mismatched
  /-- The text ends too early. -/
  | cutShort
deriving DecidableEq, Repr

/-- Whether a character may stand between the parts of a text. -/
def isBlank (c : Char) : Bool := c == ' ' || c == '\n' || c == '\t' || c == '\r'

/-- The text without the blanks in front. -/
def skipBlank (cs : List Char) : List Char := cs.dropWhile isBlank

/-- Reads past the letters of a word. -/
def expect : (word : List Char) → List Char → Except Fault (List Char)
  | [], cs => .ok cs
  | _ :: _, [] => .error .cutShort
  | w :: ws, c :: cs => if c = w then expect ws cs else .error .malformed

/-! ## Strings -/

def hexDigit? (c : Char) : Option Nat :=
  if c.isDigit then some (c.toNat - '0'.toNat)
  else if 'a' ≤ c ∧ c ≤ 'f' then some (c.toNat - 'a'.toNat + 10)
  else if 'A' ≤ c ∧ c ≤ 'F' then some (c.toNat - 'A'.toNat + 10)
  else none

/-- Reads four hexadecimal digits. The text is too short when not even four bytes are left. -/
def fourDigits : List Char → Except Fault (Nat × List Char)
  | a :: b :: c :: d :: rest =>
    match [a, b, c, d].mapM hexDigit? with
    | some ds => .ok (ds.foldl (fun n x => 16 * n + x) 0, rest)
    | none => .error .malformed
  | cs => .error (if Text.byteLength cs < 4 then .cutShort else .malformed)

/-- Reads the number of a character after its backslash and `u`. Characters beyond the first 65536
are written as two numbers, a leading and a trailing one; when `checked` is false, half a pair may
stand alone and what it stands for is not looked at. -/
def numberEscape (checked : Bool) (cs : List Char) : Except Fault (Char × List Char) := do
  let (n, cs) ← fourDigits cs
  if !checked || n < 0xD800 || 0xDFFF < n then return (Char.ofNat n, cs)
  if 0xDC00 ≤ n then throw .malformed
  match cs with
  | [] | ['\\'] => throw .cutShort
  | '\\' :: 'u' :: cs =>
    let (m, cs) ← fourDigits cs
    if m < 0xDC00 || 0xDFFF < m then throw .malformed
    return (Char.ofNat ((n - 0xD800) * 0x400 + (m - 0xDC00) + 0x10000), cs)
  | _ => throw .malformed

/-- The character that a letter after a backslash stands for. -/
def letterEscape? : Char → Option Char
  | '"' => some '"'
  | '\\' => some '\\'
  | '/' => some '/'
  | 'b' => some '\x08'
  | 'f' => some '\x0c'
  | 'n' => some '\n'
  | 'r' => some '\r'
  | 't' => some '\t'
  | _ => none

theorem length_le_of_fourDigits {cs rest : List Char} {n : Nat}
    (h : fourDigits cs = .ok (n, rest)) : rest.length ≤ cs.length := by
  unfold fourDigits at h
  split at h
  · split at h
    · cases h; simp only [List.length_cons]; omega
    · cases h
  · cases h

theorem length_le_of_numberEscape {checked : Bool} {cs rest : List Char} {c : Char}
    (h : numberEscape checked cs = .ok (c, rest)) : rest.length ≤ cs.length := by
  simp only [numberEscape, bind, Except.bind] at h
  split at h
  · cases h
  · next p hp =>
    have h₁ := length_le_of_fourDigits hp
    split at h
    · cases h; exact h₁
    · split at h
      · cases h
      · split at h
        · cases h
        · cases h
        · next cs' heq =>
          split at h
          · cases h
          · next q hq =>
            have h₂ := length_le_of_fourDigits hq
            split at h
            · cases h
            · simp only [pure, Except.pure, Except.ok.injEq, Prod.mk.injEq] at h
              rw [← h.2]
              simp only [heq, List.length_cons] at h₁
              omega
        · cases h

/-- Reads a string whose opening quote has been read. -/
def readString (checked : Bool) : List Char → Except Fault (List Char × List Char)
  | [] => .error .cutShort
  | '"' :: rest => .ok ([], rest)
  | ['\\'] => .error .cutShort
  | '\\' :: 'u' :: rest =>
    match _h : numberEscape checked rest with
    | .ok (c, rest') => (readString checked rest').map fun (s, rest) => (c :: s, rest)
    | .error fault => .error fault
  | '\\' :: c :: rest =>
    match letterEscape? c with
    | some c => (readString checked rest).map fun (s, rest) => (c :: s, rest)
    | none => .error .malformed
  | c :: rest =>
    if c.toNat < 0x20 then .error .malformed
    else (readString checked rest).map fun (s, rest) => (c :: s, rest)
termination_by cs => cs.length
decreasing_by
  · have := length_le_of_numberEscape _h
    simp only [List.length_cons]; omega
  · simp only [List.length_cons]; omega
  · simp only [List.length_cons]; omega

end RecordPack.Json

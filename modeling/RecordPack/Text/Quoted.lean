import RecordPack.Text.Printable

/-!
# Quoted text

Text in messages stands between double quotes. Quotes, backslashes and the common control
characters are escaped by a letter, every other unprintable character by its number.
-/

namespace RecordPack.Text

/-- A character by its number: `\u`, then the hexadecimal digits in braces. -/
def numberEscape (c : Char) : List Char :=
  ['\\', 'u', Char.ofNat 0x7B] ++ Nat.toDigits 16 c.toNat ++ [Char.ofNat 0x7D]

/-- What stands for one character between the quotes. -/
def escapeChar (c : Char) : List Char :=
  match c.toNat with
  | 0x00 => ['\\', '0']
  | 0x09 => ['\\', 't']
  | 0x0A => ['\\', 'n']
  | 0x0D => ['\\', 'r']
  | 0x22 => ['\\', c]
  | 0x5C => ['\\', c]
  | _ => if isPrintable c then [c] else numberEscape c

/-- The text between quotes, escaped. -/
def quote (s : String) : String :=
  "\"" ++ String.ofList (s.toList.flatMap escapeChar) ++ "\""

end RecordPack.Text

import RecordPack.Text.Blank
import RecordPack.Text.Digit

/-!
# Tokens of the schema language

A token spells one field: an optional list mark, an optional width, the character of the type, and
an optional label in parentheses. `Token.lex?` reads the token at the head of a text, if one is
there; no other token starts at the same place, since each part is taken as far as it goes.
`Scan.ofText` walks through a whole text and takes at each step the first place where a token starts.
-/

namespace RecordPack

/-- A width or count as it is written. -/
inductive Qualifier where
  /-- The mark of a number that each record carries. -/
  | tilde
  /-- Digits, of any script. -/
  | digits (cs : List Char)
deriving DecidableEq, Repr

/-- What stands in parentheses after a type. -/
structure Label where
  id : List Char
  /-- All that follows it, blanks included. -/
  note : List Char
deriving DecidableEq, Repr

/-- The spelling of one field, in its parts. -/
structure Token where
  /-- The list mark: absent, or a colon with what stands before it. -/
  list : Option (Option Qualifier)
  width : Option Qualifier
  type : Char
  label : Option Label
deriving DecidableEq, Repr

namespace Qualifier

def spell : Qualifier → List Char
  | tilde => ['~']
  | digits cs => cs

def spell? : Option Qualifier → List Char
  | none => []
  | some q => q.spell

/-- Reads a qualifier if one is there. -/
def lex : List Char → Option Qualifier × List Char
  | '~' :: rest => (some tilde, rest)
  | cs =>
    match cs.takeWhile Text.isDecimalDigit with
    | [] => (none, cs)
    | ds => (some (digits ds), cs.dropWhile Text.isDecimalDigit)

end Qualifier

namespace Label

def isIdStart (c : Char) : Bool := c.isAlpha || c == '_'

def isIdPart (c : Char) : Bool := c.isAlphanum || c == '_'

def spell (l : Label) : List Char := '(' :: l.id ++ l.note ++ [')']

/-- Reads a label if one is there. Without a closing parenthesis there is none. -/
def lex? : List Char → Option (Label × List Char)
  | '(' :: c :: cs =>
    if isIdStart c then
      let after := cs.dropWhile isIdPart
      match after.dropWhile (· != ')') with
      | _ :: rest => some (⟨c :: cs.takeWhile isIdPart, after.takeWhile (· != ')')⟩, rest)
      | [] => none
    else none
  | _ => none

end Label

namespace Token

/-- Whether a character may stand for a type, known or not. -/
def isTypeChar (c : Char) : Bool := c.isAlpha || c == '?'

def spell (t : Token) : List Char :=
  (match t.list with
    | none => []
    | some q => Qualifier.spell? q ++ [':']) ++
  Qualifier.spell? t.width ++ t.type :: (match t.label with
    | none => []
    | some l => l.spell)

/-- Reads the type and the label that follow the qualifiers. -/
def lexTail? (list : Option (Option Qualifier)) (width : Option Qualifier) :
    List Char → Option (Token × List Char)
  | c :: rest =>
    if isTypeChar c then
      match Label.lex? rest with
      | some (l, rest') => some (⟨list, width, c, some l⟩, rest')
      | none => some (⟨list, width, c, none⟩, rest)
    else none
  | [] => none

/-- Reads the token at the head of a text, if there is one. A qualifier before a colon is a count,
and any other is the width. -/
def lex? (cs : List Char) : Option (Token × List Char) :=
  match Qualifier.lex cs with
  | (q, ':' :: rest) => lexTail? (some q) (Qualifier.lex rest).1 (Qualifier.lex rest).2
  | (q, rest) => lexTail? none q rest

/-- The first token of a text: what stands before it, the token, and what follows. -/
def first? : List Char → Option (List Char × Token × List Char)
  | [] => none
  | c :: cs =>
    match lex? (c :: cs) with
    | some (t, rest) => some ([], t, rest)
    | none => (first? cs).map fun (gap, t, rest) => (c :: gap, t, rest)

end Token

/-! ## Every token uses up text -/

theorem Qualifier.length_lex_le (cs : List Char) : (Qualifier.lex cs).2.length ≤ cs.length := by
  unfold Qualifier.lex
  split
  · simp
  · split
    · exact Nat.le_refl _
    · exact (List.dropWhile_sublist _).length_le

theorem Label.length_lt_of_lex? {cs rest : List Char} {l : Label}
    (h : Label.lex? cs = some (l, rest)) : rest.length < cs.length := by
  unfold Label.lex? at h
  split at h
  · next c cs =>
    split at h
    · -- the closing parenthesis is dropped, so even more is used up
      have hle := (List.dropWhile_sublist (l := cs.dropWhile isIdPart) (· != ')')).length_le
      have hle' := (List.dropWhile_sublist (l := cs) isIdPart).length_le
      simp only at h
      split at h
      · next heq =>
        cases h
        rw [heq] at hle
        simp only [List.length_cons] at hle ⊢
        omega
      · cases h
    · cases h
  · cases h

theorem Token.length_lt_of_lexTail? {list : Option (Option Qualifier)} {width : Option Qualifier}
    {cs rest : List Char} {t : Token} (h : Token.lexTail? list width cs = some (t, rest)) :
    rest.length < cs.length := by
  unfold Token.lexTail? at h
  split at h
  · split at h
    · split at h
      · next hl =>
        cases h
        have := Label.length_lt_of_lex? hl
        simp only [List.length_cons]; omega
      · cases h; simp
    · cases h
  · cases h

theorem Token.length_lt_of_lex? {cs rest : List Char} {t : Token}
    (h : Token.lex? cs = some (t, rest)) : rest.length < cs.length := by
  unfold Token.lex? at h
  have hq := Qualifier.length_lex_le cs
  split at h
  · next q r heq =>
    have hq' := Qualifier.length_lex_le r
    have ht := Token.length_lt_of_lexTail? h
    simp only [heq, List.length_cons] at hq
    omega
  · next q r _ heq =>
    have ht := Token.length_lt_of_lexTail? h
    simp only [heq] at hq
    omega

theorem Token.length_lt_of_first? {cs gap rest : List Char} {t : Token}
    (h : Token.first? cs = some (gap, t, rest)) : rest.length < cs.length := by
  induction cs generalizing gap with
  | nil => simp [Token.first?] at h
  | cons c cs ih =>
    simp only [Token.first?] at h
    split at h
    · next hl =>
      cases h
      exact Token.length_lt_of_lex? hl
    · simp only [Option.map_eq_some_iff, Prod.mk.injEq] at h
      obtain ⟨⟨gap', t', rest'⟩, hf, -, rfl, rfl⟩ := h
      exact Nat.lt_succ_of_lt (ih hf)

/-! ## Whole texts -/

/-- A token together with the text between it and the token before it. -/
structure Piece where
  gap : List Char
  token : Token
deriving DecidableEq, Repr

/-- A text cut into tokens. -/
structure Scan where
  /-- The tokens, each with what stands before it. -/
  pieces : List Piece
  /-- What follows the last token. -/
  tail : List Char
deriving DecidableEq, Repr

def Piece.spell (p : Piece) : List Char := p.gap ++ p.token.spell

def Scan.ofText (cs : List Char) : Scan :=
  match _h : Token.first? cs with
  | none => ⟨[], cs⟩
  | some (gap, t, rest) =>
    let s := Scan.ofText rest
    ⟨⟨gap, t⟩ :: s.pieces, s.tail⟩
termination_by cs.length
decreasing_by exact Token.length_lt_of_first? _h

end RecordPack

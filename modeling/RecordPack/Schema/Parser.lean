import RecordPack.Log
import RecordPack.Options
import RecordPack.Schema.Basic
import RecordPack.Schema.Error
import RecordPack.Schema.Token

/-!
# Parsing schemas

A text is cut into tokens (`Scan.ofText`), each token becomes a field (`Token.toField`), and the
fields are taken in order while their ids and their widths are checked against the fields before
(`fieldsOf`). Text between the tokens is refused, or reported and dropped, as the options say.
-/

namespace RecordPack

def decimalValue (cs : List Char) : Nat :=
  cs.foldl (fun n c => 10 * n + (c.toNat - '0'.toNat)) 0

/-- The number that digits spell, if they are ASCII digits and it fits 64 bits. -/
def numberOfDigits? (cs : List Char) : Option Nat :=
  if cs.all Char.isDigit && decimalValue cs < UInt64.size then some (decimalValue cs) else none

/-- The extent that a qualifier spells; a number has to be readable, and not zero. -/
def Qualifier.toExtent (position : Nat) (zero : SchemaError) :
    Qualifier → Except SchemaError Extent
  | tilde => .ok .dynamic
  | digits cs =>
    match numberOfDigits? cs with
    | none => .error (.numberTooLarge position (String.ofList cs))
    | some 0 => .error zero
    | some n => .ok (.fixed n)

namespace Token

/-- The width that a token gives its type. -/
def widthOf (t : Token) (position : Nat) (type : ScalarType) : Except SchemaError Extent :=
  match t.width with
  | none => .ok (.fixed type.width)
  | some q =>
    if type.isString then q.toExtent position (.zeroLength position t.type)
    else .error (.unexpectedLength position t.type)

/-- The count that a token gives its list, if it is one. A bare colon leaves it to the records. -/
def countOf (t : Token) (position : Nat) : Except SchemaError (Option Extent) :=
  match t.list with
  | none => .ok none
  | some none => .ok (some .dynamic)
  | some (some q) => (q.toExtent position (.zeroCount position t.type)).map some

/-- The id of the field at a position: as labelled, or made from the position. -/
def idOf (t : Token) (position : Nat) : String :=
  match t.label with
  | some l => String.ofList l.id
  | none => s!"f{position}"

/-- The remark of a label, if it is not blank. -/
def noteOf (t : Token) : Option String :=
  match t.label with
  | none => none
  | some l =>
    match Text.trim l.note with
    | [] => none
    | note => some (String.ofList note)

/-- The field that a token spells at a position. -/
def toField (t : Token) (position : Nat) : Except SchemaError Field := do
  let some type := ScalarType.ofChar? t.type | throw (.unknownType position t.type)
  let width ← t.widthOf position type
  let count ← t.countOf position
  return { id := t.idOf position, type, width, count, note := t.noteOf }

end Token

/-- The sum of the fixed widths with one more field, as long as a record can be that long. -/
def addFixedWidth (total : Nat) (f : Field) (position : Nat) : Except SchemaError Nat :=
  match f.fixedWidth? with
  | none => .ok total
  | some w =>
    if total + w ≤ LengthPrefix.maxLength then .ok (total + w) else .error (.widthOverflow position)

/-- Deals with the text between two tokens, which stands at `offset`: blanks are fine. -/
def checkGap (options : ParseOptions) (offset : Nat) (gap : List Char) : Attempt SchemaError Unit :=
  match Text.trim gap with
  | [] => pure ()
  | fragment =>
    let start := offset + Text.byteLength (gap.takeWhile Text.isBlank)
    if options.allowTrailing then
      Attempt.emit (.textDropped start (String.ofList fragment))
    else throw (.unexpectedInput start (String.ofList fragment))

/-- The fields of the pieces, the first of which stands at `offset` and comes after fields with the
ids `seen` and the fixed widths `total`. -/
def fieldsOf (options : ParseOptions) (offset : Nat) (seen : List String) (total : Nat) :
    List Piece → Attempt SchemaError (List Field)
  | [] => pure []
  | p :: ps => do
    checkGap options offset p.gap
    let position := seen.length + 1
    let f ← Attempt.lift (p.token.toField position)
    if f.id ∈ seen then throw (.duplicateId position f.id)
    let total ← Attempt.lift (addFixedWidth total f position)
    let fs ← fieldsOf options (offset + Text.byteLength p.spell) (f.id :: seen) total ps
    return f :: fs

/-- The byte order at the head of a text, if there is one, what follows it, and its width in
bytes. -/
def splitMarker : List Char → ByteOrder × List Char × Nat
  | [] => (.network, [], 0)
  | c :: cs =>
    match ByteOrder.ofMarker? c with
    | some order => (order, cs, 1)
    | none => (.network, c :: cs, 0)

namespace Schema

def parse (options : ParseOptions) (text : String) : Logged (Except SchemaError Schema) :=
  let cs := text.toList
  let lead := Text.byteLength (cs.takeWhile Text.isBlank)
  let (order, body, markerWidth) := splitMarker (Text.trimStart cs)
  let base := lead + markerWidth
  let scan := Scan.ofText body
  let parsed : Attempt SchemaError Schema := do
    let fields ← fieldsOf options base [] 0 scan.pieces
    let tailOffset := base + Text.byteLength (scan.pieces.flatMap Piece.spell)
    checkGap options tailOffset scan.tail
    Attempt.emit (.schemaParsed fields.length order)
    return { order, fields, text }
  parsed.run

end Schema

end RecordPack

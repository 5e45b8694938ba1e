import RecordPack.Schema.Basic

/-!
# Schemas as text

`Schema.canonical` spells a schema so that it can be parsed again. `Schema.describe` is a table
for people.
-/

namespace RecordPack

/-- The spelling of a field with its id. -/
def Field.spell (f : Field) : String := s!"{f.token}({f.id})"

namespace Schema

/-- The schema in its shortest spelling, every id written out and no remarks. -/
def canonical (s : Schema) : String :=
  String.join (toString s.order.marker :: s.fields.map Field.spell)

/-- The text, filled up with blanks at its end. -/
def padRight (width : Nat) (t : String) : String :=
  t ++ String.ofList (List.replicate (width - t.length) ' ')

/-- The text, filled up with blanks in front. -/
def padLeft (width : Nat) (t : String) : String :=
  String.ofList (List.replicate (width - t.length) ' ') ++ t

/-- The greatest length of the texts, but at least `least`. -/
def columnWidth (least : Nat) (texts : List String) : Nat :=
  texts.foldl (fun w t => max w t.length) least

/-- The line of a field: its number, its id, its spelling, its kind, and the remark if it has one. -/
def describeField (idWidth tokenWidth number : Nat) (f : Field) : String :=
  let line := s!"{padLeft 3 (toString number)}  {padRight idWidth f.id}  {padRight tokenWidth f.token}  {f.kindName}"
  match f.note with
  | some note => s!"{line}  # {note}\n"
  | none => s!"{line}\n"

/-- A table of the fields, under a line with the byte order. -/
def describe (s : Schema) : String :=
  let idWidth := columnWidth 2 s.ids
  let tokenWidth := columnWidth 4 (s.fields.map Field.token)
  String.join (s!"byte order: {s.order.name} ({s.order.marker})\n" ::
    s.fields.mapIdx fun i f => describeField idWidth tokenWidth (i + 1) f)

end Schema

end RecordPack

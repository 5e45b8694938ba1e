import RecordPack.Schema.Scalar

/-!
# Fields

One position of a schema: a value or a list of values of one scalar type, under an id.
-/

namespace RecordPack

/-- A width or a count. -/
inductive Extent where
  /-- The schema says it. -/
  | fixed (n : Nat)
  /-- Every record carries its own. -/
  | dynamic
deriving DecidableEq, Repr

namespace Extent

def fixed? : Extent → Option Nat
  | fixed n => some n
  | dynamic => none

def isFixed (e : Extent) : Bool := e.fixed?.isSome

end Extent

/-- A position of a schema. -/
structure Field where
  id : String
  /-- The type of the value, or of each item of the list. -/
  type : ScalarType
  /-- The bytes of the value, or of each item. -/
  width : Extent
  /-- The number of items; absent when the field is no list. -/
  count : Option Extent := none
  /-- A remark, which has no effect. -/
  note : Option String := none
deriving DecidableEq, Repr

namespace Field

def isList (f : Field) : Bool := f.count.isSome

/-- The spelling of the type with its width. Only byte strings have one, and theirs is left out
when it is one byte. -/
def itemToken (f : Field) : String :=
  match f.width with
  | .dynamic => s!"~{f.type.char}"
  | .fixed n => if f.type.isString && n != 1 then s!"{n}{f.type.char}" else toString f.type.char

/-- The spelling of the field without its id. -/
def token (f : Field) : String :=
  match f.count with
  | none => f.itemToken
  | some .dynamic => s!"~:{f.itemToken}"
  | some (.fixed n) => s!"{n}:{f.itemToken}"

def display (f : Field) : String :=
  if f.isList then s!"{f.id}: {f.itemToken}[]" else s!"{f.id}: {f.token}"

/-- The type in words, lists marked. -/
def kindName (f : Field) : String :=
  if f.isList then s!"list<{f.type.name}>" else f.type.name

/-- The bytes of the whole field, if the schema alone says them. -/
def fixedWidth? (f : Field) : Option Nat :=
  match f.width, f.count with
  | .fixed w, none => some w
  | .fixed w, some (.fixed n) => some (w * n)
  | _, _ => none

end Field

end RecordPack

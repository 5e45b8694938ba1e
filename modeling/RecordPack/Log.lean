import RecordPack.LengthPrefix
import RecordPack.Schema.Scalar
import RecordPack.Text.Quoted

/-!
# Log

What the library reports while it works. An event is data; its level and its text are functions of
it. A computation that reports is a value together with its events, in order, so nothing about the
value depends on who listens.
-/

namespace RecordPack

/-- How much an event matters. -/
inductive Level where
  | trace
  | debug
  | warn
deriving DecidableEq, Repr

def Level.name : Level → String
  | trace => "TRACE"
  | debug => "DEBUG"
  | warn => "WARN"

/-- Something worth reporting. -/
inductive Event where
  /-- A schema text held something that belongs to no field, and it was dropped. -/
  | textDropped (offset : Nat) (fragment : String)
  | schemaParsed (fields : Nat) (order : ByteOrder)
  | layoutCompiled (fields segments : Nat)
  | recordWritten (size offset : Nat)
  | rowPacked (number size : Nat)
  | schemaEmbedded (size : Nat)
  /-- A packer left out the schema, whose length has no prefix. -/
  | schemaSkipped (cause : LengthError)
  | recordRead (size offset : Nat)
  | schemaBlockRead (text : String) (size : Nat)
deriving DecidableEq, Repr

namespace Event

def level : Event → Level
  | textDropped .. => .warn
  | schemaParsed .. | layoutCompiled .. | schemaBlockRead .. => .debug
  | schemaEmbedded .. | schemaSkipped .. => .debug
  | recordWritten .. | rowPacked .. | recordRead .. => .trace

def message : Event → String
  | textDropped offset fragment =>
    s!"[SCHEMA] ignoring unmatched input at offset {offset}: {Text.quote fragment}"
  | schemaParsed fields order => s!"[SCHEMA] parsed {fields} field(s), byte order {order.name}"
  | layoutCompiled fields segments =>
    s!"[PLAN] compiled {fields} field(s) into {segments} segment(s)"
  | recordWritten size offset => s!"[ENCODE] record of {size} bytes at offset {offset}"
  | rowPacked number size => s!"[PACK] row {number} ({size} bytes)"
  | schemaEmbedded size => s!"[PACK] schema block of {size} bytes"
  | schemaSkipped cause => s!"[PACK] schema block skipped: length error: {cause.message}"
  | recordRead size offset => s!"[DECODE] record of {size} bytes at offset {offset}"
  | schemaBlockRead text size => s!"[STREAM] schema block {Text.quote text} ({size} bytes)"

/-- The line that a listener writes. -/
def line (e : Event) : String := s!"{e.level.name} {e.message}"

end Event

/-- A value and what was reported on the way to it. -/
structure Logged (α : Type) where
  value : α
  events : List Event := []

namespace Logged

instance : Monad Logged where
  pure a := { value := a }
  bind x f :=
    let y := f x.value
    { value := y.value, events := x.events ++ y.events }

/-- Reports one event. -/
def emit (e : Event) : Logged Unit := { value := (), events := [e] }

variable {α β : Type}

@[simp] theorem value_pure (a : α) : (pure a : Logged α).value = a := rfl

@[simp] theorem events_pure (a : α) : (pure a : Logged α).events = [] := rfl

@[simp] theorem value_bind (x : Logged α) (f : α → Logged β) :
    (x >>= f).value = (f x.value).value := rfl

@[simp] theorem events_bind (x : Logged α) (f : α → Logged β) :
    (x >>= f).events = x.events ++ (f x.value).events := rfl

@[simp] theorem events_emit (e : Event) : (emit e).events = [e] := rfl

end Logged

/-- A computation that may fail, and that reports whether or not it does. -/
abbrev Attempt (ε : Type) := ExceptT ε Logged

namespace Attempt

variable {ε α β : Type}

/-- A step that reports nothing. -/
def lift (x : Except ε α) : Attempt ε α := ExceptT.mk (pure x)

/-- A step that cannot fail. -/
def always (x : Logged α) : Attempt ε α := ExceptT.lift x

/-- Reports one event. -/
def emit (e : Event) : Attempt ε Unit := always (Logged.emit e)

@[simp] theorem value_pure (a : α) : (pure a : Attempt ε α).run.value = .ok a := rfl

@[simp] theorem value_throw (e : ε) : (throw e : Attempt ε α).run.value = .error e := rfl

@[simp] theorem value_lift (x : Except ε α) : (lift x).run.value = x := rfl

@[simp] theorem value_always (x : Logged α) : (always x : Attempt ε α).run.value = .ok x.value := rfl

@[simp] theorem value_emit (e : Event) : (emit e : Attempt ε Unit).run.value = .ok () := rfl

@[simp] theorem value_bind (x : Attempt ε α) (f : α → Attempt ε β) :
    (x >>= f).run.value = x.run.value >>= fun a => (f a).run.value := by
  simp only [bind, ExceptT.bind, ExceptT.mk, ExceptT.run, Except.bind]
  cases Logged.value x <;> rfl

@[simp] theorem events_pure (a : α) : (pure a : Attempt ε α).run.events = [] := rfl

@[simp] theorem events_lift (x : Except ε α) : (lift x).run.events = [] := rfl

@[simp] theorem events_always (x : Logged α) : (always x : Attempt ε α).run.events = x.events :=
  List.append_nil _

@[simp] theorem events_emit (e : Event) : (emit e : Attempt ε Unit).run.events = [e] := rfl

/-- What comes after a step that succeeds is reported after it. -/
theorem events_bind_of_ok {x : Attempt ε α} {a : α} (h : x.run.value = .ok a)
    (f : α → Attempt ε β) : (x >>= f).run.events = x.run.events ++ (f a).run.events := by
  simp only [ExceptT.run] at h
  simp only [bind, ExceptT.bind, ExceptT.mk, ExceptT.run, h]
  rfl

end Attempt

end RecordPack

import RecordPack.Codec
import RecordPack.Stats.Counters

/-!
# Reading record after record

`Records` stands in a buffer in front of the next record. It yields rows until the buffer ends or a
record is damaged, which it reports once; then it yields nothing any more.
-/

namespace RecordPack

/-- The records of a buffer from some place on. -/
structure Records where
  codec : Codec
  data : Bytes
  cursor : Nat
  /-- Whether there is nothing more to yield. -/
  done : Bool := false
  counters : Counters := {}

namespace Records

/-- The next row or the error in its place, if there is one, and what is left. The length in front of
a record that was read is read once more, for its width. -/
def next (r : Records) : Logged (Option (Except CodecError Row) × Records) := do
  if r.done then return (none, r)
  match ← (r.codec.decodeNext r.data r.cursor).run with
  | .ok (some d) =>
    match LengthPrefix.decode r.data r.cursor with
    | .ok (width, _) =>
      let counters := r.counters.addDecoded (d.next - r.cursor) width
      return (some (.ok d.row), { r with cursor := d.next, counters })
    | .error cause => return (some (.error (.length cause)), { r with done := true })
  | .ok none => return (none, { r with done := true })
  | .error e => return (some (.error e), { r with done := true })

/-- The length in front of a record that was read can be read again, so a reader never fails with
that. -/
theorem value_next {r : Records} (hdone : r.done = false) : r.next.value =
    match r.codec.readAt r.data r.cursor with
    | .ok (some d) =>
      let counters := r.counters.addDecoded (d.next - r.cursor) d.headWidth
      (some (.ok d.row), { r with cursor := d.next, counters })
    | .ok none => (none, { r with done := true })
    | .error e => (some (.error e), { r with done := true }) := by
  simp only [next, hdone, Bool.false_eq_true, if_false, Logged.value_bind, Codec.value_decodeNext]
  cases hread : r.codec.readAt r.data r.cursor with
  | error e => rfl
  | ok d? =>
    cases d? with
    | none => rfl
    | some d =>
      obtain ⟨size, hsize⟩ := Codec.decode_of_readAt hread
      simp only [hsize]
      rfl

/-- A reader that is done stays as it is. -/
theorem value_next_of_done {r : Records} (hdone : r.done = true) : r.next.value = (none, r) := by
  simp [next, hdone]

/-- Bounds how often there is something to yield. -/
def budget (r : Records) : Nat := if r.done then 0 else r.data.length - r.cursor + 1

theorem budget_lt_of_next {r r' : Records} {x : Except CodecError Row}
    (h : r.next.value = (some x, r')) : r'.budget < r.budget := by
  cases hdone : r.done with
  | true =>
    rw [value_next_of_done hdone] at h
    cases h
  | false =>
    rw [value_next hdone] at h
    simp only [budget, hdone, Bool.false_eq_true, if_false]
    split at h
    · next d hread =>
      -- a row was read, so the cursor moves on inside the buffer
      have hlt := Codec.lt_next_of_readAt hread
      cases h
      simp only [hdone, Bool.false_eq_true, if_false]
      omega
    · cases h
    · cases h
      exact Nat.succ_pos _

/-- Everything that is left, each with the state after it, and the state at the end. -/
def drain (r : Records) : Logged (List (Except CodecError Row × Records) × Records) :=
  let step := r.next
  match _h : step.value with
  | (none, r') => { value := ([], r'), events := step.events }
  | (some x, r') =>
    let rest := drain r'
    { value := ((x, r') :: rest.value.1, rest.value.2), events := step.events ++ rest.events }
termination_by r.budget
decreasing_by exact budget_lt_of_next _h

/-- All rows that are left, or the error in the place of one. -/
def rows (r : Records) : PackM (List Row) := do
  let (yields, _) ← Attempt.always r.drain
  Attempt.lift (yields.mapM (·.1))

end Records

def Codec.decodeFrom (c : Codec) (data : Bytes) (cursor : Nat) : Records :=
  { codec := c, data, cursor }

def Codec.decodeAll (c : Codec) (data : Bytes) : Records := c.decodeFrom data 0

end RecordPack

import RecordPack.Proofs.Record.Place

/-!
# Steps by index and offset

A machine computes in words of 64 bits, takes elements by their index and bytes by their offsets. `Halt.trap` is
where it would go wrong: the steps here check what a machine would only rely on. A computation that gives the same
as one without such steps is at no trap (`untrapped`), and the two are compared step by step
(`untrapped_bind_congr`).
-/

namespace RecordPack.Addressing

/-- How a machine goes wrong. -/
inductive Trap where
  /-- A sum or a product is too large for a word. -/
  | overflow
  /-- There is nothing at an index, or there are no bytes between two offsets. -/
  | outOfRange
  /-- A block does not fall into one piece for each item. -/
  | uneven
  /-- A slot stands in a segment of the wrong class. -/
  | misplaced (id : String)
  /-- The last slot of a block does not end where the block ends. -/
  | unfilled
deriving DecidableEq, Repr

/-- Why a computation stops. -/
inductive Halt where
  | trap (cause : Trap)
  | error (cause : CodecError)
deriving Repr

variable {α β : Type}

/-- A computation that has no trap on its way. -/
def untrapped (x : Except CodecError α) : Except Halt α := x.mapError .error

@[simp] theorem untrapped_ok (a : α) : untrapped (.ok a) = .ok a := rfl

@[simp] theorem untrapped_error (e : CodecError) : untrapped (.error e : Except CodecError α) = .error (.error e) := rfl

/-- One step after the other has no trap if the first has none, and the second has none for what the first gives. -/
theorem untrapped_bind_congr {x : Except CodecError α} {f : α → Except CodecError β} {g : α → Except Halt β}
    (h : ∀ a, x = .ok a → g a = untrapped (f a)) : (untrapped x >>= g) = untrapped (x >>= f) := by
  cases x with
  | error e => rfl
  | ok a => exact h a rfl

/-! ## Words -/

/-- A sum of words. -/
def add (m n : Nat) : Except Halt Nat := if m + n < UInt64.size then .ok (m + n) else .error (.trap .overflow)

/-- A product of words. -/
def mul (m n : Nat) : Except Halt Nat := if m * n < UInt64.size then .ok (m * n) else .error (.trap .overflow)

theorem lt_size_of_le {n : Nat} (h : n ≤ LengthPrefix.maxLength) : n < UInt64.size :=
  Nat.lt_of_le_of_lt h (by decide)

theorem add_eq_ok {m n : Nat} (h : m + n ≤ LengthPrefix.maxLength) : add m n = .ok (m + n) := if_pos (lt_size_of_le h)

theorem mul_eq_ok {m n : Nat} (h : m * n ≤ LengthPrefix.maxLength) : mul m n = .ok (m * n) := if_pos (lt_size_of_le h)

/-! ## Indices and offsets -/

/-- The value at an index of a row. -/
def valueAt (row : Row) (index : Nat) : Except Halt Value :=
  match row[index]? with
  | some v => .ok v
  | none => .error (.trap .outOfRange)

theorem valueAt_eq_ok {row : Row} {index : Nat} {v : Value} (h : row[index]? = some v) : valueAt row index = .ok v := by
  rw [valueAt, h]

/-- The bytes between two offsets. -/
def slice (bs : Bytes) (start stop : Nat) : Except Halt Bytes :=
  if start ≤ stop ∧ stop ≤ bs.length then .ok ((bs.take stop).drop start) else .error (.trap .outOfRange)

theorem slice_append (before place after : Bytes) :
    slice (before ++ (place ++ after)) before.length (before.length + place.length) = .ok place := by
  have hin : before.length ≤ before.length + place.length ∧
      before.length + place.length ≤ (before ++ (place ++ after)).length := by
    simp only [List.length_append]
    omega
  rw [slice, if_pos hin, ← List.append_assoc, List.take_left' (by simp), List.drop_left]

/-- Puts other bytes in place of those between two offsets. -/
def edit (bs : Bytes) (start stop : Nat) (f : Bytes → Except Halt Bytes) : Except Halt Bytes := do
  let place ← slice bs start stop
  let place ← f place
  return bs.take start ++ place ++ bs.drop stop

theorem edit_append (before place after : Bytes) (f : Bytes → Except Halt Bytes) :
    edit (before ++ (place ++ after)) before.length (before.length + place.length) f =
      f place >>= fun place => .ok (before ++ place ++ after) := by
  have hafter : (before ++ (place ++ after)).drop (before.length + place.length) = after := by
    rw [← List.append_assoc]
    exact List.drop_left' (by simp)
  rw [edit, slice_append, ok_bind, List.take_left, hafter]
  rfl

theorem slice_all (place : Bytes) : slice place 0 place.length = .ok place := by
  simpa using slice_append [] place []

theorem edit_all (place : Bytes) (f : Bytes → Except Halt Bytes) : edit place 0 place.length f = f place := by
  have h := edit_append [] place [] f
  simp only [List.nil_append, List.append_nil, List.length_nil, Nat.zero_add] at h
  rw [h]
  cases f place <;> rfl

/-! ## Pieces -/

/-- The pieces of `width` bytes that bytes fall into, one for each of `count` items. Their number is what the bytes
make it. -/
def pieces (width count : Nat) (bs : Bytes) : Except Halt (List Bytes) :=
  if 0 < width ∧ bs.length / width = count ∧ bs.length % width = 0 then
    .ok ((List.range (bs.length / width)).map fun i => (bs.drop (i * width)).take width)
  else .error (.trap .uneven)

theorem flatten_pieces {width : Nat} {places : List Bytes} (h : ∀ place ∈ places, place.length = width) :
    (List.range places.length).map (fun i => (places.flatten.drop (i * width)).take width) = places := by
  induction places with
  | nil => rfl
  | cons place places ih =>
    have hplace := h place List.mem_cons_self
    rw [List.length_cons, List.range_succ_eq_map, List.map_cons, List.map_map]
    congr 1
    · simp [← hplace]
    · conv_rhs => rw [← ih fun place hmem => h place (List.mem_cons_of_mem _ hmem)]
      refine List.map_congr_left fun i _ => ?_
      rw [Function.comp_apply, Nat.succ_mul, Nat.add_comm, List.flatten_cons, ← hplace, List.drop_length_add_append]

theorem pieces_flatten {width : Nat} (hwidth : 0 < width) {places : List Bytes}
    (h : ∀ place ∈ places, place.length = width) : pieces width places.length places.flatten = .ok places := by
  rw [pieces, ScalarType.length_flatten_places h, Nat.mul_div_cancel _ hwidth, Nat.mul_mod_left,
    if_pos ⟨hwidth, rfl, rfl⟩, flatten_pieces h]

end RecordPack.Addressing

import RecordPack.Codec

/-!
# Equality can be decided

Values are compared part by part, floating-point numbers as bits. With that errors and rows that were read can
be compared too.
-/

namespace RecordPack

namespace Value

mutual

/-- Whether two values are equal, bit for bit. -/
def beq : Value → Value → Bool
  | pad, pad => true
  | bool a, bool b => a == b
  | int a, int b => a == b
  | uint a, uint b => a == b
  | f32 a, f32 b => a == b
  | f64 a, f64 b => a == b
  | bytes a, bytes b => a == b
  | list as, list bs => beqAll as bs
  | _, _ => false

/-- Whether two lists of values are equal, bit for bit. -/
def beqAll : List Value → List Value → Bool
  | [], [] => true
  | a :: as, b :: bs => beq a b && beqAll as bs
  | _, _ => false

end

mutual

theorem beq_iff (v w : Value) : beq v w = true ↔ v = w := by
  cases v with
  | list as => cases w <;> simp [beq, beqAll_iff as]
  | _ => cases w <;> simp [beq]

theorem beqAll_iff (as bs : List Value) : beqAll as bs = true ↔ as = bs := by
  cases as with
  | nil => cases bs <;> simp [beqAll]
  | cons a as => cases bs <;> simp [beqAll, beq_iff a, beqAll_iff as]

end

instance : DecidableEq Value := fun v w => decidable_of_iff _ (beq_iff v w)

end Value

deriving instance DecidableEq for Fault
deriving instance DecidableEq for CodecError
deriving instance DecidableEq for Decoded

end RecordPack

import A32Assembler.Word

/-!
# Shifts

The four operations of the barrel shifter. A constant amount is stored in five bits, where zero has
a meaning of its own for every operation but `lsl`.
-/

namespace A32Assembler

/-- An operation of the barrel shifter. -/
inductive Shift
  | lsl | lsr | asr | ror
deriving DecidableEq

namespace Shift

/-- The two-bit type field. -/
def bits : Shift → BitVec 2
  | lsl => 0 | lsr => 1 | asr => 2 | ror => 3

/-- The mnemonic. -/
def name : Shift → String
  | lsl => "lsl" | lsr => "lsr" | asr => "asr" | ror => "ror"

/-- All operations in the order of their fields. -/
def all : List Shift := [lsl, lsr, asr, ror]

/-- The operation with a given mnemonic. -/
def ofName? (s : String) : Option Shift := all.find? (·.name = s)

/-- Whether a constant amount can be written for this operation: `lsl` takes 0-31, `lsr` and `asr`
take 1-32, `ror` takes 1-31. -/
def Accepts (s : Shift) (amount : Nat) : Prop :=
  match s with
  | lsl => amount ≤ 31
  | lsr | asr => 1 ≤ amount ∧ amount ≤ 32
  | ror => 1 ≤ amount ∧ amount ≤ 31

/-- The bounds of an amount are computed for each operation. -/
instance (s : Shift) (amount : Nat) : Decidable (s.Accepts amount) := by
  cases s <;> unfold Accepts <;> infer_instance

end Shift

end A32Assembler

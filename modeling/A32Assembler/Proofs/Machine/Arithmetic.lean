import A32Assembler.Instruction.Core
import A32Assembler.Proofs.Machine.State

/-!
# Operand values and arithmetic with flags

The barrel shifter gives the second operand of a data-processing instruction together with a carry,
and the adder gives a sum with carry and overflow. Every data-processing operation is one of the
adder's, or a bitwise operation that takes over the shifter's carry.
-/

namespace A32Assembler

/-- A shift by any amount, with the last bit shifted out; a shift by zero keeps the carry. -/
def Shift.apply (s : Shift) (x : Word) (amount : Nat) (carry : Bool) : Word × Bool :=
  if amount = 0 then (x, carry)
  else
    match s with
    | lsl => (x <<< amount, decide (amount ≤ 32) && x.getLsbD (32 - amount))
    | lsr => (x >>> amount, x.getLsbD (amount - 1))
    | asr => (x.sshiftRight amount, if amount ≤ 32 then x.getLsbD (amount - 1) else x.msb)
    | ror => (x.rotateRight amount, (x.rotateRight amount).msb)

/-- The amount that a five-bit field stands for: a right shift by zero is a shift by 32. -/
def Shift.amount (s : Shift) (field : BitVec 5) : Nat :=
  if field = 0 ∧ (s = lsr ∨ s = asr) then 32 else field.toNat

/-- The value of an operand and the carry out of the shifter. -/
def Operand.evaluate (read : Register → Word) (carry : Bool) : Operand → Word × Bool
  | immediate rotate imm8 =>
    let x := (imm8.setWidth 32).rotateRight (2 * rotate.toNat)
    (x, if rotate = 0 then carry else x.msb)
  | register rm => (read rm, carry)
  | shifted rm shift field => shift.apply (read rm) (shift.amount field) carry
  | shiftedBy rm shift rs => shift.apply (read rm) ((read rs).extractLsb' 0 8).toNat carry
  | extended rm => (Word.place 31 (BitVec.ofBool carry) ||| (read rm) >>> 1, (read rm).getLsbD 0)

/-- The constant zero as an operand. -/
@[simp] theorem Operand.evaluate_zero (read : Register → Word) (carry : Bool) :
    Operand.zero.evaluate read carry = (0, carry) := rfl

/-- The constant one as an operand. -/
@[simp] theorem Operand.evaluate_one (read : Register → Word) (carry : Bool) :
    Operand.one.evaluate read carry = (1, carry) := rfl

namespace Machine

/-- A result with what the flags learn from it. -/
structure Outcome where
  value : Word
  carry : Bool
  overflow : Bool

/-- The flags after an outcome. -/
def Outcome.flags (o : Outcome) : Flags := ⟨o.value.msb, o.value = 0, o.carry, o.overflow⟩

/-- The sum of two words and a carry. -/
def addWithCarry (x y : Word) (carry : Bool) : Outcome :=
  let sum := x + y + (BitVec.ofBool carry).setWidth 32
  { value := sum
    carry := decide (2 ^ 32 ≤ x.toNat + y.toNat + carry.toNat)
    overflow := decide (sum.toInt ≠ x.toInt + y.toInt + carry.toNat) }

/-- The outcome of a data-processing operation on two operands, the second with the carry of the
shifter. A difference is the sum with the complement. -/
def compute (op : Opcode) (f : Flags) (x : Word) (y : Word × Bool) : Outcome :=
  let bitwise (value : Word) : Outcome := ⟨value, y.2, f.v⟩
  match op with
  | .and | .tst => bitwise (x &&& y.1)
  | .eor | .teq => bitwise (x ^^^ y.1)
  | .sub | .cmp => addWithCarry x (~~~y.1) true
  | .rsb => addWithCarry (~~~x) y.1 true
  | .add | .cmn => addWithCarry x y.1 false
  | .adc => addWithCarry x y.1 f.c
  | .sbc => addWithCarry x (~~~y.1) f.c
  | .rsc => addWithCarry (~~~x) y.1 f.c
  | .orr => bitwise (x ||| y.1)
  | .mov => bitwise y.1
  | .bic => bitwise (x &&& ~~~y.1)
  | .mvn => bitwise (~~~y.1)

/-- Adding the complement and one subtracts. -/
theorem value_addWithCarry_not (x y : Word) : (addWithCarry x (~~~y) true).value = x - y := by
  change x + ~~~y + 1#32 = x - y
  bv_omega

/-- Adding to the complement and one subtracts from. -/
theorem value_addWithCarry_not_left (x y : Word) :
    (addWithCarry (~~~x) y true).value = y - x := by
  change ~~~x + y + 1#32 = y - x
  bv_omega

/-- Adding without a carry is addition. -/
theorem value_addWithCarry_false (x y : Word) : (addWithCarry x y false).value = x + y := by
  change x + y + 0#32 = x + y
  rw [BitVec.add_zero]

variable (f : Flags) (x : Word) (y : Word × Bool)

/-- `add` computes the sum. -/
@[simp] theorem value_compute_add : (compute .add f x y).value = x + y.1 :=
  value_addWithCarry_false x y.1

/-- `sub` computes the difference. -/
@[simp] theorem value_compute_sub : (compute .sub f x y).value = x - y.1 :=
  value_addWithCarry_not x y.1

/-- `rsb` computes the difference the other way round. -/
@[simp] theorem value_compute_rsb : (compute .rsb f x y).value = y.1 - x :=
  value_addWithCarry_not_left x y.1

/-- `mov` computes its operand. -/
@[simp] theorem value_compute_mov : (compute .mov f x y).value = y.1 := rfl

/-- `mvn` computes the complement of its operand. -/
@[simp] theorem value_compute_mvn : (compute .mvn f x y).value = ~~~y.1 := rfl

/-- A comparison sets `Z` exactly if the operands are equal. -/
@[simp] theorem z_compute_cmp : (compute .cmp f x y).flags.z = decide (x = y.1) := by
  have difference : (compute .cmp f x y).value = x - y.1 := value_addWithCarry_not x y.1
  have zero : x - y.1 = 0 ↔ x = y.1 := by
    constructor
    · intro h
      bv_omega
    · intro h
      rw [h]
      exact BitVec.sub_self _
  simp only [Outcome.flags, difference, zero]

/-- A comparison with the negative sets `Z` exactly if one operand is the negative of the other. -/
@[simp] theorem z_compute_cmn : (compute .cmn f x y).flags.z = decide (x = -y.1) := by
  have sum : (compute .cmn f x y).value = x + y.1 := value_addWithCarry_false x y.1
  have zero : x + y.1 = 0 ↔ x = -y.1 := by
    constructor
    · intro h
      bv_omega
    · intro h
      rw [h]
      bv_omega
  simp only [Outcome.flags, sum, zero]

end Machine

end A32Assembler

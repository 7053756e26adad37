import A32Assembler.Register.Field

/-!
# Shifter operands

The second operand of a data-processing instruction: a rotated 8-bit constant, or a register that
the barrel shifter may shift by a constant, by a register, or by one bit through the carry.
-/

namespace A32Assembler

/-- The five-bit field of a constant shift amount: 32 is stored as zero. -/
def Shift.amountField (s : Shift) (amount : Nat) : Except Refusal (BitVec 5) :=
  if s.Accepts amount then .ok (BitVec.ofNat 5 amount) else .error (.shiftAmount s amount)

/-- A shifter operand. -/
inductive Operand
  /-- `imm8` rotated right by twice `rotate`. -/
  | immediate (rotate : BitVec 4) (imm8 : Byte)
  | register (rm : Register)
  /-- `rm` shifted by the amount that a five-bit field stands for. -/
  | shifted (rm : Register) (shift : Shift) (field : BitVec 5)
  /-- `rm` shifted by the low byte of `rs`. -/
  | shiftedBy (rm : Register) (shift : Shift) (rs : Register)
  /-- `rm` rotated right by one bit through the carry. -/
  | extended (rm : Register)
deriving DecidableEq

namespace Operand

/-- The constant as a rotated 8-bit value, with the least rotation that works. -/
def ofValue? (value : Word) : Option Operand :=
  (List.range 16).findSome? fun rotate ↦
    let imm := value.rotateLeft (2 * rotate)
    if imm < 256 then some (.immediate (BitVec.ofNat 4 rotate) (imm.setWidth 8)) else none

/-- A constant operand. -/
def ofValue (value : Word) : Except Refusal Operand :=
  match ofValue? value with
  | some operand => .ok operand
  | none => .error (.immediate value)

/-- A constant operand with a chosen rotation. -/
def rotated (rotate imm8 : Nat) : Except Misuse Operand := do
  require (rotate < 16) (.rotation rotate)
  require (imm8 < 256) (.imm8 imm8)
  return .immediate (BitVec.ofNat 4 rotate) (BitVec.ofNat 8 imm8)

/-- A register shifted by a constant amount. -/
def shiftedRegister (rm : Register) (shift : Shift) (amount : Nat) : Except Refusal Operand := do
  let field ← shift.amountField amount
  return .shifted rm shift field

/-- The constant zero. -/
def zero : Operand := .immediate 0 0

/-- The constant one. -/
def one : Operand := .immediate 0 1

/-- Whether the operand is a constant; bit 25 of the instruction. -/
def isImmediate : Operand → Bool
  | immediate .. => true
  | _ => false

/-- The value of a constant operand. -/
def immediateValue? : Operand → Option Word
  | immediate rotate imm8 => some ((imm8.setWidth 32).rotateRight (2 * rotate.toNat))
  | _ => none

/-- Bits 11-0 of the instruction. -/
def encoding : Operand → Except Misuse Word
  | immediate rotate imm8 => .ok (Word.place 8 rotate ||| Word.place 0 imm8)
  | register rm => do
    let m ← rm.code
    return Word.place 0 m
  | shifted rm shift field => do
    let m ← rm.code
    return Word.place 7 field ||| Word.place 5 shift.bits ||| Word.place 0 m
  | shiftedBy rm shift rs => do
    let s ← rs.code
    let m ← rm.code
    return Word.place 8 s ||| Word.place 5 shift.bits ||| Word.flag 4 true ||| Word.place 0 m
  | extended rm => do
    let m ← rm.code
    return Word.place 5 Shift.ror.bits ||| Word.place 0 m

end Operand

end A32Assembler

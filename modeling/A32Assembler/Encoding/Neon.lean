import A32Assembler.Encoding.Vfp

/-!
# Layouts of the vector instructions

Vector words have no condition field. A quadword register is written as the double it starts with;
bit 6 marks the quadword forms.
-/

namespace A32Assembler.Encoding

open Word (place flag)

/-- Three registers of one length: `1111 001U 0 D size Vn Vd opc N Q M o Vm`. -/
def vectorThree (opcode : Word) (qd qn qm : QRegister) : Except Misuse Word := do
  let d ← qd.split
  let n ← qn.split
  let m ← qm.split
  return 0xf2000000 ||| opcode ||| place 22 d.extra ||| place 16 n.field ||| place 12 d.field |||
    place 7 n.extra ||| flag 6 true ||| place 5 m.extra ||| place 0 m.field

/-- Two registers: `1111 0011 1 D 11 size opc Vd 0 opc Q M 0 Vm`. -/
def vectorTwo (opcode : Word) (qd qm : QRegister) : Except Misuse Word := do
  let d ← qd.split
  let m ← qm.split
  return 0xf3b00000 ||| opcode ||| place 22 d.extra ||| place 12 d.field ||| flag 6 true |||
    place 5 m.extra ||| place 0 m.field

/-- The four-bit field that names a lane of a double and, by its lowest set bit, the lane width. -/
def laneField (size : OperandSize) (index : Nat) : Except Misuse (BitVec 4) :=
  match size with
  | .byte | .unsignedByte => do
    require (index < 8) (.duplicateLane size index)
    return BitVec.ofNat 4 (2 * index + 1)
  | .halfword | .unsignedHalfword => do
    require (index < 4) (.duplicateLane size index)
    return BitVec.ofNat 4 (4 * index + 2)
  | .word | .unsignedWord | .single => do
    require (index < 2) (.duplicateLane size index)
    return BitVec.ofNat 4 (8 * index + 4)
  | .wordPair | .double => throw (.duplicateSize size)

/-- Copies of one lane of a double in all lanes of a quadword register. -/
def vectorDuplicate (size : OperandSize) (qd : QRegister) (dm : DRegister) (index : Nat) :
    Except Misuse Word := do
  let lane ← laneField size index
  let d ← qd.split
  let m ← dm.split
  return 0xf3b00c00 ||| place 22 d.extra ||| place 16 lane ||| place 12 d.field ||| flag 6 true |||
    place 5 m.extra ||| place 0 m.field

/-- Table look-up in one to four doubles in a row. -/
def vectorTable (dd dn : DRegister) (length : Nat) (dm : DRegister) : Except Misuse Word := do
  require (1 ≤ length ∧ length ≤ 4) (.tableLength length)
  require (dn.number.toNat + length ≤ 32) .tableEnd
  let d ← dd.split
  let n ← dn.split
  let m ← dm.split
  return 0xf3b00800 ||| place 22 d.extra ||| place 16 n.field ||| place 12 d.field |||
    place 8 (BitVec.ofNat 2 (length - 1)) ||| place 7 n.extra ||| place 5 m.extra |||
    place 0 m.field

end A32Assembler.Encoding

import A32Assembler.Encoding.Neon
import A32Assembler.Instruction.Core

/-!
# Vector instructions

Advanced SIMD on quadword registers as data. None of them has a condition field, so each can be
issued under `AL` only.
-/

namespace A32Assembler

/-- Lanewise operations on integers. -/
inductive LaneOp
  | add | sub | mul | shlSigned | shlUnsigned | eq | geSigned | geUnsigned | gtSigned | gtUnsigned
deriving DecidableEq

/-- The opcode bits of an operation on integer lanes, without the lane width. -/
def LaneOp.bits : LaneOp → Word
  | add => 0x00000800 | sub => 0x01000800 | mul => 0x00000910
  | shlSigned => 0x00000400 | shlUnsigned => 0x01000400 | eq => 0x01000810
  | geSigned => 0x00000310 | geUnsigned => 0x01000310
  | gtSigned => 0x00000300 | gtUnsigned => 0x01000300

/-- Operations on quadword registers whose lanes are single-precision, or do not matter. -/
inductive QuadOp
  | add | sub | mul | min | max | recipStep | rsqrtStep | eq | ge | gt
  | bitAnd | bitOr | bitOrNot | bitXor
deriving DecidableEq

/-- The opcode bits of an operation on three quadword registers. -/
def QuadOp.bits : QuadOp → Word
  | add => 0x00000d00 | sub => 0x00200d00 | mul => 0x01000d10 | min => 0x00200f00
  | max => 0x00000f00 | recipStep => 0x00000f10 | rsqrtStep => 0x00200f10
  | eq => 0x00000e00 | ge => 0x01000e00 | gt => 0x01200e00
  | bitAnd => 0x00000110 | bitOr => 0x00200110 | bitOrNot => 0x00300110 | bitXor => 0x01000110

/-- Operations on two quadword registers. -/
inductive QuadUnaryOp
  | bitNot | abs | neg | recipEstimate | rsqrtEstimate | zip
deriving DecidableEq

/-- The opcode bits of an operation on two quadword registers. -/
def QuadUnaryOp.bits : QuadUnaryOp → Word
  | bitNot => 0x00000580 | abs => 0x00090700 | neg => 0x00090780
  | recipEstimate => 0x000b0500 | rsqrtEstimate => 0x000b0580 | zip => 0x000a0180

/-- A vector instruction. -/
inductive VectorInstruction
  /-- An operation on integer lanes of one width. -/
  | lanes (op : LaneOp) (size : OperandSize) (qd qn qm : QRegister)
  | quad (op : QuadOp) (qd qn qm : QRegister)
  | unary (op : QuadUnaryOp) (qd qm : QRegister)
  /-- Copies of lane `index` of `dm` in all lanes of `qd`. -/
  | duplicate (size : OperandSize) (qd : QRegister) (dm : DRegister) (index : Nat)
  /-- Look-up of the bytes of `dm` in the table of `length` doubles from `dn` on. -/
  | table (dd dn : DRegister) (length : Nat) (dm : DRegister)
deriving DecidableEq

namespace VectorInstruction

/-- The word of an instruction issued under a condition. -/
def encode (c : Condition) : VectorInstruction → Except Misuse Word
  | lanes op size qd qn qm => do
    require (op = .mul → size.laneBits ≠ 3) .multiplyLanes
    requireAlways .vector c
    Encoding.vectorThree (op.bits ||| Word.place 20 size.laneBits) qd qn qm
  | quad op qd qn qm => do
    requireAlways .vector c
    Encoding.vectorThree op.bits qd qn qm
  | unary op qd qm => do
    requireAlways .vector c
    Encoding.vectorTwo op.bits qd qm
  | duplicate size qd dm index => do
    requireAlways .duplicate c
    Encoding.vectorDuplicate size qd dm index
  | table dd dn length dm => do
    requireAlways .table c
    Encoding.vectorTable dd dn length dm

/-- Each lane of `qm` shifted by the signed count in the same lane of `qn`; the value comes first
in the assembler's order and second in the word. -/
def shiftLanes (signed : Bool) (size : OperandSize) (qd qm qn : QRegister) : VectorInstruction :=
  lanes (if signed then .shlSigned else .shlUnsigned) size qd qn qm

/-- A copy of a whole register, written as the bitwise or of the register with itself. -/
def move (qd qm : QRegister) : VectorInstruction := quad .bitOr qd qm qm

end VectorInstruction

end A32Assembler

import A32Assembler.Encoding.Core

/-!
# Core instructions

The integer instructions of A32 as data: one constructor per family, with the members of a family
told apart by small enumerations. `CoreInstruction.encode` gives the word of an instruction under a
condition, or says what is wrong with its operands.
-/

namespace A32Assembler

/-- The sixteen data-processing operations in the order of their opcodes. -/
inductive Opcode
  | and | eor | sub | rsb | add | adc | sbc | rsc | tst | teq | cmp | cmn | orr | mov | bic | mvn
deriving DecidableEq

namespace Opcode

/-- The opcode field, bits 24-21. -/
def bits : Opcode → BitVec 4
  | and => 0 | eor => 1 | sub => 2 | rsb => 3 | add => 4 | adc => 5 | sbc => 6 | rsc => 7
  | tst => 8 | teq => 9 | cmp => 10 | cmn => 11 | orr => 12 | mov => 13 | bic => 14 | mvn => 15

/-- The mnemonic. -/
def name : Opcode → String
  | and => "and" | eor => "eor" | sub => "sub" | rsb => "rsb" | add => "add" | adc => "adc"
  | sbc => "sbc" | rsc => "rsc" | tst => "tst" | teq => "teq" | cmp => "cmp" | cmn => "cmn"
  | orr => "orr" | mov => "mov" | bic => "bic" | mvn => "mvn"

/-- All operations in the order of their opcodes. -/
def all : List Opcode :=
  [and, eor, sub, rsb, add, adc, sbc, rsc, tst, teq, cmp, cmn, orr, mov, bic, mvn]

/-- The operation with a given mnemonic. -/
def ofName? (s : String) : Option Opcode := all.find? (·.name = s)

end Opcode

/-- Operations on two values with a result. -/
inductive ArithmeticOp
  | and | eor | sub | rsb | add | adc | sbc | rsc | orr | bic
deriving DecidableEq

/-- The opcode of an operation with a result. -/
def ArithmeticOp.opcode : ArithmeticOp → Opcode
  | and => .and | eor => .eor | sub => .sub | rsb => .rsb | add => .add | adc => .adc
  | sbc => .sbc | rsc => .rsc | orr => .orr | bic => .bic

/-- Operations on two values that only set the flags. -/
inductive ComparisonOp
  | tst | teq | cmp | cmn
deriving DecidableEq

/-- The opcode of a comparison. -/
def ComparisonOp.opcode : ComparisonOp → Opcode
  | tst => .tst | teq => .teq | cmp => .cmp | cmn => .cmn

/-- Operations on one value. -/
inductive MoveOp
  | mov | mvn
deriving DecidableEq

/-- The opcode of a move. -/
def MoveOp.opcode : MoveOp → Opcode
  | mov => .mov | mvn => .mvn

/-- Multiplications with a 64-bit result. -/
inductive LongMultiplyOp
  | umull | umlal | smull | smlal | umaal
deriving DecidableEq

/-- The operation field of a long multiplication. -/
def LongMultiplyOp.bits : LongMultiplyOp → Word
  | umaal => 2 | umull => 4 | umlal => 5 | smull => 6 | smlal => 7

/-- Transfers of a halfword or of a value that is sign-extended. -/
inductive MiscTransferOp
  | ldrh | strh | ldrsb | ldrsh
deriving DecidableEq

/-- Whether the transfer reads memory. -/
def MiscTransferOp.isLoad : MiscTransferOp → Bool
  | strh => false
  | _ => true

/-- The bits S and H. -/
def MiscTransferOp.bits : MiscTransferOp → Word
  | ldrh | strh => 1 | ldrsb => 2 | ldrsh => 3

/-- An integer instruction without its condition. -/
inductive CoreInstruction
  /-- `op{s} rd, rn, operand` -/
  | arithmetic (op : ArithmeticOp) (setFlags : Bool) (rd rn : Register) (operand : Operand)
  /-- `op rn, operand` -/
  | compare (op : ComparisonOp) (rn : Register) (operand : Operand)
  /-- `op{s} rd, operand` -/
  | move (op : MoveOp) (setFlags : Bool) (rd : Register) (operand : Operand)
  /-- `movw rd, #imm` clears the top half, `movt rd, #imm` keeps the bottom half. -/
  | moveWide (top : Bool) (rd : Register) (imm : Halfword)
  /-- `clz rd, rm` -/
  | countLeadingZeros (rd rm : Register)
  | nop
  | breakpoint (imm : Halfword)
  /-- `mul{s} rd, rn, rm` -/
  | multiply (setFlags : Bool) (rd rn rm : Register)
  /-- `mla rd, rn, rm, ra` adds the product to `ra`, `mls` subtracts it from `ra`. -/
  | multiplyAccumulate (subtract : Bool) (rd rn rm ra : Register)
  /-- `op lo, hi, rn, rm` -/
  | multiplyLong (op : LongMultiplyOp) (lo hi rn rm : Register)
  /-- `sdiv rd, rn, rm` and `udiv rd, rn, rm` -/
  | divide (unsigned : Bool) (rd rn rm : Register)
  /-- `ldr`, `str`, `ldrb` and `strb` -/
  | transfer (load byte : Bool) (rd : Register) (address : Address)
  | transferMisc (op : MiscTransferOp) (rd : Register) (address : Address)
  /-- `ldrd` and `strd` -/
  | transferPair (load : Bool) (rd rd2 : Register) (address : Address)
  /-- `ldm` and `stm` -/
  | transferBlock (load : Bool) (mode : BlockMode) (base : Register) (list : Halfword)
  /-- `ldrex rt, [rn]` -/
  | loadExclusive (rt rn : Register)
  /-- `strex rd, rt, [rn]` -/
  | storeExclusive (rd rt rn : Register)
  | clearExclusive
  /-- `b` and `bl`, by the byte offset from the instruction plus eight. -/
  | branch (link : Bool) (offset : Word)
  /-- `bx rm` and `blx rm` -/
  | branchExchange (link : Bool) (rm : Register)
deriving DecidableEq

/-- An instruction without a condition field can only be issued under `AL`. -/
def requireAlways (what : Unpredicable) (c : Condition) : Except Misuse Unit :=
  require (c = .al) (.unconditional what c)

/-- A register pair is an even register below `LR` and the one after it. -/
def requirePair (rd rd2 : Register) : Except Misuse Unit := do
  require (rd.number % 2 = 0 ∧ rd ≠ .lr) (.pairFirst rd)
  require (rd2.number = rd.number + 1) .pairSecond

namespace CoreInstruction

/-- The word of an instruction issued under a condition. -/
def encode (c : Condition) : CoreInstruction → Except Misuse Word
  | arithmetic op setFlags rd rn operand =>
    Encoding.dataProcessing c op.opcode.bits setFlags rn rd operand
  | compare op rn operand => Encoding.dataProcessing c op.opcode.bits true rn .r0 operand
  | move op setFlags rd operand => Encoding.dataProcessing c op.opcode.bits setFlags .r0 rd operand
  | moveWide top rd imm => Encoding.moveWide c top rd imm
  | countLeadingZeros rd rm => Encoding.countLeadingZeros c rd rm
  | nop => .ok (Encoding.nop c)
  | breakpoint imm => do
    requireAlways .breakpoint c
    return Encoding.breakpoint imm
  | multiply setFlags rd rn rm => Encoding.multiply c 0 setFlags rd .r0 rm rn
  | multiplyAccumulate subtract rd rn rm ra =>
    Encoding.multiply c (if subtract then 3 else 1) false rd ra rm rn
  | multiplyLong op lo hi rn rm => do
    require (lo ≠ hi) .longDestinations
    Encoding.multiply c op.bits false hi lo rm rn
  | divide unsigned rd rn rm => Encoding.divide c unsigned rd rn rm
  | transfer load byte rd address => Encoding.loadStore c load byte rd address
  | transferMisc op rd address => Encoding.loadStoreMisc c op.isLoad op.bits rd address
  | transferPair load rd rd2 address => do
    requirePair rd rd2
    Encoding.loadStoreMisc c false (if load then 2 else 3) rd address
  | transferBlock load mode base list => Encoding.blockTransfer c load mode base list
  | loadExclusive rt rn => Encoding.loadExclusive c rt rn
  | storeExclusive rd rt rn => do
    require (rd ≠ rt ∧ rd ≠ rn) .exclusiveStatus
    Encoding.storeExclusive c rd rt rn
  | clearExclusive => do
    requireAlways .clearExclusive c
    return Encoding.clearExclusive
  | branch link offset => Encoding.branch c link offset
  | branchExchange link rm => Encoding.branchExchange c link rm

/-- `str rd, [sp, #-4]!` -/
def push (rd : Register) : CoreInstruction :=
  transfer false false rd (.indexed .sp (-4) ⟨.preIndex, false⟩)

/-- `ldr rd, [sp], #4` -/
def pop (rd : Register) : CoreInstruction :=
  transfer true false rd (.indexed .sp 4 ⟨.postIndex, false⟩)

/-- `stmdb sp!, {list}` -/
def pushList (list : Halfword) : CoreInstruction := transferBlock false .pushing .sp list

/-- `ldmia sp!, {list}` -/
def popList (list : Halfword) : CoreInstruction := transferBlock true .popping .sp list

/-- A shift by a constant amount: `mov rd, rm, shift #amount`. -/
def shift (s : Shift) (rd rm : Register) (amount : Nat) : Except Refusal CoreInstruction := do
  let operand ← Operand.shiftedRegister rm s amount
  return move .mov false rd operand

/-- Rotation right by one bit through the carry: `mov rd, rm, rrx`. -/
def rotateExtended (rd rm : Register) : CoreInstruction := move .mov false rd (.extended rm)

/-- Return to the caller: `bx lr`. -/
def ret : CoreInstruction := branchExchange false .lr

end CoreInstruction

end A32Assembler

import A32Assembler.Address

/-!
# Layouts of the core instructions

One function per layout of the A32 instruction set. Each checks its registers and operands in the
order in which they are named and joins the fields of the word. A field given as a `Word` is moved
into place as it is.
-/

namespace A32Assembler.Encoding

open Word (place flag)

/-- The condition field. -/
def condition (c : Condition) : Word := place 28 c.bits

/-- Data processing: `cond 00 I opcode S Rn Rd operand`. -/
def dataProcessing (c : Condition) (opcode : BitVec 4) (setFlags : Bool) (rn rd : Register)
    (operand : Operand) : Except Misuse Word := do
  let n ← rn.code
  let d ← rd.code
  let o ← operand.encoding
  return condition c ||| flag 25 operand.isImmediate ||| place 21 opcode ||| flag 20 setFlags |||
    place 16 n ||| place 12 d ||| o

/-- Wide moves: `cond 0011 0 T 00 imm4 Rd imm12`. -/
def moveWide (c : Condition) (top : Bool) (rd : Register) (imm : Halfword) :
    Except Misuse Word := do
  let d ← rd.code
  return condition c ||| 0x03000000 ||| flag 22 top ||| place 16 (imm.extractLsb' 12 4) |||
    place 12 d ||| place 0 (imm.extractLsb' 0 12)

/-- Multiplication: `cond 0000 op S Rd/RdHi Ra/RdLo Rm 1001 Rn`. -/
def multiply (c : Condition) (op : Word) (setFlags : Bool) (hi lo rm rn : Register) :
    Except Misuse Word := do
  let h ← hi.code
  let l ← lo.code
  let m ← rm.code
  let n ← rn.code
  return condition c ||| place 21 op ||| flag 20 setFlags ||| place 16 h ||| place 12 l |||
    place 8 m ||| 0x90 ||| place 0 n

/-- Division: `cond 0111 00U1 Rd 1111 Rm 0001 Rn`. -/
def divide (c : Condition) (unsigned : Bool) (rd rn rm : Register) : Except Misuse Word := do
  let d ← rd.code
  let m ← rm.code
  let n ← rn.code
  return condition c ||| 0x0710f010 ||| flag 21 unsigned ||| place 16 d ||| place 8 m |||
    place 0 n

/-- Word and byte transfers: `cond 01 I P U B W L Rn Rd offset`. -/
def loadStore (c : Condition) (load byte : Bool) (rd : Register) (address : Address) :
    Except Misuse Word := do
  let d ← rd.code
  let a ← address.encodingWord
  return condition c ||| 0x04000000 ||| flag 22 byte ||| flag 20 load ||| place 12 d ||| a

/-- Halfword, signed and doubleword transfers: `cond 000 P U I W L Rn Rd imm4H 1 S H 1 imm4L`,
with the bits S and H in `sh`. -/
def loadStoreMisc (c : Condition) (load : Bool) (sh : Word) (rd : Register) (address : Address) :
    Except Misuse Word := do
  let d ← rd.code
  let a ← address.encodingMisc
  return condition c ||| flag 20 load ||| place 12 d ||| 0x90 ||| place 5 sh ||| a

/-- Block transfers: `cond 100 P U 0 W L Rn list`. -/
def blockTransfer (c : Condition) (load : Bool) (mode : BlockMode) (base : Register)
    (list : Halfword) : Except Misuse Word := do
  require (list ≠ 0) .emptyList
  let b ← base.code
  return condition c ||| 0x08000000 ||| mode.bits ||| flag 20 load ||| place 16 b ||| place 0 list

/-- Whether a near branch can hold a byte offset, as far as its size goes: `-2^25` up to but not
including `2^25`. -/
def InBranchRange (offset : Word) : Prop := -0x2000000 ≤ offset.toInt ∧ offset.toInt < 0x2000000

/-- Both bounds of the range can be computed. -/
instance (offset : Word) : Decidable (InBranchRange offset) := by
  unfold InBranchRange; infer_instance

/-- The field of a near branch: the byte offset from the branch plus eight, in words. -/
def branchField (offset : Word) : Except Misuse (BitVec 24) := do
  require (InBranchRange offset) (.branchDistance offset)
  return offset.extractLsb' 2 24

/-- The byte offset stored in a near branch. -/
def branchOffset (w : Word) : Word := (w <<< 8).sshiftRight 6

/-- Near branches: `cond 101 L imm24`. -/
def branch (c : Condition) (link : Bool) (offset : Word) : Except Misuse Word := do
  require (offset &&& 3 = 0) (.branchAlignment offset)
  let field ← branchField offset
  return condition c ||| 0x0a000000 ||| flag 24 link ||| place 0 field

/-- Branches to a register: `cond 0001 0010 1111 1111 1111 00L1 Rm`. -/
def branchExchange (c : Condition) (link : Bool) (rm : Register) : Except Misuse Word := do
  let m ← rm.code
  return condition c ||| 0x012fff10 ||| flag 5 link ||| place 0 m

/-- Count of leading zeros: `cond 0001 0110 1111 Rd 1111 0001 Rm`. -/
def countLeadingZeros (c : Condition) (rd rm : Register) : Except Misuse Word := do
  let d ← rd.code
  let m ← rm.code
  return condition c ||| 0x016f0f10 ||| place 12 d ||| place 0 m

/-- Exclusive load: `cond 0001 1001 Rn Rt 1111 1001 1111`. -/
def loadExclusive (c : Condition) (rt rn : Register) : Except Misuse Word := do
  let n ← rn.code
  let t ← rt.code
  return condition c ||| 0x01900f9f ||| place 16 n ||| place 12 t

/-- Exclusive store: `cond 0001 1000 Rn Rd 1111 1001 Rt`. -/
def storeExclusive (c : Condition) (rd rt rn : Register) : Except Misuse Word := do
  let n ← rn.code
  let d ← rd.code
  let t ← rt.code
  return condition c ||| 0x01800f90 ||| place 16 n ||| place 12 d ||| place 0 t

/-- Clearing the exclusive monitor; it has no condition field. -/
def clearExclusive : Word := 0xf57ff01f

/-- The hint that does nothing. -/
def nop (c : Condition) : Word := condition c ||| 0x0320f000

/-- Breakpoint: `1110 0001 0010 imm12 0111 imm4`, always executed. -/
def breakpoint (imm : Halfword) : Word :=
  0xe1200070 ||| place 8 (imm.extractLsb' 4 12) ||| place 0 (imm.extractLsb' 0 4)

/-- A wide move with its constant replaced: bits 19-16 and 11-0 change, all others stay. -/
def withWideImmediate (w : Word) (imm : Halfword) : Word :=
  w &&& 0xfff0f000 ||| place 16 (imm.extractLsb' 12 4) ||| place 0 (imm.extractLsb' 0 12)

/-- A near branch with its field replaced: bits 23-0 change, all others stay. -/
def withBranchField (w : Word) (field : BitVec 24) : Word := w &&& 0xff000000 ||| place 0 field

end A32Assembler.Encoding

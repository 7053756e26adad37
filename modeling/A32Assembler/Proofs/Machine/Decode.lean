import A32Assembler.Instruction
import A32Assembler.Proofs.Word.Field

/-!
# Decoding of instruction words

The instruction that a word stands for, read off the encoding tables of the A32 instruction set from
the top down: the condition, the class in bits 27-25, and within a class the bits that tell its
members apart. Words that stand for no instruction of this library, or for none at all, have no
decoding. A register shifted left by zero is decoded as the register itself.
-/

namespace A32Assembler

namespace Decode

/-- Whether a bit is set. -/
def bit (w : Word) (i : Nat) : Bool := w.extractLsb' i 1 = 1

/-- The core register named by the four bits from `lsb` on. -/
def register (w : Word) (lsb : Nat) : Register := ⟨(w.extractLsb' lsb 4).setWidth 8⟩

/-- The VFP register whose four-bit field starts at `lsb` and whose single bit is bit `extra`. -/
def floatRegister (p : Precision) (w : Word) (lsb extra : Nat) : FloatRegister p :=
  let field := w.extractLsb' lsb 4
  let single := w.extractLsb' extra 1
  match p with
  | .single => ⟨(field ++ single).setWidth 8⟩
  | .double => ⟨(single ++ field).setWidth 8⟩

/-- The condition of a predicated instruction. -/
def condition? : BitVec 4 → Option Condition
  | 0 => some .eq | 1 => some .ne | 2 => some .cs | 3 => some .cc | 4 => some .mi | 5 => some .pl
  | 6 => some .vs | 7 => some .vc | 8 => some .hi | 9 => some .ls | 10 => some .ge | 11 => some .lt
  | 12 => some .gt | 13 => some .le | 14 => some .al | _ => none

/-- The shift named by a type field. -/
def shift : BitVec 2 → Shift
  | 0 => .lsl | 1 => .lsr | 2 => .asr | _ => .ror

/-- The operand of a data-processing instruction, a constant or a register, by its twelve bits. -/
def operand (constant : Bool) (bits : BitVec 12) : Operand :=
  if constant then .immediate (bits.extractLsb' 8 4) (bits.extractLsb' 0 8)
  else
    let rm : Register := ⟨(bits.extractLsb' 0 4).setWidth 8⟩
    let type := shift (bits.extractLsb' 5 2)
    let amount := bits.extractLsb' 7 5
    if bits.extractLsb' 4 1 = 1 then .shiftedBy rm type ⟨(bits.extractLsb' 8 4).setWidth 8⟩
    else if type = .lsl ∧ amount = 0 then .register rm
    else if type = .ror ∧ amount = 0 then .extended rm
    else .shifted rm type amount

/-- The data-processing instruction with a given opcode. -/
def ofOpcode (opcode : BitVec 4) (setFlags : Bool) (rn rd : Register) (o : Operand) :
    CoreInstruction :=
  match opcode with
  | 0 => .arithmetic .and setFlags rd rn o
  | 1 => .arithmetic .eor setFlags rd rn o
  | 2 => .arithmetic .sub setFlags rd rn o
  | 3 => .arithmetic .rsb setFlags rd rn o
  | 4 => .arithmetic .add setFlags rd rn o
  | 5 => .arithmetic .adc setFlags rd rn o
  | 6 => .arithmetic .sbc setFlags rd rn o
  | 7 => .arithmetic .rsc setFlags rd rn o
  | 8 => .compare .tst rn o
  | 9 => .compare .teq rn o
  | 10 => .compare .cmp rn o
  | 11 => .compare .cmn rn o
  | 12 => .arithmetic .orr setFlags rd rn o
  | 13 => .move .mov setFlags rd o
  | 14 => .arithmetic .bic setFlags rd rn o
  | _ => .move .mvn setFlags rd o

/-- A data-processing instruction, with its opcode in bits 24-21. -/
def dataProcessing (w : Word) : CoreInstruction :=
  ofOpcode (w.extractLsb' 21 4) (bit w 20) (register w 16) (register w 12)
    (operand (bit w 25) (w.extractLsb' 0 12))

/-- The place of the data-processing opcodes that compare without setting the flags, where other
instructions stand. -/
def isMiscellaneous (w : Word) : Bool := w.extractLsb' 23 2 = 2 && !bit w 20

/-- Multiplications, by bits 23-21. -/
def multiply (w : Word) : Option CoreInstruction :=
  let hi := register w 16
  let lo := register w 12
  let rm := register w 8
  let rn := register w 0
  match (w.extractLsb' 21 3).toNat, bit w 20 with
  | 0, setFlags => some (.multiply setFlags hi rn rm)
  | 1, false => some (.multiplyAccumulate false hi rn rm lo)
  | 2, false => some (.multiplyLong .umaal lo hi rn rm)
  | 3, false => some (.multiplyAccumulate true hi rn rm lo)
  | 4, false => some (.multiplyLong .umull lo hi rn rm)
  | 5, false => some (.multiplyLong .umlal lo hi rn rm)
  | 6, false => some (.multiplyLong .smull lo hi rn rm)
  | 7, false => some (.multiplyLong .smlal lo hi rn rm)
  | _, _ => none

/-- Exclusive transfers, by bits 27-20 and the bits that are always set. -/
def exclusive (w : Word) : Option CoreInstruction :=
  if w.extractLsb' 20 8 = 0x19 ∧ w.extractLsb' 0 12 = 0xf9f then
    some (.loadExclusive (register w 12) (register w 16))
  else if w.extractLsb' 20 8 = 0x18 ∧ w.extractLsb' 4 8 = 0xf9 then
    some (.storeExclusive (register w 12) (register w 0) (register w 16))
  else none

/-- Branches to a register and other instructions among the comparisons. -/
def miscellaneous (w : Word) : Option CoreInstruction :=
  if w.extractLsb' 4 24 = 0x12fff1 then some (.branchExchange false (register w 0))
  else if w.extractLsb' 4 24 = 0x12fff3 then some (.branchExchange true (register w 0))
  else if w.extractLsb' 16 12 = 0x16f ∧ w.extractLsb' 4 8 = 0xf1 then
    some (.countLeadingZeros (register w 12) (register w 0))
  else if w.extractLsb' 20 12 = 0xe12 ∧ w.extractLsb' 4 4 = 7 then
    some (.breakpoint (w.extractLsb' 8 12 ++ w.extractLsb' 0 4))
  else none

/-- When the base of a single transfer is updated, by the bits P and W. -/
def indexing? (w : Word) : Option Indexing :=
  match bit w 24, bit w 21 with
  | true, false => some .offset
  | true, true => some .preIndex
  | false, false => some .postIndex
  | false, true => none

/-- The address of a single transfer with a given distance. -/
def address? (w : Word) (d : Displacement) : Option Address :=
  (indexing? w).map fun indexing ↦ ⟨register w 16, d, ⟨indexing, !bit w 23⟩⟩

/-- Word and byte transfers. -/
def transfer (w : Word) : Option CoreInstruction :=
  let d : Displacement :=
    if bit w 25 then .register (register w 0) (shift (w.extractLsb' 5 2)) (w.extractLsb' 7 5)
    else .immediate ((w.extractLsb' 0 12).setWidth 32)
  (address? w d).map (.transfer (bit w 20) (bit w 22) (register w 12))

/-- Halfword, signed and doubleword transfers, by the bits L, S and H. -/
def transferMisc (w : Word) : Option CoreInstruction := do
  let d : Displacement :=
    if bit w 22 then .immediate ((w.extractLsb' 8 4 ++ w.extractLsb' 0 4).setWidth 32)
    else .register (register w 0) .lsl 0
  let a ← address? w d
  let rd := register w 12
  match bit w 20, (w.extractLsb' 5 2).toNat with
  | true, 1 => some (.transferMisc .ldrh rd a)
  | true, 2 => some (.transferMisc .ldrsb rd a)
  | true, 3 => some (.transferMisc .ldrsh rd a)
  | false, 1 => some (.transferMisc .strh rd a)
  | false, 2 => some (.transferPair true rd ⟨rd.number + 1⟩ a)
  | false, 3 => some (.transferPair false rd ⟨rd.number + 1⟩ a)
  | _, _ => none

/-- The class without a constant operand. -/
def registerClass (w : Word) : Option CoreInstruction :=
  if bit w 7 ∧ bit w 4 then
    if w.extractLsb' 5 2 = 0 then if bit w 24 then exclusive w else multiply w
    else transferMisc w
  else if isMiscellaneous w then miscellaneous w
  else some (dataProcessing w)

/-- The class with a constant operand. -/
def immediateClass (w : Word) : Option CoreInstruction :=
  if isMiscellaneous w then
    let wide : Halfword := w.extractLsb' 16 4 ++ w.extractLsb' 0 12
    match (w.extractLsb' 21 2).toNat with
    | 0 => some (.moveWide false (register w 12) wide)
    | 2 => some (.moveWide true (register w 12) wide)
    | _ => if w.extractLsb' 0 28 = 0x320f000 then some .nop else none
  else some (dataProcessing w)

/-- Divisions, among the media instructions. -/
def media (w : Word) : Option CoreInstruction :=
  let rd := register w 16
  let rm := register w 8
  let rn := register w 0
  if w.extractLsb' 4 4 = 1 ∧ w.extractLsb' 12 4 = 0xf then
    if w.extractLsb' 20 8 = 0x71 then some (.divide false rd rn rm)
    else if w.extractLsb' 20 8 = 0x73 then some (.divide true rd rn rm)
    else none
  else none

/-- Block transfers; those of the user registers are not known. -/
def block (w : Word) : Option CoreInstruction :=
  if bit w 22 then none
  else some (.transferBlock (bit w 20) ⟨bit w 24, bit w 23, bit w 21⟩ (register w 16)
    (w.extractLsb' 0 16))

/-- Near branches: the field counts words and is signed. -/
def branch (w : Word) : CoreInstruction :=
  .branch (bit w 24) ((w.extractLsb' 0 24 ++ 0#2).signExtend 32)

/-- Arithmetic and conversions of the VFP unit in a given precision. -/
def floatData (p : Precision) (w : Word) : Option FloatInstruction :=
  let d := floatRegister p w 12 22
  let n := floatRegister p w 16 7
  let m := floatRegister p w 0 5
  match bit w 23, (w.extractLsb' 20 2).toNat, bit w 6 with
  | false, 0, false => some (.binary .vmla d n m)
  | false, 0, true => some (.binary .vmls d n m)
  | false, 2, false => some (.binary .vmul d n m)
  | false, 3, false => some (.binary .vadd d n m)
  | false, 3, true => some (.binary .vsub d n m)
  | true, 0, false => some (.binary .vdiv d n m)
  | true, 3, true =>
    if w.extractLsb' 16 4 = 8 then
      some (.ofInteger (bit w 7) d (floatRegister .single w 0 5))
    else if w.extractLsb' 17 3 = 6 ∧ bit w 7 then
      some (.toInteger (bit w 16) (floatRegister .single w 12 22) m)
    else none
  | _, _, _ => none

/-- Instructions of the VFP unit: moves of a single, arithmetic and conversions, where bit 8 tells
double from single precision. -/
def float (w : Word) : Option FloatInstruction :=
  if w.extractLsb' 9 3 ≠ 5 ∨ w.extractLsb' 24 4 ≠ 0xe then none
  else if bit w 4 then
    if w.extractLsb' 21 3 = 0 ∧ w.extractLsb' 0 7 = 0x10 ∧ bit w 8 = false then
      some (.moveCore (bit w 20) (floatRegister .single w 16 7) (register w 12))
    else none
  else floatData (if bit w 8 then .double else .single) w

/-- The instruction of a word with a condition, by its class. -/
def instruction? (w : Word) : Option Instruction :=
  match (w.extractLsb' 25 3).toNat with
  | 0 => (registerClass w).map .core
  | 1 => (immediateClass w).map .core
  | 2 => (transfer w).map .core
  | 3 => if bit w 4 then (media w).map .core else (transfer w).map .core
  | 4 => (block w).map .core
  | 5 => some (.core (branch w))
  | _ => (float w).map .float

end Decode

/-- The instruction that a word stands for, with its condition. -/
def decode (w : Word) : Option Predicated :=
  match Decode.condition? (w.extractLsb' 28 4) with
  | some c => (Decode.instruction? w).map (⟨c, ·⟩)
  | none => if w = 0xf57ff01f then some ⟨.al, .core .clearExclusive⟩ else none

end A32Assembler

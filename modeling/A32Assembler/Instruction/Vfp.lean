import A32Assembler.Encoding.Vfp
import A32Assembler.Float.Immediate
import A32Assembler.Instruction.Core

/-!
# VFP instructions

Scalar floating-point instructions as data. The precision of an operation is the precision of its
registers, so an operation on a single and a double cannot be written, conversions apart.
-/

namespace A32Assembler

/-- Arithmetic on two registers. -/
inductive FloatBinaryOp
  | vadd | vsub | vmul | vmla | vmls | vdiv
deriving DecidableEq

/-- The opcode bits of an operation on two registers. -/
def FloatBinaryOp.bits : FloatBinaryOp → Word
  | vmla => 0x00000000 | vmls => 0x00000040 | vmul => 0x00200000 | vadd => 0x00300000
  | vsub => 0x00300040 | vdiv => 0x00800000

/-- Operations on one register, and the comparison of two. -/
inductive FloatUnaryOp
  | vmov | vabs | vneg | vsqrt | vcmp
deriving DecidableEq

/-- The opcode bits of an operation on one register. -/
def FloatUnaryOp.bits : FloatUnaryOp → Word
  | vmov => 0x00b00040 | vabs => 0x00b000c0 | vneg => 0x00b10040 | vsqrt => 0x00b100c0
  | vcmp => 0x00b40040

/-- The opcode bits of a comparison with zero. -/
def compareZeroBits : Word := 0x00b50040

/-- The opcode bits of a change of precision. -/
def convertPrecisionBits : Word := 0x00b700c0

/-- The opcode bits of a conversion to an integer, rounding toward zero. -/
def convertToIntegerBits (signed : Bool) : Word := if signed then 0x00bd00c0 else 0x00bc00c0

/-- The opcode bits of a conversion from an integer. -/
def convertFromIntegerBits (signed : Bool) : Word := if signed then 0x00b800c0 else 0x00b80040

/-- A scalar floating-point instruction without its condition. -/
inductive FloatInstruction
  /-- `vmov sn, rt`, or `vmov rt, sn` if the core register is the target. -/
  | moveCore (toCore : Bool) (sn : SRegister) (rt : Register)
  /-- `vmov dm, rt, rt2` and `vmov sm, sm+1, rt, rt2`, or the reverse. -/
  | movePair (toCore : Bool) {p : Precision} (m : FloatRegister p) (rt rt2 : Register)
  /-- `vmov.32 dd[index], rt` -/
  | moveScalar (dd : DRegister) (index : Nat) (rt : Register)
  /-- `vmov d, #constant` with the constant in its 8-bit form. -/
  | moveImmediate {p : Precision} (d : FloatRegister p) (imm8 : Byte)
  /-- `vldr` and `vstr` -/
  | transfer (load : Bool) {p : Precision} (d : FloatRegister p) (address : Address)
  /-- `vldm` and `vstm` of the singles from `first` to `last`. -/
  | transferSingles (load : Bool) (mode : BlockMode) (base : Register) (first last : SRegister)
  /-- `vldm` and `vstm` of `count` doubles from `first` on. -/
  | transferDoubles (load : Bool) (mode : BlockMode) (base : Register) (first : DRegister)
    (count : Nat)
  /-- `op d, n, m` -/
  | binary (op : FloatBinaryOp) {p : Precision} (d n m : FloatRegister p)
  /-- `op d, m` -/
  | unary (op : FloatUnaryOp) {p : Precision} (d m : FloatRegister p)
  /-- `vcmp d, #0` -/
  | compareZero {p : Precision} (d : FloatRegister p)
  /-- `vmrs rt, fpscr` -/
  | readStatus (rt : Register)
  /-- `vcvt.f32.f64 sd, dm` -/
  | narrow (sd : SRegister) (dm : DRegister)
  /-- `vcvt.f64.f32 dd, sm` -/
  | widen (dd : DRegister) (sm : SRegister)
  /-- `vcvt` from a floating-point number to an integer, toward zero. -/
  | toInteger (signed : Bool) (sd : SRegister) {p : Precision} (m : FloatRegister p)
  /-- `vcvt` from an integer to a floating-point number. -/
  | ofInteger (signed : Bool) {p : Precision} (d : FloatRegister p) (sm : SRegister)

/-- Two singles in a row end at `S31`; `describe` says what needed them. -/
def requireNextSingle (sm : SRegister) (describe : SRegister → Misuse) : Except Misuse Unit := do
  require (sm.number ≠ 255) (.overflow .addition)
  require (sm.number < 31) (describe sm)

namespace FloatInstruction

/-- What a move between two core registers and VFP registers requires before it is encoded. -/
def requireMovePair (toCore : Bool) {p : Precision} (m : FloatRegister p) (rt rt2 : Register) :
    Except Misuse Unit := do
  match p, m with
  | .single, m => requireNextSingle m (if toCore then .pairFromSingles else .pairIntoSingles)
  | .double, _ => pure ()
  if toCore then require (rt ≠ rt2) .pairDestinations

/-- The word of an instruction issued under a condition. -/
def encode (c : Condition) : FloatInstruction → Except Misuse Word
  | moveCore toCore sn rt => Encoding.vfpMoveCore c toCore sn rt
  | movePair (p := p) toCore m rt rt2 => do
    requireMovePair toCore m rt rt2
    let s ← m.split
    Encoding.vfpMovePair c toCore p.isDouble s rt rt2
  | moveScalar dd index rt => Encoding.vfpMoveScalar c dd index rt
  | moveImmediate (p := p) d imm8 => do
    let s ← d.split
    return Encoding.vfpMoveImmediate c p.isDouble s imm8
  | transfer (p := p) load d address => do
    let s ← d.split
    Encoding.vfpLoadStore c load p.isDouble s address
  | transferSingles load mode base first last => do
    require (first.number ≤ last.number) (.singlesEmpty first last)
    let s ← first.split
    let count := (last.number - first.number).setWidth 32 + 1
    Encoding.vfpBlockTransfer c load false mode base s count
  | transferDoubles load mode base first count => do
    require (1 ≤ count ∧ count ≤ 16) (.doublesCount count)
    require (first.number.toNat + count ≤ 32) .doublesEnd
    let s ← first.split
    Encoding.vfpBlockTransfer c load true mode base s (BitVec.ofNat 32 (2 * count))
  | binary (p := p) op d n m => do
    let sn ← n.split
    let sd ← d.split
    let sm ← m.split
    return Encoding.vfpData c op.bits p.isDouble sd sn sm
  | unary (p := p) op d m => do
    let sd ← d.split
    let sm ← m.split
    return Encoding.vfpData c op.bits p.isDouble sd .zero sm
  | compareZero (p := p) d => do
    let sd ← d.split
    return Encoding.vfpData c compareZeroBits p.isDouble sd .zero .zero
  | readStatus rt => Encoding.vfpReadStatus c rt
  | narrow sd dm => do
    let d ← sd.split
    let m ← dm.split
    return Encoding.vfpData c convertPrecisionBits true d .zero m
  | widen dd sm => do
    let d ← dd.split
    let m ← sm.split
    return Encoding.vfpData c convertPrecisionBits false d .zero m
  | toInteger (p := p) signed sd m => do
    let d ← sd.split
    let s ← m.split
    return Encoding.vfpData c (convertToIntegerBits signed) p.isDouble d .zero s
  | ofInteger (p := p) signed d sm => do
    let s ← d.split
    let m ← sm.split
    return Encoding.vfpData c (convertFromIntegerBits signed) p.isDouble s .zero m

/-- `vmov sd, #constant`, refused if the constant has no 8-bit form. -/
def moveSingle (sd : SRegister) (value : Word) : Except Refusal FloatInstruction :=
  match Single.immediate? value with
  | some imm8 => .ok (moveImmediate sd imm8)
  | none => .error (.float (Single.widen value))

/-- `vmov dd, #constant`, refused if the constant has no 8-bit form. -/
def moveDouble (dd : DRegister) (value : Doubleword) : Except Refusal FloatInstruction :=
  match Double.immediate? value with
  | some imm8 => .ok (moveImmediate dd imm8)
  | none => .error (.float value)

/-- Transfer of the floating-point flags to the core flags: `vmrs APSR_nzcv, fpscr`. -/
def transferFlags : FloatInstruction := readStatus .pc

end FloatInstruction

end A32Assembler

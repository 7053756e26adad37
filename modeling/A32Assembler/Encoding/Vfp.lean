import A32Assembler.Encoding.Core

/-!
# Layouts of the VFP instructions

Register numbers arrive cut in two parts. Bit 8 tells double from single precision.
-/

namespace A32Assembler.Encoding

open Word (place flag)

/-- Arithmetic, comparison and conversion: `cond 1110 opc1 Vn Vd 101 sz N op M 0 Vm`. -/
def vfpData (c : Condition) (opcode : Word) (double : Bool) (d n m : SplitNumber) : Word :=
  condition c ||| 0x0e000a00 ||| opcode ||| place 22 d.extra ||| place 16 n.field |||
    place 12 d.field ||| flag 8 double ||| place 7 n.extra ||| place 5 m.extra ||| place 0 m.field

/-- Moves between a single register and a core register. -/
def vfpMoveCore (c : Condition) (toCore : Bool) (sn : SRegister) (rt : Register) :
    Except Misuse Word := do
  let n ← sn.split
  let t ← rt.code
  return condition c ||| 0x0e000a10 ||| flag 20 toCore ||| place 16 n.field ||| place 12 t |||
    place 7 n.extra

/-- Moves between two core registers and a double, or two singles in a row. -/
def vfpMovePair (c : Condition) (toCore double : Bool) (m : SplitNumber) (rt rt2 : Register) :
    Except Misuse Word := do
  let t2 ← rt2.code
  let t ← rt.code
  return condition c ||| 0x0c400a10 ||| flag 20 toCore ||| place 16 t2 ||| place 12 t |||
    flag 8 double ||| place 5 m.extra ||| place 0 m.field

/-- Moves of a core register into one half of a double. -/
def vfpMoveScalar (c : Condition) (dd : DRegister) (index : Nat) (rt : Register) :
    Except Misuse Word := do
  require (index < 2) (.scalarIndex index)
  let d ← dd.split
  let t ← rt.code
  return condition c ||| 0x0e000b10 ||| place 21 (BitVec.ofNat 1 index) ||| place 16 d.field |||
    place 12 t ||| place 7 d.extra

/-- Moves of an 8-bit constant. -/
def vfpMoveImmediate (c : Condition) (double : Bool) (d : SplitNumber) (imm8 : Byte) : Word :=
  condition c ||| 0x0eb00a00 ||| place 22 d.extra ||| place 16 (imm8.extractLsb' 4 4) |||
    place 12 d.field ||| flag 8 double ||| place 0 (imm8.extractLsb' 0 4)

/-- Single transfers: `cond 1101 U D 0 L Rn Vd 101 sz imm8`. -/
def vfpLoadStore (c : Condition) (load double : Bool) (d : SplitNumber) (address : Address) :
    Except Misuse Word := do
  let a ← address.encodingVfp
  return condition c ||| 0x0d000a00 ||| place 22 d.extra ||| flag 20 load ||| place 12 d.field |||
    flag 8 double ||| a

/-- Block transfers: `cond 110 P U D W L Rn Vd 101 sz imm8`, where the last field counts words. -/
def vfpBlockTransfer (c : Condition) (load double : Bool) (mode : BlockMode) (base : Register)
    (first : SplitNumber) (words : Word) : Except Misuse Word := do
  require mode.ServesVfp (.vfpBlockMode mode)
  let b ← base.code
  return condition c ||| 0x0c000a00 ||| mode.bits ||| place 22 first.extra ||| flag 20 load |||
    place 16 b ||| place 12 first.field ||| flag 8 double ||| words

/-- Reading the floating-point status; `PC` as the target stands for the core flags. -/
def vfpReadStatus (c : Condition) (rt : Register) : Except Misuse Word := do
  let t ← rt.code
  return condition c ||| 0x0ef10a10 ||| place 12 t

end A32Assembler.Encoding
